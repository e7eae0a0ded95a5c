import Mathlib.Logic.Function.Basic
import Mathlib.Order.RelClasses

namespace Xetcas.Lib

/-- A transition system with an executable step. Everything that is not
determined by the state (scheduling, failures, inputs) is part of the action. -/
structure Machine (σ α : Type) where
  start : σ → Prop
  step : σ → α → Option σ

namespace Machine
variable {σ α : Type} {M : Machine σ α} {ok ok' : σ → α → Prop} {s t u : σ}

/-- Runs all of whose steps meet `ok`, a condition on the state before the
step and the action taken there. -/
inductive Run (M : Machine σ α) (ok : σ → α → Prop) (s : σ) : σ → Prop
  | refl : Run M ok s s
  | tail {t u : σ} (a : α) (run : Run M ok s t) (guard : ok t a)
      (step : M.step t a = some u) : Run M ok s u

/-- The states that guarded runs reach from a starting state. -/
def Reachable (M : Machine σ α) (ok : σ → α → Prop) (s : σ) : Prop :=
  ∃ s₀, M.start s₀ ∧ M.Run ok s₀ s

def anyStep : σ → α → Prop := fun _ _ => True

theorem Run.single (a : α) (guard : ok s a) (step : M.step s a = some t) : M.Run ok s t :=
  .tail a .refl guard step

theorem Run.trans (h : M.Run ok s t) (g : M.Run ok t u) : M.Run ok s u := by
  induction g with
  | refl => exact h
  | tail a _ guard step ih => exact .tail a ih guard step

theorem Run.weaken (h : M.Run ok s t) (hw : ∀ s a, ok s a → ok' s a) : M.Run ok' s t := by
  induction h with
  | refl => exact .refl
  | tail a _ guard step ih => exact .tail a ih (hw _ a guard) step

theorem Run.free (h : M.Run ok s t) : M.Run anyStep s t := h.weaken (fun _ _ _ => trivial)

/-- What every guarded step preserves, every guarded run preserves. -/
theorem Run.keeps {I : σ → Prop} (h : M.Run ok s t) (hs : I s)
    (hstep : ∀ s a t, I s → ok s a → M.step s a = some t → I t) : I t := by
  induction h with
  | refl => exact hs
  | tail a _ guard step ih => exact hstep _ a _ ih guard step

/-- The same for a reflexive and transitive relation between the ends. -/
theorem Run.relates {R : σ → σ → Prop} (h : M.Run ok s t) (hrefl : ∀ s, R s s)
    (htrans : ∀ s t u, R s t → R t u → R s u)
    (hstep : ∀ s a t, ok s a → M.step s a = some t → R s t) : R s t := by
  induction h with
  | refl => exact hrefl s
  | tail a _ guard step ih => exact htrans _ _ _ ih (hstep _ a _ guard step)

/-- What an invariant shows of each step, the run can carry as its condition. -/
theorem Run.records {I : σ → Prop} (h : M.Run ok s t) (hs : I s)
    (hstep : ∀ s a t, I s → ok s a → M.step s a = some t → ok' s a ∧ I t) : M.Run ok' s t ∧ I t := by
  induction h with
  | refl => exact ⟨.refl, hs⟩
  | tail a _ guard step ih =>
    obtain ⟨hrun, hi⟩ := ih
    obtain ⟨hok, ht⟩ := hstep _ a _ hi guard step
    exact ⟨hrun.tail a hok step, ht⟩

/-- Where an invariant leaves a run that comes closer to the goal, in a
well-founded order, a run gets there. -/
theorem Run.arrives {β : Type} [LT β] [WellFoundedLT β] {I G : σ → Prop} (work : σ → β)
    (hstep : ∀ s, I s → ¬G s → ∃ t, M.Run ok s t ∧ I t ∧ work t < work s) (hs : I s) :
    ∃ t, M.Run ok s t ∧ I t ∧ G t := by
  induction hw : work s using WellFoundedLT.induction generalizing s with
  | ind w ih =>
    subst hw
    by_cases hgoal : G s
    · exact ⟨s, .refl, hs, hgoal⟩
    · obtain ⟨u, hu, hi, hless⟩ := hstep s hs hgoal
      obtain ⟨t, hrun, ht⟩ := ih (work u) hless hi rfl
      exact ⟨t, hu.trans hrun, ht⟩

/-- The same where a single step comes closer. -/
theorem Run.finishes {β : Type} [LT β] [WellFoundedLT β] {I G : σ → Prop} (work : σ → β)
    (hstep : ∀ s, I s → ¬G s →
      ∃ a t, ok s a ∧ M.step s a = some t ∧ I t ∧ work t < work s) (hs : I s) :
    ∃ t, M.Run ok s t ∧ I t ∧ G t := by
  refine Run.arrives work ?_ hs
  intro s hs hgoal
  obtain ⟨a, t, hok, ht, hi, hless⟩ := hstep s hs hgoal
  exact ⟨t, .single a hok ht, hi, hless⟩

/-- Runs with the actions that were taken, in order. -/
inductive Trace (M : Machine σ α) (ok : σ → α → Prop) : σ → List α → σ → Prop
  | nil {s : σ} : Trace M ok s [] s
  | cons {s t u : σ} {as : List α} (a : α) (guard : ok s a) (step : M.step s a = some t)
      (trace : Trace M ok t as u) : Trace M ok s (a :: as) u

/-- Actions that are paid for out of a budget, which nothing fills up, are not
more than the budget. -/
theorem Trace.spends {I : σ → Prop} {as : List α} (p : α → Bool) (budget : σ → Nat)
    (h : M.Trace ok s as t) (hs : I s)
    (hstep : ∀ s a t, I s → ok s a → M.step s a = some t →
      I t ∧ (p a).toNat + budget t ≤ budget s) :
    I t ∧ as.countP p + budget t ≤ budget s := by
  induction h with
  | nil => exact ⟨hs, by simp⟩
  | cons a guard step trace ih =>
    obtain ⟨hi, hpaid⟩ := hstep _ a _ hs guard step
    obtain ⟨ht, hspent⟩ := ih hi
    have hone : (if p a = true then 1 else 0) = (p a).toNat := by
      cases p a <;> rfl
    refine ⟨ht, ?_⟩
    rw [List.countP_cons, hone]
    omega

theorem Reachable.start (h : M.start s) : M.Reachable ok s := ⟨s, h, .refl⟩

theorem Reachable.extend (h : M.Reachable ok s) (g : M.Run ok s t) : M.Reachable ok t := by
  obtain ⟨s₀, h₀, run⟩ := h
  exact ⟨s₀, h₀, run.trans g⟩

theorem Reachable.next (h : M.Reachable ok s) (a : α) (guard : ok s a)
    (step : M.step s a = some t) : M.Reachable ok t :=
  h.extend (.single a guard step)

theorem Reachable.weaken (h : M.Reachable ok s) (hw : ∀ s a, ok s a → ok' s a) :
    M.Reachable ok' s := by
  obtain ⟨s₀, h₀, run⟩ := h
  exact ⟨s₀, h₀, run.weaken hw⟩

/-- The condition may be shown from what is known of reachable states. -/
theorem Reachable.meets (h : M.Reachable ok s)
    (hw : ∀ s a, M.Reachable ok s → ok s a → ok' s a) : M.Reachable ok' s := by
  obtain ⟨s₀, h₀, run⟩ := h
  induction run with
  | refl => exact .start h₀
  | tail a run guard step ih => exact ih.next a (hw _ a ⟨s₀, h₀, run⟩ guard) step

theorem Reachable.free (h : M.Reachable ok s) : M.Reachable anyStep s :=
  h.weaken (fun _ _ _ => trivial)

/-- The invariant rule. The step may use that its source is reachable, so an
invariant proved earlier is at hand in the proof of a later one. -/
theorem Reachable.invariant {I : σ → Prop} (h : M.Reachable ok s)
    (hstart : ∀ s, M.start s → I s)
    (hstep : ∀ s a t, M.Reachable ok s → I s → ok s a → M.step s a = some t → I t) : I s := by
  obtain ⟨s₀, h₀, run⟩ := h
  induction run with
  | refl => exact hstart _ h₀
  | tail a run guard step ih => exact hstep _ a _ ⟨s₀, h₀, run⟩ ih guard step

/-- Forward simulation: every step of `M` from a reachable state is matched by
a run of `A`, through an action of `A` or by standing still. -/
structure Simulates {τ β : Type} (A : Machine τ β) (M : Machine σ α) (R : σ → τ → Prop) : Prop where
  start : ∀ s, M.start s → ∃ t, A.start t ∧ R s t
  step : ∀ s a s' t, M.Reachable anyStep s → R s t → M.step s a = some s' →
    ∃ t', A.Run anyStep t t' ∧ R s' t'

/-- A simulated machine shows only what the abstract one can reach. -/
theorem Simulates.reachable {τ β : Type} {A : Machine τ β} {R : σ → τ → Prop}
    (h : A.Simulates M R) (hs : M.Reachable anyStep s) : ∃ t, A.Reachable anyStep t ∧ R s t := by
  refine hs.invariant (I := fun s => ∃ t, A.Reachable anyStep t ∧ R s t) ?_ ?_
  · intro s₀ h₀
    obtain ⟨t, ht, hr⟩ := h.start s₀ h₀
    exact ⟨t, .start ht, hr⟩
  · intro s₁ a s₂ hreach hi _ hstep
    obtain ⟨t, ht, hr⟩ := hi
    obtain ⟨t', hrun, hr'⟩ := h.step s₁ a s₂ t hreach hr hstep
    exact ⟨t', ht.extend hrun, hr'⟩

/-- Execute a schedule, checking a decidable guard before each step. -/
def exec (M : Machine σ α) (guard : σ → α → Bool) : σ → List α → Option σ
  | s, [] => some s
  | s, a :: as => if guard s a then (M.step s a).bind (M.exec guard · as) else none

/-- An executed schedule is a trace. -/
theorem exec_trace {guard : σ → α → Bool} (hg : ∀ s a, guard s a = true → ok s a) (as : List α)
    (h : M.exec guard s as = some t) : M.Trace ok s as t := by
  induction as generalizing s with
  | nil => cases h; exact .nil
  | cons a as ih =>
    simp only [exec] at h
    split at h
    · rename_i hga
      obtain ⟨u, hu, hrest⟩ := Option.bind_eq_some_iff.mp h
      exact .cons a (hg s a hga) hu (ih hrest)
    · cases h

/-- An executed schedule is a run. -/
theorem exec_run {guard : σ → α → Bool} (hg : ∀ s a, guard s a = true → ok s a) (as : List α)
    (h : M.exec guard s as = some t) : M.Run ok s t := by
  induction as generalizing s with
  | nil => cases h; exact .refl
  | cons a as ih =>
    simp only [exec] at h
    split at h
    · rename_i hga
      obtain ⟨u, hu, hrest⟩ := Option.bind_eq_some_iff.mp h
      exact (Run.single a (hg s a hga) hu).trans (ih hrest)
    · cases h

/-- A property checked at the end of an executed schedule. -/
theorem exec_reaches (M : Machine σ α) (ok : σ → α → Prop) (guard : σ → α → Bool) (p : σ → Bool)
    (hg : ∀ s a, guard s a = true → ok s a) (s : σ) (as : List α)
    (h : (M.exec guard s as).map p = some true) : ∃ t, M.Run ok s t ∧ p t = true := by
  obtain ⟨t, ht, hp⟩ := Option.map_eq_some_iff.mp h
  exact ⟨t, exec_run hg as ht, hp⟩

end Machine

end Xetcas.Lib
