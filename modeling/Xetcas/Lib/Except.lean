import Mathlib.Data.List.Forall2

namespace Xetcas.Lib
variable {ε α β : Type}

theorem bind_eq_ok {x : Except ε α} {f : α → Except ε β} {b : β} :
    (x >>= f) = .ok b ↔ ∃ a, x = .ok a ∧ f a = .ok b := by
  cases x <;> simp [bind, Except.bind]

theorem toOption_any {x : Except ε α} {p : α → Bool} (h : x.toOption.any p = true) :
    ∃ a, x = .ok a ∧ p a = true := by
  cases x with
  | error e => cases h
  | ok a => exact ⟨a, rfl, h⟩

/-- A check, and what follows it. -/
theorem check_eq_ok {x : Except ε Unit} {f : Unit → Except ε β} {b : β} :
    (x >>= f) = .ok b ↔ x = .ok () ∧ f () = .ok b := by
  cases x <;> simp [bind, Except.bind]

theorem bind_eq_error {x : Except ε α} {f : α → Except ε β} {e : ε} :
    (x >>= f) = .error e ↔ x = .error e ∨ ∃ a, x = .ok a ∧ f a = .error e := by
  cases x <;> simp [bind, Except.bind]

theorem guard_eq_ok {p : Prop} [Decidable p] {e : ε} {x : Except ε β} {b : β} :
    (if p then .error e else x) = .ok b ↔ ¬p ∧ x = .ok b := by
  split <;> simp_all

/-- A list of checks passes when each of them does. -/
@[simp] theorem forM_eq_ok {xs : List α} {f : α → Except ε Unit} :
    forM xs f = .ok () ↔ ∀ x ∈ xs, f x = .ok () := by
  induction xs with
  | nil => simp [pure, Except.pure]
  | cons x xs ih =>
    rw [List.forM_cons, bind_eq_ok, List.forall_mem_cons]
    constructor
    · intro h
      obtain ⟨⟨⟩, hx, hxs⟩ := h
      exact ⟨hx, ih.mp hxs⟩
    · intro h
      exact ⟨(), h.1, ih.mpr h.2⟩

/-- An element of the first list has a partner in the second. -/
theorem partner {R : α → β → Prop} {xs : List α} {ys : List β} (h : List.Forall₂ R xs ys) {x : α}
    (hx : x ∈ xs) : ∃ y ∈ ys, R x y := by
  induction h with
  | nil => cases hx
  | @cons a b as bs hab _ ih =>
    rcases List.mem_cons.mp hx with rfl | hm
    · exact ⟨b, by simp, hab⟩
    · obtain ⟨y, hy, hr⟩ := ih hm
      exact ⟨y, by simp [hy], hr⟩

/-- And the other way round. -/
theorem partner_of {R : α → β → Prop} {xs : List α} {ys : List β} (h : List.Forall₂ R xs ys) {y : β}
    (hy : y ∈ ys) : ∃ x ∈ xs, R x y := by
  obtain ⟨x, hx, hr⟩ := partner h.flip hy
  exact ⟨x, hx, hr⟩

/-- A relation that implies another one on the elements of the first list. -/
theorem forall₂_imp_mem {R S : α → β → Prop} {xs : List α} {ys : List β}
    (h : ∀ x ∈ xs, ∀ y, R x y → S x y) (hr : List.Forall₂ R xs ys) : List.Forall₂ S xs ys := by
  have hboth := (List.forall₂_and_left (p := (· ∈ xs)) xs ys).mpr ⟨fun x hx => hx, hr⟩
  exact hboth.imp (fun x y hxy => h x hxy.1 y hxy.2)

theorem forall₂_congr_mem {R S : α → β → Prop} {xs : List α} {ys : List β}
    (h : ∀ x ∈ xs, ∀ y, R x y ↔ S x y) : List.Forall₂ R xs ys ↔ List.Forall₂ S xs ys :=
  ⟨forall₂_imp_mem (fun x hx y => (h x hx y).mp), forall₂_imp_mem (fun x hx y => (h x hx y).mpr)⟩

/-- What partners have in common. -/
theorem map_eq_of_forall₂ {γ : Type} {R : α → β → Prop} {f : α → γ} {g : β → γ} {xs : List α}
    {ys : List β} (hfg : ∀ x y, R x y → f x = g y) (h : List.Forall₂ R xs ys) :
    xs.map f = ys.map g := by
  induction h with
  | nil => rfl
  | cons hxy _ ih => rw [List.map_cons, List.map_cons, hfg _ _ hxy, ih]

theorem mapM_eq_ok {xs : List α} {f : α → Except ε β} {ys : List β} :
    xs.mapM f = .ok ys ↔ List.Forall₂ (fun x y => f x = .ok y) xs ys := by
  induction xs generalizing ys with
  | nil => cases ys <;> simp [pure, Except.pure]
  | cons x xs ih =>
    simp only [List.mapM_cons, bind_eq_ok, pure, Except.pure, Except.ok.injEq]
    constructor
    · intro hparts
      obtain ⟨y, hy, zs, hzs, rfl⟩ := hparts
      exact .cons hy (ih.mp hzs)
    · intro h
      cases h with
      | cons hy htail => exact ⟨_, hy, _, ih.mpr htail, rfl⟩

theorem mapM_eq_map {xs : List α} {f : α → Except ε β} {g : α → β}
    (h : ∀ x ∈ xs, f x = .ok (g x)) : xs.mapM f = .ok (xs.map g) := by
  apply mapM_eq_ok.mpr
  apply List.forall₂_map_right_iff.mpr
  exact List.forall₂_same.mpr h

/-- Steps that each succeed, succeed one after the other. -/
theorem mapM_exists {xs : List α} {f : α → Except ε β} {R : α → β → Prop}
    (h : ∀ x ∈ xs, ∃ y, f x = .ok y ∧ R x y) : ∃ ys, xs.mapM f = .ok ys ∧ List.Forall₂ R xs ys := by
  induction xs with
  | nil => exact ⟨[], rfl, .nil⟩
  | cons x xs ih =>
    obtain ⟨y, hy, hr⟩ := h x (by simp)
    obtain ⟨ys, hys, hrs⟩ := ih (fun z hz => h z (by simp [hz]))
    refine ⟨y :: ys, ?_, .cons hr hrs⟩
    simp [hy, hys, bind, Except.bind, pure, Except.pure]

/-- A list of steps fails with the error of one of them. -/
theorem mapM_eq_error {xs : List α} {f : α → Except ε β} {e : ε} (h : xs.mapM f = .error e) :
    ∃ x ∈ xs, f x = .error e := by
  induction xs with
  | nil => simp [pure, Except.pure] at h
  | cons x xs ih =>
    rw [List.mapM_cons] at h
    rcases bind_eq_error.mp h with hx | ⟨y, _, hrest⟩
    · exact ⟨x, by simp, hx⟩
    · rcases bind_eq_error.mp hrest with hxs | ⟨ys, _, hys⟩
      · obtain ⟨z, hz, he⟩ := ih hxs
        exact ⟨z, by simp [hz], he⟩
      · cases hys

end Xetcas.Lib
