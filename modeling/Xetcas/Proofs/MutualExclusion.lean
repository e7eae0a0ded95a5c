import Xetcas.KeyedLocks
import Xetcas.Lib.Counting

namespace Xetcas.Proofs.MutualExclusion
open Lib KeyedLocks

/-- The mutex whose `Arc` a phase owns a clone of. -/
def arc : LockPhase → Option Nat
  | .idle => none
  | .waiting _ m | .holding _ m | .pruned m | .unlocked m => some m

/-- The map entry a phase still relies on. -/
def entry : LockPhase → Option (String × Nat)
  | .waiting key m | .holding key m => some (key, m)
  | _ => none

/-- The inner mutex a phase keeps locked. -/
def inner : LockPhase → Option Nat
  | .holding _ m | .pruned m => some m
  | _ => none

theorem arc_of_entry {p : LockPhase} {key : String} {m : Nat} (h : entry p = some (key, m)) :
    arc p = some m := by
  cases p <;> simp_all [entry, arc]

theorem arc_of_inner {p : LockPhase} {m : Nat} (h : inner p = some m) : arc p = some m := by
  cases p <;> simp_all [inner, arc]

/-- As many calls own a clone of the mutex `m`. -/
def Owners (phase : Nat → LockPhase) (m n : Nat) : Prop :=
  Exactly (fun t => arc (phase t) = some m) n

section Owners
variable {phase : Nat → LockPhase} {m n t : Nat} {p : LockPhase}

theorem Owners.join (h : Owners phase m n) (ht : arc (phase t) ≠ some m) (hp : arc p = some m) :
    Owners (Function.update phase t p) m (n + 1) := by
  apply Exactly.join h ht
  · simpa using hp
  · intro j hj
    simp [hj]

theorem Owners.leave (h : Owners phase m n) (ht : arc (phase t) = some m) (hp : arc p ≠ some m) :
    Owners (Function.update phase t p) m (n - 1) ∧ 0 < n := by
  apply Exactly.leave h ht
  · simpa using hp
  · intro j hj
    simp [hj]

theorem Owners.stay (h : Owners phase m n) (hp : arc (phase t) = some m ↔ arc p = some m) :
    Owners (Function.update phase t p) m n := by
  apply Exactly.stay h
  intro j
  rcases eq_or_ne j t with rfl | hj
  · simpa using hp.symm
  · simp [hj]

end Owners

/-- The lock table's invariant. `counted` is what makes the test in
`KeyedGuard::drop` sound, `mapped` is what the test protects. -/
structure Guarded (l : KeyedLocks) : Prop where
  counted : ∀ key m, l.map key = some m →
    ∃ n, Owners l.phase m n ∧ l.strong m = n + 1
  mapped : ∀ t key m, entry (l.phase t) = some (key, m) → l.map key = some m
  sole : ∀ t t' m, inner (l.phase t) = some m → inner (l.phase t') = some m → t = t'
  locked : ∀ t m, inner (l.phase t) = some m → l.locked m = true
  freshMap : ∀ key m, l.map key = some m → m < l.fresh
  freshArc : ∀ t m, arc (l.phase t) = some m → m < l.fresh
  distinct : ∀ key key' m, l.map key = some m → l.map key' = some m → key = key'

theorem empty_guarded : Guarded empty := by
  constructor <;> simp [empty, entry, inner, arc]

variable {l l' : KeyedLocks}

/-- A phase change that keeps the `Arc` and relies on nothing new. -/
theorem Guarded.rephase (h : Guarded l) {t : Nat} {p : LockPhase} {locked : Nat → Bool}
    (harc : arc p = arc (l.phase t))
    (hentry : ∀ key m, entry p = some (key, m) → entry (l.phase t) = some (key, m))
    (hsole : ∀ m, inner p = some m → ∀ t', inner (l.phase t') = some m → t' = t)
    (hlocked : ∀ m, inner p = some m → locked m = true)
    (hothers : ∀ t' m, t' ≠ t → inner (l.phase t') = some m → locked m = true) :
    Guarded (({ l with locked := locked }).setPhase t p) := by
  constructor
  · intro key m hm
    obtain ⟨n, hn, hc⟩ := h.counted key m hm
    exact ⟨n, hn.stay (by rw [harc]), hc⟩
  · intro j key m hj
    by_cases he : j = t
    · subst he
      exact h.mapped j key m (hentry key m (by simpa using hj))
    · exact h.mapped j key m (by simpa [he] using hj)
  · intro i j m hi hj
    by_cases hit : i = t <;> by_cases hjt : j = t
    · rw [hit, hjt]
    · simp only [setPhase_phase, hit, Function.update_self] at hi
      exact hit.trans (hsole m hi j (by simpa [hjt] using hj)).symm
    · simp only [setPhase_phase, hjt, Function.update_self] at hj
      exact (hsole m hj i (by simpa [hit] using hi)).trans hjt.symm
    · exact h.sole i j m (by simpa [hit] using hi) (by simpa [hjt] using hj)
  · intro j m hj
    by_cases he : j = t
    · exact hlocked m (by simpa [he] using hj)
    · exact hothers j m he (by simpa [he] using hj)
  · exact h.freshMap
  · intro j m hj
    by_cases he : j = t
    · subst he
      exact h.freshArc j m (by simpa [harc] using hj)
    · exact h.freshArc j m (by simpa [he] using hj)
  · exact h.distinct

/-- Dropping the clone a call no longer needs. -/
theorem Guarded.dropClone (h : Guarded l) {t m : Nat} (harc : arc (l.phase t) = some m) :
    Guarded ((l.releaseArc m).setPhase t .idle) := by
  constructor
  · intro key n hn
    obtain ⟨c, howners, hc⟩ := h.counted key n hn
    by_cases hm : n = m
    · subst hm
      obtain ⟨hleft, hpos⟩ := howners.leave (p := .idle) harc (by simp [arc])
      exact ⟨c - 1, hleft, by simp [releaseArc, hc]; omega⟩
    · refine ⟨c, howners.stay ?_, by simpa [releaseArc, hm] using hc⟩
      rw [harc]
      simp [arc, Ne.symm hm]
  · intro j key n hj
    by_cases he : j = t
    · simp [he, entry] at hj
    · exact h.mapped j key n (by simpa [he, releaseArc] using hj)
  · intro i j n hi hj
    by_cases hit : i = t
    · simp [hit, inner] at hi
    · by_cases hjt : j = t
      · simp [hjt, inner] at hj
      · exact h.sole i j n (by simpa [hit, releaseArc] using hi) (by simpa [hjt, releaseArc] using hj)
  · intro j n hj
    by_cases he : j = t
    · simp [he, inner] at hj
    · exact h.locked j n (by simpa [he, releaseArc] using hj)
  · exact h.freshMap
  · intro j n hj
    by_cases he : j = t
    · simp [he, arc] at hj
    · exact h.freshArc j n (by simpa [he, releaseArc] using hj)
  · exact h.distinct

/-- A call that finds the entry joins its owners. -/
theorem Guarded.enterOld (h : Guarded l) {t m : Nat} {key : String}
    (idle : l.phase t = .idle) (found : l.map key = some m) :
    Guarded ((l.cloneArc m).setPhase t (.waiting key m)) := by
  constructor
  · intro key' n hn
    obtain ⟨c, howners, hc⟩ := h.counted key' n hn
    by_cases hm : n = m
    · subst hm
      have hjoined := howners.join (t := t) (p := .waiting key n) (by simp [idle, arc]) rfl
      exact ⟨c + 1, hjoined, by simp [cloneArc, hc]⟩
    · refine ⟨c, howners.stay ?_, by simpa [cloneArc, hm] using hc⟩
      simp [idle, arc, Ne.symm hm]
  · intro j key' n hj
    by_cases he : j = t
    · simp only [setPhase_phase, he, Function.update_self, entry, Option.some.injEq,
        Prod.mk.injEq] at hj
      obtain ⟨rfl, rfl⟩ := hj
      exact found
    · exact h.mapped j key' n (by simpa [he, cloneArc] using hj)
  · intro i j n hi hj
    by_cases hit : i = t
    · simp [hit, inner] at hi
    · by_cases hjt : j = t
      · simp [hjt, inner] at hj
      · exact h.sole i j n (by simpa [hit, cloneArc] using hi) (by simpa [hjt, cloneArc] using hj)
  · intro j n hj
    by_cases he : j = t
    · simp [he, inner] at hj
    · exact h.locked j n (by simpa [he, cloneArc] using hj)
  · exact h.freshMap
  · intro j n hj
    by_cases he : j = t
    · simp only [setPhase_phase, he, Function.update_self, arc, Option.some.injEq] at hj
      exact hj ▸ h.freshMap key m found
    · exact h.freshArc j n (by simpa [he, cloneArc] using hj)
  · exact h.distinct

/-- A call that inserts the entry is the only owner of a mutex nobody has seen. -/
theorem Guarded.enterNew (h : Guarded l) {t : Nat} {key : String}
    (idle : l.phase t = .idle) (absent : l.map key = none) :
    Guarded
      { map := Function.update l.map key (some l.fresh)
        strong := Function.update (Function.update l.strong l.fresh 1) l.fresh 2
        locked := Function.update l.locked l.fresh false
        fresh := l.fresh + 1
        phase := Function.update l.phase t (.waiting key l.fresh) } := by
  have hunseen : ∀ j, arc (l.phase j) ≠ some l.fresh := by
    intro j hj
    exact Nat.lt_irrefl _ (h.freshArc j _ hj)
  have hold : ∀ key' m, Function.update l.map key (some l.fresh) key' = some m →
      (key' = key ∧ m = l.fresh) ∨ (l.map key' = some m ∧ m < l.fresh) := by
    intro key' m hm
    by_cases hk : key' = key
    · subst hk
      exact .inl ⟨rfl, by simpa using hm.symm⟩
    · have hm' : l.map key' = some m := by simpa [hk] using hm
      exact .inr ⟨hm', h.freshMap key' m hm'⟩
  constructor
  · intro key' m hm
    rcases hold key' m hm with ⟨rfl, rfl⟩ | ⟨hm', hlt⟩
    · have hnone : Owners l.phase l.fresh 0 := Exactly.none hunseen
      exact ⟨1, hnone.join (p := .waiting key' l.fresh) (hunseen t) rfl, by simp⟩
    · obtain ⟨n, hn, hc⟩ := h.counted key' m hm'
      refine ⟨n, hn.stay ?_, ?_⟩
      · simp [idle, arc]
        omega
      · simpa [Function.update_of_ne (Nat.ne_of_lt hlt)] using hc
  · intro j key' m hj
    by_cases he : j = t
    · simp only [he, Function.update_self, entry, Option.some.injEq, Prod.mk.injEq] at hj
      obtain ⟨rfl, rfl⟩ := hj
      simp
    · have hm := h.mapped j key' m (by simpa [he] using hj)
      have hk : key' ≠ key := by
        intro hsame
        subst hsame
        rw [absent] at hm
        cases hm
      simpa [hk] using hm
  · intro i j m hi hj
    by_cases hit : i = t
    · simp [hit, inner] at hi
    · by_cases hjt : j = t
      · simp [hjt, inner] at hj
      · exact h.sole i j m (by simpa [hit] using hi) (by simpa [hjt] using hj)
  · intro j m hj
    by_cases he : j = t
    · simp [he, inner] at hj
    · have hj' : inner (l.phase j) = some m := by simpa [he] using hj
      have hlt := h.freshArc j m (arc_of_inner hj')
      simpa [Function.update_of_ne (Nat.ne_of_lt hlt)] using h.locked j m hj'
  · intro key' m hm
    rcases hold key' m hm with ⟨_, rfl⟩ | ⟨_, hlt⟩
    · exact Nat.lt_succ_self _
    · exact Nat.lt_succ_of_lt hlt
  · intro j m hj
    by_cases he : j = t
    · simp only [he, Function.update_self, arc, Option.some.injEq] at hj
      exact hj ▸ Nat.lt_succ_self _
    · exact Nat.lt_succ_of_lt (h.freshArc j m (by simpa [he] using hj))
  · intro k₁ k₂ m h₁ h₂
    rcases hold k₁ m h₁ with ⟨rfl, hm⟩ | ⟨h₁', hlt⟩ <;>
      rcases hold k₂ m h₂ with ⟨rfl, hm'⟩ | ⟨h₂', hlt'⟩
    · rfl
    · omega
    · omega
    · exact h.distinct k₁ k₂ m h₁' h₂'

/-- The reference count answers the question the drop asks: at most the map and
this guard own the mutex, so nobody else still relies on the entry. -/
theorem Guarded.last_owner (h : Guarded l) {t m : Nat} {key : String}
    (holding : l.phase t = .holding key m) (last : l.strong m ≤ 2) :
    ∀ j, arc (l.phase j) = some m → j = t := by
  have hmap := h.mapped t key m (by simp [holding, entry])
  obtain ⟨n, hn, hc⟩ := h.counted key m hmap
  intro j hj
  by_contra hne
  have ht : arc (l.phase t) = some m := by rw [holding]; rfl
  have htwo := Exactly.card_le hn (S := {j, t}) (by simp [hj, ht])
  rw [Finset.card_pair hne] at htwo
  omega

/-- Forgetting the entry is safe for every other call. -/
theorem Guarded.forget (h : Guarded l) {t m : Nat} {key : String}
    (holding : l.phase t = .holding key m) (last : l.strong m ≤ 2) :
    Guarded ((({ l with map := Function.update l.map key none }).releaseArc m).setPhase t
      (.pruned m)) := by
  have hmap := h.mapped t key m (by simp [holding, entry])
  have hkeep : ∀ key' n, Function.update l.map key none key' = some n →
      l.map key' = some n ∧ key' ≠ key ∧ n ≠ m := by
    intro key' n hn
    by_cases hk : key' = key
    · simp [hk] at hn
    · have hn' : l.map key' = some n := by simpa [hk] using hn
      refine ⟨hn', hk, ?_⟩
      intro hsame
      subst hsame
      exact hk (h.distinct key' key n hn' hmap)
  constructor
  · intro key' n hn
    obtain ⟨hn', _, hne⟩ := hkeep key' n hn
    obtain ⟨c, howners, hc⟩ := h.counted key' n hn'
    refine ⟨c, howners.stay ?_, by simpa [releaseArc, hne] using hc⟩
    simp [holding, arc]
  · intro j key' n hj
    by_cases he : j = t
    · simp [he, entry] at hj
    · have hj' : entry (l.phase j) = some (key', n) := by simpa [he, releaseArc] using hj
      have hn := h.mapped j key' n hj'
      have hk : key' ≠ key := by
        intro hsame
        subst hsame
        rw [hmap] at hn
        cases hn
        exact he (h.last_owner holding last j (arc_of_entry hj'))
      simpa [releaseArc, hk] using hn
  · intro i j n hi hj
    by_cases hit : i = t <;> by_cases hjt : j = t
    · rw [hit, hjt]
    · simp only [setPhase_phase, hit, Function.update_self, inner, Option.some.injEq] at hi
      subst hi
      exact hit.trans (h.sole j t m (by simpa [hjt, releaseArc] using hj)
        (by simp [holding, inner])).symm
    · simp only [setPhase_phase, hjt, Function.update_self, inner, Option.some.injEq] at hj
      subst hj
      exact (h.sole i t m (by simpa [hit, releaseArc] using hi)
        (by simp [holding, inner])).trans hjt.symm
    · exact h.sole i j n (by simpa [hit, releaseArc] using hi) (by simpa [hjt, releaseArc] using hj)
  · intro j n hj
    by_cases he : j = t
    · simp only [setPhase_phase, he, Function.update_self, inner, Option.some.injEq] at hj
      exact hj ▸ h.locked t m (by simp [holding, inner])
    · exact h.locked j n (by simpa [he, releaseArc] using hj)
  · intro key' n hn
    exact h.freshMap key' n (hkeep key' n hn).1
  · intro j n hj
    by_cases he : j = t
    · simp only [setPhase_phase, he, Function.update_self, arc, Option.some.injEq] at hj
      exact hj ▸ h.freshArc t m (by simp [holding, arc])
    · exact h.freshArc j n (by simpa [he, releaseArc] using hj)
  · intro k₁ k₂ n h₁ h₂
    exact h.distinct k₁ k₂ n (hkeep k₁ n h₁).1 (hkeep k₂ n h₂).1

theorem step_guarded (h : Guarded l) {a : Act} (hs : l.step a = some l') : Guarded l' := by
  cases step_moves hs with
  | enterOld idle found => exact h.enterOld idle found
  | enterNew idle absent => exact h.enterNew idle absent
  | @acquire t key m waiting hopen =>
    -- An unlocked mutex has no owner of its inner lock, so the newcomer is alone.
    have hnone : ∀ j, inner (l.phase j) ≠ some m := by
      intro j hj
      rw [h.locked j m hj] at hopen
      cases hopen
    refine h.rephase (by simp [waiting, arc]) (by simp [waiting, entry]) ?_ ?_ ?_
    · intro n hn j hj
      simp only [inner, Option.some.injEq] at hn
      exact absurd (hn ▸ hj) (hnone j)
    · intro n hn
      simp only [inner, Option.some.injEq] at hn
      simp [hn]
    · intro j n _ hj
      have hne : n ≠ m := fun he => hnone j (he ▸ hj)
      simpa [hne] using h.locked j n hj
  | cancel waiting => exact h.dropClone (by simp [waiting, arc])
  | @prune t key m m' holding found last =>
    have hm : m' = m := by
      rw [h.mapped t key m (by simp [holding, entry])] at found
      exact (Option.some.inj found).symm
    subst hm
    exact h.forget holding last
  | @keep t key m holding shared =>
    refine h.rephase (by simp [holding, arc]) (by simp [entry]) ?_ ?_ ?_
    · intro n hn j hj
      exact h.sole j t n hj (by simpa [holding, inner] using hn)
    · intro n hn
      exact h.locked t n (by simpa [holding, inner] using hn)
    · intro j n _ hj
      exact h.locked j n hj
  | @unlock t m pruned =>
    refine h.rephase (by simp [pruned, arc]) (by simp [entry]) (by simp [inner])
      (by simp [inner]) ?_
    intro j n hne hj
    have hnm : n ≠ m := by
      intro hsame
      subst hsame
      exact hne (h.sole j t n hj (by simp [pruned, inner]))
    simpa [hnm] using h.locked j n hj
  | dropArc unlocked => exact h.dropClone (by simp [unlocked, arc])

theorem reachable_guarded (h : machine.Reachable Lib.Machine.anyStep l) : Guarded l :=
  h.invariant (fun _ hs => hs ▸ empty_guarded) (fun _ _ _ _ hi _ hs => step_guarded hi hs)

theorem Guarded.exclusive (h : Guarded l) {t t' m m' : Nat} {key : String}
    (ht : l.phase t = .holding key m) (ht' : l.phase t' = .holding key m') : t = t' := by
  have hm := h.mapped t key m (by simp [ht, entry])
  have hm' := h.mapped t' key m' (by simp [ht', entry])
  have he : m = m' := Option.some.inj (hm.symm.trans hm')
  subst he
  exact h.sole t t' m (by simp [ht, inner]) (by simp [ht', inner])

/-- Two guards of one key that have not begun to drop are the same guard, in
whatever order entries were pruned and inserted again. -/
theorem one_guard_per_key (h : machine.Reachable Lib.Machine.anyStep l) (t t' m m' : Nat)
    (key : String) (ht : l.phase t = .holding key m) (ht' : l.phase t' = .holding key m') :
    t = t' :=
  (reachable_guarded h).exclusive ht ht'

/-- A pruned key is locked again through a new mutex while the old guard is
still being dropped. -/
theorem one_guard_after_pruning : ∃ l : KeyedLocks, l.phase 0 = .pruned 0 ∧
    l.phase 1 = .holding "a" 1 ∧ ∀ t m, l.phase t = .holding "a" m → t = 1 := by
  obtain ⟨l, hrun, hp⟩ := Lib.Machine.exec_reaches machine Lib.Machine.anyStep (fun _ _ => true)
    (fun l => l.phase 0 == .pruned 0 && l.phase 1 == .holding "a" 1) (fun _ _ _ => trivial) empty
    [.enter 0 "a", .acquire 0, .prune 0, .enter 1 "a", .acquire 1] (by decide)
  simp only [Bool.and_eq_true, beq_iff_eq] at hp
  refine ⟨l, hp.1, hp.2, ?_⟩
  intro t m ht
  exact one_guard_per_key ⟨empty, rfl, hrun⟩ t 1 m 1 "a" ht hp.2

/-- What the lock table is for: at any moment a key has at most one owner. -/
structure Exclusive where
  owner : String → Option Nat

inductive Exclusive.Act where
  | take (t : Nat) (key : String)
  | give (t : Nat) (key : String)

def Exclusive.step (x : Exclusive) : Exclusive.Act → Option Exclusive
  | .take t key =>
    if x.owner key = none then some ⟨Function.update x.owner key (some t)⟩ else none
  | .give t key =>
    if x.owner key = some t then some ⟨Function.update x.owner key none⟩ else none

def Exclusive.machine : Lib.Machine Exclusive Exclusive.Act where
  start := fun x => x = ⟨fun _ => none⟩
  step := Exclusive.step

/-- The owner of a key is the call whose guard is alive. -/
def Owned (l : KeyedLocks) (x : Exclusive) : Prop :=
  ∀ key t, x.owner key = some t ↔ ∃ m, l.phase t = .holding key m

/-- A phase change of `t` that neither begins nor ends a guard's life. -/
theorem Owned.silent {x : Exclusive} (h : Owned l x) {t : Nat} {p : LockPhase}
    (hphase : l'.phase = Function.update l.phase t p)
    (hbefore : ∀ key m, l.phase t ≠ .holding key m) (hafter : ∀ key m, p ≠ .holding key m) :
    Owned l' x := by
  intro key j
  rw [h key j, hphase]
  by_cases hj : j = t
  · subst hj
    simp [hbefore, hafter]
  · simp [hj]

theorem Owned.take {x : Exclusive} (h : Owned l x) {t m : Nat} {key : String}
    (hphase : l'.phase = Function.update l.phase t (.holding key m))
    (hbefore : ∀ key m, l.phase t ≠ .holding key m) (hfree : x.owner key = none) :
    Owned l' ⟨Function.update x.owner key (some t)⟩ := by
  intro key' j
  rw [hphase]
  by_cases hk : key' = key
  · subst hk
    by_cases hj : j = t
    · simp [hj]
    · have hno : ¬∃ n, l.phase j = .holding key' n := by
        rw [← h key' j, hfree]
        simp
      simpa [hj, Ne.symm hj] using hno
  · by_cases hj : j = t
    · subst hj
      have hno : x.owner key' ≠ some j := by
        rw [Ne, h key' j]
        intro hparts
        obtain ⟨n, hn⟩ := hparts
        exact hbefore key' n hn
      simp [hk, hno, Ne.symm hk]
    · simp [hk, hj, h key' j]

theorem Owned.give {x : Exclusive} (h : Owned l x) {t m : Nat} {key : String} {p : LockPhase}
    (hphase : l'.phase = Function.update l.phase t p)
    (holding : l.phase t = .holding key m) (hafter : ∀ key m, p ≠ .holding key m) :
    Owned l' ⟨Function.update x.owner key none⟩ := by
  have howner := (h key t).mpr ⟨m, holding⟩
  intro key' j
  rw [hphase]
  by_cases hj : j = t
  · subst hj
    by_cases hk : key' = key
    · simp [hk, hafter]
    · have hno : x.owner key' ≠ some j := by
        rw [Ne, h key' j, holding]
        intro hparts
        obtain ⟨n, hn⟩ := hparts
        cases hn
        exact hk rfl
      simp [hk, hno, hafter]
  · by_cases hk : key' = key
    · subst hk
      have hno : ¬∃ n, l.phase j = .holding key' n := by
        rw [← h key' j, howner]
        simpa using Ne.symm hj
      simpa [hj] using hno
    · simp [hk, hj, h key' j]

/-- The lock table refines the exclusive owner map: a guard is born only when
its key has no owner, however often the key's entry was forgotten. -/
theorem keyed_locks_simulate :
    Exclusive.machine.Simulates machine Owned := by
  constructor
  · intro l hsame
    subst hsame
    exact ⟨⟨fun _ => none⟩, rfl, by intro key t; simp [empty]⟩
  · intro l a l' x hreach hx hs
    have hg := reachable_guarded hreach
    cases step_moves hs with
    | enterOld idle found =>
      exact ⟨x, .refl, hx.silent rfl (by simp [idle]) (by simp)⟩
    | enterNew idle absent =>
      exact ⟨x, .refl, hx.silent rfl (by simp [idle]) (by simp)⟩
    | @acquire t key m waiting hopen =>
      have hfree : x.owner key = none := by
        cases ho : x.owner key with
        | none => rfl
        | some j =>
          obtain ⟨n, hj⟩ := (hx key j).mp ho
          have hn := hg.mapped j key n (by simp [hj, entry])
          rw [hg.mapped t key m (by simp [waiting, entry])] at hn
          rw [Option.some.inj hn, hg.locked j n (by simp [hj, inner])] at hopen
          cases hopen
      exact ⟨_, .single (.take t key) trivial (by simp [Exclusive.machine, Exclusive.step, hfree]),
        hx.take rfl (by simp [waiting]) hfree⟩
    | cancel waiting => exact ⟨x, .refl, hx.silent rfl (by simp [waiting]) (by simp)⟩
    | @prune t key m m' holding found last =>
      have howner := (hx key t).mpr ⟨m, holding⟩
      exact ⟨_, .single (.give t key) trivial (by simp [Exclusive.machine, Exclusive.step, howner]),
        hx.give rfl holding (by simp)⟩
    | @keep t key m holding shared =>
      have howner := (hx key t).mpr ⟨m, holding⟩
      exact ⟨_, .single (.give t key) trivial (by simp [Exclusive.machine, Exclusive.step, howner]),
        hx.give rfl holding (by simp)⟩
    | unlock pruned => exact ⟨x, .refl, hx.silent rfl (by simp [pruned]) (by simp)⟩
    | dropArc unlocked => exact ⟨x, .refl, hx.silent rfl (by simp [unlocked]) (by simp)⟩

end Xetcas.Proofs.MutualExclusion
