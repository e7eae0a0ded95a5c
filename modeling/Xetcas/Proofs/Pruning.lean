import Xetcas.Proofs.MutualExclusion

namespace Xetcas.Proofs.Pruning
open Lib KeyedLocks MutualExclusion
variable {l l' : KeyedLocks} {t m : Nat} {key : String}

/-- Call `t` waits for the lock of the key or holds it: a guard of it is still
to be dropped. -/
def Live (l : KeyedLocks) (key : String) (t : Nat) : Prop :=
  ∃ m, entry (l.phase t) = some (key, m)

/-- A waiter that gives up, and a guard that leaves the entry because of other
`Arc`s, is not the last call that waits for the key or holds it. -/
def LeavesHeir (l : KeyedLocks) : Act → Prop
  | .cancel t => ∀ key m, l.phase t = .waiting key m → ∃ heir, heir ≠ t ∧ Live l key heir
  | .prune t => ∀ key m, l.phase t = .holding key m → 2 < l.strong m →
      ∃ heir, heir ≠ t ∧ Live l key heir
  | _ => True

/-- Every entry still has a call that will drop a guard of its key. -/
def Tended (l : KeyedLocks) : Prop :=
  ∀ key m, l.map key = some m → ∃ t, Live l key t

theorem empty_tended : Tended empty := by
  intro key m hm
  cases hm

/-- A call whose phase does not change stays. -/
theorem Live.other (h : Live l key t) {t' : Nat} {p : LockPhase} (hne : t ≠ t')
    (hphase : l'.phase = Function.update l.phase t' p) : Live l' key t := by
  obtain ⟨m, hm⟩ := h
  refine ⟨m, ?_⟩
  rw [hphase, Function.update_of_ne hne]
  exact hm

/-- A step that leaves the map alone, by a call that stays live or leaves an heir. -/
theorem Tended.rephase (h : Tended l) {p : LockPhase} (hmap : l'.map = l.map)
    (hphase : l'.phase = Function.update l.phase t p)
    (hheir : ∀ key m, entry (l.phase t) = some (key, m) →
      entry p = some (key, m) ∨ ∃ heir, heir ≠ t ∧ Live l key heir) : Tended l' := by
  intro key m hm
  rw [hmap] at hm
  obtain ⟨j, hj⟩ := h key m hm
  rcases eq_or_ne j t with rfl | hne
  · obtain ⟨n, hn⟩ := hj
    rcases hheir key n hn with hstays | ⟨heir, hother, hlive⟩
    · exact ⟨j, n, by rw [hphase, Function.update_self]; exact hstays⟩
    · exact ⟨heir, hlive.other hother hphase⟩
  · exact ⟨j, hj.other hne hphase⟩

theorem step_tended (hg : Guarded l) (h : Tended l) {a : Act} (hheir : LeavesHeir l a)
    (hs : l.step a = some l') : Tended l' := by
  cases step_moves hs with
  | @enterOld t key m idle found =>
    exact h.rephase rfl rfl (by simp [idle, entry])
  | @enterNew t key idle absent =>
    intro key' m hm
    by_cases hk : key' = key
    · subst hk
      exact ⟨t, l.fresh, by simp [entry]⟩
    · simp only [Function.update_of_ne hk] at hm
      obtain ⟨j, hj⟩ := h key' m hm
      have hne : j ≠ t := by
        intro he
        subst he
        obtain ⟨n, hn⟩ := hj
        simp [idle, entry] at hn
      exact ⟨j, hj.other hne rfl⟩
  | @acquire t key m waiting hopen =>
    exact h.rephase rfl rfl (by simp [waiting, entry])
  | @cancel t key m waiting =>
    refine h.rephase rfl rfl ?_
    intro key' m' hentry
    simp only [waiting, entry, Option.some.injEq, Prod.mk.injEq] at hentry
    obtain ⟨rfl, rfl⟩ := hentry
    exact .inr (hheir key m waiting)
  | @prune t key m m' holding found last =>
    intro key' n hn
    by_cases hk : key' = key
    · subst hk
      simp [releaseArc] at hn
    · replace hn : l.map key' = some n := by simpa [releaseArc, hk] using hn
      obtain ⟨j, hj⟩ := h key' n hn
      have hne : j ≠ t := by
        intro he
        subst he
        obtain ⟨k, hentry⟩ := hj
        simp only [holding, entry, Option.some.injEq, Prod.mk.injEq] at hentry
        exact hk hentry.1.symm
      exact ⟨j, hj.other hne rfl⟩
  | @keep t key m holding shared =>
    refine h.rephase rfl rfl ?_
    intro key' m' hentry
    simp only [holding, entry, Option.some.injEq, Prod.mk.injEq] at hentry
    obtain ⟨rfl, rfl⟩ := hentry
    have hmapped := hg.mapped t key m (by simp [holding, entry])
    exact .inr (hheir key m holding (shared m hmapped))
  | @unlock t m pruned => exact h.rephase rfl rfl (by simp [pruned, entry])
  | @dropArc t m unlocked => exact h.rephase rfl rfl (by simp [unlocked, entry])

/-- A step without an heir leaves an entry that no call will ever prune. -/
theorem heirless_leaves_entry (hg : Guarded l) {a : Act} (hheir : ¬LeavesHeir l a)
    (hs : l.step a = some l') : ∃ key m, l'.map key = some m ∧ ∀ t, ¬Live l' key t := by
  have hgone : ∀ {t key m p}, l'.phase = Function.update l.phase t p → entry p = none →
      entry (l.phase t) = some (key, m) → l'.map key = some m →
      (¬∃ heir, heir ≠ t ∧ Live l key heir) →
      ∃ key m, l'.map key = some m ∧ ∀ t, ¬Live l' key t := by
    intro t key m p hphase hp hentry hmap hno
    refine ⟨key, m, hmap, ?_⟩
    intro j hj
    obtain ⟨n, hn⟩ := hj
    rcases eq_or_ne j t with rfl | hne
    · rw [hphase, Function.update_self, hp] at hn
      cases hn
    · rw [hphase, Function.update_of_ne hne] at hn
      exact hno ⟨j, hne, n, hn⟩
  cases step_moves hs with
  | @cancel t key m waiting =>
    have hentry : entry (l.phase t) = some (key, m) := by simp [waiting, entry]
    refine hgone (p := .idle) rfl rfl hentry (hg.mapped t key m hentry) ?_
    intro hlive
    apply hheir
    intro key' m' hphase
    rw [waiting] at hphase
    cases hphase
    exact hlive
  | @keep t key m holding shared =>
    have hentry : entry (l.phase t) = some (key, m) := by simp [holding, entry]
    refine hgone (p := .pruned m) rfl rfl hentry (hg.mapped t key m hentry) ?_
    intro hlive
    apply hheir
    intro key' m' hphase _
    rw [holding] at hphase
    cases hphase
    exact hlive
  | @prune t key m m' holding found last =>
    exfalso
    apply hheir
    intro key' n hphase hshared
    rw [holding] at hphase
    cases hphase
    rw [hg.mapped t key m (by simp [holding, entry])] at found
    cases found
    omega
  | _ => exact absurd trivial hheir

/-- Entries and calls that will prune them: as many calls as entries. -/
theorem Tended.calls (h : Tended l) (keys : Finset String)
    (hkeys : ∀ key ∈ keys, (l.map key).isSome = true) :
    ∃ calls : Finset Nat, calls.card = keys.card ∧ ∀ t ∈ calls, ∃ key ∈ keys, Live l key t := by
  have hcall : ∀ key ∈ keys, ∃ t, Live l key t := by
    intro key hkey
    obtain ⟨m, hm⟩ := Option.isSome_iff_exists.mp (hkeys key hkey)
    exact h key m hm
  choose! call hlive using hcall
  refine ⟨keys.image call, Finset.card_image_of_injOn ?_, ?_⟩
  · -- a call waits for one key only
    intro key hkey key' hkey' hsame
    obtain ⟨m, hm⟩ := hlive key hkey
    obtain ⟨m', hm'⟩ := hlive key' hkey'
    rw [hsame, hm'] at hm
    cases hm
    rfl
  · intro t ht
    obtain ⟨key, hkey, rfl⟩ := Finset.mem_image.mp ht
    exact ⟨key, hkey, hlive key hkey⟩

/-- The lock table does not leak as long as every call that gives up, or leaves
the entry to others, leaves an heir: a key that nobody waits for or holds has
no entry, and there are no more entries than waiters and holders. -/
theorem lock_table_pruned (h : machine.Reachable LeavesHeir l) :
    (∀ key, (∀ t, ¬Live l key t) → l.map key = none) ∧
      ∀ keys : Finset String, (∀ key ∈ keys, (l.map key).isSome = true) →
        ∃ calls : Finset Nat, calls.card = keys.card ∧
          ∀ t ∈ calls, ∃ key ∈ keys, Live l key t := by
  have htended : Tended l := by
    refine h.invariant (I := Tended) ?_ ?_
    · intro l hsame
      subst hsame
      exact empty_tended
    · intro l a l' hreach hi hheir hs
      exact step_tended (reachable_guarded hreach.free) hi hheir hs
  refine ⟨?_, htended.calls⟩
  intro key hnone
  cases hm : l.map key with
  | none => rfl
  | some m =>
    obtain ⟨t, ht⟩ := htended key m hm
    exact absurd ht (hnone t)

/-- One of the first two calls is an heir of call `t`. -/
def hasHeir (l : KeyedLocks) (t : Nat) (key : String) : Bool :=
  [0, 1].any (fun heir => heir != t && (entry (l.phase heir)).any (·.1 == key))

def leavesHeir (l : KeyedLocks) : Act → Bool
  | .cancel t =>
    match l.phase t with
    | .waiting key _ => hasHeir l t key
    | _ => true
  | .prune t =>
    match l.phase t with
    | .holding key m => l.strong m ≤ 2 || hasHeir l t key
    | _ => true
  | _ => true

theorem hasHeir_sound (h : hasHeir l t key = true) : ∃ heir, heir ≠ t ∧ Live l key heir := by
  obtain ⟨heir, _, hparts⟩ := List.any_eq_true.mp h
  rw [Bool.and_eq_true, bne_iff_ne, Option.any_eq_true] at hparts
  obtain ⟨hne, ⟨key', m⟩, hentry, hkey⟩ := hparts
  cases beq_iff_eq.mp hkey
  exact ⟨heir, hne, m, hentry⟩

theorem leavesHeir_sound (l : KeyedLocks) (a : Act) (h : leavesHeir l a = true) :
    LeavesHeir l a := by
  cases a with
  | cancel t =>
    intro key m hphase
    simp only [leavesHeir, hphase] at h
    exact hasHeir_sound h
  | prune t =>
    intro key m hphase hshared
    simp only [leavesHeir, hphase, Bool.or_eq_true, decide_eq_true_eq] at h
    rcases h with hfew | hheir
    · omega
    · exact hasHeir_sound hheir
  | _ => trivial

/-- A guard leaves its entry to a waiter, and the waiter's guard prunes it. -/
theorem inherited_entry_pruned : ∃ l : KeyedLocks, machine.Reachable LeavesHeir l ∧
    (∀ t, ¬Live l "a" t) ∧ l.map "a" = none := by
  let schedule : List Act := [.enter 0 "a", .acquire 0, .enter 1 "a", .prune 0, .unlock 0,
    .dropArc 0, .acquire 1, .prune 1, .unlock 1, .dropArc 1]
  have hexec : machine.exec leavesHeir empty schedule =
      some ((machine.exec leavesHeir empty schedule).getD empty) := rfl
  have hreach : machine.Reachable LeavesHeir
      ((machine.exec leavesHeir empty schedule).getD empty) :=
    ⟨empty, rfl, Machine.exec_run leavesHeir_sound schedule hexec⟩
  have hidle : ∀ t, ¬Live ((machine.exec leavesHeir empty schedule).getD empty) "a" t := by
    intro t hlive
    obtain ⟨m, hm⟩ := hlive
    match t with
    | 0 => cases hm
    | 1 => cases hm
    | t + 2 => cases hm
  exact ⟨_, hreach, hidle, (lock_table_pruned hreach).1 "a" hidle⟩

/-- A waiter gives up after the guard it waited for has left it the entry. -/
def abandon : List Act :=
  [.enter 0 "a", .acquire 0, .enter 1 "a", .prune 0, .unlock 0, .dropArc 0, .cancel 1]

/-- Nobody is left, and the entry stays. -/
theorem abandoned_entry_stays : ∃ l : KeyedLocks, machine.Reachable Machine.anyStep l ∧
    (∀ t, l.phase t = .idle) ∧ (l.map "a").isSome = true := by
  have hexec : machine.exec (fun _ _ => true) empty abandon =
      some ((machine.exec (fun _ _ => true) empty abandon).getD empty) := rfl
  refine ⟨_, ⟨empty, rfl, Machine.exec_run (fun _ _ _ => trivial) abandon hexec⟩, ?_, rfl⟩
  intro t
  match t with
  | 0 => rfl
  | 1 => rfl
  | t + 2 => rfl

end Xetcas.Proofs.Pruning
