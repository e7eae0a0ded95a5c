import Xetcas.Lib.Transition

namespace Xetcas

/-- Where one call of `KeyedLocks::lock` stands, from the call until its guard
is completely dropped. Every phase but `idle` owns one clone of a mutex's `Arc`. -/
inductive LockPhase where
  | idle
  /-- In `lock_owned().await`. -/
  | waiting (key : String) (mutex : Nat)
  /-- The `KeyedGuard` is alive. -/
  | holding (key : String) (mutex : Nat)
  /-- `KeyedGuard::drop` has run; the field `_guard` is still there. -/
  | pruned (mutex : Nat)
  /-- The inner mutex is released; its `Arc` is not dropped yet. -/
  | unlocked (mutex : Nat)
  deriving DecidableEq, Repr

/-- `KeyedLocks`, with the mutexes its map has ever pointed to. A mutex is
named by a number; `strong` is the strong count of its `Arc`. -/
structure KeyedLocks where
  map : String → Option Nat
  strong : Nat → Nat
  locked : Nat → Bool
  fresh : Nat
  phase : Nat → LockPhase

namespace KeyedLocks

def empty : KeyedLocks where
  map := fun _ => none
  strong := fun _ => 0
  locked := fun _ => false
  fresh := 0
  phase := fun _ => .idle

/-- The atomic steps of a call `t` of `lock` and of its guard. -/
inductive Act where
  | enter (t : Nat) (key : String)
  | acquire (t : Nat)
  | cancel (t : Nat)
  | prune (t : Nat)
  | unlock (t : Nat)
  | dropArc (t : Nat)
  deriving DecidableEq, Repr

def setPhase (l : KeyedLocks) (t : Nat) (p : LockPhase) : KeyedLocks :=
  { l with phase := Function.update l.phase t p }

def cloneArc (l : KeyedLocks) (m : Nat) : KeyedLocks :=
  { l with strong := Function.update l.strong m (l.strong m + 1) }

def releaseArc (l : KeyedLocks) (m : Nat) : KeyedLocks :=
  { l with strong := Function.update l.strong m (l.strong m - 1) }

/-- The block of `lock` under the map mutex: fetch or insert the entry, clone
its `Arc`. A new mutex has one `Arc` in the map before the clone. -/
def enter (l : KeyedLocks) (t : Nat) (key : String) : KeyedLocks :=
  match l.map key with
  | some m => (l.cloneArc m).setPhase t (.waiting key m)
  | none =>
    let m := l.fresh
    let l' := { l with
      map := Function.update l.map key (some m)
      strong := Function.update l.strong m 1
      locked := Function.update l.locked m false
      fresh := l.fresh + 1 }
    (l'.cloneArc m).setPhase t (.waiting key m)

/-- `KeyedGuard::drop`, under the map mutex. -/
def pruneEntry (l : KeyedLocks) (key : String) : KeyedLocks :=
  match l.map key with
  | some m =>
    if l.strong m ≤ 2 then ({ l with map := Function.update l.map key none }).releaseArc m else l
  | none => l

def step (l : KeyedLocks) : Act → Option KeyedLocks
  | .enter t key =>
    match l.phase t with
    | .idle => some (l.enter t key)
    | _ => none
  | .acquire t =>
    match l.phase t with
    | .waiting key m =>
      if l.locked m then none
      else some (({ l with locked := Function.update l.locked m true }).setPhase t (.holding key m))
    | _ => none
  | .cancel t =>
    match l.phase t with
    | .waiting _ m => some ((l.releaseArc m).setPhase t .idle)
    | _ => none
  | .prune t =>
    match l.phase t with
    | .holding key m => some ((l.pruneEntry key).setPhase t (.pruned m))
    | _ => none
  | .unlock t =>
    match l.phase t with
    | .pruned m =>
      some (({ l with locked := Function.update l.locked m false }).setPhase t (.unlocked m))
    | _ => none
  | .dropArc t =>
    match l.phase t with
    | .unlocked m => some ((l.releaseArc m).setPhase t .idle)
    | _ => none

def machine : Lib.Machine KeyedLocks Act where
  start := fun l => l = empty
  step := step

@[simp] theorem setPhase_map (l : KeyedLocks) (t : Nat) (p : LockPhase) :
    (l.setPhase t p).map = l.map := rfl
@[simp] theorem setPhase_strong (l : KeyedLocks) (t : Nat) (p : LockPhase) :
    (l.setPhase t p).strong = l.strong := rfl
@[simp] theorem setPhase_locked (l : KeyedLocks) (t : Nat) (p : LockPhase) :
    (l.setPhase t p).locked = l.locked := rfl
@[simp] theorem setPhase_fresh (l : KeyedLocks) (t : Nat) (p : LockPhase) :
    (l.setPhase t p).fresh = l.fresh := rfl
@[simp] theorem setPhase_phase (l : KeyedLocks) (t : Nat) (p : LockPhase) :
    (l.setPhase t p).phase = Function.update l.phase t p := rfl

/-- Everything a step can do. `enterNew` is the branch of `or_insert_with`,
`prune` and `keep` are the two outcomes of the test in `KeyedGuard::drop`. -/
inductive Moves (l : KeyedLocks) : Act → KeyedLocks → Prop
  | enterOld {t key m} (idle : l.phase t = .idle) (found : l.map key = some m) :
      Moves l (.enter t key) ((l.cloneArc m).setPhase t (.waiting key m))
  | enterNew {t key} (idle : l.phase t = .idle) (absent : l.map key = none) :
      Moves l (.enter t key)
        { map := Function.update l.map key (some l.fresh)
          strong := Function.update (Function.update l.strong l.fresh 1) l.fresh 2
          locked := Function.update l.locked l.fresh false
          fresh := l.fresh + 1
          phase := Function.update l.phase t (.waiting key l.fresh) }
  | acquire {t key m} (waiting : l.phase t = .waiting key m) (open_ : l.locked m = false) :
      Moves l (.acquire t)
        (({ l with locked := Function.update l.locked m true }).setPhase t (.holding key m))
  | cancel {t key m} (waiting : l.phase t = .waiting key m) :
      Moves l (.cancel t) ((l.releaseArc m).setPhase t .idle)
  | prune {t key m m'} (holding : l.phase t = .holding key m) (found : l.map key = some m')
      (last : l.strong m' ≤ 2) :
      Moves l (.prune t)
        ((({ l with map := Function.update l.map key none }).releaseArc m').setPhase t (.pruned m))
  | keep {t key m} (holding : l.phase t = .holding key m)
      (shared : ∀ m', l.map key = some m' → 2 < l.strong m') :
      Moves l (.prune t) (l.setPhase t (.pruned m))
  | unlock {t m} (pruned : l.phase t = .pruned m) :
      Moves l (.unlock t)
        (({ l with locked := Function.update l.locked m false }).setPhase t (.unlocked m))
  | dropArc {t m} (unlocked : l.phase t = .unlocked m) :
      Moves l (.dropArc t) ((l.releaseArc m).setPhase t .idle)

theorem step_moves {l l' : KeyedLocks} {a : Act} (h : l.step a = some l') : l.Moves a l' := by
  cases a with
  | enter t key =>
    simp only [step] at h
    split at h
    · rename_i idle
      cases h
      cases hm : l.map key with
      | none => simpa [enter, hm, cloneArc, setPhase] using Moves.enterNew idle hm
      | some m => simpa [enter, hm] using Moves.enterOld idle hm
    · cases h
  | acquire t =>
    simp only [step] at h
    split at h
    · rename_i key m waiting
      split at h
      · cases h
      · rename_i hopen
        cases h
        exact .acquire waiting (by simpa using hopen)
    · cases h
  | cancel t =>
    simp only [step] at h
    split at h
    · cases h
      exact .cancel (by assumption)
    · cases h
  | prune t =>
    simp only [step] at h
    split at h
    · rename_i key m holding
      cases h
      cases hm : l.map key with
      | none => simpa [pruneEntry, hm] using Moves.keep holding (by simp [hm])
      | some m' =>
        by_cases hs : l.strong m' ≤ 2
        · simpa [pruneEntry, hm, hs] using Moves.prune holding hm hs
        · have hshared : ∀ n, l.map key = some n → 2 < l.strong n := by
            intro n hn
            rw [hm] at hn
            cases hn
            omega
          simpa [pruneEntry, hm, hs] using Moves.keep holding hshared
    · cases h
  | unlock t =>
    simp only [step] at h
    split at h
    · cases h
      exact .unlock (by assumption)
    · cases h
  | dropArc t =>
    simp only [step] at h
    split at h
    · cases h
      exact .dropArc (by assumption)
    · cases h

/-- A step of one call leaves the phases of all others alone. -/
theorem step_phase_other {l l' : KeyedLocks} {a : Act} (h : l.step a = some l') {t : Nat}
    (ht : t ≠ match a with
      | .enter t _ | .acquire t | .cancel t | .prune t | .unlock t | .dropArc t => t) :
    l'.phase t = l.phase t := by
  cases step_moves h <;> simp_all [Function.update_of_ne, releaseArc, cloneArc]

/-- After its first step a call waits for a mutex of its key. -/
theorem step_enter {l l' : KeyedLocks} {t : Nat} {key : String}
    (h : l.step (.enter t key) = some l') : ∃ m, l'.phase t = .waiting key m := by
  cases step_moves h with
  | @enterOld _ _ m _ _ => exact ⟨m, by simp⟩
  | enterNew _ _ => exact ⟨l.fresh, by simp⟩

theorem step_acquire {l l' : KeyedLocks} {t m : Nat} {key : String} (hw : l.phase t = .waiting key m)
    (h : l.step (.acquire t) = some l') : l'.phase t = .holding key m := by
  cases step_moves h with
  | acquire waiting open_ =>
    rw [hw] at waiting
    cases waiting
    simp

end KeyedLocks
end Xetcas
