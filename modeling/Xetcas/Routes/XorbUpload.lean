import Xetcas.Routes.Xorbs

namespace Xetcas.Routes.Xorbs
open Lib

/-- A closure handed to `spawn_blocking`, with the values moved into it. It runs
to its end whatever happens to the handler. -/
inductive XorbTask where
  | none
  | verify (body : Bytes) (expected : MerkleHash)
  /-- The file work of `write_atomic`, before or after its rename. -/
  | write (stored : Bytes) (renamed : Bool)
  /-- The transaction of `put_xorb`. -/
  | put (record : XorbRecord) (dedupChunks : List (String × UInt32)) (diskBytes : Nat)

/-- The await a handler of `upload` is at. -/
inductive XorbStage where
  | idle
  | acquiring (body : Bytes) (expected : MerkleHash)
  | reading (body : Bytes) (expected : MerkleHash)
  | verifying
  | locking (up : Upload)
  | checking (up : Upload)
  | writing (record : XorbRecord) (dedupChunks : List (String × UInt32)) (diskBytes : Nat)
  | inserting
  /-- Returned or dropped; its values are dropped in turn, the guard first, the
  bytes to store next and the permit last. -/
  | unwinding (holdsBytes : Bool)
  | ended

namespace XorbStage

def live : XorbStage → Bool
  | .idle | .unwinding _ | .ended => false
  | _ => true

/-- The handler itself holds a body, or the bytes to store. -/
def holdsBytes : XorbStage → Bool
  | .reading .. | .locking _ | .checking _ | .unwinding true => true
  | _ => false

/-- The handler is at the `await` of this task. -/
def awaits : XorbStage → XorbTask → Bool
  | .verifying, .verify .. => true
  | .writing .., .write .. => true
  | .inserting, .put .. => true
  | _, _ => false

end XorbStage

/-- The task owns a body, or the bytes to store. -/
def XorbTask.holdsBytes : XorbTask → Bool
  | .verify .. | .write .. => true
  | _ => false

structure XorbUpload where
  hash : String
  stage : XorbStage
  task : XorbTask
  permit : Bool
  answer : Option (AppResult UploadXorbResponse)

namespace XorbUpload

def none : XorbUpload := ⟨"", .idle, .none, false, .none⟩

def return_ (u : XorbUpload) (answer : AppResult UploadXorbResponse) (holdsBytes : Bool) :
    XorbUpload :=
  { u with stage := .unwinding holdsBytes, answer := some answer }

/-- A body, or its footered copy, is in memory for this upload. -/
def resident (u : XorbUpload) : Bool := u.stage.holdsBytes || u.task.holdsBytes

end XorbUpload

/-- The atomic steps of an upload. The end of a task and the handler's next
turn are one step: a handler dropped in between is one dropped just before. -/
inductive XorbAct where
  | request (authorization : Option String) (key : UploadXorbKey) (body : Bytes)
  | permit
  | read
  | verified (now : UInt64)
  | locked
  | checked
  | renamed
  | written
  | inserted
  /-- The read of the body, or of the index, fails. -/
  | failRead (message : String)
  /-- The task fails, or panics. -/
  | failTask (message : String)
  /-- The client is gone: the handler is dropped at its await. -/
  | drop
  /-- The next step of dropping the lock future or the guard. -/
  | unlock
  | release

/-- What a verified body leads to: the lock is asked for, or the handler returns
the error, or there is no handler any more. -/
def afterVerify (i : Nat) (g : AppState) (u : XorbUpload) (result : AppResult Upload) :
    Option (AppState × XorbUpload) :=
  match u.stage, result with
  | .verifying, .ok up =>
    (g.xorbLocks.step (.enter i u.hash)).map
      (fun locks => ({ g with xorbLocks := locks }, { u with stage := .locking up, task := .none }))
  | .verifying, .error e => some (g, { u with task := .none }.return_ (.error e) false)
  | _, _ => some (g, { u with task := .none })

def xorbStep (U : Upstream) (i : Nat) (g : AppState) (u : XorbUpload) :
    XorbAct → Option (AppState × XorbUpload)
  | .request authorization key body =>
    match u.stage with
    | .idle =>
      match admitUpload U g.config authorization key with
      | .ok expected => some (g, { u with hash := key.hash, stage := .acquiring body expected })
      | .error e => some (g, { u with stage := .ended, answer := some (.error e) })
    | _ => none
  | .permit =>
    match u.stage with
    | .acquiring body expected =>
      if g.uploadPermits = 0 then none
      else some ({ g with uploadPermits := g.uploadPermits - 1 },
        { u with stage := .reading body expected, permit := true })
    | _ => none
  | .read =>
    match u.stage with
    | .reading body expected =>
      if MAX_UPLOAD_BYTES < body.length then none
      else if body.isEmpty then some (g, u.return_ (.error (.badRequest "empty xorb body")) false)
      else some (g, { u with stage := .verifying, task := .verify body expected })
    | _ => none
  | .verified now =>
    match u.task with
    | .verify body expected => afterVerify i g u (prepare U body expected now)
    | _ => none
  | .locked =>
    match u.stage with
    | .locking up =>
      (g.xorbLocks.step (.acquire i)).map
        (fun locks => ({ g with xorbLocks := locks }, { u with stage := .checking up }))
    | _ => none
  | .checked =>
    match u.stage with
    | .checking up =>
      if (g.index.getXorb u.hash).isSome then some (g, u.return_ (.ok ⟨false⟩) true)
      else some (g, { u with
        stage := .writing up.record up.dedupChunks up.stored.length
        task := .write up.stored false })
    | _ => none
  | .renamed =>
    match u.task with
    | .write stored false =>
      some ({ g with objects := Function.update g.objects (pathFor u.hash) (some stored) },
        { u with task := .write stored true })
    | _ => none
  | .written =>
    match u.task with
    | .write _ true =>
      match u.stage with
      | .writing record dedupChunks diskBytes =>
        some (g, { u with stage := .inserting, task := .put record dedupChunks diskBytes })
      | _ => some (g, { u with task := .none })
    | _ => none
  | .inserted =>
    match u.task with
    | .put record dedupChunks diskBytes =>
      let (index, wasInserted) := g.index.putXorb record dedupChunks diskBytes
      let u' := { u with task := .none }
      match u.stage with
      | .inserting => some ({ g with index := index }, u'.return_ (.ok ⟨wasInserted⟩) false)
      | _ => some ({ g with index := index }, u')
    | _ => none
  | .failRead message =>
    match u.stage with
    | .reading .. =>
      some (g, u.return_ (.error (.badRequest s!"reading xorb body: {message}")) false)
    | .checking _ => some (g, u.return_ (.error (.index message)) true)
    | _ => none
  | .failTask message =>
    let u' := { u with task := .none }
    match u.task, u.stage with
    | .none, _ => none
    | .verify .., .verifying =>
      some (g, u'.return_ (.error (.internal s!"xorb verify task: {message}")) false)
    | .write .., .writing .. => some (g, u'.return_ (.error (.io message)) false)
    | .put .., .inserting => some (g, u'.return_ (.error (.index message)) false)
    | _, _ => some (g, u')
  | .drop =>
    match u.stage with
    | .idle | .unwinding _ | .ended => none
    | .locking _ | .checking _ => some (g, { u with stage := .unwinding true })
    | _ => some (g, { u with stage := .unwinding false })
  | .unlock =>
    match u.stage with
    | .unwinding _ =>
      let act : Option KeyedLocks.Act :=
        match g.xorbLocks.phase i with
        | .idle => none
        | .waiting .. => some (.cancel i)
        | .holding .. => some (.prune i)
        | .pruned _ => some (.unlock i)
        | .unlocked _ => some (.dropArc i)
      (act.bind g.xorbLocks.step).map (fun locks => ({ g with xorbLocks := locks }, u))
    | _ => none
  | .release =>
    match u.stage with
    | .unwinding _ =>
      if g.xorbLocks.phase i = .idle then
        some ({ g with uploadPermits := g.uploadPermits + if u.permit then 1 else 0 },
          { u with stage := .ended, permit := false })
      else none
    | _ => none

inductive XorbMoves (U : Upstream) (i : Nat) (g : AppState) (u : XorbUpload) :
    XorbAct → AppState → XorbUpload → Prop
  | refused {authorization key body e} (idle : u.stage = .idle)
      (no : admitUpload U g.config authorization key = .error e) :
      XorbMoves U i g u (.request authorization key body) g
        { u with stage := .ended, answer := some (.error e) }
  | admitted {authorization key body expected} (idle : u.stage = .idle)
      (yes : admitUpload U g.config authorization key = .ok expected) :
      XorbMoves U i g u (.request authorization key body) g
        { u with hash := key.hash, stage := .acquiring body expected }
  | permit {body expected} (stage : u.stage = .acquiring body expected)
      (free : g.uploadPermits ≠ 0) :
      XorbMoves U i g u .permit { g with uploadPermits := g.uploadPermits - 1 }
        { u with stage := .reading body expected, permit := true }
  | read {body expected} (stage : u.stage = .reading body expected)
      (fits : body.length ≤ MAX_UPLOAD_BYTES) :
      XorbMoves U i g u .read g { u with stage := .verifying, task := .verify body expected }
  | prepared {body expected now up locks} (stage : u.stage = .verifying)
      (task : u.task = .verify body expected) (good : prepare U body expected now = .ok up)
      (enter : g.xorbLocks.step (.enter i u.hash) = some locks) :
      XorbMoves U i g u (.verified now) { g with xorbLocks := locks }
        { u with stage := .locking up, task := .none }
  /-- The handler returns before its insert: with an error, or because the xorb
  has a row. -/
  | returned {act answer holdsBytes task} (live : u.stage.live = true)
      (freed : task = .none ∨ task = u.task ∧ u.stage.awaits u.task = false)
      (holds : holdsBytes = true → u.stage.holdsBytes = true)
      (exists_ : ∀ r, answer = .ok r → r = ⟨false⟩ ∧ (g.index.getXorb u.hash).isSome = true) :
      XorbMoves U i g u act g ({ u with task := task }.return_ answer holdsBytes)
  /-- A task that nobody awaits ends, without an effect. -/
  | orphanEnded {act} (task : u.task ≠ .none) (gone : u.stage.awaits u.task = false) :
      XorbMoves U i g u act g { u with task := .none }
  | locked {up locks} (stage : u.stage = .locking up)
      (acquire : g.xorbLocks.step (.acquire i) = some locks) :
      XorbMoves U i g u .locked { g with xorbLocks := locks } { u with stage := .checking up }
  | write {up} (stage : u.stage = .checking up) (absent : g.index.getXorb u.hash = none) :
      XorbMoves U i g u .checked g { u with
        stage := .writing up.record up.dedupChunks up.stored.length
        task := .write up.stored false }
  | renamed {stored} (task : u.task = .write stored false) :
      XorbMoves U i g u .renamed
        { g with objects := Function.update g.objects (pathFor u.hash) (some stored) }
        { u with task := .write stored true }
  | inserting {stored record dedupChunks diskBytes} (task : u.task = .write stored true)
      (stage : u.stage = .writing record dedupChunks diskBytes) :
      XorbMoves U i g u .written g
        { u with stage := .inserting, task := .put record dedupChunks diskBytes }
  | inserted {record dedupChunks diskBytes} (task : u.task = .put record dedupChunks diskBytes)
      (stage : u.stage = .inserting) :
      XorbMoves U i g u .inserted
        { g with index := (g.index.putXorb record dedupChunks diskBytes).1 }
        ({ u with task := .none }.return_
          (.ok ⟨(g.index.putXorb record dedupChunks diskBytes).2⟩) false)
  | insertedGone {record dedupChunks diskBytes}
      (task : u.task = .put record dedupChunks diskBytes) (gone : u.stage ≠ .inserting) :
      XorbMoves U i g u .inserted
        { g with index := (g.index.putXorb record dedupChunks diskBytes).1 }
        { u with task := .none }
  | dropped {holdsBytes} (live : u.stage.live = true)
      (holds : holdsBytes = true → u.stage.holdsBytes = true) :
      XorbMoves U i g u .drop g { u with stage := .unwinding holdsBytes }
  | unlock {holdsBytes act locks} (stage : u.stage = .unwinding holdsBytes)
      (lockStep : g.xorbLocks.step act = some locks)
      (kind : act = .cancel i ∨ act = .prune i ∨ act = .unlock i ∨ act = .dropArc i) :
      XorbMoves U i g u .unlock { g with xorbLocks := locks } u
  | release {holdsBytes} (stage : u.stage = .unwinding holdsBytes)
      (unlocked : g.xorbLocks.phase i = .idle) :
      XorbMoves U i g u .release
        { g with uploadPermits := g.uploadPermits + if u.permit then 1 else 0 }
        { u with stage := .ended, permit := false }

section Inversion
variable {U : Upstream} {i : Nat} {g g' : AppState} {u u' : XorbUpload}

theorem xorbStep_verified {now : UInt64} (h : xorbStep U i g u (.verified now) = some (g', u')) :
    XorbMoves U i g u (.verified now) g' u' := by
  simp only [xorbStep] at h
  split at h
  · rename_i body expected htask
    unfold afterVerify at h
    split at h
    · rename_i up hstage hgood
      obtain ⟨locks, henter, he⟩ := Option.map_eq_some_iff.mp h
      cases he
      exact .prepared hstage htask hgood henter
    · rename_i e hstage hbad
      cases h
      refine .returned (by simp [hstage, XorbStage.live]) (.inl rfl) (by simp) (by simp)
    · rename_i hgone₁ hgone₂
      cases h
      refine .orphanEnded (by simp [htask]) ?_
      rw [htask]
      cases hs : u.stage <;> try rfl
      cases hp : prepare U body expected now with
      | ok up => exact absurd hp (hgone₁ up hs)
      | error e => exact absurd hp (hgone₂ e hs)
  · cases h

theorem xorbStep_failTask {message : String}
    (h : xorbStep U i g u (.failTask message) = some (g', u')) :
    XorbMoves U i g u (.failTask message) g' u' := by
  simp only [xorbStep] at h
  split at h
  · cases h
  · rename_i hstage
    cases h
    exact .returned (by simp [hstage, XorbStage.live]) (.inl rfl) (by simp) (by simp)
  · rename_i hstage
    cases h
    exact .returned (by simp [hstage, XorbStage.live]) (.inl rfl) (by simp) (by simp)
  · rename_i hstage
    cases h
    exact .returned (by simp [hstage, XorbStage.live]) (.inl rfl) (by simp) (by simp)
  · rename_i hnone hverify hwrite hput
    cases h
    refine .orphanEnded hnone ?_
    cases hs : u.stage <;> cases ht : u.task <;> try rfl
    · exact absurd hs (hverify _ _ ht)
    · exact absurd hs (hwrite _ _ _ _ _ ht)
    · exact absurd hs (hput _ _ _ ht)

theorem xorbStep_moves {a : XorbAct} (h : xorbStep U i g u a = some (g', u')) :
    XorbMoves U i g u a g' u' := by
  cases a with
  | verified now => exact xorbStep_verified h
  | failTask message => exact xorbStep_failTask h
  | request authorization key body =>
    simp only [xorbStep] at h
    split at h
    · rename_i idle
      split at h
      · rename_i yes
        cases h
        exact .admitted idle yes
      · rename_i no
        cases h
        exact .refused idle no
    · cases h
  | permit =>
    simp only [xorbStep] at h
    split at h
    · rename_i stage
      split at h
      · cases h
      · rename_i free
        cases h
        exact .permit stage free
    · cases h
  | read =>
    simp only [xorbStep] at h
    split at h
    · rename_i stage
      split at h
      · cases h
      · rename_i fits
        split at h
        · cases h
          exact .returned (by simp [stage, XorbStage.live])
            (.inr ⟨rfl, by cases ht : u.task <;> simp [stage, XorbStage.awaits]⟩) (by simp)
            (by simp)
        · cases h
          exact .read stage (by omega)
    · cases h
  | locked =>
    simp only [xorbStep] at h
    split at h
    · rename_i stage
      obtain ⟨locks, hlock, he⟩ := Option.map_eq_some_iff.mp h
      cases he
      exact .locked stage hlock
    · cases h
  | checked =>
    simp only [xorbStep] at h
    split at h
    · rename_i up stage
      split at h
      · rename_i hrow
        cases h
        exact .returned (by simp [stage, XorbStage.live])
          (.inr ⟨rfl, by cases ht : u.task <;> simp [stage, XorbStage.awaits]⟩)
          (by simp [stage, XorbStage.holdsBytes]) (by simp [hrow])
      · rename_i hrow
        cases h
        exact .write stage (by simpa using hrow)
    · cases h
  | renamed =>
    simp only [xorbStep] at h
    split at h
    · rename_i task
      cases h
      exact .renamed task
    · cases h
  | written =>
    simp only [xorbStep] at h
    split at h
    · rename_i task
      split at h
      · rename_i stage
        cases h
        exact .inserting task stage
      · rename_i gone
        cases h
        refine .orphanEnded (by simp [task]) ?_
        cases hs : u.stage <;> simp_all [XorbStage.awaits]
    · cases h
  | inserted =>
    simp only [xorbStep] at h
    split at h
    · rename_i task
      split at h
      · rename_i stage
        cases h
        exact .inserted task stage
      · rename_i gone
        cases h
        exact .insertedGone task gone
    · cases h
  | failRead message =>
    simp only [xorbStep] at h
    split at h
    · rename_i stage
      cases h
      exact .returned (by simp [stage, XorbStage.live])
        (.inr ⟨rfl, by cases ht : u.task <;> simp [stage, XorbStage.awaits]⟩) (by simp) (by simp)
    · rename_i stage
      cases h
      exact .returned (by simp [stage, XorbStage.live])
        (.inr ⟨rfl, by cases ht : u.task <;> simp [stage, XorbStage.awaits]⟩)
        (by simp [stage, XorbStage.holdsBytes]) (by simp)
    · cases h
  | drop =>
    simp only [xorbStep] at h
    split at h
    · cases h
    · cases h
    · cases h
    · rename_i stage
      cases h
      exact .dropped (by simp [stage, XorbStage.live]) (by simp [stage, XorbStage.holdsBytes])
    · rename_i stage
      cases h
      exact .dropped (by simp [stage, XorbStage.live]) (by simp [stage, XorbStage.holdsBytes])
    · cases h
      refine .dropped ?_ (by simp)
      cases hs : u.stage <;> simp_all [XorbStage.live]
  | unlock =>
    simp only [xorbStep] at h
    split at h
    · rename_i stage
      obtain ⟨locks, hstep, he⟩ := Option.map_eq_some_iff.mp h
      cases he
      obtain ⟨act, hact, hlock⟩ := Option.bind_eq_some_iff.mp hstep
      refine .unlock stage hlock ?_
      cases hp : g.xorbLocks.phase i <;> simp_all
    · cases h
  | release =>
    simp only [xorbStep] at h
    split at h
    · rename_i stage
      split at h
      · rename_i unlocked
        cases h
        exact .release stage unlocked
      · cases h
    · cases h

end Inversion

end Xetcas.Routes.Xorbs
