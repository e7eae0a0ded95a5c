import Xetcas.Proofs.MutualExclusion
import Xetcas.Server

namespace Xetcas.Proofs.Provenance
open Lib Server Routes Routes.Xorbs
variable {U : Upstream}

/-- The hash an upload is addressed with was checked when it was admitted. -/
def Addressed (U : Upstream) (hash : String) (expected : MerkleHash) : Prop :=
  isHashHex hash = true ∧ U.fromHex hash = .ok expected

/-- `up` came out of `prepare`, for a body addressed with `hash`. -/
def Prepared (U : Upstream) (hash : String) (up : Upload) : Prop :=
  ∃ body expected now, Addressed U hash expected ∧ prepare U body expected now = .ok up

/-- A handler's values, as far as its stage holds them. -/
def StageSourced (U : Upstream) (hash : String) : XorbStage → Prop
  | .acquiring _ expected | .reading _ expected => Addressed U hash expected
  | .locking up | .checking up => Prepared U hash up
  | _ => True

def TaskSourced (U : Upstream) (hash : String) : XorbTask → Prop
  | .none => True
  | .verify _ expected => Addressed U hash expected
  | .write stored _ => ∃ up, Prepared U hash up ∧ stored = up.stored
  | .put record dedupChunks diskBytes => ∃ up, Prepared U hash up ∧ record = up.record ∧
      dedupChunks = up.dedupChunks ∧ diskBytes = up.stored.length

/-- Everything an upload writes goes back to one verified body. -/
structure Sourced (U : Upstream) (u : XorbUpload) : Prop where
  stage : StageSourced U u.hash u.stage
  task : TaskSourced U u.hash u.task
  /-- A handler that waits for its write will insert what describes it. -/
  writing : ∀ {record dedupChunks diskBytes}, u.stage = .writing record dedupChunks diskBytes →
    ∃ up renamed, Prepared U u.hash up ∧ u.task = .write up.stored renamed ∧
      record = up.record ∧ dedupChunks = up.dedupChunks ∧ diskBytes = up.stored.length
  idle : u.stage = .idle → u.task = .none

theorem none_sourced : Sourced U XorbUpload.none :=
  ⟨trivial, trivial, by simp [XorbUpload.none], fun _ => rfl⟩

section Step
variable {i : Nat} {g g' : AppState} {u u' : XorbUpload} {act : XorbAct}

theorem admit_addressed {config : Config} {authorization : Option String} {key : UploadXorbKey}
    {expected : MerkleHash} (h : admitUpload U config authorization key = .ok expected) :
    Addressed U key.hash expected := by
  obtain ⟨_, hkey⟩ := check_eq_ok.mp h
  obtain ⟨hvalid, hhash⟩ := check_eq_ok.mp hkey
  obtain ⟨_, hhex⟩ := check_eq_ok.mp (checkRequest_ok.mp hvalid)
  refine ⟨requireHashHex_ok.mp hhex, ?_⟩
  cases hread : U.fromHex key.hash with
  | ok m => simpa [named, hread] using hhash
  | error e => simp [named, hread, orBadRequest] at hhash

/-- A stage that holds nothing, with the task as it was or gone. -/
theorem Sourced.empty (h : Sourced U u) (hstage : u'.stage = .verifying ∨ u'.stage = .inserting ∨
      u'.stage = .ended ∨ ∃ holds, u'.stage = .unwinding holds)
    (hhash : u'.hash = u.hash) (htask : u'.task = .none ∨ u'.task = u.task) : Sourced U u' := by
  have htask' : TaskSourced U u'.hash u'.task := by
    rcases htask with htask | htask
    · rw [htask]
      trivial
    · rw [htask, hhash]
      exact h.task
  rcases hstage with hs | hs | hs | ⟨holds, hs⟩
  all_goals exact ⟨by rw [hs]; trivial, htask', by simp [hs], by simp [hs]⟩

theorem moves_sourced (h : XorbMoves U i g u act g' u') (hu : Sourced U u) : Sourced U u' := by
  cases h with
  | refused idle no => exact hu.empty (.inr (.inr (.inl rfl))) rfl (.inr rfl)
  | admitted idle yes =>
    have htask := hu.idle idle
    refine ⟨admit_addressed yes, ?_, by simp, by simp⟩
    simp only [htask]
    trivial
  | permit stage free =>
    have haddressed := hu.stage
    rw [stage] at haddressed
    exact ⟨haddressed, hu.task, by simp, by simp⟩
  | read stage fits =>
    have haddressed := hu.stage
    rw [stage] at haddressed
    exact ⟨trivial, haddressed, by simp, by simp⟩
  | prepared stage task good enter =>
    have haddressed := hu.task
    rw [task] at haddressed
    exact ⟨⟨_, _, _, haddressed, good⟩, trivial, by simp, by simp⟩
  | returned live freed holds hexists =>
    refine hu.empty (.inr (.inr (.inr ⟨_, rfl⟩))) rfl ?_
    rcases freed with rfl | ⟨rfl, _⟩
    · exact .inl rfl
    · exact .inr rfl
  | orphanEnded task gone =>
    refine ⟨hu.stage, trivial, ?_, fun _ => rfl⟩
    intro record dedup disk hwriting
    obtain ⟨up, renamed, _, htask, _⟩ := hu.writing hwriting
    simp [show u.stage = _ from hwriting, htask, XorbStage.awaits] at gone
  | locked stage acquire =>
    have hup := hu.stage
    rw [stage] at hup
    exact ⟨hup, hu.task, by simp, by simp⟩
  | @write up stage absent =>
    have hup := hu.stage
    rw [stage] at hup
    refine ⟨trivial, ⟨up, hup, rfl⟩, ?_, by simp⟩
    intro record dedup disk hwriting
    cases hwriting
    exact ⟨up, false, hup, rfl, rfl, rfl, rfl⟩
  | renamed task =>
    have hsource := hu.task
    rw [task] at hsource
    refine ⟨hu.stage, hsource, ?_, ?_⟩
    · intro record dedup disk hwriting
      obtain ⟨up, renamed, hup, htask, hrest⟩ := hu.writing hwriting
      rw [task] at htask
      cases htask
      exact ⟨up, true, hup, rfl, hrest⟩
    · intro hidle
      have hnone := hu.idle hidle
      rw [task] at hnone
      cases hnone
  | inserting task stage =>
    obtain ⟨up, renamed, hup, _, hrest⟩ := hu.writing stage
    exact ⟨trivial, ⟨up, hup, hrest⟩, by simp, by simp⟩
  | inserted task stage =>
    exact hu.empty (.inr (.inr (.inr ⟨_, rfl⟩))) rfl (.inl rfl)
  | insertedGone task gone =>
    refine ⟨hu.stage, trivial, ?_, fun _ => rfl⟩
    intro record dedup disk hwriting
    obtain ⟨up, renamed, _, htask, _⟩ := hu.writing hwriting
    rw [task] at htask
    cases htask
  | dropped live holds => exact hu.empty (.inr (.inr (.inr ⟨_, rfl⟩))) rfl (.inr rfl)
  | unlock stage lockStep kind => exact hu
  | release stage unlocked => exact hu.empty (.inr (.inr (.inl rfl))) rfl (.inr rfl)

end Step

/-- Between the lock and the end of its insert. -/
def critical : XorbStage → Bool
  | .checking _ | .writing .. | .inserting => true
  | _ => false

/-- Where the handler of upload `i` stands in the lock table. -/
structure Locked (locks : KeyedLocks) (i : Nat) (u : XorbUpload) : Prop where
  waiting : ∀ {up}, u.stage = .locking up → ∃ m, locks.phase i = .waiting u.hash m
  holding : critical u.stage = true → ∃ m, locks.phase i = .holding u.hash m

section Locks
variable {i j : Nat} {g g' : AppState} {u u' v : XorbUpload} {act : XorbAct}

theorem none_locked (locks : KeyedLocks) : Locked locks i XorbUpload.none :=
  ⟨by simp [XorbUpload.none], by simp [XorbUpload.none, critical]⟩

/-- An upload only takes steps of its own call. -/
theorem moves_phase_other (h : XorbMoves U i g u act g' u') (hj : j ≠ i) :
    g'.xorbLocks.phase j = g.xorbLocks.phase j := by
  cases h with
  | prepared stage task good enter => exact KeyedLocks.step_phase_other enter hj
  | locked stage acquire => exact KeyedLocks.step_phase_other acquire hj
  | unlock stage lockStep kind =>
    rcases kind with rfl | rfl | rfl | rfl
    all_goals exact KeyedLocks.step_phase_other lockStep hj
  | _ => rfl

/-- A step of an upload is one step of the lock table, or none. -/
theorem moves_locks (h : XorbMoves U i g u act g' u') :
    g'.xorbLocks = g.xorbLocks ∨ ∃ a, g.xorbLocks.step a = some g'.xorbLocks := by
  cases h with
  | prepared stage task good enter => exact .inr ⟨_, enter⟩
  | locked stage acquire => exact .inr ⟨_, acquire⟩
  | unlock stage lockStep kind => exact .inr ⟨_, lockStep⟩
  | _ => exact .inl rfl

/-- A stage without a lock. -/
theorem unlocked_locked {locks : KeyedLocks} (hwait : ∀ up, u.stage ≠ .locking up)
    (hcrit : critical u.stage = false) : Locked locks i u :=
  ⟨fun h => absurd h (hwait _), fun h => by simp [hcrit] at h⟩

theorem moves_locked (h : XorbMoves U i g u act g' u') (hu : Locked g.xorbLocks i u) :
    Locked g'.xorbLocks i u' := by
  cases h with
  | prepared stage task good enter =>
    exact ⟨fun _ => KeyedLocks.step_enter enter, by simp [critical]⟩
  | locked stage acquire =>
    obtain ⟨m, hm⟩ := hu.waiting stage
    exact ⟨by simp, fun _ => ⟨m, KeyedLocks.step_acquire hm acquire⟩⟩
  | write stage absent => exact ⟨by simp, fun _ => hu.holding (by simp [stage, critical])⟩
  | inserting task stage => exact ⟨by simp, fun _ => hu.holding (by simp [stage, critical])⟩
  | orphanEnded task gone => exact ⟨hu.waiting, hu.holding⟩
  | renamed task => exact ⟨hu.waiting, hu.holding⟩
  | insertedGone task gone => exact ⟨hu.waiting, hu.holding⟩
  | unlock stage lockStep kind => exact unlocked_locked (by simp [stage]) (by simp [stage, critical])
  | _ => exact unlocked_locked (by simp [XorbUpload.return_]) rfl

end Locks

variable {D : Deployment} {s s' : Server} {ok : Server → Server.Act → Prop}

/-- What holds of every upload, whatever became of its handler. -/
structure Traced (D : Deployment) (s : Server) : Prop where
  sourced : ∀ i, Sourced D.upstream (s.xorbUploads i)
  locked : ∀ i, Locked s.state.xorbLocks i (s.xorbUploads i)
  locks : KeyedLocks.machine.Reachable Machine.anyStep s.state.xorbLocks

theorem boot_traced (D : Deployment) (index : Index) (objects : Path → Option Bytes) :
    Traced D (boot D index objects) :=
  ⟨fun _ => none_sourced, fun _ => none_locked _, .start rfl⟩

theorem Traced.step (h : Traced D s) {a : Server.Act} (hs : Server.step D s a = some s') :
    Traced D s' := by
  cases step_moves hs with
  | @xorb i act g u turn =>
    have hm := xorbStep_moves turn
    refine ⟨?_, ?_, ?_⟩
    · intro j
      rcases eq_or_ne j i with rfl | hj
      · simpa using moves_sourced hm (h.sourced j)
      · simpa [hj] using h.sourced j
    · intro j
      rcases eq_or_ne j i with rfl | hj
      · simpa using moves_locked hm (h.locked j)
      · have hphase := moves_phase_other hm hj
        have hother : Locked g.xorbLocks j (s.xorbUploads j) :=
          ⟨fun hup => hphase ▸ (h.locked j).waiting hup, fun hc => hphase ▸ (h.locked j).holding hc⟩
        simpa [hj] using hother
    · rcases moves_locks hm with heq | ⟨b, hb⟩
      · simpa [heq] using h.locks
      · exact h.locks.next b trivial hb
  | shard turn =>
    rename_i g _
    have hlocks : g.xorbLocks = s.state.xorbLocks := by rw [Shards.shardStep_frame turn]
    exact ⟨h.sourced, by simpa [hlocks] using h.locked, by simpa [hlocks] using h.locks⟩
  | crash => exact boot_traced D _ _

theorem reachable_traced (h : (machine D).Reachable ok s) : Traced D s := by
  refine h.invariant (I := Traced D) ?_ ?_
  · intro s hsame
    subst hsame
    exact boot_traced D _ _
  · intro s a t _ hi _ hstep
    exact hi.step hstep

/-- Two handlers are never both between the lock and the end of their insert
for one hash. -/
theorem Traced.exclusive (h : Traced D s) {i j : Nat}
    (hi : critical (s.xorbUploads i).stage = true) (hj : critical (s.xorbUploads j).stage = true)
    (hhash : (s.xorbUploads i).hash = (s.xorbUploads j).hash) : i = j := by
  obtain ⟨m, hm⟩ := (h.locked i).holding hi
  obtain ⟨m', hm'⟩ := (h.locked j).holding hj
  rw [hhash] at hm
  exact (MutualExclusion.reachable_guarded h.locks).exclusive hm hm'

end Xetcas.Proofs.Provenance
