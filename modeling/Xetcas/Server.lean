import Mathlib.Logic.Function.Basic
import Xetcas.Formats.Documented
import Xetcas.Lib.Transition
import Xetcas.Routes.ShardUpload
import Xetcas.Routes.XorbUpload

namespace Xetcas
open Lib Routes

structure Deployment where
  upstream : Upstream
  config : Config
  uploadConcurrency : Nat

/-- A server: its shared state and every upload handler, live or gone, with the
tasks they left behind. -/
structure Server where
  state : AppState
  xorbUploads : Nat → Xorbs.XorbUpload
  shardUploads : Nat → Shards.ShardUpload

namespace Server
variable (D : Deployment)

inductive Act where
  | xorb (i : Nat) (act : Xorbs.XorbAct)
  | shard (i : Nat) (act : Shards.ShardAct)
  /-- The process dies and is started again. -/
  | crash

def isDrop : Act → Bool
  | .xorb _ .drop | .shard _ .drop => true
  | _ => false

/-- Handlers run until they return. -/
def NoDrop (_ : Server) (a : Act) : Prop := isDrop a = false

/-- A process that finds `index` and `objects` on disk. -/
def boot (index : Index) (objects : Path → Option Bytes) : Server where
  state := .new D.config index objects D.uploadConcurrency
  xorbUploads := fun _ => .none
  shardUploads := fun _ => .none

def step (s : Server) : Act → Option Server
  | .xorb i act => (Xorbs.xorbStep D.upstream i s.state (s.xorbUploads i) act).map (fun r =>
      { s with state := r.1, xorbUploads := Function.update s.xorbUploads i r.2 })
  | .shard i act => (Shards.shardStep D.upstream s.state (s.shardUploads i) act).map (fun r =>
      { s with state := r.1, shardUploads := Function.update s.shardUploads i r.2 })
  | .crash => some (boot D s.state.index s.state.objects)

/-- The server, started on an empty data directory. -/
def machine : Machine Server Act where
  start := fun s => s = boot D .fresh (fun _ => none)
  step := step D

inductive Moves (s : Server) : Act → Server → Prop
  | xorb {i act g u}
      (turn : Xorbs.xorbStep D.upstream i s.state (s.xorbUploads i) act = some (g, u)) :
      Moves s (.xorb i act)
        { s with state := g, xorbUploads := Function.update s.xorbUploads i u }
  | shard {i act g u}
      (turn : Shards.shardStep D.upstream s.state (s.shardUploads i) act = some (g, u)) :
      Moves s (.shard i act)
        { s with state := g, shardUploads := Function.update s.shardUploads i u }
  | crash : Moves s .crash (boot D s.state.index s.state.objects)

theorem step_moves {D : Deployment} {s s' : Server} {a : Act} (h : step D s a = some s') :
    Moves D s a s' := by
  cases a with
  | xorb i act =>
    obtain ⟨⟨g, u⟩, hturn, rfl⟩ := Option.map_eq_some_iff.mp h
    exact .xorb hturn
  | shard i act =>
    obtain ⟨⟨g, u⟩, hturn, rfl⟩ := Option.map_eq_some_iff.mp h
    exact .shard hturn
  | crash =>
    cases h
    exact .crash

/-- Rows are never changed or deleted. -/
theorem step_grows {D : Deployment} {s s' : Server} {a : Act} (h : step D s a = some s') :
    s.state.index.Grows s'.state.index := by
  cases step_moves h with
  | xorb turn =>
    cases Xorbs.xorbStep_moves turn with
    | inserted task stage => exact Index.putXorb_grows _ _ _ _
    | insertedGone task gone => exact Index.putXorb_grows _ _ _ _
    | _ => exact .refl _
  | shard turn =>
    cases Shards.shardStep_moves turn with
    | inserted task stage => exact Index.putFiles_grows _ _ _
    | insertedGone task gone => exact Index.putFiles_grows _ _ _
    | _ => exact .refl _
  | crash => exact .refl _

theorem run_grows {D : Deployment} {ok : Server → Act → Prop} {s s' : Server}
    (h : (machine D).Run ok s s') : s.state.index.Grows s'.state.index :=
  h.relates (R := fun s s' => s.state.index.Grows s'.state.index) (fun _ => .refl _)
    (fun _ _ _ h g => h.trans g) (fun _ _ _ _ hs => step_grows hs)

/-- No upload from number `n` on is touched. -/
def onlyUploads (n : Nat) : Act → Bool
  | .xorb i _ => i < n
  | _ => true

theorem reachable_untouched {D : Deployment} {ok : Server → Act → Prop} {s : Server} {n : Nat}
    (h : (machine D).Reachable ok s) (hok : ∀ s a, ok s a → onlyUploads n a = true) {j : Nat}
    (hj : n ≤ j) : s.xorbUploads j = .none := by
  refine h.invariant (I := fun s => s.xorbUploads j = .none) ?_ ?_
  · intro s hs
    subst hs
    rfl
  · intro s a t _ hi ha hstep
    have hfew := hok s a ha
    cases step_moves hstep with
    | @xorb i act g u turn =>
      have hother : j ≠ i := by
        have hlt : i < n := by simpa [onlyUploads] using hfew
        omega
      simpa [hother] using hi
    | shard turn => exact hi
    | crash => rfl

section Sample

def sampleServer : Deployment where
  upstream := Formats.documented Formats.sample
  config := ⟨"http://localhost:8080", none⟩
  uploadConcurrency := DEFAULT_XORB_UPLOAD_CONCURRENCY

/-- Upload `i` sends the letter, framed as in `body`, and is read. -/
def sendLetter (i : Nat) (body : Bytes) : List Act :=
  [.xorb i (.request none ⟨PREFIX_DEFAULT, Formats.letterHex⟩ body), .xorb i .permit, .xorb i .read]

/-- It goes on until its file is to be written. -/
def checkLetter (i : Nat) : List Act := [.xorb i (.verified 1), .xorb i .locked, .xorb i .checked]

/-- Its handler's guard is dropped, and then the rest. -/
def endUpload (i : Nat) : List Act :=
  [.xorb i .unlock, .xorb i .unlock, .xorb i .unlock, .xorb i .release]

def storeLetter (i : Nat) : List Act :=
  [.xorb i .renamed, .xorb i .written, .xorb i .inserted] ++ endUpload i

/-- Shard upload `i` registers the letter, up to its insert. -/
def registerLetter (i : Nat) (sha256 : Option MerkleHash) : List Act :=
  [.shard i (.request none (Formats.letterShard sha256)), .shard i .decoded, .shard i .fetched,
      .shard i (.built 2), .shard i .looked] ++
    (if sha256.isSome then [.shard i .planned, .shard i .hashed, .shard i .compared] else []) ++
    [.shard i .register]

/-- The letter is stored and registered with its SHA-256. -/
theorem letter_registered : ∃ s, (machine sampleServer).Reachable NoDrop s ∧
    ∃ row, s.state.index.files.get? (Formats.hex Formats.letterFileHash) = some row ∧
      row.record.fileLength = 1 ∧ row.sha256 = some Formats.letterOid := by
  obtain ⟨s, hrun, hend⟩ := Machine.exec_reaches (machine sampleServer) NoDrop
    (fun _ a => !isDrop a)
    (fun s => (s.state.index.files.get? (Formats.hex Formats.letterFileHash)).any
      (fun row => row.record.fileLength == 1 && row.sha256 == some Formats.letterOid))
    (fun _ _ h => by simpa [NoDrop] using h) (boot sampleServer .fresh (fun _ => none))
    (sendLetter 0 Formats.plainBody ++ checkLetter 0 ++ storeLetter 0 ++
      registerLetter 0 (some Formats.letterMetadata) ++ [.shard 0 .inserted]) (by decide +kernel)
  obtain ⟨row, hrow, hboth⟩ := (Option.any_eq_true _ _).mp hend
  rw [Bool.and_eq_true, beq_iff_eq, beq_iff_eq] at hboth
  exact ⟨s, ⟨_, rfl, hrun⟩, row, hrow, hboth⟩

def sendWord (i : Nat) : List Act :=
  [.xorb i (.request none ⟨PREFIX_DEFAULT, Formats.hex Formats.wordHash⟩ Formats.wordBody),
    .xorb i .permit, .xorb i .read]

def registerWord (i : Nat) : List Act :=
  [.shard i (.request none Formats.wordShard), .shard i .decoded, .shard i .fetched,
    .shard i .fetched, .shard i (.built 2), .shard i .looked, .shard i .planned,
    .shard i .hashed, .shard i .hashed, .shard i .compared, .shard i .register,
    .shard i .inserted]

/-- The letter, the word and a file of both. -/
def storeWord : List Act :=
  sendLetter 0 Formats.plainBody ++ checkLetter 0 ++ storeLetter 0 ++
    sendWord 1 ++ checkLetter 1 ++ storeLetter 1 ++ registerWord 0

theorem word_registered (p : Server → Bool)
    (h : ((machine sampleServer).exec (fun _ a => !isDrop a)
      (boot sampleServer .fresh (fun _ => none)) storeWord).map p = some true) :
    ∃ s, (machine sampleServer).Reachable NoDrop s ∧ p s = true := by
  obtain ⟨s, hrun, hp⟩ := Machine.exec_reaches (machine sampleServer) NoDrop
    (fun _ a => !isDrop a) p (fun _ _ h => by simpa [NoDrop] using h)
    (boot sampleServer .fresh (fun _ => none)) storeWord h
  exact ⟨s, ⟨_, rfl, hrun⟩, hp⟩

end Sample

end Server

end Xetcas
