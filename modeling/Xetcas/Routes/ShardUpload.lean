import Xetcas.Filestream
import Xetcas.Routes.Shards

namespace Xetcas.Routes.Shards
open Lib

/-- Where `verify_sha256` is with the file at hand. -/
inductive ShaCheck where
  /-- Is the pair of file hash and oid already registered? -/
  | lookup
  | planning
  /-- `content_sha256`: the segments to read, and what was hashed so far. -/
  | hashing (segments : List Segment) (hashed : Bytes)
  deriving DecidableEq

/-- The await a handler of `upload` is at. -/
inductive ShardStage where
  | idle
  | decoding (body : Bytes)
  /-- In `get_xorbs`, one `SELECT` after the other. -/
  | fetching (data : ShardData) (todo : List String) (found : List (String × XorbRecord))
  | verifying (files : List FileRecord) (chunks : List ChunkIndexEntry) (todo : List FileRecord)
      (check : ShaCheck)
  | inserting
  | ended

structure ShardUpload where
  stage : ShardStage
  /-- The transaction of `put_files`, once it is handed to its task. -/
  task : Option (List FileRecord × List ChunkIndexEntry)
  answer : Option (AppResult UploadShardResponse)

namespace ShardUpload

def none : ShardUpload := ⟨.idle, .none, .none⟩

def return_ (u : ShardUpload) (answer : AppResult UploadShardResponse) : ShardUpload :=
  { u with stage := .ended, answer := some answer }

end ShardUpload

inductive ShardAct where
  | request (authorization : Option String) (body : Bytes)
  | decoded
  | fetched
  | built (now : UInt64)
  | looked
  | planned
  | hashed
  | compared
  | register
  | inserted
  /-- A read of the index, or a task without effects, fails. -/
  | failRead (message : String)
  | failTask (message : String)
  | drop

/-- The next file's turn in `verify_sha256`: no oid to check, a pair that was
checked when it was registered, or a pair to check. -/
def lookUp (index : Index) (file : FileRecord) : Bool :=
  file.sha256.isEmpty || (index.getFile file.fileHash).any (fun known => known.sha256 = file.sha256)

/-- The comparison at the end of a file's turn. -/
def compareSha (U : Upstream) (file : FileRecord) (content : Bytes) : AppResult Unit :=
  let computed := U.sha256Hex content
  if computed ≠ file.sha256 then
    .error (.badRequest (s!"sha256 mismatch: shard claims {file.sha256} for file " ++
      s!"{file.fileHash}, its content hashes to {computed}"))
  else .ok ()

def shardStep (U : Upstream) (g : AppState) (u : ShardUpload) :
    ShardAct → Option (AppState × ShardUpload)
  | .request authorization body =>
    match u.stage with
    | .idle =>
      match AppState.authorize g.config authorization with
      | .error e => some (g, u.return_ (.error e))
      | .ok () =>
        if body.isEmpty then some (g, u.return_ (.error (.badRequest "empty shard body")))
        else some (g, { u with stage := .decoding body })
    | _ => none
  | .decoded =>
    match u.stage with
    | .decoding body =>
      match decodeShard U body with
      | .error e => some (g, u.return_ (.error e))
      | .ok data => some (g, { u with stage := .fetching data (referenced data) [] })
    | _ => none
  | .fetched =>
    match u.stage with
    | .fetching data (hash :: todo) found =>
      match g.index.getXorb hash with
      | some record => some (g, { u with stage := .fetching data todo (found ++ [(hash, record)]) })
      | none => some (g, { u with stage := .fetching data todo found })
    | _ => none
  | .built now =>
    match u.stage with
    | .fetching data [] found =>
      match buildRecords U (fun hash => rowOf hash found) now data with
      | .error e => some (g, u.return_ (.error e))
      | .ok (files, chunks) => some (g, { u with stage := .verifying files chunks files .lookup })
    | _ => none
  | .looked =>
    match u.stage with
    | .verifying files chunks (file :: todo) .lookup =>
      if lookUp g.index file then
        some (g, { u with stage := .verifying files chunks todo .lookup })
      else some (g, { u with stage := .verifying files chunks (file :: todo) .planning })
    | _ => none
  | .planned =>
    match u.stage with
    | .verifying files chunks (file :: todo) .planning =>
      match Filestream.planSegments g.index file with
      | .error e => some (g, u.return_ (.error e))
      | .ok segments => some (g, { u with
          stage := .verifying files chunks (file :: todo) (.hashing segments []) })
    | _ => none
  | .hashed =>
    match u.stage with
    | .verifying files chunks todo (.hashing (segment :: segments) hashed) =>
      match decodeSegment U g.objects segment with
      | (_, some e) => some (g, u.return_ (.error (.internal s!"hashing file content: {e}")))
      | (data, none) => some (g, { u with
          stage := .verifying files chunks todo (.hashing segments (hashed ++ data.flatten)) })
    | _ => none
  | .compared =>
    match u.stage with
    | .verifying files chunks (file :: todo) (.hashing [] hashed) =>
      match compareSha U file hashed with
      | .error e => some (g, u.return_ (.error e))
      | .ok () => some (g, { u with stage := .verifying files chunks todo .lookup })
    | _ => none
  | .register =>
    match u.stage with
    | .verifying files chunks [] _ =>
      some (g, { u with stage := .inserting, task := some (files, chunks) })
    | _ => none
  | .inserted =>
    match u.task with
    | some (files, chunks) =>
      let (index, newFiles) := g.index.putFiles files chunks
      let u' := { u with task := none }
      match u.stage with
      | .inserting => some ({ g with index := index }, u'.return_ (answer newFiles))
      | _ => some ({ g with index := index }, u')
    | none => none
  | .failRead message =>
    match u.stage with
    | .decoding _ => some (g, u.return_ (.error (.internal s!"shard decode task: {message}")))
    | .fetching .. | .verifying _ _ _ .lookup | .verifying _ _ _ .planning =>
      some (g, u.return_ (.error (.index message)))
    | .verifying _ _ _ (.hashing ..) =>
      some (g, u.return_ (.error (.internal s!"sha256 task: {message}")))
    | _ => none
  | .failTask message =>
    match u.task with
    | some _ =>
      let u' := { u with task := none }
      match u.stage with
      | .inserting => some (g, u'.return_ (.error (.index message)))
      | _ => some (g, u')
    | none => none
  | .drop =>
    match u.stage with
    | .idle | .ended => none
    | _ => some (g, { u with stage := .ended })

inductive ShardMoves (U : Upstream) (g : AppState) (u : ShardUpload) :
    ShardAct → AppState → ShardUpload → Prop
  /-- The handler returns an error, before its insert or because that failed. -/
  | refused {act e task} (freed : task = none ∨ task = u.task ∧ u.stage ≠ .inserting) :
      ShardMoves U g u act g ({ u with task := task }.return_ (.error e))
  | received {authorization body} (idle : u.stage = .idle)
      (allowed : AppState.authorize g.config authorization = .ok ()) (full : body.isEmpty = false) :
      ShardMoves U g u (.request authorization body) g { u with stage := .decoding body }
  | decoded {body data} (stage : u.stage = .decoding body) (good : decodeShard U body = .ok data) :
      ShardMoves U g u .decoded g { u with stage := .fetching data (referenced data) [] }
  | fetched {data hash todo found} (stage : u.stage = .fetching data (hash :: todo) found) :
      ShardMoves U g u .fetched g { u with
        stage := .fetching data todo
          (found ++ (g.index.getXorb hash).toList.map (fun record => (hash, record))) }
  | built {data found now files chunks} (stage : u.stage = .fetching data [] found)
      (good : buildRecords U (fun hash => rowOf hash found) now data = .ok (files, chunks)) :
      ShardMoves U g u (.built now) g { u with stage := .verifying files chunks files .lookup }
  | known {files chunks file todo} (stage : u.stage = .verifying files chunks (file :: todo) .lookup)
      (known : lookUp g.index file = true) :
      ShardMoves U g u .looked g { u with stage := .verifying files chunks todo .lookup }
  | unknown {files chunks file todo}
      (stage : u.stage = .verifying files chunks (file :: todo) .lookup)
      (unknown : lookUp g.index file = false) :
      ShardMoves U g u .looked g { u with stage := .verifying files chunks (file :: todo) .planning }
  | planned {files chunks file todo segments}
      (stage : u.stage = .verifying files chunks (file :: todo) .planning)
      (good : Filestream.planSegments g.index file = .ok segments) :
      ShardMoves U g u .planned g
        { u with stage := .verifying files chunks (file :: todo) (.hashing segments []) }
  | hashed {files chunks todo segment segments hashed data}
      (stage : u.stage = .verifying files chunks todo (.hashing (segment :: segments) hashed))
      (good : decodeSegment U g.objects segment = (data, none)) :
      ShardMoves U g u .hashed g
        { u with stage := .verifying files chunks todo (.hashing segments (hashed ++ data.flatten)) }
  | compared {files chunks file todo hashed}
      (stage : u.stage = .verifying files chunks (file :: todo) (.hashing [] hashed))
      (good : compareSha U file hashed = .ok ()) :
      ShardMoves U g u .compared g { u with stage := .verifying files chunks todo .lookup }
  | register {files chunks check} (stage : u.stage = .verifying files chunks [] check) :
      ShardMoves U g u .register g { u with stage := .inserting, task := some (files, chunks) }
  | inserted {files chunks} (task : u.task = some (files, chunks)) (stage : u.stage = .inserting) :
      ShardMoves U g u .inserted { g with index := (g.index.putFiles files chunks).1 }
        ({ u with task := none }.return_ (answer (g.index.putFiles files chunks).2))
  | insertedGone {files chunks} (task : u.task = some (files, chunks))
      (gone : u.stage ≠ .inserting) :
      ShardMoves U g u .inserted { g with index := (g.index.putFiles files chunks).1 }
        { u with task := none }
  | failedGone {message} (task : u.task ≠ none) (gone : u.stage ≠ .inserting) :
      ShardMoves U g u (.failTask message) g { u with task := none }
  | dropped (idle : u.stage ≠ .idle) (ended : u.stage ≠ .ended) :
      ShardMoves U g u .drop g { u with stage := .ended }

section Inversion
variable {U : Upstream} {g g' : AppState} {u u' : ShardUpload}

/-- An error returned while no task is running. -/
theorem ShardMoves.refuse {act : ShardAct} {e : AppError} (h : u.stage ≠ .inserting) :
    ShardMoves U g u act g (u.return_ (.error e)) :=
  .refused (.inr ⟨rfl, h⟩)

theorem shardStep_moves {a : ShardAct} (h : shardStep U g u a = some (g', u')) :
    ShardMoves U g u a g' u' := by
  cases a with
  | request authorization body =>
    simp only [shardStep] at h
    split at h
    · rename_i idle
      split at h
      · cases h
        exact .refuse (by simp [idle])
      · rename_i allowed
        split at h
        · cases h
          exact .refuse (by simp [idle])
        · rename_i full
          cases h
          exact .received idle allowed (by simpa using full)
    · cases h
  | decoded =>
    simp only [shardStep] at h
    split at h
    · rename_i stage
      split at h
      · cases h
        exact .refuse (by simp [stage])
      · rename_i good
        cases h
        exact .decoded stage good
    · cases h
  | fetched =>
    simp only [shardStep] at h
    split at h
    · rename_i stage
      have hmoves := ShardMoves.fetched (U := U) (g := g) stage
      split at h
      · rename_i hrow
        cases h
        simpa [hrow] using hmoves
      · rename_i hrow
        cases h
        simpa [hrow] using hmoves
    · cases h
  | built now =>
    simp only [shardStep] at h
    split at h
    · rename_i stage
      split at h
      · cases h
        exact .refuse (by simp [stage])
      · rename_i good
        cases h
        exact .built stage good
    · cases h
  | looked =>
    simp only [shardStep] at h
    split at h
    · rename_i stage
      split at h
      · rename_i known
        cases h
        exact .known stage known
      · rename_i unknown
        cases h
        exact .unknown stage (by simpa using unknown)
    · cases h
  | planned =>
    simp only [shardStep] at h
    split at h
    · rename_i stage
      split at h
      · cases h
        exact .refuse (by simp [stage])
      · rename_i good
        cases h
        exact .planned stage good
    · cases h
  | hashed =>
    simp only [shardStep] at h
    split at h
    · rename_i stage
      split at h
      · cases h
        exact .refuse (by simp [stage])
      · rename_i good
        cases h
        exact .hashed stage good
    · cases h
  | compared =>
    simp only [shardStep] at h
    split at h
    · rename_i stage
      split at h
      · cases h
        exact .refuse (by simp [stage])
      · rename_i good
        cases h
        exact .compared stage good
    · cases h
  | register =>
    simp only [shardStep] at h
    split at h
    · rename_i stage
      cases h
      exact .register stage
    · cases h
  | inserted =>
    simp only [shardStep] at h
    split at h
    · rename_i task
      split at h
      · rename_i stage
        cases h
        exact .inserted task stage
      · rename_i gone
        cases h
        exact .insertedGone task gone
    · cases h
  | failRead message =>
    simp only [shardStep] at h
    split at h
    all_goals cases h
    all_goals
      rename_i stage
      exact .refuse (by simp [stage])
  | failTask message =>
    simp only [shardStep] at h
    split at h
    · rename_i task
      split at h
      · cases h
        exact .refused (.inl rfl)
      · rename_i gone
        cases h
        exact .failedGone (by simp [task]) gone
    · cases h
  | drop =>
    simp only [shardStep] at h
    split at h
    · cases h
    · cases h
    · rename_i idle ended
      cases h
      exact .dropped idle ended

/-- A shard upload writes to the index at most. -/
theorem shardStep_frame {a : ShardAct} (h : shardStep U g u a = some (g', u')) :
    g' = { g with index := g'.index } := by
  cases shardStep_moves h <;> rfl

end Inversion

end Xetcas.Routes.Shards
