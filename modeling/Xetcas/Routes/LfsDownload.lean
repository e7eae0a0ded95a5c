import Xetcas.Lib.Channel
import Xetcas.Routes.Lfs

namespace Xetcas.Routes.Lfs
open Lib

def DEFAULT_DOWNLOAD_CONCURRENCY : Nat := 64

abbrev Body := Channel (Except String Bytes) 8

/-- Where the decode task of `stream_file` is. -/
inductive Decoder where
  /-- Before the next segment. -/
  | between (todo : List Segment)
  /-- In `decode_segment`, with so many chunks left to read there. -/
  | reading (reader : Bytes) (left : Nat) (todo : List Segment)
  /-- In the `blocking_send` of a chunk. -/
  | sending (chunk reader : Bytes) (left : Nat) (todo : List Segment)
  /-- In the `blocking_send` of the error that ended it. -/
  | failing (message : String)
  deriving DecidableEq

/-- How a download ended, as its client sees it. -/
inductive Outcome where
  | refused (e : AppError)
  | complete
  | broken (message : String)
  | gone
  deriving DecidableEq

/-- The await a handler of `download` is at, and then its response's body. -/
inductive DownloadStage where
  | idle
  | looking (oid : String)
  | planning (oid : String) (file : FileRecord)
  | acquiring (oid : String) (file : FileRecord) (segments : List Segment)
  | streaming
  | ended (outcome : Outcome)
  deriving DecidableEq

structure LfsDownload where
  stage : DownloadStage
  /-- The oid that was asked for and the announced length, once it is answered. -/
  head : Option (String × UInt64)
  /-- The decode task. It has a download permit as long as it runs. -/
  task : Option Decoder
  body : Body
  /-- What the client has of the body. -/
  received : List Bytes

namespace LfsDownload

def none : LfsDownload := ⟨.idle, .none, .none, .fresh, []⟩

def finish (d : LfsDownload) (outcome : Outcome) : LfsDownload := { d with stage := .ended outcome }

/-- The task returns: its end of the channel goes, and its permit. -/
def endTask (d : LfsDownload) : LfsDownload := { d with task := .none, body := d.body.dropSender }

end LfsDownload

inductive DownloadAct where
  | request (oid : String)
  | looked
  | planned
  | permit
  /-- The next segment's file is opened. -/
  | opened
  | decoded
  /-- A send returns. -/
  | sent
  /-- All chunks of the segment at hand are sent. -/
  | turned
  /-- All segments are. -/
  | finished
  /-- The client takes the next item of the body. -/
  | received
  /-- A read of the index or of an object fails. -/
  | failRead (message : String)
  | drop
  deriving DecidableEq

/-- `download` with `stream_file`: the permits that are left, and the download. -/
def downloadStep (U : Upstream) (g : AppState) (permits : Nat) (d : LfsDownload) :
    DownloadAct → Option (Nat × LfsDownload)
  | .request oid =>
    match d.stage with
    | .idle =>
      match checkRequest (validateLfsObjectSpec ⟨oid, 0⟩) with
      | .error e => some (permits, d.finish (.refused e))
      | .ok () => some (permits, { d with stage := .looking oid })
    | _ => none
  | .looked =>
    match d.stage with
    | .looking oid =>
      match g.index.fileBySha256 oid with
      | none => some (permits, d.finish (.refused .notFound))
      | some file => some (permits, { d with stage := .planning oid file })
    | _ => none
  | .planned =>
    match d.stage with
    | .planning oid file =>
      match Filestream.planSegments g.index file with
      | .error e => some (permits, d.finish (.refused e))
      | .ok segments => some (permits, { d with stage := .acquiring oid file segments })
    | _ => none
  | .permit =>
    match d.stage, permits with
    | .acquiring oid file segments, permits + 1 => some (permits, { d with
        stage := .streaming, head := some (oid, file.fileLength),
        task := some (.between segments), body := .fresh })
    | _, _ => none
  | .opened =>
    match d.task with
    | some (.between (segment :: todo)) =>
      match g.objects segment.path with
      | none => some (permits, { d with
          task := some (.failing "No such file or directory (os error 2)") })
      | some object => some (permits, { d with
          task := some (.reading (object.drop segment.byteStart) segment.numChunks todo) })
    | _ => none
  | .decoded =>
    match d.task with
    | some (.reading reader (left + 1) todo) =>
      match U.deserializeChunk reader with
      | .error e => some (permits, { d with task := some (.failing s!"chunk decode: {e}") })
      | .ok (chunk, rest) => some (permits, { d with task := some (.sending chunk rest left todo) })
    | _ => none
  | .sent =>
    match d.task with
    | some (.sending chunk reader left todo) =>
      match d.body.send (.ok chunk) with
      | some (body, true) =>
        some (permits, { d with task := some (.reading reader left todo), body := body })
      -- `decode_segment` stops without an error, and the loop goes on
      | some (body, false) => some (permits, { d with task := some (.between todo), body := body })
      | none => none
    | some (.failing message) =>
      match d.body.send (.error message) with
      | some (body, _) => some (permits + 1, { d with body := body }.endTask)
      | none => none
    | _ => none
  | .turned =>
    match d.task with
    | some (.reading _ 0 todo) => some (permits, { d with task := some (.between todo) })
    | _ => none
  | .finished =>
    match d.task with
    | some (.between []) => some (permits + 1, d.endTask)
    | _ => none
  | .received =>
    match d.stage with
    | .streaming =>
      match d.body.receive with
      | some (body, some (.ok chunk)) =>
        some (permits, { d with body := body, received := d.received ++ [chunk] })
      | some (body, some (.error message)) =>
        some (permits, { d with body := body.dropReceiver }.finish (.broken message))
      | some (body, none) => some (permits, { d with body := body.dropReceiver }.finish .complete)
      | none => none
    | _ => none
  | .failRead message =>
    match d.stage, d.task with
    | .looking _, _ | .planning .., _ =>
      some (permits, d.finish (.refused (.index message)))
    | _, some (.between (_ :: _)) => some (permits, { d with task := some (.failing message) })
    | _, some (.reading _ (_ + 1) _) =>
      some (permits, { d with task := some (.failing s!"chunk decode: {message}") })
    | _, _ => none
  | .drop =>
    match d.stage with
    | .idle | .ended _ => none
    | _ => some (permits, { d with body := d.body.dropReceiver }.finish .gone)

inductive DownloadMoves (U : Upstream) (g : AppState) (permits : Nat) (d : LfsDownload) :
    DownloadAct → Nat → LfsDownload → Prop
  | malformed {oid e} (stage : d.stage = .idle)
      (bad : checkRequest (validateLfsObjectSpec ⟨oid, 0⟩) = .error e) :
      DownloadMoves U g permits d (.request oid) permits (d.finish (.refused e))
  | asked {oid} (stage : d.stage = .idle)
      (good : checkRequest (validateLfsObjectSpec ⟨oid, 0⟩) = .ok ()) :
      DownloadMoves U g permits d (.request oid) permits { d with stage := .looking oid }
  | unknown {oid} (stage : d.stage = .looking oid) (absent : g.index.fileBySha256 oid = none) :
      DownloadMoves U g permits d .looked permits (d.finish (.refused .notFound))
  | known {oid file} (stage : d.stage = .looking oid)
      (found : g.index.fileBySha256 oid = some file) :
      DownloadMoves U g permits d .looked permits { d with stage := .planning oid file }
  | unplanned {oid file e} (stage : d.stage = .planning oid file)
      (bad : Filestream.planSegments g.index file = .error e) :
      DownloadMoves U g permits d .planned permits (d.finish (.refused e))
  | planned {oid file segments} (stage : d.stage = .planning oid file)
      (good : Filestream.planSegments g.index file = .ok segments) :
      DownloadMoves U g permits d .planned permits
        { d with stage := .acquiring oid file segments }
  | permit {oid file segments left} (stage : d.stage = .acquiring oid file segments)
      (free : permits = left + 1) :
      DownloadMoves U g permits d .permit left { d with
        stage := .streaming, head := some (oid, file.fileLength),
        task := some (.between segments), body := .fresh }
  | missing {segment todo message} (task : d.task = some (.between (segment :: todo)))
      (absent : g.objects segment.path = none) :
      DownloadMoves U g permits d .opened permits { d with task := some (.failing message) }
  | opened {segment todo object} (task : d.task = some (.between (segment :: todo)))
      (found : g.objects segment.path = some object) :
      DownloadMoves U g permits d .opened permits { d with
        task := some (.reading (object.drop segment.byteStart) segment.numChunks todo) }
  | undecodable {reader left todo e message}
      (task : d.task = some (.reading reader (left + 1) todo))
      (bad : U.deserializeChunk reader = .error e) :
      DownloadMoves U g permits d .decoded permits { d with task := some (.failing message) }
  | decoded {reader left todo chunk rest} (task : d.task = some (.reading reader (left + 1) todo))
      (good : U.deserializeChunk reader = .ok (chunk, rest)) :
      DownloadMoves U g permits d .decoded permits
        { d with task := some (.sending chunk rest left todo) }
  | sent {chunk reader left todo} {body : Body}
      (task : d.task = some (.sending chunk reader left todo))
      (here : d.body.receiverGone = false) (queue : body.queue = d.body.queue ++ [.ok chunk])
      (sender : body.senderGone = d.body.senderGone) (receiver : body.receiverGone = false) :
      DownloadMoves U g permits d .sent permits
        { d with task := some (.reading reader left todo), body := body }
  | unsent {chunk reader left todo} (task : d.task = some (.sending chunk reader left todo))
      (gone : d.body.receiverGone = true) :
      DownloadMoves U g permits d .sent permits { d with task := some (.between todo) }
  | failed {message} {body : Body} (task : d.task = some (.failing message))
      (here : d.body.receiverGone = false) (queue : body.queue = d.body.queue ++ [.error message])
      (receiver : body.receiverGone = false) :
      DownloadMoves U g permits d .sent (permits + 1) { d with body := body }.endTask
  | failedGone {message} (task : d.task = some (.failing message))
      (gone : d.body.receiverGone = true) :
      DownloadMoves U g permits d .sent (permits + 1) d.endTask
  | turned {reader todo} (task : d.task = some (.reading reader 0 todo)) :
      DownloadMoves U g permits d .turned permits { d with task := some (.between todo) }
  | finished (task : d.task = some (.between [])) :
      DownloadMoves U g permits d .finished (permits + 1) d.endTask
  | received {chunk} {body : Body} (stage : d.stage = .streaming)
      (queue : d.body.queue = .ok chunk :: body.queue)
      (sender : body.senderGone = d.body.senderGone)
      (receiver : body.receiverGone = d.body.receiverGone) :
      DownloadMoves U g permits d .received permits
        { d with body := body, received := d.received ++ [chunk] }
  | broke {message} {body : Body} (stage : d.stage = .streaming)
      (queue : d.body.queue = .error message :: body.queue)
      (sender : body.senderGone = d.body.senderGone) :
      DownloadMoves U g permits d .received permits
        ({ d with body := body.dropReceiver }.finish (.broken message))
  | completed (stage : d.stage = .streaming) (queue : d.body.queue = [])
      (sender : d.body.senderGone = true) :
      DownloadMoves U g permits d .received permits
        ({ d with body := d.body.dropReceiver }.finish .complete)
  | unread {message}
      (stage : (∃ oid, d.stage = .looking oid) ∨ ∃ oid file, d.stage = .planning oid file) :
      DownloadMoves U g permits d (.failRead message) permits
        (d.finish (.refused (.index message)))
  | faulted {message shown}
      (task : (∃ segment todo, d.task = some (.between (segment :: todo))) ∨
        ∃ reader left todo, d.task = some (.reading reader (left + 1) todo)) :
      DownloadMoves U g permits d (.failRead message) permits
        { d with task := some (.failing shown) }
  | dropped (idle : d.stage ≠ .idle) (ended : ∀ outcome, d.stage ≠ .ended outcome) :
      DownloadMoves U g permits d .drop permits
        ({ d with body := d.body.dropReceiver }.finish .gone)

section Inversion
variable {U : Upstream} {g : AppState} {permits permits' : Nat} {d d' : LfsDownload}

theorem downloadStep_moves {a : DownloadAct}
    (h : downloadStep U g permits d a = some (permits', d')) :
    DownloadMoves U g permits d a permits' d' := by
  cases a with
  | request oid =>
    simp only [downloadStep] at h
    split at h
    · rename_i stage
      split at h
      · rename_i bad
        cases h
        exact .malformed stage bad
      · rename_i good
        cases h
        exact .asked stage good
    · cases h
  | looked =>
    simp only [downloadStep] at h
    split at h
    · rename_i stage
      split at h
      · rename_i absent
        cases h
        exact .unknown stage absent
      · rename_i found
        cases h
        exact .known stage found
    · cases h
  | planned =>
    simp only [downloadStep] at h
    split at h
    · rename_i stage
      split at h
      · rename_i bad
        cases h
        exact .unplanned stage bad
      · rename_i good
        cases h
        exact .planned stage good
    · cases h
  | permit =>
    simp only [downloadStep] at h
    split at h
    · rename_i stage
      cases h
      exact .permit stage rfl
    · cases h
  | opened =>
    simp only [downloadStep] at h
    split at h
    · rename_i task
      split at h
      · rename_i absent
        cases h
        exact .missing task absent
      · rename_i found
        cases h
        exact .opened task found
    · cases h
  | decoded =>
    simp only [downloadStep] at h
    split at h
    · rename_i task
      split at h
      · rename_i bad
        cases h
        exact .undecodable task bad
      · rename_i good
        cases h
        exact .decoded task good
    · cases h
  | sent =>
    simp only [downloadStep] at h
    split at h
    · rename_i task
      split at h
      · rename_i hsend
        cases h
        obtain ⟨hno, _⟩ | ⟨_, here, queue, sender, receiver⟩ := Channel.send_cases hsend
        · cases hno
        · exact .sent task here queue sender receiver
      · rename_i hsend
        cases h
        obtain ⟨_, gone, rfl⟩ | ⟨hno, _⟩ := Channel.send_cases hsend
        · exact .unsent task gone
        · cases hno
      · cases h
    · rename_i task
      split at h
      · rename_i hsend
        cases h
        obtain ⟨_, gone, rfl⟩ | ⟨_, here, queue, _, receiver⟩ := Channel.send_cases hsend
        · exact .failedGone task gone
        · exact .failed task here queue receiver
      · cases h
    · cases h
  | turned =>
    simp only [downloadStep] at h
    split at h
    · rename_i task
      cases h
      exact .turned task
    · cases h
  | finished =>
    simp only [downloadStep] at h
    split at h
    · rename_i task
      cases h
      exact .finished task
    · cases h
  | received =>
    simp only [downloadStep] at h
    split at h
    · rename_i stage
      split at h
      · rename_i hreceive
        cases h
        obtain ⟨_, _, hgot, queue, rfl, sender, receiver⟩ | ⟨hno, _⟩ :=
          Channel.receive_cases hreceive
        · cases hgot
          exact .received stage queue sender receiver
        · cases hno
      · rename_i hreceive
        cases h
        obtain ⟨_, _, hgot, queue, rfl, sender, _⟩ | ⟨hno, _⟩ :=
          Channel.receive_cases hreceive
        · cases hgot
          exact .broke stage queue sender
        · cases hno
      · rename_i hreceive
        cases h
        obtain ⟨_, _, hgot, _⟩ | ⟨_, queue, sender, rfl⟩ := Channel.receive_cases hreceive
        · cases hgot
        · exact .completed stage queue sender
      · cases h
    · cases h
  | failRead message =>
    simp only [downloadStep] at h
    split at h
    · rename_i stage
      cases h
      exact .unread (.inl ⟨_, stage⟩)
    · rename_i stage
      cases h
      exact .unread (.inr ⟨_, _, stage⟩)
    · rename_i task _ _
      cases h
      exact .faulted (.inl ⟨_, _, task⟩)
    · rename_i task _ _
      cases h
      exact .faulted (.inr ⟨_, _, _, task⟩)
    · cases h
  | drop =>
    simp only [downloadStep] at h
    split at h
    · cases h
    · cases h
    · rename_i idle ended
      cases h
      exact .dropped idle (fun outcome => ended outcome)

end Inversion

end Xetcas.Routes.Lfs
