import Xetcas.Reconstruction
import Xetcas.State
import Xetcas.Upstream

namespace Xetcas
open Lib

/-- One contiguous read: an object, where the term starts in it, and how many
chunk frames to decode from there. -/
structure Segment where
  path : Path
  byteStart : Nat
  numChunks : Nat
  deriving DecidableEq, Repr

def Filestream.planSegment (records : String → Option XorbRecord) (term : FileTermRecord) :
    AppResult Segment :=
  match records term.xorbHash with
  | none => .error (.internal s!"missing xorb {term.xorbHash}")
  | some record => do
    let (byteStart, _) ← orInternal ((XorbMeta.fromRecord record).byteOffset
      term.chunkIndexStart.toNat term.chunkIndexEnd.toNat)
    .ok ⟨pathFor term.xorbHash, byteStart.toNat,
      (term.chunkIndexEnd - term.chunkIndexStart).toNat⟩

/-- Resolve a file's terms into the physical reads that reproduce its bytes. -/
def Filestream.planSegments (index : Index) (file : FileRecord) : AppResult (List Segment) :=
  file.terms.mapM
    (Filestream.planSegment (index.getXorbs (file.terms.map FileTermRecord.xorbHash)))

/-- Read chunk frames in order: what was decoded, and the error that ended it. -/
def decodeFrames (U : Upstream) : Nat → Bytes → List Bytes × Option String
  | 0, _ => ([], none)
  | n + 1, reader =>
    match U.deserializeChunk reader with
    | .error e => ([], some s!"chunk decode: {e}")
    | .ok (data, rest) =>
      let (more, e) := decodeFrames U n rest
      (data :: more, e)

/-- Decode a term's chunk frames, for a sink that never stops. -/
def decodeSegment (U : Upstream) (objects : Path → Option Bytes) (segment : Segment) :
    List Bytes × Option String :=
  match objects segment.path with
  | none => ([], some "No such file or directory (os error 2)")
  | some object => decodeFrames U segment.numChunks (object.drop segment.byteStart)

/-- What the decode task of `stream_file` sends: chunks, and the error that
ended them. -/
def emitSegments (U : Upstream) (objects : Path → Option Bytes) :
    List Segment → List Bytes × Option String
  | [] => ([], none)
  | segment :: rest =>
    match decodeSegment U objects segment with
    | (chunks, some e) => (chunks, some e)
    | (chunks, none) =>
      let (more, e) := emitSegments U objects rest
      (chunks ++ more, e)

def streamFile (U : Upstream) (state : AppState) (file : FileRecord) :
    AppResult (List Bytes × Option String) := do
  let segments ← Filestream.planSegments state.index file
  .ok (emitSegments U state.objects segments)

/-- A plan that fails is a server error. -/
theorem Filestream.planSegments_error {index : Index} {file : FileRecord} {e : AppError}
    (h : Filestream.planSegments index file = .error e) : ∃ message, e = .internal message := by
  obtain ⟨term, _, hterm⟩ := mapM_eq_error h
  unfold Filestream.planSegment at hterm
  split at hterm
  · cases hterm
    exact ⟨_, rfl⟩
  · rcases bind_eq_error.mp hterm with hoffset | ⟨_, _, hrest⟩
    · exact orInternal_error hoffset
    · cases hrest

end Xetcas
