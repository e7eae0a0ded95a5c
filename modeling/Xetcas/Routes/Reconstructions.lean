import Xetcas.Reconstruction
import Xetcas.Routes.Xorbs

namespace Xetcas.Routes.Reconstructions
open Lib

def wireTerm (t : Term) : CasReconstructionTerm where
  hash := t.xorb
  range := some ⟨UInt32.ofNat t.chunkStart, UInt32.ofNat t.chunkEnd⟩
  unpackedLength := UInt32.ofNat t.unpackedLength

/-- A fetch range on the wire; its byte range becomes end inclusive here. -/
def wireRange (base xorb : String) (r : FetchRange) : CasReconstructionFetchInfo where
  range := some ⟨UInt32.ofNat r.chunkStart, UInt32.ofNat r.chunkEnd⟩
  url := s!"{base}/v1/xorbs/{PREFIX_DEFAULT}/{xorb}/data"
  urlRange := some ⟨UInt64.ofNat r.byteStart, saturatingSub (UInt64.ofNat r.byteEnd) 1⟩

def wireResponse (base : String) (plan : Plan) : QueryReconstructionResponse where
  offsetIntoFirstRange := UInt64.ofNat plan.offsetIntoFirstRange
  terms := plan.terms.map wireTerm
  fetchInfo := plan.fetch.map (fun xorb ranges => ⟨ranges.map (wireRange base xorb)⟩)

/-- The geometry of the xorbs a file's terms name, as stored. -/
def metasOf (index : Index) (file : FileRecord) : Metas := fun hash =>
  (index.getXorbs (file.terms.map FileTermRecord.xorbHash) hash).map XorbMeta.fromRecord

def get (state : AppState) (fileId : String) (range : Option Xorbs.HeaderValue) :
    AppResult QueryReconstructionResponse := do
  checkRequest (validateQueryReconstructionRequest ⟨fileId, none⟩)
  let spec ← (match range with
    | none => .ok none
    | some value =>
      match value.bind parseRangeHeader with
      | some spec => .ok (some spec)
      | none => .error (.badRequest "malformed Range header"))
  let file ← (match state.index.getFile fileId with
    | some file => .ok file
    | none => .error .notFound)
  let window ← (match spec with
    | none => .ok none
    | some spec =>
      match spec.resolve file.fileLength with
      | some (start, stop) => .ok (some (start.toNat, stop.toNat))
      | none => .error .rangeNotSatisfiable)
  let plan ← orInternal (planReconstruction file window (metasOf state.index file))
  match plan with
  | none => .error .rangeNotSatisfiable
  | some plan =>
    let response := wireResponse state.config.publicBase plan
    checkResponse (validateQueryReconstructionResponse response)
    .ok response

end Xetcas.Routes.Reconstructions
