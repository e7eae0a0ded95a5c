import Xetcas.DedupShard
import Xetcas.State

namespace Xetcas.Routes.Chunks

def get (U : Upstream) (state : AppState) (query : ChunkDedupQuery) (key : MerkleHash) :
    AppResult Bytes := do
  checkRequest (validateChunkDedupQuery query)
  match state.index.lookupChunk query.hash with
  | none => .error .notFound
  | some row =>
    match state.index.getXorb row.xorbHash with
    | none => .error .notFound
    | some record => orInternal (buildKeyedDedupShard U record record.framesLength key)

end Xetcas.Routes.Chunks
