import Xetcas.DedupShard
import Xetcas.Reconstruction
import Xetcas.State

namespace Xetcas.Routes.Shards
open Lib

def RESULT_EXISTS : UInt32 := 0
def RESULT_SYNC_PERFORMED : UInt32 := 1

structure ShardFile where
  fileHash : String
  sha256 : String
  terms : List FileTermRecord
  /-- Raw range hashes, one per term, when the shard carried them. -/
  verification : Bytes

structure ShardData where
  files : List ShardFile
  /-- Chunks flagged as global-dedup candidates. -/
  flaggedChunks : List ChunkIndexEntry

def fileOf (U : Upstream) (view : FileView) : ShardFile where
  fileHash := U.hex view.fileHash
  sha256 := (view.metadataExt.map U.hex).getD ""
  terms := view.entries.map (fun entry => ⟨U.hex entry.xorbHash, entry.chunkIndexStart,
    entry.chunkIndexEnd, entry.unpackedSegmentBytes⟩)
  verification := (view.verification.getD []).flatMap MerkleHash.bytes

def flaggedOf (U : Upstream) (view : XorbView) : List ChunkIndexEntry :=
  view.chunks.zipIdx.filterMap (fun c =>
    if c.1.2 &&& MDB_CHUNK_WITH_GLOBAL_DEDUP_FLAG ≠ 0 then
      some ⟨U.hex c.1.1, U.hex view.xorbHash, UInt32.ofNat c.2⟩
    else none)

def section? (message : String) : Option α → AppResult α
  | some view => .ok view
  | none => .error (.badRequest message)

def decodeShard (U : Upstream) (body : Bytes) : AppResult ShardData := do
  let shard ← orBadRequest (named "malformed shard" (U.minimalShard body))
  let files ← shard.files.mapM (section? "truncated file section")
  let xorbs ← shard.xorbs.mapM (section? "truncated xorb section")
  .ok ⟨files.map (fileOf U), xorbs.flatMap (flaggedOf U)⟩

/-- The xorbs whose records `upload` fetches, sorted and without repetition. -/
def referenced (data : ShardData) : List String :=
  ((data.files.flatMap (fun f => f.terms.map FileTermRecord.xorbHash) ++
    data.flaggedChunks.map ChunkIndexEntry.xorbHash).insertionSort (fun a b => a ≤ b)).dedup

abbrev Records := String → Option XorbRecord

def corroborated (U : Upstream) (xorbs : Records) (e : ChunkIndexEntry) : Bool :=
  match xorbs e.xorbHash with
  | none => false
  | some record =>
    match chunkHashAt record e.index.toNat with
    | .ok actual => U.hex actual = e.chunkHash
    | .error _ => false

def validatedChunkMappings (U : Upstream) (flagged : List ChunkIndexEntry) (xorbs : Records) :
    List ChunkIndexEntry :=
  flagged.filter (corroborated U xorbs)

/-- Chunk `index` of a stored xorb: its hash and its length. -/
def chunkAt (record : XorbRecord) (index : Nat) : AppResult (MerkleHash × UInt64) := do
  let chunkHash ← orBadRequest (chunkHashAt record index)
  let chunkLen ← orBadRequest ((XorbMeta.fromRecord record).chunkLen index)
  .ok (chunkHash, chunkLen.toUInt64)

def checkRangeHash (U : Upstream) (termChunks : List (MerkleHash × UInt64)) (verification : Bytes)
    (index : Nat) (xorbHash : String) : AppResult Unit :=
  let start := index * HASH_BYTES
  let claimed := (verification.take (start + HASH_BYTES)).drop start
  if (U.rangeHashFromChunks (termChunks.map Prod.fst)).bytes ≠ claimed then
    .error (.badRequest s!"verification hash mismatch on term {index} of xorb {xorbHash}")
  else .ok ()

/-- Check one term against the stored xorbs; its chunks, as stored. -/
def checkTerm (U : Upstream) (xorbs : Records) (verification : Bytes) (term : FileTermRecord)
    (i : Nat) : AppResult (List (MerkleHash × UInt64)) :=
  match xorbs term.xorbHash with
  | none => .error (.badRequest s!"shard references unknown xorb {term.xorbHash}")
  | some record =>
    let xorb := XorbMeta.fromRecord record
    if term.chunkIndexEnd ≤ term.chunkIndexStart ∨ xorb.numChunks < term.chunkIndexEnd then
      .error (.badRequest (s!"term chunk range {term.chunkIndexStart.toNat} to " ++
        s!"{term.chunkIndexEnd.toNat} outside xorb {term.xorbHash} with " ++
        s!"{xorb.numChunks.toNat} chunks"))
    else do
      let start := term.chunkIndexStart.toNat
      let stop := term.chunkIndexEnd.toNat
      let expected ← orBadRequest (xorb.unpackedLen start stop)
      if expected ≠ term.unpackedSegmentBytes.toUInt64 then
        .error (.badRequest (s!"term declares {term.unpackedSegmentBytes.toNat} bytes, xorb " ++
          s!"{term.xorbHash} chunk range holds {expected.toNat}"))
      else do
        let chunks ← (List.range' start (stop - start)).mapM (chunkAt record)
        if verification.isEmpty then .ok chunks
        else do
          checkRangeHash U chunks verification i term.xorbHash
          .ok chunks

/-- The mapping of a file's first chunk, which clients always probe. -/
def firstChunk (U : Upstream) (xorbs : Records) (terms : List FileTermRecord) :
    List ChunkIndexEntry :=
  match terms with
  | [] => []
  | first :: _ =>
    match xorbs first.xorbHash with
    | none => []
    | some record =>
      match chunkHashAt record first.chunkIndexStart.toNat with
      | .ok chunkHash => [⟨U.hex chunkHash, first.xorbHash, first.chunkIndexStart⟩]
      | .error _ => []

/-- Check one file against the stored xorbs and turn it into a record. -/
def buildRecord (U : Upstream) (xorbs : Records) (now : UInt64) (file : ShardFile) :
    AppResult (FileRecord × List ChunkIndexEntry) :=
  if !file.verification.isEmpty ∧ file.verification.length ≠ file.terms.length * HASH_BYTES then
    .error (.badRequest "verification section length mismatch")
  else do
    let termChunks ← file.terms.zipIdx.mapM (fun t => checkTerm U xorbs file.verification t.1 t.2)
    let computed := U.fileHash termChunks.flatten
    if U.hex computed ≠ file.fileHash then
      .error (.badRequest (s!"file hash mismatch: shard claims {file.fileHash}, its terms " ++
        s!"hash to {U.hex computed}"))
    else do
      let record : FileRecord := {
        fileHash := file.fileHash
        fileLength := (file.terms.map (fun term => term.unpackedSegmentBytes.toUInt64)).sum
        sha256 := file.sha256
        terms := file.terms
        verificationRangeHashes := file.verification
        createdAt := now }
      checkRequest (validateFileRecord record)
      .ok (record, firstChunk U xorbs file.terms)

def buildRecords (U : Upstream) (xorbs : Records) (now : UInt64) (data : ShardData) :
    AppResult (List FileRecord × List ChunkIndexEntry) := do
  let built ← data.files.mapM (buildRecord U xorbs now)
  .ok (built.map Prod.fst,
    validatedChunkMappings U data.flaggedChunks xorbs ++ built.flatMap Prod.snd)

def answer (newFiles : Nat) : AppResult UploadShardResponse := do
  let response : UploadShardResponse :=
    ⟨if newFiles = 0 then RESULT_EXISTS else RESULT_SYNC_PERFORMED⟩
  checkResponse (validateUploadShardResponse response)
  .ok response

end Xetcas.Routes.Shards
