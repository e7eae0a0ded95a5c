import Xetcas.DedupShard
import Xetcas.HttpRange
import Xetcas.State

namespace Xetcas.Routes.Xorbs
open Lib

def MAX_UPLOAD_BYTES : Nat := 68 * 1024 * 1024

/-- What `upload` checks before it waits for a permit. -/
def admitUpload (U : Upstream) (config : Config) (authorization : Option String)
    (key : UploadXorbKey) : AppResult MerkleHash := do
  AppState.authorize config authorization
  checkRequest (validateUploadXorbKey key)
  orBadRequest (named "bad hash" (U.fromHex key.hash))

/-- The loop of `chunk_frame_count_exceeds_limit`, with the frames that may
still be counted: each turn reads one header and skips its payload. -/
def frameCountExceeds (body : Bytes) : Nat → Nat → Bool
  | 0, _ => true
  | left + 1, offset =>
    if offset + XORB_CHUNK_HEADER_LENGTH ≤ body.length then
      let compressedLen := (body.getD (offset + 1) 0).toNat +
        256 * (body.getD (offset + 2) 0).toNat + 65536 * (body.getD (offset + 3) 0).toNat
      frameCountExceeds body left (offset + XORB_CHUNK_HEADER_LENGTH + compressedLen)
    else false

def chunkFrameCountExceedsLimit (body : Bytes) : Bool :=
  frameCountExceeds body (MAX_CHUNKS_PER_XORB + 1) 0

def recordOf (U : Upstream) (info : XorbInfo) (computed : MerkleHash) (now : UInt64) :
    XorbRecord where
  xorbHash := U.hex computed
  numChunks := info.numChunks
  framesLength := (info.chunkBoundaryOffsets.getLast?.getD 0).toUInt64
  unpackedLength := (info.unpackedChunkOffsets.getLast?.getD 0).toUInt64
  chunkBoundaryOffsets := info.chunkBoundaryOffsets
  unpackedChunkOffsets := info.unpackedChunkOffsets
  chunkHashes := info.chunkHashes.flatMap MerkleHash.bytes
  createdAt := now

/-- Parse, decompress and hash-check an uploaded body: the bytes to store and
the record that describes them. -/
def verifyXorb (U : Upstream) (body : Bytes) (expected : MerkleHash) (now : UInt64) :
    AppResult (Bytes × XorbRecord) :=
  if chunkFrameCountExceedsLimit body then
    .error (.badRequest s!"xorb declares more than {MAX_CHUNKS_PER_XORB} chunk frames")
  else do
    let (stored, info, computed) ←
      orBadRequest (named "malformed xorb" (U.reconstructXorbWithFooter body))
    if computed ≠ expected then
      .error (.badRequest "xorb body does not hash to the addressed hash")
    else if info.numChunks = 0 then
      .error (.badRequest "xorb contains no chunks")
    else if MAX_CHUNKS_PER_XORB < info.numChunks.toNat then
      .error (.badRequest
        s!"xorb has {info.numChunks.toNat} chunks, limit is {MAX_CHUNKS_PER_XORB}")
    else
      let record := recordOf U info computed now
      if MAX_XORB_UNPACKED_BYTES < record.unpackedLength.toNat then
        .error (.badRequest
          s!"xorb holds {record.unpackedLength.toNat} bytes, limit is {MAX_XORB_UNPACKED_BYTES}")
      else .ok (stored, record)

def eligibleChunks (U : Upstream) (record : XorbRecord) : AppResult (List (String × UInt32)) := do
  let hashes ← orBadRequest ((List.range record.numChunks.toNat).mapM (chunkHashAt record))
  .ok (hashes.zipIdx.filterMap (fun c =>
    if U.hashIsGlobalDedupEligible c.1 then some (U.hex c.1, UInt32.ofNat c.2) else none))

/-- What a verified upload goes on with: the bytes to store, their record and
the chunks to index. -/
structure Upload where
  stored : Bytes
  record : XorbRecord
  dedupChunks : List (String × UInt32)

def prepare (U : Upstream) (body : Bytes) (expected : MerkleHash) (now : UInt64) :
    AppResult Upload := do
  let (stored, record) ← verifyXorb U body expected now
  checkRequest (validateXorbRecord record)
  let dedupChunks ← eligibleChunks U record
  .ok ⟨stored, record, dedupChunks⟩

structure DataResponse where
  status : Nat
  contentLength : Nat
  contentRange : Option String
  body : Bytes

/-- A header's value, `none` when it is not text. -/
abbrev HeaderValue := Option String

def data (state : AppState) (hash : String) (range : Option HeaderValue) :
    AppResult DataResponse := do
  let record ← (match state.index.getXorb hash with
    | some record => .ok record
    | none => .error .notFound)
  let (start, stop, status) ← (match range with
    | some value =>
      match value.bind parseRangeHeader with
      | none => .error (.badRequest "malformed Range header")
      | some spec =>
        match spec.resolve record.framesLength with
        | none => .error .rangeNotSatisfiable
        | some (start, stop) => .ok (start, stop, 206)
    | none => .ok (0, record.framesLength, 200))
  let length := (stop - start).toNat
  match state.objects (pathFor hash) with
  | none => .error .notFound
  | some object =>
    .ok {
      status := status
      contentLength := length
      contentRange := if status = 206 then
          some s!"bytes {start.toNat}-{(saturatingSub stop 1).toNat}/{record.framesLength.toNat}"
        else none
      body := (object.drop start.toNat).take length }

end Xetcas.Routes.Xorbs
