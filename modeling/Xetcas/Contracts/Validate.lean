import Mathlib.Data.UInt
import Xetcas.Contracts.Messages
import Xetcas.Lib.Except

namespace Xetcas
open Lib

/-- A violated rule: the message, its field (empty for a rule about the whole
message) and the predicate, as the schema writes it. -/
structure ValidationError where
  message : String
  field : String
  predicate : String
  deriving DecidableEq, Repr

/-- The `thiserror` display text; `{:?}` quotes a field and a predicate. -/
def ValidationError.toText (e : ValidationError) : String :=
  e.message ++ ": field " ++ e.field.quote ++ " violates predicate " ++ e.predicate.quote

abbrev Checked := Except ValidationError Unit

/-- The byte scan of `is_hash_hex`: ASCII digits and `a` to `f`. -/
def isLowerHexByte (byte : UInt8) : Bool :=
  (48 ≤ byte && byte ≤ 57) || (97 ≤ byte && byte ≤ 102)

def isHashHex (value : String) : Bool :=
  value.utf8ByteSize == HASH_HEX_LEN && value.toUTF8.data.toList.all isLowerHexByte

def HASH_HEX_PREDICATE : String := "len(this) == 64 && matches(this, \"^[0-9a-f]\x7b64\x7d$\")"
def NON_EMPTY_PREDICATE : String := "len(this) >= 1"
def PRESENT_PREDICATE : String := "message field is present"

def requireHashHex (message field value : String) : Checked :=
  if isHashHex value then .ok () else .error ⟨message, field, HASH_HEX_PREDICATE⟩

def requireNonEmpty (message field value : String) : Checked :=
  if value.isEmpty then .error ⟨message, field, NON_EMPTY_PREDICATE⟩ else .ok ()

def requirePresent (message field : String) (value : Option α) : Except ValidationError α :=
  match value with
  | some v => .ok v
  | none => .error ⟨message, field, PRESENT_PREDICATE⟩

def requireHashHexKeys (message field : String) (map : Table String α) : Checked :=
  map.rows.forM (fun row => requireHashHex message field row.1)

/-- A rule between fields. -/
def require (holds : Bool) (message field predicate : String) : Checked :=
  if holds then .ok () else .error ⟨message, field, predicate⟩

@[simp] theorem requireHashHex_ok {m f v : String} :
    requireHashHex m f v = .ok () ↔ isHashHex v = true := by
  simp [requireHashHex]

@[simp] theorem requireNonEmpty_ok {m f v : String} :
    requireNonEmpty m f v = .ok () ↔ v.isEmpty = false := by
  unfold requireNonEmpty
  split <;> simp_all

@[simp] theorem requirePresent_ok {m f : String} {v : Option α} {a : α} :
    requirePresent m f v = .ok a ↔ v = some a := by
  cases v <;> simp [requirePresent]

@[simp] theorem requireHashHexKeys_ok {m f : String} {map : Table String α} :
    requireHashHexKeys m f map = .ok () ↔ ∀ row ∈ map.rows, isHashHex row.1 = true := by
  simp [requireHashHexKeys]

@[simp] theorem require_ok {p : Bool} {m f e : String} : require p m f e = .ok () ↔ p = true := by
  simp [require]

-- transfer.proto

def validateIndexRange (value : IndexRange) : Checked :=
  require (value.start ≤ value.stop) "candace.xetcas.v1.IndexRange" "start" "this <= end"

def validateByteRange (value : ByteRange) : Checked :=
  require (value.start ≤ value.stop) "candace.xetcas.v1.ByteRange" "start" "this <= end"

def validateQueryReconstructionRequest (value : QueryReconstructionRequest) : Checked := do
  requireHashHex "candace.xetcas.v1.QueryReconstructionRequest" "file_id" value.fileId
  match value.range with
  | some range => validateByteRange range
  | none => .ok ()

def validateCasReconstructionTerm (value : CasReconstructionTerm) : Checked := do
  requireHashHex "candace.xetcas.v1.CasReconstructionTerm" "hash" value.hash
  let range ← requirePresent "candace.xetcas.v1.CasReconstructionTerm" "range" value.range
  validateIndexRange range

def validateCasReconstructionFetchInfo (value : CasReconstructionFetchInfo) : Checked := do
  requireNonEmpty "candace.xetcas.v1.CasReconstructionFetchInfo" "url" value.url
  let range ← requirePresent "candace.xetcas.v1.CasReconstructionFetchInfo" "range" value.range
  validateIndexRange range
  let urlRange ←
    requirePresent "candace.xetcas.v1.CasReconstructionFetchInfo" "url_range" value.urlRange
  validateByteRange urlRange

def validateFetchInfoList (value : FetchInfoList) : Checked :=
  value.entries.forM validateCasReconstructionFetchInfo

def validateQueryReconstructionResponse (value : QueryReconstructionResponse) : Checked := do
  value.terms.forM validateCasReconstructionTerm
  requireHashHexKeys "candace.xetcas.v1.QueryReconstructionResponse" "fetch_info" value.fetchInfo
  value.fetchInfo.rows.forM (fun row => validateFetchInfoList row.2)

def validateXorbRangeDescriptor (value : XorbRangeDescriptor) : Checked := do
  let chunks ← requirePresent "candace.xetcas.v1.XorbRangeDescriptor" "chunks" value.chunks
  validateIndexRange chunks
  let bytes ← requirePresent "candace.xetcas.v1.XorbRangeDescriptor" "bytes" value.bytes
  validateByteRange bytes

def validateXorbMultiRangeFetch (value : XorbMultiRangeFetch) : Checked := do
  requireNonEmpty "candace.xetcas.v1.XorbMultiRangeFetch" "url" value.url
  value.ranges.forM validateXorbRangeDescriptor

def validateXorbFetchList (value : XorbFetchList) : Checked :=
  value.entries.forM validateXorbMultiRangeFetch

def validateQueryReconstructionResponseV2 (value : QueryReconstructionResponseV2) : Checked := do
  value.terms.forM validateCasReconstructionTerm
  requireHashHexKeys "candace.xetcas.v1.QueryReconstructionResponseV2" "xorbs" value.xorbs
  value.xorbs.rows.forM (fun row => validateXorbFetchList row.2)

def validateChunkDedupQuery (value : ChunkDedupQuery) : Checked := do
  requireNonEmpty "candace.xetcas.v1.ChunkDedupQuery" "prefix" value.pathPrefix
  requireHashHex "candace.xetcas.v1.ChunkDedupQuery" "hash" value.hash

def validateUploadXorbKey (value : UploadXorbKey) : Checked := do
  requireNonEmpty "candace.xetcas.v1.UploadXorbKey" "prefix" value.pathPrefix
  requireHashHex "candace.xetcas.v1.UploadXorbKey" "hash" value.hash

def validateUploadShardResponse (value : UploadShardResponse) : Checked :=
  require (value.result ≤ 1) "candace.xetcas.v1.UploadShardResponse" "result" "this <= 1"

-- storage.proto

def validateXorbRecord (value : XorbRecord) : Checked := do
  let message := "candace.xetcas.v1.XorbRecord"
  requireHashHex message "xorb_hash" value.xorbHash
  require (1 ≤ value.numChunks && value.numChunks ≤ 8192) message "num_chunks"
    "this >= 1 && this <= 8192"
  require (value.unpackedLength ≤ 67108864) message "unpacked_length" "this <= 67108864"
  let numChunks := value.numChunks.toNat
  require (value.chunkBoundaryOffsets.length == numChunks) message "chunk_boundary_offsets"
    "len(this) == num_chunks"
  require (value.unpackedChunkOffsets.length == numChunks) message "unpacked_chunk_offsets"
    "len(this) == num_chunks"
  require (value.chunkHashes.length == HASH_BYTES * numChunks) message "chunk_hashes"
    "len(this) == 32 * num_chunks"
  require (value.chunkBoundaryOffsets.getLast?.map UInt32.toUInt64 == some value.framesLength)
    message "chunk_boundary_offsets" "last(this) == frames_length"
  require (value.unpackedChunkOffsets.getLast?.map UInt32.toUInt64 == some value.unpackedLength)
    message "unpacked_chunk_offsets" "last(this) == unpacked_length"

def validateFileTermRecord (value : FileTermRecord) : Checked := do
  let message := "candace.xetcas.v1.FileTermRecord"
  requireHashHex message "xorb_hash" value.xorbHash
  require (value.chunkIndexStart ≤ value.chunkIndexEnd) message "chunk_index_start"
    "this <= chunk_index_end"

def validateFileRecord (value : FileRecord) : Checked := do
  let message := "candace.xetcas.v1.FileRecord"
  requireHashHex message "file_hash" value.fileHash
  require (value.sha256.isEmpty || isHashHex value.sha256) message "sha256"
    "len(this) == 0 || (len(this) == 64 && matches(this, \"^[0-9a-f]\x7b64\x7d$\"))"
  value.terms.forM validateFileTermRecord
  require (value.verificationRangeHashes.isEmpty ||
      value.verificationRangeHashes.length == HASH_BYTES * value.terms.length)
    message "verification_range_hashes" "len(this) == 0 || len(this) == 32 * len(terms)"
  require ((value.terms.map (fun term => term.unpackedSegmentBytes.toUInt64)).sum ==
      value.fileLength)
    message "file_length" "this == sum(terms.unpacked_segment_bytes)"

/-- Few enough 32-bit lengths add up in 64 bits. -/
theorem toNat_sum (lens : List UInt32) (h : lens.length < 2 ^ 32) :
    (lens.map UInt32.toUInt64).sum.toNat = (lens.map UInt32.toNat).sum ∧
      (lens.map UInt32.toNat).sum ≤ lens.length * (2 ^ 32 - 1) := by
  induction lens with
  | nil => exact ⟨rfl, le_refl _⟩
  | cons len lens ih =>
    rw [List.length_cons] at h
    obtain ⟨hsum, hle⟩ := ih (by omega)
    have hlen := len.toNat_lt
    simp only [List.map_cons, List.sum_cons, List.length_cons]
    refine ⟨?_, by omega⟩
    rw [UInt64.toNat_add, hsum, UInt32.toNat_toUInt64]
    omega

-- bridge.proto

def validateLfsObjectSpec (value : LfsObjectSpec) : Checked :=
  requireHashHex "candace.xetcas.v1.LfsObjectSpec" "oid" value.oid

def validateLfsBatchRequest (value : LfsBatchRequest) : Checked := do
  let message := "candace.xetcas.v1.LfsBatchRequest"
  require (value.operation == "upload" || value.operation == "download") message "operation"
    "this == \"upload\" || this == \"download\""
  require (value.hashAlgo.isEmpty || value.hashAlgo == "sha256") message "hash_algo"
    "len(this) == 0 || this == \"sha256\""
  value.objects.forM validateLfsObjectSpec

def validateLfsAction (value : LfsAction) : Checked :=
  requireNonEmpty "candace.xetcas.v1.LfsAction" "href" value.href

def validateLfsBatchObject (value : LfsBatchObject) : Checked := do
  require (value.actions.rows.isEmpty || value.error.isNone) "candace.xetcas.v1.LfsBatchObject"
    "actions" "at most one of actions/error is populated"
  value.actions.rows.forM (fun row => validateLfsAction row.2)

def validateLfsBatchResponse (value : LfsBatchResponse) : Checked := do
  require (value.transfer == "xet" || value.transfer == "basic")
    "candace.xetcas.v1.LfsBatchResponse" "transfer" "this == \"xet\" || this == \"basic\""
  value.objects.forM validateLfsBatchObject

def validateCasTokenInfo (value : CasTokenInfo) : Checked := do
  requireNonEmpty "candace.xetcas.v1.CasTokenInfo" "cas_url" value.casUrl
  requireNonEmpty "candace.xetcas.v1.CasTokenInfo" "access_token" value.accessToken

end Xetcas
