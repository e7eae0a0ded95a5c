import Xetcas.Contracts.Validate
import Xetcas.Lib.Regex

namespace Xetcas.Schema
open Lib

-- The refinements of the schema: what `expr` of a field option says of the
-- field's value.

inductive Scalar where
  | text (value : String)
  | number (value : Nat)

/-- `len(this)`: the bytes of a string. -/
def Scalar.len : Scalar → Nat
  | text value => value.utf8ByteSize
  | number _ => 0

def Scalar.toNat : Scalar → Nat
  | text _ => 0
  | number value => value

inductive Expr where
  /-- `len(this) == n` -/
  | lenEq (n : Nat)
  /-- `len(this) >= n` -/
  | lenGe (n : Nat)
  /-- `this == "literal"` -/
  | equals (literal : String)
  /-- `this >= n` -/
  | atLeast (n : Nat)
  /-- `this <= n` -/
  | atMost (n : Nat)
  /-- `matches(this, "pattern")` -/
  | fits (pattern : Regex)
  | and (a b : Expr)
  | or (a b : Expr)

def Expr.holds : Expr → Scalar → Bool
  | lenEq n, this => this.len == n
  | lenGe n, this => n ≤ this.len
  | equals literal, .text value => value == literal
  | equals _, .number _ => false
  | atLeast n, this => n ≤ this.toNat
  | atMost n, this => this.toNat ≤ n
  | fits pattern, .text value => pattern.search value.toList
  | fits _, .number _ => false
  | and a b, this => a.holds this && b.holds this
  | or a b, this => a.holds this || b.holds this

namespace Expr
variable {a b : Expr} {this : Scalar} {n value : Nat} {text literal : String}

@[simp] theorem and_holds : (and a b).holds this = true ↔
    a.holds this = true ∧ b.holds this = true := Bool.and_eq_true_iff

@[simp] theorem or_holds : (or a b).holds this = true ↔
    a.holds this = true ∨ b.holds this = true := Bool.or_eq_true_iff

@[simp] theorem equals_holds : (equals literal).holds (.text text) = true ↔ text = literal :=
  beq_iff_eq

@[simp] theorem atLeast_holds : (atLeast n).holds (.number value) = true ↔ n ≤ value :=
  decide_eq_true_iff

@[simp] theorem atMost_holds : (atMost n).holds (.number value) = true ↔ value ≤ n :=
  decide_eq_true_iff

@[simp] theorem lenEq_zero_holds : (lenEq 0).holds (.text text) = true ↔ text.isEmpty = true :=
  Iff.rfl

@[simp] theorem lenGe_one_holds : (lenGe 1).holds (.text text) = true ↔ text.isEmpty = false := by
  have hsize : text.isEmpty = (text.utf8ByteSize == 0) := rfl
  rw [hsize, beq_eq_false_iff_ne, holds, decide_eq_true_eq]
  exact Nat.one_le_iff_ne_zero

end Expr

def hexPattern : Regex :=
  .seq .startText (.seq (.rep (.cls [('0', '9'), ('a', 'f')]) 64) .endText)

/-- `len(this) == 64 && matches(this, "^[0-9a-f]{64}$")` -/
def hashHex : Expr := .and (.lenEq 64) (.fits hexPattern)

structure Refined where
  field : String
  expr : Expr
  value : Scalar

inductive Message where
  | indexRange (value : IndexRange)
  | byteRange (value : ByteRange)
  | queryReconstructionRequest (value : QueryReconstructionRequest)
  | casReconstructionTerm (value : CasReconstructionTerm)
  | casReconstructionFetchInfo (value : CasReconstructionFetchInfo)
  | fetchInfoList (value : FetchInfoList)
  | queryReconstructionResponse (value : QueryReconstructionResponse)
  | xorbRangeDescriptor (value : XorbRangeDescriptor)
  | xorbMultiRangeFetch (value : XorbMultiRangeFetch)
  | xorbFetchList (value : XorbFetchList)
  | queryReconstructionResponseV2 (value : QueryReconstructionResponseV2)
  | chunkDedupQuery (value : ChunkDedupQuery)
  | uploadXorbKey (value : UploadXorbKey)
  | uploadXorbResponse (value : UploadXorbResponse)
  | uploadShardResponse (value : UploadShardResponse)
  | xorbRecord (value : XorbRecord)
  | fileTermRecord (value : FileTermRecord)
  | fileRecord (value : FileRecord)
  | lfsRef (value : LfsRef)
  | lfsObjectSpec (value : LfsObjectSpec)
  | lfsBatchRequest (value : LfsBatchRequest)
  | lfsAction (value : LfsAction)
  | lfsObjectError (value : LfsObjectError)
  | lfsBatchObject (value : LfsBatchObject)
  | lfsBatchResponse (value : LfsBatchResponse)
  | casTokenInfo (value : CasTokenInfo)

namespace Message

/-- Every `(candace.liquid.v1.field).expr` of the message's fields. -/
def refinements : Message → List Refined
  | queryReconstructionRequest v => [⟨"file_id", hashHex, .text v.fileId⟩]
  | casReconstructionTerm v => [⟨"hash", hashHex, .text v.hash⟩]
  | casReconstructionFetchInfo v => [⟨"url", .lenGe 1, .text v.url⟩]
  | xorbMultiRangeFetch v => [⟨"url", .lenGe 1, .text v.url⟩]
  | chunkDedupQuery v =>
    [⟨"prefix", .lenGe 1, .text v.pathPrefix⟩, ⟨"hash", hashHex, .text v.hash⟩]
  | uploadXorbKey v =>
    [⟨"prefix", .lenGe 1, .text v.pathPrefix⟩, ⟨"hash", hashHex, .text v.hash⟩]
  | uploadShardResponse v => [⟨"result", .atMost 1, .number v.result.toNat⟩]
  | xorbRecord v =>
    [⟨"xorb_hash", hashHex, .text v.xorbHash⟩,
      ⟨"num_chunks", .and (.atLeast 1) (.atMost 8192), .number v.numChunks.toNat⟩,
      ⟨"unpacked_length", .atMost 67108864, .number v.unpackedLength.toNat⟩]
  | fileTermRecord v => [⟨"xorb_hash", hashHex, .text v.xorbHash⟩]
  | fileRecord v =>
    [⟨"file_hash", hashHex, .text v.fileHash⟩,
      ⟨"sha256", .or (.lenEq 0) hashHex, .text v.sha256⟩]
  | lfsObjectSpec v => [⟨"oid", hashHex, .text v.oid⟩]
  | lfsBatchRequest v =>
    [⟨"operation", .or (.equals "upload") (.equals "download"), .text v.operation⟩,
      ⟨"hash_algo", .or (.lenEq 0) (.equals "sha256"), .text v.hashAlgo⟩]
  | lfsAction v => [⟨"href", .lenGe 1, .text v.href⟩]
  | lfsBatchResponse v =>
    [⟨"transfer", .or (.equals "xet") (.equals "basic"), .text v.transfer⟩]
  | casTokenInfo v =>
    [⟨"cas_url", .lenGe 1, .text v.casUrl⟩, ⟨"access_token", .lenGe 1, .text v.accessToken⟩]
  | _ => []

/-- The message fields that are required on the wire, and whether they are there. -/
def required : Message → List (String × Bool)
  | casReconstructionTerm v => [("range", v.range.isSome)]
  | casReconstructionFetchInfo v => [("range", v.range.isSome), ("url_range", v.urlRange.isSome)]
  | xorbRangeDescriptor v => [("chunks", v.chunks.isSome), ("bytes", v.bytes.isSome)]
  | _ => []

/-- The keys of a map that is documented to be keyed by xorb hash. -/
def hashKeys : Message → List String
  | queryReconstructionResponse v => v.fetchInfo.rows.map Prod.fst
  | queryReconstructionResponseV2 v => v.xorbs.rows.map Prod.fst
  | _ => []

/-- The rules between fields. -/
def CrossField : Message → Prop
  | indexRange v => v.start ≤ v.stop
  | byteRange v => v.start ≤ v.stop
  | xorbRecord v =>
    v.chunkBoundaryOffsets.length = v.numChunks.toNat ∧
      v.unpackedChunkOffsets.length = v.numChunks.toNat ∧
      v.chunkHashes.length = 32 * v.numChunks.toNat ∧
      v.chunkBoundaryOffsets.getLast?.map UInt32.toUInt64 = some v.framesLength ∧
      v.unpackedChunkOffsets.getLast?.map UInt32.toUInt64 = some v.unpackedLength
  | fileTermRecord v => v.chunkIndexStart ≤ v.chunkIndexEnd
  | fileRecord v =>
    (v.verificationRangeHashes = [] ∨
        v.verificationRangeHashes.length = 32 * v.terms.length) ∧
      (v.terms.map (fun term => term.unpackedSegmentBytes.toUInt64)).sum = v.fileLength
  | lfsBatchObject v => v.actions.rows = [] ∨ v.error = none
  | _ => True

/-- The messages in the fields of a message: those that are there, the members
of its lists and the values of its maps. -/
def children : Message → List Message
  | queryReconstructionRequest v => v.range.toList.map byteRange
  | casReconstructionTerm v => v.range.toList.map indexRange
  | casReconstructionFetchInfo v => v.range.toList.map indexRange ++ v.urlRange.toList.map byteRange
  | fetchInfoList v => v.entries.map casReconstructionFetchInfo
  | queryReconstructionResponse v =>
    v.terms.map casReconstructionTerm ++ v.fetchInfo.rows.map (fun row => fetchInfoList row.2)
  | xorbRangeDescriptor v => v.chunks.toList.map indexRange ++ v.bytes.toList.map byteRange
  | xorbMultiRangeFetch v => v.ranges.map xorbRangeDescriptor
  | xorbFetchList v => v.entries.map xorbMultiRangeFetch
  | queryReconstructionResponseV2 v =>
    v.terms.map casReconstructionTerm ++ v.xorbs.rows.map (fun row => xorbFetchList row.2)
  | fileRecord v => v.terms.map fileTermRecord
  | lfsBatchRequest v => v.ref.toList.map lfsRef ++ v.objects.map lfsObjectSpec
  | lfsBatchObject v =>
    v.actions.rows.map (fun row => lfsAction row.2) ++ v.error.toList.map lfsObjectError
  | lfsBatchResponse v => v.objects.map lfsBatchObject
  | _ => []

/-- All that is asked of a message apart from the messages in it. -/
structure Meets (m : Message) : Prop where
  refined : ∀ r ∈ m.refinements, r.expr.holds r.value = true
  present : ∀ field ∈ m.required, field.2 = true
  keyed : ∀ key ∈ m.hashKeys, hashHex.holds (.text key) = true
  cross : m.CrossField

/-- A message is nested in another one, at any depth. -/
inductive Nested : Message → Message → Prop
  | self (m : Message) : Nested m m
  | within {m child inner : Message} (field : child ∈ m.children) (deeper : Nested child inner) :
      Nested m inner

/-- The `validate_` function of the message's type, if there is one. -/
def validate? : Message → Option Checked
  | indexRange v => some (validateIndexRange v)
  | byteRange v => some (validateByteRange v)
  | queryReconstructionRequest v => some (validateQueryReconstructionRequest v)
  | casReconstructionTerm v => some (validateCasReconstructionTerm v)
  | casReconstructionFetchInfo v => some (validateCasReconstructionFetchInfo v)
  | fetchInfoList v => some (validateFetchInfoList v)
  | queryReconstructionResponse v => some (validateQueryReconstructionResponse v)
  | xorbRangeDescriptor v => some (validateXorbRangeDescriptor v)
  | xorbMultiRangeFetch v => some (validateXorbMultiRangeFetch v)
  | xorbFetchList v => some (validateXorbFetchList v)
  | queryReconstructionResponseV2 v => some (validateQueryReconstructionResponseV2 v)
  | chunkDedupQuery v => some (validateChunkDedupQuery v)
  | uploadXorbKey v => some (validateUploadXorbKey v)
  | uploadShardResponse v => some (validateUploadShardResponse v)
  | xorbRecord v => some (validateXorbRecord v)
  | fileTermRecord v => some (validateFileTermRecord v)
  | fileRecord v => some (validateFileRecord v)
  | lfsObjectSpec v => some (validateLfsObjectSpec v)
  | lfsBatchRequest v => some (validateLfsBatchRequest v)
  | lfsAction v => some (validateLfsAction v)
  | lfsBatchObject v => some (validateLfsBatchObject v)
  | lfsBatchResponse v => some (validateLfsBatchResponse v)
  | casTokenInfo v => some (validateCasTokenInfo v)
  | uploadXorbResponse _ | lfsRef _ | lfsObjectError _ => none

end Message

end Xetcas.Schema
