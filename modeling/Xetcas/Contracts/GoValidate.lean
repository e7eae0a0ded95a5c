import Xetcas.Contracts.Schema

namespace Xetcas.Go
open Lib Schema

-- The generated Go validators. A message is a pointer there, which can be
-- nil, and a validator looks at the fields of its own message alone.

/-- `fmt.Errorf` of a nil pointer, or a `liquidproto.Error` with the value. -/
inductive Error where
  | text (message : String)
  | liquid (violated : ValidationError) (value : Scalar)

abbrev Validated := Except Error Unit

def notNil (name : String) (message : Option α) : Except Error α :=
  match message with
  | none => .error (.text ("Validate" ++ name ++ ": nil *" ++ name))
  | some m => .ok m

/-- One field of a message: its predicate in Go, and the error where it fails. -/
def check (holds : Bool) (message field predicate : String) (value : Scalar) : Validated :=
  if holds then .ok () else .error (.liquid ⟨message, field, predicate⟩ value)

def len (value : String) : Nat := value.utf8ByteSize

/-- `regexp.MustCompile("^[0-9a-f]\x7b64\x7d$").MatchString(value)` -/
def matchString (value : String) : Bool := hexPattern.search value.toList

def checkHash (message field value : String) : Validated :=
  check (len value == 64 && matchString value) message field HASH_HEX_PREDICATE (.text value)

def checkNonEmpty (message field value : String) : Validated :=
  check (1 ≤ len value) message field NON_EMPTY_PREDICATE (.text value)

-- transfer.proto

def validateQueryReconstructionRequest (message : Option QueryReconstructionRequest) :
    Validated := do
  let m ← notNil "QueryReconstructionRequest" message
  checkHash "candace.xetcas.v1.QueryReconstructionRequest" "file_id" m.fileId

def validateCasReconstructionTerm (message : Option CasReconstructionTerm) : Validated := do
  let m ← notNil "CasReconstructionTerm" message
  checkHash "candace.xetcas.v1.CasReconstructionTerm" "hash" m.hash

def validateCasReconstructionFetchInfo (message : Option CasReconstructionFetchInfo) :
    Validated := do
  let m ← notNil "CasReconstructionFetchInfo" message
  checkNonEmpty "candace.xetcas.v1.CasReconstructionFetchInfo" "url" m.url

def validateXorbMultiRangeFetch (message : Option XorbMultiRangeFetch) : Validated := do
  let m ← notNil "XorbMultiRangeFetch" message
  checkNonEmpty "candace.xetcas.v1.XorbMultiRangeFetch" "url" m.url

def validateChunkDedupQuery (message : Option ChunkDedupQuery) : Validated := do
  let m ← notNil "ChunkDedupQuery" message
  checkNonEmpty "candace.xetcas.v1.ChunkDedupQuery" "prefix" m.pathPrefix
  checkHash "candace.xetcas.v1.ChunkDedupQuery" "hash" m.hash

def validateUploadXorbKey (message : Option UploadXorbKey) : Validated := do
  let m ← notNil "UploadXorbKey" message
  checkNonEmpty "candace.xetcas.v1.UploadXorbKey" "prefix" m.pathPrefix
  checkHash "candace.xetcas.v1.UploadXorbKey" "hash" m.hash

def validateUploadShardResponse (message : Option UploadShardResponse) : Validated := do
  let m ← notNil "UploadShardResponse" message
  check (m.result ≤ 1) "candace.xetcas.v1.UploadShardResponse" "result" "this <= 1"
    (.number m.result.toNat)

-- storage.proto

def validateXorbRecord (message : Option XorbRecord) : Validated := do
  let m ← notNil "XorbRecord" message
  checkHash "candace.xetcas.v1.XorbRecord" "xorb_hash" m.xorbHash
  check (m.numChunks ≥ 1 && m.numChunks ≤ 8192) "candace.xetcas.v1.XorbRecord" "num_chunks"
    "this >= 1 && this <= 8192" (.number m.numChunks.toNat)
  check (m.unpackedLength ≤ 67108864) "candace.xetcas.v1.XorbRecord" "unpacked_length"
    "this <= 67108864" (.number m.unpackedLength.toNat)

def validateFileTermRecord (message : Option FileTermRecord) : Validated := do
  let m ← notNil "FileTermRecord" message
  checkHash "candace.xetcas.v1.FileTermRecord" "xorb_hash" m.xorbHash

def validateFileRecord (message : Option FileRecord) : Validated := do
  let m ← notNil "FileRecord" message
  checkHash "candace.xetcas.v1.FileRecord" "file_hash" m.fileHash
  check (len m.sha256 == 0 || (len m.sha256 == 64 && matchString m.sha256))
    "candace.xetcas.v1.FileRecord" "sha256"
    "len(this) == 0 || (len(this) == 64 && matches(this, \"^[0-9a-f]\x7b64\x7d$\"))"
    (.text m.sha256)

-- bridge.proto

def validateLfsObjectSpec (message : Option LfsObjectSpec) : Validated := do
  let m ← notNil "LfsObjectSpec" message
  checkHash "candace.xetcas.v1.LfsObjectSpec" "oid" m.oid

def validateLfsBatchRequest (message : Option LfsBatchRequest) : Validated := do
  let m ← notNil "LfsBatchRequest" message
  check (m.operation == "upload" || m.operation == "download")
    "candace.xetcas.v1.LfsBatchRequest" "operation" "this == \"upload\" || this == \"download\""
    (.text m.operation)
  check (len m.hashAlgo == 0 || m.hashAlgo == "sha256")
    "candace.xetcas.v1.LfsBatchRequest" "hash_algo" "len(this) == 0 || this == \"sha256\""
    (.text m.hashAlgo)

def validateLfsAction (message : Option LfsAction) : Validated := do
  let m ← notNil "LfsAction" message
  checkNonEmpty "candace.xetcas.v1.LfsAction" "href" m.href

def validateLfsBatchResponse (message : Option LfsBatchResponse) : Validated := do
  let m ← notNil "LfsBatchResponse" message
  check (m.transfer == "xet" || m.transfer == "basic") "candace.xetcas.v1.LfsBatchResponse"
    "transfer" "this == \"xet\" || this == \"basic\"" (.text m.transfer)

def validateCasTokenInfo (message : Option CasTokenInfo) : Validated := do
  let m ← notNil "CasTokenInfo" message
  checkNonEmpty "candace.xetcas.v1.CasTokenInfo" "cas_url" m.casUrl
  checkNonEmpty "candace.xetcas.v1.CasTokenInfo" "access_token" m.accessToken

/-- The generated `Validate` function of a message's type, if there is one, on
the message. -/
def validate? : Message → Option Validated
  | .queryReconstructionRequest v => some (validateQueryReconstructionRequest (some v))
  | .casReconstructionTerm v => some (validateCasReconstructionTerm (some v))
  | .casReconstructionFetchInfo v => some (validateCasReconstructionFetchInfo (some v))
  | .xorbMultiRangeFetch v => some (validateXorbMultiRangeFetch (some v))
  | .chunkDedupQuery v => some (validateChunkDedupQuery (some v))
  | .uploadXorbKey v => some (validateUploadXorbKey (some v))
  | .uploadShardResponse v => some (validateUploadShardResponse (some v))
  | .xorbRecord v => some (validateXorbRecord (some v))
  | .fileTermRecord v => some (validateFileTermRecord (some v))
  | .fileRecord v => some (validateFileRecord (some v))
  | .lfsObjectSpec v => some (validateLfsObjectSpec (some v))
  | .lfsBatchRequest v => some (validateLfsBatchRequest (some v))
  | .lfsAction v => some (validateLfsAction (some v))
  | .lfsBatchResponse v => some (validateLfsBatchResponse (some v))
  | .casTokenInfo v => some (validateCasTokenInfo (some v))
  | _ => none

end Xetcas.Go
