import Xetcas.Contracts.Schema
import Xetcas.Lib.Json

-- The JSON documents of the messages: the serde attributes of their fields.

namespace Xetcas
open Lib Lib.Json

def mapIsEmpty {A : Type} (map : Table String A) : Bool := map.rows.isEmpty

theorem mapIsEmpty_iff {A : Type} {map : Table String A} :
    mapIsEmpty map = true ↔ map = .empty := by
  rw [mapIsEmpty, List.isEmpty_iff]
  exact ⟨fun h => Table.eq_of_rows h, fun h => by rw [h]; rfl⟩

def isZeroU64 (value : UInt64) : Bool := value == 0

def IndexRange.json : Layout IndexRange where
  blank := ⟨0, 0⟩
  members := [
    { name := "start", form := .uint32, get := start, set := fun r a => { r with start := a } },
    { name := "end", form := .uint32, get := stop, set := fun r a => { r with stop := a } }]

def ByteRange.json : Layout ByteRange where
  blank := ⟨0, 0⟩
  members := [
    { name := "start", form := .uint64, get := start, set := fun r a => { r with start := a } },
    { name := "end", form := .uint64, get := stop, set := fun r a => { r with stop := a } }]

def QueryReconstructionRequest.json : Layout QueryReconstructionRequest where
  blank := ⟨"", none⟩
  members := [
    { name := "file_id", form := .string, get := fileId, set := fun r a => { r with fileId := a } },
    { name := "range", form := ByteRange.json.optional, get := range,
      set := fun r a => { r with range := a }, missing := some none }]

def CasReconstructionTerm.json : Layout CasReconstructionTerm where
  blank := ⟨"", none, 0⟩
  members := [
    { name := "hash", form := .string, get := hash, set := fun r a => { r with hash := a } },
    { name := "range", form := IndexRange.json.optional, get := range,
      set := fun r a => { r with range := a }, missing := some none },
    { name := "unpacked_length", form := .uint32, get := unpackedLength,
      set := fun r a => { r with unpackedLength := a } }]

def CasReconstructionFetchInfo.json : Layout CasReconstructionFetchInfo where
  blank := ⟨none, "", none⟩
  members := [
    { name := "range", form := IndexRange.json.optional, get := range,
      set := fun r a => { r with range := a }, missing := some none },
    { name := "url", form := .string, get := url, set := fun r a => { r with url := a } },
    { name := "url_range", form := ByteRange.json.optional, get := urlRange,
      set := fun r a => { r with urlRange := a }, missing := some none }]

def FetchInfoList.json : Form FetchInfoList :=
  .transparent (.list CasReconstructionFetchInfo.json.form) entries (fun entries => ⟨entries⟩)
    (fun _ => rfl)

def QueryReconstructionResponse.json : Layout QueryReconstructionResponse where
  blank := ⟨0, [], .empty⟩
  members := [
    { name := "offset_into_first_range", form := .uint64, get := offsetIntoFirstRange,
      set := fun r a => { r with offsetIntoFirstRange := a } },
    { name := "terms", form := .list CasReconstructionTerm.json.form, get := terms,
      set := fun r a => { r with terms := a } },
    { name := "fetch_info", form := .map FetchInfoList.json, get := fetchInfo,
      set := fun r a => { r with fetchInfo := a } }]

def XorbRangeDescriptor.json : Layout XorbRangeDescriptor where
  blank := ⟨none, none⟩
  members := [
    { name := "chunks", form := IndexRange.json.optional, get := chunks,
      set := fun r a => { r with chunks := a }, missing := some none },
    { name := "bytes", form := ByteRange.json.optional, get := bytes,
      set := fun r a => { r with bytes := a }, missing := some none }]

def XorbMultiRangeFetch.json : Layout XorbMultiRangeFetch where
  blank := ⟨"", []⟩
  members := [
    { name := "url", form := .string, get := url, set := fun r a => { r with url := a } },
    { name := "ranges", form := .list XorbRangeDescriptor.json.form, get := ranges,
      set := fun r a => { r with ranges := a } }]

def XorbFetchList.json : Form XorbFetchList :=
  .transparent (.list XorbMultiRangeFetch.json.form) entries (fun entries => ⟨entries⟩)
    (fun _ => rfl)

def QueryReconstructionResponseV2.json : Layout QueryReconstructionResponseV2 where
  blank := ⟨0, [], .empty⟩
  members := [
    { name := "offset_into_first_range", form := .uint64, get := offsetIntoFirstRange,
      set := fun r a => { r with offsetIntoFirstRange := a } },
    { name := "terms", form := .list CasReconstructionTerm.json.form, get := terms,
      set := fun r a => { r with terms := a } },
    { name := "xorbs", form := .map XorbFetchList.json, get := xorbs,
      set := fun r a => { r with xorbs := a } }]

def ChunkDedupQuery.json : Layout ChunkDedupQuery where
  blank := ⟨"", ""⟩
  members := [
    { name := "prefix", form := .string, get := pathPrefix,
      set := fun r a => { r with pathPrefix := a } },
    { name := "hash", form := .string, get := hash, set := fun r a => { r with hash := a } }]

def UploadXorbKey.json : Layout UploadXorbKey where
  blank := ⟨"", ""⟩
  members := [
    { name := "prefix", form := .string, get := pathPrefix,
      set := fun r a => { r with pathPrefix := a } },
    { name := "hash", form := .string, get := hash, set := fun r a => { r with hash := a } }]

def UploadXorbResponse.json : Layout UploadXorbResponse where
  blank := ⟨false⟩
  members := [
    { name := "was_inserted", form := .bool, get := wasInserted,
      set := fun r a => { r with wasInserted := a } }]

def UploadShardResponse.json : Layout UploadShardResponse where
  blank := ⟨0⟩
  members := [
    { name := "result", form := .uint32, get := result, set := fun r a => { r with result := a } }]

def XorbRecord.json : Layout XorbRecord where
  blank := ⟨"", 0, 0, 0, [], [], [], 0⟩
  members := [
    { name := "xorb_hash", form := .string, get := xorbHash,
      set := fun r a => { r with xorbHash := a } },
    { name := "num_chunks", form := .uint32, get := numChunks,
      set := fun r a => { r with numChunks := a } },
    { name := "frames_length", form := .uint64, get := framesLength,
      set := fun r a => { r with framesLength := a } },
    { name := "unpacked_length", form := .uint64, get := unpackedLength,
      set := fun r a => { r with unpackedLength := a } },
    { name := "chunk_boundary_offsets", form := .list .uint32, get := chunkBoundaryOffsets,
      set := fun r a => { r with chunkBoundaryOffsets := a } },
    { name := "unpacked_chunk_offsets", form := .list .uint32, get := unpackedChunkOffsets,
      set := fun r a => { r with unpackedChunkOffsets := a } },
    { name := "chunk_hashes", form := .list .uint8, get := chunkHashes,
      set := fun r a => { r with chunkHashes := a } },
    { name := "created_at", form := .uint64, get := createdAt,
      set := fun r a => { r with createdAt := a } }]

def FileTermRecord.json : Layout FileTermRecord where
  blank := ⟨"", 0, 0, 0⟩
  members := [
    { name := "xorb_hash", form := .string, get := xorbHash,
      set := fun r a => { r with xorbHash := a } },
    { name := "chunk_index_start", form := .uint32, get := chunkIndexStart,
      set := fun r a => { r with chunkIndexStart := a } },
    { name := "chunk_index_end", form := .uint32, get := chunkIndexEnd,
      set := fun r a => { r with chunkIndexEnd := a } },
    { name := "unpacked_segment_bytes", form := .uint32, get := unpackedSegmentBytes,
      set := fun r a => { r with unpackedSegmentBytes := a } }]

def FileRecord.json : Layout FileRecord where
  blank := ⟨"", 0, "", [], [], 0⟩
  members := [
    { name := "file_hash", form := .string, get := fileHash,
      set := fun r a => { r with fileHash := a } },
    { name := "file_length", form := .uint64, get := fileLength,
      set := fun r a => { r with fileLength := a } },
    { name := "sha256", form := .string, get := sha256, set := fun r a => { r with sha256 := a } },
    { name := "terms", form := .list FileTermRecord.json.form, get := terms,
      set := fun r a => { r with terms := a } },
    { name := "verification_range_hashes", form := .list .uint8, get := verificationRangeHashes,
      set := fun r a => { r with verificationRangeHashes := a } },
    { name := "created_at", form := .uint64, get := createdAt,
      set := fun r a => { r with createdAt := a } }]

def LfsRef.json : Layout LfsRef where
  blank := ⟨""⟩
  members := [
    { name := "name", form := .string, get := name, set := fun r a => { r with name := a } }]

def LfsObjectSpec.json : Layout LfsObjectSpec where
  blank := ⟨"", 0⟩
  members := [
    { name := "oid", form := .string, get := oid, set := fun r a => { r with oid := a } },
    { name := "size", form := .uint64, get := size, set := fun r a => { r with size := a } }]

def LfsBatchRequest.json : Layout LfsBatchRequest where
  blank := ⟨"", [], none, [], ""⟩
  members := [
    { name := "operation", form := .string, get := operation,
      set := fun r a => { r with operation := a } },
    { name := "transfers", form := .list .string, get := transfers,
      set := fun r a => { r with transfers := a }, fallback := some [] },
    { name := "ref", form := LfsRef.json.optional, get := ref,
      set := fun r a => { r with ref := a }, skip := Option.isNone, fallback := some none },
    { name := "objects", form := .list LfsObjectSpec.json.form, get := objects,
      set := fun r a => { r with objects := a } },
    { name := "hash_algo", form := .string, get := hashAlgo,
      set := fun r a => { r with hashAlgo := a }, fallback := some "" }]

def LfsAction.json : Layout LfsAction where
  blank := ⟨"", .empty, 0⟩
  members := [
    { name := "href", form := .string, get := href, set := fun r a => { r with href := a } },
    { name := "header", form := .map .string, get := header,
      set := fun r a => { r with header := a },
      skip := mapIsEmpty, fallback := some .empty, skips := by simp [mapIsEmpty_iff] },
    { name := "expires_in", form := .uint64, get := expiresIn,
      set := fun r a => { r with expiresIn := a },
      skip := isZeroU64, fallback := some 0, skips := by simp [isZeroU64] }]

def LfsObjectError.json : Layout LfsObjectError where
  blank := ⟨0, ""⟩
  members := [
    { name := "code", form := .uint32, get := code, set := fun r a => { r with code := a } },
    { name := "message", form := .string, get := message,
      set := fun r a => { r with message := a } }]

def LfsBatchObject.json : Layout LfsBatchObject where
  blank := ⟨"", 0, false, .empty, none⟩
  members := [
    { name := "oid", form := .string, get := oid, set := fun r a => { r with oid := a } },
    { name := "size", form := .uint64, get := size, set := fun r a => { r with size := a } },
    { name := "authenticated", form := .bool, get := authenticated,
      set := fun r a => { r with authenticated := a }, skip := not, fallback := some false },
    { name := "actions", form := .map LfsAction.json.form, get := actions,
      set := fun r a => { r with actions := a },
      skip := mapIsEmpty, fallback := some .empty, skips := by simp [mapIsEmpty_iff] },
    { name := "error", form := LfsObjectError.json.optional, get := error,
      set := fun r a => { r with error := a }, skip := Option.isNone, fallback := some none }]

def LfsBatchResponse.json : Layout LfsBatchResponse where
  blank := ⟨"", [], ""⟩
  members := [
    { name := "transfer", form := .string, get := transfer,
      set := fun r a => { r with transfer := a } },
    { name := "objects", form := .list LfsBatchObject.json.form, get := objects,
      set := fun r a => { r with objects := a } },
    { name := "hash_algo", form := .string, get := hashAlgo,
      set := fun r a => { r with hashAlgo := a },
      skip := String.isEmpty, fallback := some "", skips := by simp }]

def CasTokenInfo.json : Layout CasTokenInfo where
  blank := ⟨"", 0, ""⟩
  members := [
    { name := "casUrl", form := .string, get := casUrl, set := fun r a => { r with casUrl := a } },
    { name := "exp", form := .uint64, get := exp, set := fun r a => { r with exp := a } },
    { name := "accessToken", form := .string, get := accessToken,
      set := fun r a => { r with accessToken := a } }]

namespace Schema

inductive Shape (m : Message) where
  | struct {R : Type} (layout : Layout R) (value : R) (message : R → Message)
    (same : message value = m)
  | list {R : Type} (form : Form R) (value : R) (message : R → Message)
    (same : message value = m)
    (bare : ∃ items, form.render value = .array items)

namespace Message

def shape : (m : Message) → Shape m
  | indexRange v => .struct IndexRange.json v indexRange rfl
  | byteRange v => .struct ByteRange.json v byteRange rfl
  | queryReconstructionRequest v =>
    .struct QueryReconstructionRequest.json v queryReconstructionRequest rfl
  | casReconstructionTerm v => .struct CasReconstructionTerm.json v casReconstructionTerm rfl
  | casReconstructionFetchInfo v =>
    .struct CasReconstructionFetchInfo.json v casReconstructionFetchInfo rfl
  | fetchInfoList v => .list FetchInfoList.json v fetchInfoList rfl ⟨_, rfl⟩
  | queryReconstructionResponse v =>
    .struct QueryReconstructionResponse.json v queryReconstructionResponse rfl
  | xorbRangeDescriptor v => .struct XorbRangeDescriptor.json v xorbRangeDescriptor rfl
  | xorbMultiRangeFetch v => .struct XorbMultiRangeFetch.json v xorbMultiRangeFetch rfl
  | xorbFetchList v => .list XorbFetchList.json v xorbFetchList rfl ⟨_, rfl⟩
  | queryReconstructionResponseV2 v =>
    .struct QueryReconstructionResponseV2.json v queryReconstructionResponseV2 rfl
  | chunkDedupQuery v => .struct ChunkDedupQuery.json v chunkDedupQuery rfl
  | uploadXorbKey v => .struct UploadXorbKey.json v uploadXorbKey rfl
  | uploadXorbResponse v => .struct UploadXorbResponse.json v uploadXorbResponse rfl
  | uploadShardResponse v => .struct UploadShardResponse.json v uploadShardResponse rfl
  | xorbRecord v => .struct XorbRecord.json v xorbRecord rfl
  | fileTermRecord v => .struct FileTermRecord.json v fileTermRecord rfl
  | fileRecord v => .struct FileRecord.json v fileRecord rfl
  | lfsRef v => .struct LfsRef.json v lfsRef rfl
  | lfsObjectSpec v => .struct LfsObjectSpec.json v lfsObjectSpec rfl
  | lfsBatchRequest v => .struct LfsBatchRequest.json v lfsBatchRequest rfl
  | lfsAction v => .struct LfsAction.json v lfsAction rfl
  | lfsObjectError v => .struct LfsObjectError.json v lfsObjectError rfl
  | lfsBatchObject v => .struct LfsBatchObject.json v lfsBatchObject rfl
  | lfsBatchResponse v => .struct LfsBatchResponse.json v lfsBatchResponse rfl
  | casTokenInfo v => .struct CasTokenInfo.json v casTokenInfo rfl

/-- `serde_json::to_value` -/
def document (m : Message) : Json :=
  match m.shape with
  | .struct layout value _ _ => layout.render value
  | .list form value _ _ _ => form.render value

/-- `serde_json::from_value`, to the type that `m` has. -/
def readLike (j : Json) (m : Message) : Option Message :=
  match m.shape with
  | .struct layout _ message _ => (layout.read j).map message
  | .list form _ message _ _ => (form.read j).map message

def memberNames (m : Message) : List String :=
  match m.shape with
  | .struct layout _ _ _ => layout.members.map Member.name
  | .list .. => []

end Message

end Schema

end Xetcas
