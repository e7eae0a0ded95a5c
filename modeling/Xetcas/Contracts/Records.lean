import Xetcas.Contracts.Messages
import Xetcas.Lib.WireMessage

-- How the messages of storage.proto are encoded: the tags and the types of
-- their fields.

namespace Xetcas
open Lib.Wire

def FileTermRecord.layout : Layout FileTermRecord where
  empty := ⟨"", 0, 0, 0⟩
  slots := [
    { tag := 1, kind := .string, get := xorbHash, set := fun r a => { r with xorbHash := a } },
    { tag := 2, kind := .uint32, get := chunkIndexStart,
      set := fun r a => { r with chunkIndexStart := a } },
    { tag := 3, kind := .uint32, get := chunkIndexEnd,
      set := fun r a => { r with chunkIndexEnd := a } },
    { tag := 4, kind := .uint32, get := unpackedSegmentBytes,
      set := fun r a => { r with unpackedSegmentBytes := a } }]
  distinct := by decide
  unset := by simp [Kind.string, Kind.uint32]
  apart := by simp
  whole := by simp

def XorbRecord.layout : Layout XorbRecord where
  empty := ⟨"", 0, 0, 0, [], [], [], 0⟩
  slots := [
    { tag := 1, kind := .string, get := xorbHash, set := fun r a => { r with xorbHash := a } },
    { tag := 2, kind := .uint32, get := numChunks, set := fun r a => { r with numChunks := a } },
    { tag := 3, kind := .uint64, get := framesLength,
      set := fun r a => { r with framesLength := a } },
    { tag := 4, kind := .uint64, get := unpackedLength,
      set := fun r a => { r with unpackedLength := a } },
    { tag := 5, kind := .packed, get := chunkBoundaryOffsets,
      set := fun r a => { r with chunkBoundaryOffsets := a } },
    { tag := 6, kind := .packed, get := unpackedChunkOffsets,
      set := fun r a => { r with unpackedChunkOffsets := a } },
    { tag := 7, kind := .bytes, get := chunkHashes,
      set := fun r a => { r with chunkHashes := a } },
    { tag := 8, kind := .uint64, get := createdAt, set := fun r a => { r with createdAt := a } }]
  distinct := by decide
  unset := by simp [Kind.string, Kind.uint32, Kind.uint64, Kind.packed, Kind.bytes]
  apart := by simp
  whole := by simp

def FileRecord.layout : Layout FileRecord where
  empty := ⟨"", 0, "", [], [], 0⟩
  slots := [
    { tag := 1, kind := .string, get := fileHash, set := fun r a => { r with fileHash := a } },
    { tag := 2, kind := .uint64, get := fileLength, set := fun r a => { r with fileLength := a } },
    { tag := 3, kind := .string, get := sha256, set := fun r a => { r with sha256 := a } },
    { tag := 4, kind := .messages (RECURSION_LIMIT - 1) FileTermRecord.layout, get := terms,
      set := fun r a => { r with terms := a } },
    { tag := 5, kind := .bytes, get := verificationRangeHashes,
      set := fun r a => { r with verificationRangeHashes := a } },
    { tag := 6, kind := .uint64, get := createdAt, set := fun r a => { r with createdAt := a } }]
  distinct := by decide
  unset := by simp [Kind.string, Kind.uint64, Kind.bytes, Kind.messages]
  apart := by simp
  whole := by simp

end Xetcas
