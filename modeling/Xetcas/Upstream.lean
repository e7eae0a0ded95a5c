import Xetcas.Contracts.Validate
import Xetcas.Lib.Cumulative

namespace Xetcas
open Lib

/-- A hash: 32 raw bytes. -/
structure MerkleHash where
  bytes : Bytes
  size : bytes.length = HASH_BYTES
  deriving DecidableEq

def MerkleHash.fromSlice (bytes : Bytes) : Option MerkleHash :=
  if size : bytes.length = HASH_BYTES then some ⟨bytes, size⟩ else none

structure XorbInfo where
  numChunks : UInt32
  chunkBoundaryOffsets : List UInt32
  unpackedChunkOffsets : List UInt32
  chunkHashes : List MerkleHash

structure FileSequenceEntry where
  xorbHash : MerkleHash
  chunkIndexStart : UInt32
  chunkIndexEnd : UInt32
  unpackedSegmentBytes : UInt32

/-- A file of a shard. Its entries are counted by a `u32`; a file with
verification entries has one for each of them. -/
structure FileView where
  fileHash : MerkleHash
  entries : List FileSequenceEntry
  verification : Option (List MerkleHash)
  metadataExt : Option MerkleHash
  numEntries : entries.length < 2 ^ 32
  numVerification : ∀ v ∈ verification, v.length = entries.length

structure XorbView where
  xorbHash : MerkleHash
  chunks : List (MerkleHash × UInt32)

/-- `MDBMinimalShard`. A section can turn out to be cut short. -/
structure MinimalShard where
  files : List (Option FileView)
  xorbs : List (Option XorbView)

def MDB_CHUNK_WITH_GLOBAL_DEDUP_FLAG : UInt32 := 0x80000000
def XORB_CHUNK_HEADER_LENGTH : Nat := 8

/-- In seconds. -/
def DEDUP_KEY_VALIDITY : Nat := 24 * 60 * 60

/-- What the server makes a dedup shard of. -/
structure XorbChunkEntry where
  chunkHash : MerkleHash
  unpackedSegmentBytes : UInt32
  chunkByteRangeStart : UInt32

structure MDBXorbInfo where
  xorbHash : MerkleHash
  numEntries : UInt32
  numBytesInXorb : UInt32
  numBytesOnDisk : UInt32
  chunks : List XorbChunkEntry

/-- The functions of the xet-core and sha2 crates that the server calls. Errors
carry the text they display. -/
structure Upstream where
  hex : MerkleHash → String
  fromHex : String → Except String MerkleHash
  /-- The hash of a chunk's content. -/
  computeDataHash : Bytes → MerkleHash
  /-- The bytes to store, what their footer says, and the xorb's hash. -/
  reconstructXorbWithFooter : Bytes → Except String (Bytes × XorbInfo × MerkleHash)
  hashIsGlobalDedupEligible : MerkleHash → Bool
  fileHash : List (MerkleHash × UInt64) → MerkleHash
  rangeHashFromChunks : List MerkleHash → MerkleHash
  minimalShard : Bytes → Except String MinimalShard
  /-- One chunk read off the front: its content and what follows. -/
  deserializeChunk : Bytes → Except String (Bytes × Bytes)
  /-- SHA-256 in lowercase hex. -/
  sha256Hex : Bytes → String
  /-- An in-memory shard of one xorb block. -/
  addXorbBlock : MDBXorbInfo → Except String MDBXorbInfo
  shardToBytes : MDBXorbInfo → Except String Bytes
  exportAsKeyedShard : Bytes → MerkleHash → Except String Bytes

namespace Upstream
variable (U : Upstream)

/-- `frame` is one chunk frame, header included: a read that starts with it
takes exactly it and returns `content`. -/
def IsFrame (frame content : Bytes) : Prop :=
  XORB_CHUNK_HEADER_LENGTH ≤ frame.length ∧
    ∀ rest, U.deserializeChunk (frame ++ rest) = .ok (content, rest)

/-- Stored bytes begin with chunk frames that decode to `chunks`. -/
structure Layout (stored : Bytes) (frames chunks : List Bytes) : Prop where
  decodes : List.Forall₂ U.IsFrame frames chunks
  starts : frames.flatten <+: stored

/-- What the footer of a stored xorb says about its frames. -/
structure Describes (info : XorbInfo) (frames chunks : List Bytes) : Prop where
  numChunks : info.numChunks.toNat = chunks.length
  boundary : info.chunkBoundaryOffsets.map UInt32.toNat = endsOf (frames.map List.length)
  unpacked : info.unpackedChunkOffsets.map UInt32.toNat = endsOf (chunks.map List.length)
  hashes : info.chunkHashes = chunks.map U.computeDataHash

/-- `hex` writes back what `from_hex` reads, for the lowercase form. -/
def HexRoundTrip : Prop :=
  ∀ s m, isHashHex s = true → U.fromHex s = .ok m → U.hex m = s

def HexForm : Prop := ∀ m, isHashHex (U.hex m) = true

/-- Two hashes never share a hex form. -/
def HexInjective : Prop := ∀ m m', U.hex m = U.hex m' → m = m'

/-- The offsets of a parsed xorb are cumulative: every frame has its header,
and no chunk has a negative length. -/
def CumulativeOffsets : Prop :=
  ∀ body stored info m, U.reconstructXorbWithFooter body = .ok (stored, info, m) →
    (∀ i < info.chunkBoundaryOffsets.length,
      startOf (info.chunkBoundaryOffsets.map UInt32.toNat) i + XORB_CHUNK_HEADER_LENGTH ≤
        startOf (info.chunkBoundaryOffsets.map UInt32.toNat) (i + 1)) ∧
    info.unpackedChunkOffsets.Pairwise (· ≤ ·)

/-- A parsed xorb is stored with its frames in front, and its footer describes
them. -/
def FramesDecode : Prop :=
  ∀ body stored info m, U.reconstructXorbWithFooter body = .ok (stored, info, m) →
    ∃ frames chunks, U.Layout stored frames chunks ∧ U.Describes info frames chunks

/-- Decodable frames end where the footer says, so its offsets are cumulative. -/
theorem FramesDecode.cumulativeOffsets {U : Upstream} (h : U.FramesDecode) :
    U.CumulativeOffsets := by
  intro body stored info m hparse
  obtain ⟨frames, chunks, hlayout, hinfo⟩ := h body stored info m hparse
  refine ⟨?_, ?_⟩
  · intro i hi
    have hlen := congrArg List.length hinfo.boundary
    simp only [List.length_map, length_endsOf] at hlen
    have hi' : i < frames.length := by omega
    obtain ⟨content, _, hframe⟩ := partner hlayout.decodes (List.getElem_mem hi')
    have hheader := hframe.1
    rw [hinfo.boundary, startOf_endsOf _ (by simp; omega), startOf_endsOf _ (by simp; omega),
      List.sum_take_succ _ i (by simpa using hi')]
    simpa using hheader
  · have hends := endsOf_pairwise (chunks.map List.length)
    rw [← hinfo.unpacked, List.pairwise_map] at hends
    exact hends.imp (fun hle => hle)

end Upstream

end Xetcas
