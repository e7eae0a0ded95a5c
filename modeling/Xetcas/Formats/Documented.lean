import Mathlib.Algebra.Group.Action.Defs
import Mathlib.Algebra.Order.BigOperators.Group.List
import Xetcas.Formats.Shard
import Xetcas.Formats.Xorb

namespace Xetcas.Formats
open Lib
variable (P : Primitives)

/-- The upstream crates, as the documents of the repository describe them. -/
def documented : Upstream where
  hex := hex
  fromHex := fromHex
  computeDataHash := computeDataHash P
  reconstructXorbWithFooter := reconstructXorbWithFooter P
  hashIsGlobalDedupEligible := fun m => lastWordMod m 1024 == 0
  fileHash := fun nodes => fileHash P (nodes.map (fun node => (node.1, node.2.toNat)))
  rangeHashFromChunks := rangeHashFromChunks P
  minimalShard := minimalShard
  deserializeChunk := deserializeChunk P
  sha256Hex := fun data => hexText (P.sha256 data).bytes
  addXorbBlock := .ok
  shardToBytes := fun block => .ok (shardToBytes P block)
  exportAsKeyedShard := exportAsKeyedShard P

theorem documented_hexRoundTrip : (documented P).HexRoundTrip := hex_roundTrip

theorem documented_hexForm : (documented P).HexForm := hex_form

theorem documented_hexInjective : (documented P).HexInjective := hex_injective

/-- Frames in front, a footer that describes them. -/
theorem documented_framesDecode : (documented P).FramesDecode := by
  intro body stored info m h
  obtain ⟨parsed, hparsed, hrest⟩ := bind_eq_ok.mp h
  obtain ⟨hfit, he⟩ := guard_eq_ok.mp hrest
  simp only [not_or, Nat.not_le] at hfit
  obtain ⟨hboundary, hunpacked⟩ := hfit
  cases he
  have hframe := parseFrames_frame hparsed
  have hcount : parsed.length < UInt32.size := by
    have hheaders : (parsed.map Prod.fst).length • 8 ≤ ((parsed.map Prod.fst).map List.length).sum := by
      have hle := List.card_nsmul_le_sum ((parsed.map Prod.fst).map List.length) 8 (by
        intro n hn
        obtain ⟨frame, hmem, rfl⟩ := List.mem_map.mp hn
        obtain ⟨p, hp, rfl⟩ := List.mem_map.mp hmem
        exact (hframe p hp).1)
      simpa using hle
    rw [List.length_flatten] at hboundary
    simp only [List.length_map, smul_eq_mul] at hheaders
    omega
  rw [List.length_flatten] at hboundary hunpacked
  refine ⟨parsed.map Prod.fst, parsed.map Prod.snd, ⟨?_, ?_⟩, ⟨?_, ?_, ?_, ?_⟩⟩
  · apply List.forall₂_map_left_iff.mpr
    apply List.forall₂_map_right_iff.mpr
    apply List.forall₂_same.mpr
    exact hframe
  · exact ⟨_, (List.append_assoc _ _ _).symm⟩
  · simpa using UInt32.toNat_ofNat_of_lt' (by simpa using hcount)
  · exact map_toNat_ofNat hboundary
  · exact map_toNat_ofNat hunpacked
  · rfl

section Sample

def letterHash : MerkleHash :=
  ⟨[178, 54, 191, 244, 254, 27, 153, 225, 49, 53, 53, 113, 215, 12, 73, 31,
    148, 238, 62, 130, 51, 88, 64, 140, 77, 13, 53, 229, 24, 49, 192, 26], rfl⟩

def letterFileHash : MerkleHash :=
  ⟨[198, 114, 108, 13, 126, 39, 117, 236, 50, 205, 133, 115, 108, 125, 247, 117,
    15, 61, 23, 32, 14, 151, 203, 122, 77, 180, 60, 110, 70, 233, 236, 231], rfl⟩

def letterSha256 : MerkleHash :=
  ⟨[85, 154, 234, 208, 130, 100, 213, 121, 93, 57, 9, 113, 140, 221, 5, 171,
    212, 149, 114, 232, 79, 229, 85, 144, 238, 243, 26, 136, 160, 143, 223, 253], rfl⟩

def emptySha256 : MerkleHash :=
  ⟨[227, 176, 196, 66, 152, 252, 28, 20, 154, 251, 244, 200, 153, 111, 185, 36,
    39, 174, 65, 228, 100, 155, 147, 76, 164, 149, 153, 27, 120, 82, 184, 85], rfl⟩

def letterLz4 : Bytes := [4, 34, 77, 24, 96, 64, 130, 1, 0, 0, 128, 65, 0, 0, 0, 0]

/-- The chunks B, CD and E, and their xorb. -/
def wordHashes : List MerkleHash := [
  ⟨[224, 214, 140, 64, 169, 148, 240, 135, 130, 117, 48, 204, 1, 53, 240, 121,
    237, 74, 105, 122, 173, 99, 155, 178, 76, 85, 4, 67, 198, 22, 224, 107], rfl⟩,
  ⟨[97, 61, 216, 0, 189, 155, 105, 37, 76, 153, 171, 39, 205, 194, 110, 25,
    167, 223, 18, 67, 242, 18, 112, 170, 65, 67, 109, 156, 226, 101, 140, 211], rfl⟩,
  ⟨[205, 13, 220, 67, 236, 111, 16, 110, 91, 231, 56, 33, 127, 33, 213, 237,
    104, 108, 157, 203, 207, 87, 158, 113, 207, 230, 144, 122, 151, 232, 192, 161], rfl⟩]

def wordHash : MerkleHash :=
  ⟨[247, 132, 60, 67, 218, 62, 80, 216, 164, 16, 238, 120, 229, 151, 209, 48,
    64, 147, 199, 197, 131, 117, 186, 197, 204, 75, 247, 169, 124, 245, 111, 152], rfl⟩

/-- The file CDEA: its tree, and its hash. -/
def wordTreeHash : MerkleHash :=
  ⟨[187, 166, 185, 186, 31, 139, 242, 122, 24, 196, 16, 125, 19, 205, 217, 216,
    231, 73, 205, 210, 200, 13, 46, 185, 108, 50, 178, 215, 3, 157, 223, 234], rfl⟩

def wordFileHash : MerkleHash :=
  ⟨[0, 112, 183, 117, 108, 232, 25, 91, 187, 158, 165, 190, 195, 125, 151, 122,
    153, 146, 28, 46, 202, 251, 46, 167, 214, 73, 241, 32, 198, 151, 235, 82], rfl⟩

def wordSha256 : MerkleHash :=
  ⟨[146, 142, 53, 42, 132, 212, 89, 217, 203, 169, 132, 209, 224, 253, 183, 242,
    46, 224, 43, 231, 4, 176, 197, 71, 249, 21, 11, 223, 102, 87, 64, 200], rfl⟩

/-- The range hashes of its terms, CDE and A. -/
def wordRangeHash : MerkleHash :=
  ⟨[237, 170, 58, 87, 38, 211, 206, 248, 251, 65, 99, 130, 154, 231, 203, 115,
    188, 132, 31, 142, 57, 103, 186, 64, 149, 77, 9, 88, 118, 12, 60, 226], rfl⟩

def letterRangeHash : MerkleHash :=
  ⟨[26, 81, 84, 188, 32, 174, 155, 27, 86, 70, 8, 221, 239, 36, 45, 144,
    78, 77, 133, 154, 92, 106, 38, 101, 51, 212, 248, 219, 21, 39, 47, 34], rfl⟩

/-- A key, and the chunks of the word under it. -/
def probeKey : MerkleHash := ⟨(List.range 32).map (fun i => UInt8.ofNat (i + 1)), by decide⟩

def keyedWordHashes : List MerkleHash := [
  ⟨[174, 231, 29, 2, 226, 47, 244, 183, 96, 71, 151, 110, 30, 100, 95, 140,
    193, 246, 219, 31, 41, 63, 92, 4, 84, 75, 75, 187, 156, 46, 176, 100], rfl⟩,
  ⟨[218, 149, 139, 61, 107, 80, 216, 222, 140, 141, 240, 215, 147, 168, 8, 81,
    186, 146, 119, 135, 206, 144, 61, 67, 159, 144, 92, 248, 26, 178, 10, 128], rfl⟩,
  ⟨[130, 41, 47, 214, 199, 141, 255, 51, 24, 140, 52, 100, 68, 208, 234, 45,
    117, 38, 160, 242, 49, 54, 130, 103, 27, 14, 87, 4, 55, 239, 2, 106], rfl⟩]

/-- The text that a node of the merkle tree hashes. -/
def nodeText (nodes : List (MerkleHash × Nat)) : Bytes :=
  nodes.flatMap (fun node => s!"{hex node.1} : {node.2}\n".toUTF8.data.toList)

def wordChunk (i : Nat) : MerkleHash := wordHashes.getD i zeroHash

def sampleDigests (key : Bytes) : List (Bytes × MerkleHash) :=
  if key = DATA_KEY then
    [([65], letterHash), ([66], wordChunk 0), ([67, 68], wordChunk 1), ([69], wordChunk 2)]
  else if key = zeroHash.bytes then
    [(letterHash.bytes, letterFileHash), (wordTreeHash.bytes, wordFileHash)]
  else if key = INTERNAL_NODE_HASH then
    [(nodeText [(wordChunk 0, 1), (wordChunk 1, 2), (wordChunk 2, 1)], wordHash),
      (nodeText [(wordChunk 1, 2), (wordChunk 2, 1), (letterHash, 1)], wordTreeHash)]
  else if key = VERIFICATION_KEY then
    [((wordChunk 1).bytes ++ (wordChunk 2).bytes, wordRangeHash),
      (letterHash.bytes, letterRangeHash)]
  else if key = probeKey.bytes then (wordHashes.map MerkleHash.bytes).zip keyedWordHashes
  else []

def sample : Primitives where
  keyedHash := fun key message => (rowOf message (sampleDigests key)).getD zeroHash
  sha256 := fun data => (rowOf data
    [([65], letterSha256), ([], emptySha256), ([67, 68, 69, 65], wordSha256)]).getD zeroHash
  decompress := fun scheme payload =>
    if scheme = 0 then some payload
    else if scheme = 1 ∧ payload = letterLz4 then some [65]
    else none
  now := 2

def plainBody : Bytes := [0, 1, 0, 0, 0, 1, 0, 0, 65]
def packedBody : Bytes := [0, 16, 0, 0, 1, 1, 0, 0] ++ letterLz4

def wordBody : Bytes :=
  [0, 1, 0, 0, 0, 1, 0, 0, 66, 0, 2, 0, 0, 0, 2, 0, 0, 67, 68, 0, 1, 0, 0, 0, 1, 0, 0, 69]

def letterHex : String := hex letterHash

/-- The oid of the letter, and the hash a shard carries for it. -/
def letterOid : String := hexText letterSha256.bytes
def letterMetadata : MerkleHash := ⟨swapGroups 4 letterSha256.bytes, by decide⟩

def wordOid : String := hexText wordSha256.bytes
def wordMetadata : MerkleHash := ⟨swapGroups 4 wordSha256.bytes, by decide⟩

def letterShard (sha256 : Option MerkleHash) : Bytes :=
  MDB_SHARD_HEADER_TAG ++ u32Bytes 2 ++ u32Bytes 0 ++ u32Bytes 0 ++ u32Bytes 0 ++
    mdbEntry letterFileHash (if sha256.isSome then MDB_FILE_FLAG_WITH_METADATA_EXT.toNat else 0)
      1 0 0 ++
    mdbEntry letterHash 0 1 0 1 ++ sha256.toList.flatMap (mdbEntry · 0 0 0 0) ++
    mdbEntry bookend 0 0 0 0 ++ mdbEntry bookend 0 0 0 0

/-- A shard of the file CDEA: two chunks of the word and the letter, with their
range hashes and its SHA-256. -/
def wordShard : Bytes :=
  MDB_SHARD_HEADER_TAG ++ u64Bytes 2 ++ u64Bytes 0 ++
    mdbEntry wordFileHash
      (MDB_FILE_FLAG_WITH_VERIFICATION ||| MDB_FILE_FLAG_WITH_METADATA_EXT).toNat 2 0 0 ++
    mdbEntry wordHash 0 3 1 3 ++ mdbEntry letterHash 0 1 0 1 ++
    mdbEntry wordRangeHash 0 0 0 0 ++ mdbEntry letterRangeHash 0 0 0 0 ++
    mdbEntry wordMetadata 0 0 0 0 ++
    mdbEntry bookend 0 0 0 0 ++ mdbEntry bookend 0 0 0 0

end Sample

end Xetcas.Formats
