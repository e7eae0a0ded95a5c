import Mathlib.Data.List.Sort
import Xetcas.Formats.Hash

namespace Xetcas.Formats
open Lib

-- Shards (section 4), as far as uploads carry them: a header and the file and
-- xorb sections, in entries of 48 bytes.

def MDB_ENTRY_SIZE : Nat := 48

def MDB_SHARD_HEADER_TAG : Bytes :=
  [72, 70, 82, 101, 112, 111, 77, 101, 116, 97, 68, 97, 116, 97,
    0, 85, 105, 103, 69, 106, 123, 129, 87, 131, 165, 189, 217, 92, 205, 209, 74, 169]

/-- Bits 31 and 30 of the file flags. -/
def MDB_FILE_FLAG_WITH_VERIFICATION : UInt32 := 0x80000000
def MDB_FILE_FLAG_WITH_METADATA_EXT : UInt32 := 0x40000000

def bookend : MerkleHash := ⟨List.replicate 32 255, by decide⟩

def hashAt (bytes : Bytes) (offset : Nat) : MerkleHash where
  bytes := (List.range 32).map (fun i => bytes.getD (offset + i) 0)
  size := by simp [HASH_BYTES]

def u32At (bytes : Bytes) (offset : Nat) : UInt32 :=
  UInt32.ofNat ((bytes.getD offset 0).toNat + 256 * (bytes.getD (offset + 1) 0).toNat +
    65536 * (bytes.getD (offset + 2) 0).toNat + 16777216 * (bytes.getD (offset + 3) 0).toNat)

def takeEntries (n : Nat) (bytes : Bytes) : Option ({entries : List Bytes // entries.length = n} × Bytes) :=
  match n with
  | 0 => some (⟨[], rfl⟩, bytes)
  | n + 1 =>
    if bytes.length < MDB_ENTRY_SIZE then none
    else (takeEntries n (bytes.drop MDB_ENTRY_SIZE)).map (fun r =>
      (⟨bytes.take MDB_ENTRY_SIZE :: r.1.1, by simp [r.1.2]⟩, r.2))

def fileEntry (bytes : Bytes) : FileSequenceEntry where
  xorbHash := hashAt bytes 0
  chunkIndexStart := u32At bytes 40
  chunkIndexEnd := u32At bytes 44
  unpackedSegmentBytes := u32At bytes 36

def readFile (header bytes : Bytes) : Option (FileView × Bytes) := do
  let flags := u32At header 32
  let n := u32At header 36
  let (entries, bytes) ← takeEntries n.toNat bytes
  let withVerification := flags &&& MDB_FILE_FLAG_WITH_VERIFICATION ≠ 0
  let (verification, bytes) ← takeEntries (if withVerification then n.toNat else 0) bytes
  let withMetadata := flags &&& MDB_FILE_FLAG_WITH_METADATA_EXT ≠ 0
  let (metadata, bytes) ← takeEntries (if withMetadata then 1 else 0) bytes
  some ({
    fileHash := hashAt header 0
    entries := entries.1.map fileEntry
    verification := if withVerification then some (verification.1.map (hashAt · 0)) else none
    metadataExt := metadata.1.head?.map (hashAt · 0)
    numEntries := by
      rw [List.length_map, entries.2]
      exact n.toNat_lt
    numVerification := by
      intro v hv
      split at hv
      · rename_i hwith
        cases hv
        simp [entries.2, verification.2, hwith]
      · cases hv }, bytes)

def readXorb (header bytes : Bytes) : Option (XorbView × Bytes) := do
  let (entries, bytes) ← takeEntries (u32At header 36).toNat bytes
  some (⟨hashAt header 0, entries.1.map (fun e => (hashAt e 0, u32At e 40))⟩, bytes)

/-- The blocks of a section, up to its bookend. -/
def readSection {α : Type} (read : Bytes → Bytes → Option (α × Bytes)) :
    Nat → Bytes → Option (List α × Bytes)
  | 0, _ => none
  | fuel + 1, bytes => do
    let (header, bytes) ← takeEntries 1 bytes
    let header := header.1.headD []
    if hashAt header 0 = bookend then some ([], bytes)
    else
      let (block, bytes) ← read header bytes
      let (more, bytes) ← readSection read fuel bytes
      some (block :: more, bytes)

/-- `MDBMinimalShard::from_reader`. -/
def minimalShard (body : Bytes) : Except String MinimalShard :=
  let sections := do
    let (header, bytes) ← takeEntries 1 body
    if (header.1.headD []).take 32 ≠ MDB_SHARD_HEADER_TAG then none
    else
      let (files, bytes) ← readSection readFile body.length bytes
      let (xorbs, _) ← readSection readXorb body.length bytes
      some (files, xorbs)
  match sections with
  | none => .error "invalid shard"
  | some (files, xorbs) => .ok ⟨files.map some, xorbs.map some⟩

def mdbEntry (hash : MerkleHash) (a b c d : Nat) : Bytes :=
  hash.bytes ++ u32Bytes a ++ u32Bytes b ++ u32Bytes c ++ u32Bytes d

section Dedup

/-- The first word of a hash, the key of the lookup tables. -/
def truncateHash (m : MerkleHash) : Nat := (m.bytes.take 8).foldr (fun b n => b.toNat + 256 * n) 0

/-- A shard of one xorb and no files: header, sections, the lookup tables of
xorbs and of chunks, footer. -/
def writeShard (key : MerkleHash) (created expiry : Nat) (block : MDBXorbInfo) : Bytes :=
  let chunks := block.chunks
  let lookup := MDB_ENTRY_SIZE * (chunks.length + 4)
  let truncated := (chunks.zipIdx.map (fun c => (truncateHash c.1.chunkHash, c.2))).insertionSort
    (fun a b => a.1 ≤ b.1)
  MDB_SHARD_HEADER_TAG ++ u64Bytes 2 ++ u64Bytes 200 ++
    mdbEntry bookend 0 0 0 0 ++
    mdbEntry block.xorbHash 0 block.numEntries.toNat block.numBytesInXorb.toNat
      block.numBytesOnDisk.toNat ++
    chunks.flatMap (fun c => mdbEntry c.chunkHash c.chunkByteRangeStart.toNat
      c.unpackedSegmentBytes.toNat 0 0) ++
    mdbEntry bookend 0 0 0 0 ++
    u64Bytes (truncateHash block.xorbHash) ++ u32Bytes 0 ++
    truncated.flatMap (fun c => u64Bytes c.1 ++ u32Bytes 0 ++ u32Bytes c.2) ++
    [1, 48, 96, lookup, 0, lookup, 1, lookup + 12, chunks.length].flatMap u64Bytes ++
    key.bytes ++ u64Bytes created ++ u64Bytes expiry ++ List.replicate 48 0 ++
    [block.numBytesOnDisk.toNat, 0, block.numBytesInXorb.toNat,
      lookup + 12 + 16 * chunks.length].flatMap u64Bytes

def chunkEntry (bytes : Bytes) : XorbChunkEntry where
  chunkHash := hashAt bytes 0
  unpackedSegmentBytes := u32At bytes 36
  chunkByteRangeStart := u32At bytes 32

/-- The xorb of a shard, past its files. -/
def readShard (bytes : Bytes) : Option MDBXorbInfo := do
  let (header, bytes) ← takeEntries 1 bytes
  if (header.1.headD []).take 32 ≠ MDB_SHARD_HEADER_TAG then none
  else
    let (_, bytes) ← readSection readFile bytes.length bytes
    let (header, bytes) ← takeEntries 1 bytes
    let header := header.1.headD []
    let (entries, _) ← takeEntries (u32At header 36).toNat bytes
    some ⟨hashAt header 0, u32At header 36, u32At header 40, u32At header 44,
      entries.1.map chunkEntry⟩

variable (P : Primitives)

/-- `MDBInMemoryShard::to_bytes`: no key, and no expiry. -/
def shardToBytes (block : MDBXorbInfo) : Bytes :=
  writeShard zeroHash P.now (2 ^ 64 - 1) block

/-- `export_as_keyed_shard_streaming`: chunk hashes under the key, and no files. -/
def exportAsKeyedShard (plain : Bytes) (key : MerkleHash) : Except String Bytes :=
  match readShard plain with
  | none => .error "invalid shard"
  | some block =>
    .ok (writeShard key P.now (P.now + DEDUP_KEY_VALIDITY) { block with
      chunks := block.chunks.map (fun c =>
        { c with chunkHash := P.keyedHash key.bytes c.chunkHash.bytes }) })

end Dedup

end Xetcas.Formats
