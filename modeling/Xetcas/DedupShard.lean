import Xetcas.Lib.Except
import Xetcas.Upstream

namespace Xetcas
open Lib

/-- Decode one raw chunk hash out of a record's packed hashes. -/
def chunkHashAt (record : XorbRecord) (index : Nat) : Except String MerkleHash :=
  let start := index * HASH_BYTES
  let stop := start + HASH_BYTES
  if record.chunkHashes.length < stop then .error s!"chunk hash {index} missing from record"
  else match MerkleHash.fromSlice ((record.chunkHashes.take stop).drop start) with
    | some hash => .ok hash
    | none => .error s!"bad chunk hash {index}"

/-- A hash that lies within the packed hashes can be decoded. -/
theorem chunkHashAt_exists {record : XorbRecord} {index : Nat}
    (h : index * HASH_BYTES + HASH_BYTES ≤ record.chunkHashes.length) :
    ∃ m, chunkHashAt record index = .ok m := by
  have hsize : ((record.chunkHashes.take (index * HASH_BYTES + HASH_BYTES)).drop
      (index * HASH_BYTES)).length = HASH_BYTES := by
    rw [List.length_drop, List.length_take]
    omega
  refine ⟨⟨_, hsize⟩, ?_⟩
  simp [chunkHashAt, Nat.not_lt.mpr h, MerkleHash.fromSlice, hsize]

def dedupEntry (record : XorbRecord) (i : Nat) : Except String XorbChunkEntry := do
  let chunkHash ← chunkHashAt record i
  match record.unpackedChunkOffsets[i]? with
  | none => .error s!"missing unpacked offset {i}"
  | some cumulativeEnd =>
    let cumulativeStart := if i = 0 then 0 else record.unpackedChunkOffsets.getD (i - 1) 0
    .ok ⟨chunkHash, cumulativeEnd - cumulativeStart, cumulativeStart⟩

/-- `.map_err(|e| format!(..))`, naming the step that failed. -/
def named (step : String) : Except String α → Except String α
  | .ok a => .ok a
  | .error e => .error s!"{step}: {e}"

def buildKeyedDedupShard (U : Upstream) (record : XorbRecord) (diskBytes : UInt64)
    (key : MerkleHash) : Except String Bytes := do
  let xorbHash ← named "bad xorb hash" (U.fromHex record.xorbHash)
  let chunks ← (List.range record.numChunks.toNat).mapM (dedupEntry record)
  let shard ← named "dedup shard build" (U.addXorbBlock
    ⟨xorbHash, record.numChunks, record.unpackedLength.toUInt32, diskBytes.toUInt32, chunks⟩)
  let plain ← named "dedup shard serialize" (U.shardToBytes shard)
  named "dedup shard keying" (U.exportAsKeyedShard plain key)

end Xetcas
