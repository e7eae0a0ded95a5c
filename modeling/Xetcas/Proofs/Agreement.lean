import Xetcas.DedupShard
import Xetcas.Filestream
import Xetcas.Proofs.Geometry
import Xetcas.Proofs.Provenance

namespace Xetcas.Proofs.Agreement
open Lib Server Routes Routes.Xorbs Provenance

/-- What `validate_xorb_record` accepts. -/
structure Valid (record : XorbRecord) : Prop where
  hash : isHashHex record.xorbHash = true
  nonempty : 1 ≤ record.numChunks.toNat
  few : record.numChunks.toNat ≤ 8192
  boundary : record.chunkBoundaryOffsets.length = record.numChunks.toNat
  unpacked : record.unpackedChunkOffsets.length = record.numChunks.toNat
  hashes : record.chunkHashes.length = HASH_BYTES * record.numChunks.toNat
  frames : record.chunkBoundaryOffsets.getLast?.map UInt32.toUInt64 = some record.framesLength
  content : record.unpackedChunkOffsets.getLast?.map UInt32.toUInt64 = some record.unpackedLength

theorem valid_of_validated {record : XorbRecord} (h : validateXorbRecord record = .ok ()) :
    Valid record := by
  simp only [validateXorbRecord, check_eq_ok, requireHashHex_ok, require_ok, Bool.and_eq_true,
    decide_eq_true_eq, beq_iff_eq] at h
  obtain ⟨hhash, ⟨hone, hmany⟩, _, hboundary, hunpacked, hhashes, hframes, hcontent⟩ := h
  exact ⟨hhash, hone, hmany, hboundary, hunpacked, hhashes, hframes, hcontent⟩

/-- An object begins with frames that decode to chunks, and the record says
where they end and what the chunks hash to. -/
structure Describes (U : Upstream) (object : Bytes) (record : XorbRecord)
    (frames chunks : List Bytes) : Prop where
  cut : object.take record.framesLength.toNat = frames.flatten
  whole : record.framesLength.toNat = frames.flatten.length
  decodes : List.Forall₂ U.IsFrame frames chunks
  boundary : record.chunkBoundaryOffsets.map UInt32.toNat = endsOf (frames.map List.length)
  unpacked : record.unpackedChunkOffsets.map UInt32.toNat = endsOf (chunks.map List.length)
  hashes : record.chunkHashes = (chunks.map U.computeDataHash).flatMap MerkleHash.bytes

def Agrees (U : Upstream) (object : Bytes) (record : XorbRecord) : Prop :=
  ∃ frames chunks, Describes U object record frames chunks

section Prepared
variable {U : Upstream} {hash : String} {up : Upload}

theorem verified {body stored : Bytes} {expected : MerkleHash} {now : UInt64} {record : XorbRecord}
    (h : verifyXorb U body expected now = .ok (stored, record)) :
    ∃ info, U.reconstructXorbWithFooter body = .ok (stored, info, expected) ∧
      record = recordOf U info expected now := by
  unfold verifyXorb at h
  obtain ⟨_, hbody⟩ := guard_eq_ok.mp h
  obtain ⟨⟨stored', info, computed⟩, hparse, hrest⟩ := bind_eq_ok.mp hbody
  obtain ⟨hcomputed, hrest⟩ := guard_eq_ok.mp hrest
  obtain ⟨_, hrest⟩ := guard_eq_ok.mp hrest
  obtain ⟨_, hrest⟩ := guard_eq_ok.mp hrest
  obtain ⟨_, hrest⟩ := guard_eq_ok.mp hrest
  cases hrest
  have he : computed = expected := not_not.mp hcomputed
  subst he
  refine ⟨info, ?_, rfl⟩
  cases hread : U.reconstructXorbWithFooter body with
  | ok r => simpa [named, hread] using hparse
  | error e => simp [named, hread, orBadRequest] at hparse

/-- The parts of a prepared upload. -/
theorem prepared_parts (h : Prepared U hash up) : ∃ body info expected now,
    Addressed U hash expected ∧ U.reconstructXorbWithFooter body = .ok (up.stored, info, expected) ∧
      up.record = recordOf U info expected now ∧ Valid up.record ∧
      eligibleChunks U up.record = .ok up.dedupChunks := by
  obtain ⟨body, expected, now, haddressed, hprepare⟩ := h
  obtain ⟨⟨stored, record⟩, hverify, hrest⟩ := bind_eq_ok.mp hprepare
  obtain ⟨hvalid, hrest⟩ := check_eq_ok.mp hrest
  obtain ⟨dedup, hdedup, hrest⟩ := bind_eq_ok.mp hrest
  cases hrest
  obtain ⟨info, hparse, hrecord⟩ := verified hverify
  exact ⟨body, info, expected, now, haddressed, hparse, hrecord,
    valid_of_validated (checkRequest_ok.mp hvalid), hdedup⟩

theorem prepared_valid (h : Prepared U hash up) : Valid up.record := by
  obtain ⟨_, _, _, _, _, _, _, hvalid, _⟩ := prepared_parts h
  exact hvalid

theorem prepared_eligible (h : Prepared U hash up) :
    eligibleChunks U up.record = .ok up.dedupChunks := by
  obtain ⟨_, _, _, _, _, _, _, _, hdedup⟩ := prepared_parts h
  exact hdedup

/-- The record goes under the hash the upload was addressed with. -/
theorem prepared_hash (hhex : U.HexRoundTrip) (h : Prepared U hash up) :
    up.record.xorbHash = hash := by
  obtain ⟨body, info, expected, now, haddressed, _, hrecord, _⟩ := prepared_parts h
  rw [hrecord]
  exact hhex hash expected haddressed.1 haddressed.2

theorem prepared_describes (hdecode : U.FramesDecode) (h : Prepared U hash up) :
    ∃ frames chunks, Describes U up.stored up.record frames chunks := by
  obtain ⟨body, info, expected, now, _, hparse, hrecord, _⟩ := prepared_parts h
  obtain ⟨frames, chunks, hlayout, hinfo⟩ := hdecode body up.stored info expected hparse
  have hwhole : up.record.framesLength.toNat = frames.flatten.length := by
    have hlast := getLast_endsOf (frames.map List.length)
    rw [← hinfo.boundary, List.getLast?_map] at hlast
    rw [hrecord, List.length_flatten, ← hlast]
    cases hl : info.chunkBoundaryOffsets.getLast? with
    | none => simp [recordOf, hl]
    | some last => simp [recordOf, hl]
  refine ⟨frames, chunks, ?_, hwhole, hlayout.decodes, ?_, ?_, ?_⟩
  · obtain ⟨rest, hrest⟩ := hlayout.starts
    rw [hwhole, ← hrest, List.take_left]
  · rw [hrecord]
    exact hinfo.boundary
  · rw [hrecord]
    exact hinfo.unpacked
  · rw [hrecord, ← hinfo.hashes]
    rfl

end Prepared

section Frames
variable {U : Upstream} {frames chunks : List Bytes}

/-- Frames are read one after the other, whatever follows them. -/
theorem decodeFrames_frames (h : List.Forall₂ U.IsFrame frames chunks) (rest : Bytes) :
    decodeFrames U frames.length (frames.flatten ++ rest) = (chunks, none) := by
  induction h with
  | nil => rfl
  | @cons frame content frames chunks hframe _ ih =>
    have hread := hframe.2 (frames.flatten ++ rest)
    simp only [List.length_cons, List.flatten_cons, List.append_assoc, decodeFrames, hread, ih]

theorem forall₂_piecesIn (h : List.Forall₂ U.IsFrame frames chunks) (a b : Nat) :
    List.Forall₂ U.IsFrame (piecesIn frames a b) (piecesIn chunks a b) :=
  List.forall₂_drop a (List.forall₂_take b h)

end Frames

section Described
variable {U : Upstream} {object : Bytes} {record : XorbRecord} {frames chunks : List Bytes}

theorem Describes.frameStart_eq (h : Describes U object record frames chunks) (i : Nat) :
    (XorbMeta.fromRecord record).frameStart i = startOf (endsOf (frames.map List.length)) i := by
  rw [← h.boundary]
  rfl

theorem Describes.size_eq (h : Describes U object record frames chunks) {i : Nat}
    (hi : i < chunks.length) : (XorbMeta.fromRecord record).size i = (chunks.getD i []).length := by
  have hstart : ∀ k, (XorbMeta.fromRecord record).contentStart k =
      startOf (endsOf (chunks.map List.length)) k := by
    intro k
    rw [← h.unpacked]
    rfl
  unfold XorbMeta.size
  rw [hstart, hstart, startOf_endsOf _ (by simp; omega), startOf_endsOf _ (by simp; omega),
    List.sum_take_succ _ i (by simpa using hi)]
  simp [hi]

theorem Describes.lengths (h : Describes U object record frames chunks) :
    record.chunkBoundaryOffsets.length = frames.length ∧
      record.unpackedChunkOffsets.length = chunks.length ∧ frames.length = chunks.length := by
  have hboundary := congrArg List.length h.boundary
  have hunpacked := congrArg List.length h.unpacked
  simp only [List.length_map, length_endsOf] at hboundary hunpacked
  exact ⟨hboundary, hunpacked, h.decodes.length_eq⟩

/-- The frames lie inside the frame region. -/
theorem Describes.frameStart_le (h : Describes U object record frames chunks) {b : Nat}
    (hb : b ≤ frames.length) :
    (XorbMeta.fromRecord record).frameStart b ≤ record.framesLength.toNat := by
  rw [h.frameStart_eq, h.whole, startOf_endsOf _ (by simpa using hb), List.length_flatten]
  have hsplit := List.sum_take_add_sum_drop (frames.map List.length) b
  omega

/-- The bytes of a run of frames, cut out of the object. -/
theorem Describes.cut_frames (h : Describes U object record frames chunks) {a b : Nat} (hab : a ≤ b)
    (hb : b ≤ frames.length) :
    (object.take ((XorbMeta.fromRecord record).frameStart b)).drop
      ((XorbMeta.fromRecord record).frameStart a) = (piecesIn frames a b).flatten := by
  rw [← Nat.min_eq_left (h.frameStart_le hb), ← List.take_take, h.cut, h.frameStart_eq,
    h.frameStart_eq, cut_startOf hb hab]

/-- Reading on from the start of a frame. -/
theorem Describes.reads (h : Describes U object record frames chunks) {a b : Nat} (hab : a ≤ b)
    (hb : b ≤ frames.length) :
    decodeFrames U (b - a) (object.drop ((XorbMeta.fromRecord record).frameStart a)) =
      (piecesIn chunks a b, none) := by
  have hmono : (XorbMeta.fromRecord record).frameStart a ≤
      (XorbMeta.fromRecord record).frameStart b := by
    rw [h.frameStart_eq, h.frameStart_eq]
    exact startOf_mono (endsOf_pairwise _) hab (by simpa using hb)
  have hlen : (piecesIn frames a b).length = b - a := by
    simp [piecesIn, hb]
  have hrest : object.drop ((XorbMeta.fromRecord record).frameStart b) =
      (object.drop ((XorbMeta.fromRecord record).frameStart a)).drop
        ((XorbMeta.fromRecord record).frameStart b -
          (XorbMeta.fromRecord record).frameStart a) := by
    rw [List.drop_drop, Nat.add_sub_cancel' hmono]
  have hsplit : object.drop ((XorbMeta.fromRecord record).frameStart a) =
      (piecesIn frames a b).flatten ++ object.drop ((XorbMeta.fromRecord record).frameStart b) := by
    rw [← h.cut_frames hab hb, List.drop_take, hrest, List.take_append_drop]
  rw [hsplit, ← hlen]
  exact decodeFrames_frames (forall₂_piecesIn h.decodes a b) _

/-- One hash out of several, packed end to end. -/
theorem packed_hash (hashes : List MerkleHash) {i : Nat} (hi : i < hashes.length) :
    ((hashes.flatMap MerkleHash.bytes).take (i * HASH_BYTES + HASH_BYTES)).drop (i * HASH_BYTES) =
      hashes[i].bytes := by
  have hlens : (hashes.map MerkleHash.bytes).map List.length =
      List.replicate hashes.length HASH_BYTES := by
    apply List.eq_replicate_iff.mpr
    refine ⟨by simp, ?_⟩
    intro n hn
    obtain ⟨bytes, hbytes, rfl⟩ := List.mem_map.mp hn
    obtain ⟨hash, _, rfl⟩ := List.mem_map.mp hbytes
    exact hash.size
  have hstart : ∀ k ≤ hashes.length,
      startOf (endsOf ((hashes.map MerkleHash.bytes).map List.length)) k = k * HASH_BYTES := by
    intro k hk
    rw [startOf_endsOf _ (by simpa using hk), hlens]
    simp [List.take_replicate, Nat.min_eq_left hk]
  have hnext : i + 1 ≤ (hashes.map MerkleHash.bytes).length := by simpa using hi
  have hcut := cut_startOf hnext (Nat.le_add_right i 1)
  rw [hstart i hi.le, hstart (i + 1) hi, Nat.succ_mul, ← List.flatMap_def] at hcut
  have hone : piecesIn (hashes.map MerkleHash.bytes) i (i + 1) = [hashes[i].bytes] := by
    rw [piecesIn, List.take_add_one, List.drop_left' (by simp [hi.le])]
    simp [hi]
  rw [hcut, hone, List.flatten_singleton]

/-- The packed hashes are those of the chunks. -/
theorem Describes.chunkHashAt_eq (h : Describes U object record frames chunks) {i : Nat}
    (hi : i < chunks.length) :
    chunkHashAt record i = .ok (U.computeDataHash (chunks.getD i [])) := by
  have hpacked := packed_hash (chunks.map U.computeDataHash) (i := i) (by simpa using hi)
  rw [← h.hashes, List.getElem_map] at hpacked
  have hstop : ¬record.chunkHashes.length < i * HASH_BYTES + HASH_BYTES := by
    have hlen := congrArg List.length hpacked
    rw [(U.computeDataHash chunks[i]).size, List.length_drop, List.length_take] at hlen
    have hbytes : 0 < HASH_BYTES := by decide
    omega
  simp only [chunkHashAt, hstop, hpacked, ↓reduceIte]
  simp [MerkleHash.fromSlice, (U.computeDataHash chunks[i]).size, hi]

end Described

end Xetcas.Proofs.Agreement
