import Xetcas.Proofs.ProbeAnswer

namespace Xetcas.Proofs.RecordGeometry
open Lib Agreement Truthful ProbeAnswer
variable {record : XorbRecord}

/-- All that is computed from the offsets of a record is what they mean: no
subtraction wraps, and no index is out of bounds. -/
structure Usable (record : XorbRecord) : Prop where
  chunkLen : ∀ i < record.numChunks.toNat, ∃ n,
    (XorbMeta.fromRecord record).chunkLen i = .ok n ∧
      (XorbMeta.fromRecord record).contentStart i + n.toNat =
        (XorbMeta.fromRecord record).contentStart (i + 1)
  unpackedLen : ∀ a b, a < b → b ≤ record.numChunks.toNat → ∃ n,
    (XorbMeta.fromRecord record).unpackedLen a b = .ok n ∧
      (XorbMeta.fromRecord record).contentStart a + n.toNat =
        (XorbMeta.fromRecord record).contentStart b
  byteOffset : ∀ a b, a < b → b ≤ record.numChunks.toNat → ∃ lo hi,
    (XorbMeta.fromRecord record).byteOffset a b = .ok (lo, hi) ∧
      lo < hi ∧ hi ≤ record.framesLength
  dedupEntry : ∀ i < record.numChunks.toNat, ∃ entry,
    dedupEntry record i = .ok entry ∧
      entry.chunkByteRangeStart.toNat = (XorbMeta.fromRecord record).contentStart i ∧
      entry.chunkByteRangeStart.toNat + entry.unpackedSegmentBytes.toNat =
        (XorbMeta.fromRecord record).contentStart (i + 1)
  total : ∃ lens,
    (List.range record.numChunks.toNat).mapM (XorbMeta.fromRecord record).chunkLen = .ok lens ∧
      (lens.map UInt32.toNat).sum = record.unpackedLength.toNat
  additive : ∀ a b c, a < b → b < c → c ≤ record.numChunks.toNat → ∃ ab bc ac,
    (XorbMeta.fromRecord record).unpackedLen a b = .ok ab ∧
      (XorbMeta.fromRecord record).unpackedLen b c = .ok bc ∧
      (XorbMeta.fromRecord record).unpackedLen a c = .ok ac ∧ ac.toNat = ab.toNat + bc.toNat

/-- The offsets are cumulative: a chunk may be empty, a frame is not. -/
structure Cumulative (record : XorbRecord) : Prop where
  unpacked : record.unpackedChunkOffsets.Pairwise (· ≤ ·)
  boundary : (0 :: record.chunkBoundaryOffsets).Pairwise (· < ·)

theorem numChunks_eq (hvalid : Valid record) :
    (XorbMeta.fromRecord record).numChunks.toNat = record.numChunks.toNat := by
  have hfew := hvalid.few
  rw [XorbMeta.numChunks, XorbMeta.fromRecord, UInt32.toNat_ofNat', hvalid.unpacked]
  omega

section Content

theorem chunkLen_usable (hvalid : Valid record)
    (hoffsets : record.unpackedChunkOffsets.Pairwise (· ≤ ·)) {i : Nat}
    (hi : i < record.numChunks.toNat) : ∃ n, (XorbMeta.fromRecord record).chunkLen i = .ok n ∧
      n.toNat = (XorbMeta.fromRecord record).size i ∧
      (XorbMeta.fromRecord record).contentStart i + n.toNat =
        (XorbMeta.fromRecord record).contentStart (i + 1) := by
  have hi' : i < (XorbMeta.fromRecord record).unpacked.length := hi.trans_eq hvalid.unpacked.symm
  obtain ⟨n, hn, hsize⟩ := XorbMeta.chunkLen_eq hoffsets hi'
  have hmono := XorbMeta.contentStart_mono hoffsets (Nat.le_add_right i 1) hi'
  refine ⟨n, hn, hsize, ?_⟩
  rw [hsize, XorbMeta.size]
  omega

theorem unpackedLen_usable (hvalid : Valid record)
    (hoffsets : record.unpackedChunkOffsets.Pairwise (· ≤ ·)) {a b : Nat} (hab : a < b)
    (hb : b ≤ record.numChunks.toNat) : ∃ n,
      (XorbMeta.fromRecord record).unpackedLen a b = .ok n ∧
      (XorbMeta.fromRecord record).contentStart a + n.toNat =
        (XorbMeta.fromRecord record).contentStart b := by
  obtain ⟨n, hn, hval⟩ := XorbMeta.unpackedLen_eq hoffsets hab.le
    (hb.trans_eq (numChunks_eq hvalid).symm)
  have hlen : b ≤ (XorbMeta.fromRecord record).unpacked.length :=
    hb.trans_eq hvalid.unpacked.symm
  have hmono := XorbMeta.contentStart_mono hoffsets hab.le hlen
  exact ⟨n, hn, by omega⟩

theorem dedupEntry_usable (hvalid : Valid record)
    (hoffsets : record.unpackedChunkOffsets.Pairwise (· ≤ ·)) {i : Nat}
    (hi : i < record.numChunks.toNat) : ∃ entry, dedupEntry record i = .ok entry ∧
      entry.chunkByteRangeStart.toNat = (XorbMeta.fromRecord record).contentStart i ∧
      entry.chunkByteRangeStart.toNat + entry.unpackedSegmentBytes.toNat =
        (XorbMeta.fromRecord record).contentStart (i + 1) := by
  obtain ⟨entry, hentry, hentryAt⟩ := dedupEntry_entry (Valid.consistent hvalid hoffsets) hi
  obtain ⟨n, _, hsize, hsum⟩ := chunkLen_usable hvalid hoffsets hi
  refine ⟨entry, hentry, hentryAt.start, ?_⟩
  rw [hentryAt.start, hentryAt.length, ← hsize, hsum]

theorem total_usable (hvalid : Valid record)
    (hoffsets : record.unpackedChunkOffsets.Pairwise (· ≤ ·)) : ∃ lens,
    (List.range record.numChunks.toNat).mapM (XorbMeta.fromRecord record).chunkLen = .ok lens ∧
      (lens.map UInt32.toNat).sum = record.unpackedLength.toNat := by
  have hlens : ∀ i ∈ List.range record.numChunks.toNat, ∃ n,
      (XorbMeta.fromRecord record).chunkLen i = .ok n ∧
        n.toNat = (XorbMeta.fromRecord record).size i := by
    intro i hi
    obtain ⟨n, hn, hsize, _⟩ := chunkLen_usable hvalid hoffsets (List.mem_range.mp hi)
    exact ⟨n, hn, hsize⟩
  obtain ⟨lens, hlens, hall⟩ := mapM_exists hlens
  have hsizes := map_eq_of_forall₂ (f := (XorbMeta.fromRecord record).size) (g := UInt32.toNat)
    (fun _ _ hsize => hsize.symm) hall
  have hlast : 0 + record.numChunks.toNat ≤ (XorbMeta.fromRecord record).unpacked.length := by
    rw [Nat.zero_add]
    exact hvalid.unpacked.ge
  refine ⟨lens, hlens, ?_⟩
  rw [← hsizes, List.range_eq_range', XorbMeta.sum_sizes hoffsets hlast,
    (last_offset hvalid.content).1, hvalid.unpacked, Nat.zero_add]
  rfl

end Content

section Frames

/-- Frame offsets that increase from zero on. -/
theorem frameStart_lt (hvalid : Valid record)
    (hoffsets : (0 :: record.chunkBoundaryOffsets).Pairwise (· < ·)) {a b : Nat} (hab : a < b)
    (hb : b ≤ record.numChunks.toNat) :
    (XorbMeta.fromRecord record).frameStart a < (XorbMeta.fromRecord record).frameStart b := by
  have hstarts : ((0 :: record.chunkBoundaryOffsets).map UInt32.toNat).Pairwise (· < ·) :=
    List.pairwise_map.mpr (hoffsets.imp (fun hlt => hlt))
  apply startOf_steps (pairwise_starts.mp hstarts) hab
  rw [List.length_map]
  exact hb.trans_eq hvalid.boundary.symm

theorem byteOffset_usable (hvalid : Valid record) (h : Cumulative record) {a b : Nat}
    (hab : a < b) (hb : b ≤ record.numChunks.toNat) : ∃ lo hi,
      (XorbMeta.fromRecord record).byteOffset a b = .ok (lo, hi) ∧
      lo < hi ∧ hi ≤ record.framesLength := by
  have hgeometry : (XorbMeta.fromRecord record).Geometry :=
    ⟨hvalid.boundary.trans hvalid.unpacked.symm, h.unpacked, (List.pairwise_cons.mp h.boundary).2⟩
  obtain ⟨lo, hi, hoffset, hlo, hhi⟩ := hgeometry.byteOffset_eq hab
    (hb.trans_eq (numChunks_eq hvalid).symm)
  refine ⟨lo, hi, hoffset, ?_, ?_⟩
  · rw [UInt64.lt_iff_toNat_lt, hlo, hhi]
    exact frameStart_lt hvalid h.boundary hab hb
  · have hmono := hgeometry.frameStart_mono (hb.trans_eq hvalid.boundary.symm) (le_refl _)
    rw [UInt64.le_iff_toNat_le, hhi, (last_offset hvalid.frames).1]
    exact hmono

end Frames

theorem usable_of_cumulative (hvalid : Valid record) (h : Cumulative record) : Usable record := by
  refine ⟨?_, ?_, ?_, ?_, total_usable hvalid h.unpacked, ?_⟩
  · intro i hi
    obtain ⟨n, hn, _, hsum⟩ := chunkLen_usable hvalid h.unpacked hi
    exact ⟨n, hn, hsum⟩
  · intro a b hab hb
    exact unpackedLen_usable hvalid h.unpacked hab hb
  · intro a b hab hb
    exact byteOffset_usable hvalid h hab hb
  · intro i hi
    exact dedupEntry_usable hvalid h.unpacked hi
  · intro a b c hab hbc hc
    obtain ⟨ab, hab', hsumab⟩ := unpackedLen_usable hvalid h.unpacked hab (hbc.le.trans hc)
    obtain ⟨bc, hbc', hsumbc⟩ := unpackedLen_usable hvalid h.unpacked hbc hc
    obtain ⟨ac, hac', hsumac⟩ := unpackedLen_usable hvalid h.unpacked (hab.trans hbc) hc
    exact ⟨ab, bc, ac, hab', hbc', hac', by omega⟩

/-- A frame is not empty, so its two offsets differ. -/
theorem frame_step (hvalid : Valid record) (h : Usable record) {i : Nat}
    (hi : i < record.numChunks.toNat) :
    (XorbMeta.fromRecord record).frameStart i <
      (XorbMeta.fromRecord record).frameStart (i + 1) := by
  have haligned : (XorbMeta.fromRecord record).boundary.length =
      (XorbMeta.fromRecord record).unpacked.length := hvalid.boundary.trans hvalid.unpacked.symm
  obtain ⟨lo, hi', hoffset, hlt, _⟩ := h.byteOffset i (i + 1) (Nat.lt_succ_self i) hi
  obtain ⟨start, stop, hcomputed, hstart, hstop⟩ := XorbMeta.byteOffset_eq haligned
    (Nat.lt_succ_self i) (hi.trans_eq (numChunks_eq hvalid).symm)
  rw [hoffset] at hcomputed
  cases hcomputed
  rw [← hstart, ← hstop]
  exact hlt

theorem cumulative_of_usable (hvalid : Valid record) (h : Usable record) : Cumulative record := by
  refine ⟨?_, ?_⟩
  · have hsteps : (record.unpackedChunkOffsets.map UInt32.toNat).Pairwise (· ≤ ·) := by
      apply pairwise_of_steps
      intro i hi
      rw [List.length_map, hvalid.unpacked] at hi
      obtain ⟨n, _, hsum⟩ := h.chunkLen i hi
      exact (Nat.le_add_right _ _).trans_eq hsum
    exact (List.pairwise_map.mp hsteps).imp (fun hle => hle)
  · have hsteps : (0 :: record.chunkBoundaryOffsets.map UInt32.toNat).Pairwise (· < ·) := by
      apply pairwise_starts.mpr
      intro i hi
      rw [List.length_map, hvalid.boundary] at hi
      exact frame_step hvalid h hi
    have hmap : ((0 :: record.chunkBoundaryOffsets).map UInt32.toNat).Pairwise (· < ·) := hsteps
    exact (List.pairwise_map.mp hmap).imp (fun hlt => hlt)

/-- A validated record can be computed with exactly when its offsets are
cumulative, which the validator does not look at. -/
theorem usable_iff_cumulative (h : validateXorbRecord record = .ok ()) :
    Usable record ↔ Cumulative record :=
  ⟨cumulative_of_usable (valid_of_validated h), usable_of_cumulative (valid_of_validated h)⟩

/-- Two chunks of three and six bytes. -/
def pairRecord : XorbRecord where
  xorbHash := "0000000000000000000000000000000000000000000000000000000000000000"
  numChunks := 2
  framesLength := 25
  unpackedLength := 9
  chunkBoundaryOffsets := [11, 25]
  unpackedChunkOffsets := [3, 9]
  chunkHashes := List.replicate 64 0
  createdAt := 0

theorem pair_usable : Usable pairRecord :=
  (usable_iff_cumulative (by decide +kernel)).mpr ⟨by decide, by decide⟩

/-- Two chunks whose content offsets decrease, and so do their frame offsets. -/
def foldedRecord : XorbRecord where
  xorbHash := "0000000000000000000000000000000000000000000000000000000000000000"
  numChunks := 2
  framesLength := 10
  unpackedLength := 3
  chunkBoundaryOffsets := [20, 10]
  unpackedChunkOffsets := [5, 3]
  chunkHashes := List.replicate 64 0
  createdAt := 0

/-- It is accepted, its second chunk has a length of almost 4 GiB, and its first
frame ends behind the stored object. -/
theorem folded_not_usable : validateXorbRecord foldedRecord = .ok () ∧
    (XorbMeta.fromRecord foldedRecord).chunkLen 1 = .ok 4294967294 ∧
    (XorbMeta.fromRecord foldedRecord).byteOffset 0 1 = .ok (0, 20) ∧ ¬Usable foldedRecord := by
  have hvalid : validateXorbRecord foldedRecord = .ok () := by decide +kernel
  refine ⟨hvalid, rfl, rfl, ?_⟩
  intro h
  have hoffsets := (cumulative_of_usable (valid_of_validated hvalid) h).unpacked
  revert hoffsets
  decide

end Xetcas.Proofs.RecordGeometry
