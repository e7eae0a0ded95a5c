import Xetcas.Reconstruction

namespace Xetcas
open Lib

theorem offsetAt_eq (offsets : List UInt32) {i : Nat} (h : i ≤ offsets.length) :
    ∃ offset, offsetAt offsets i = .ok offset ∧
      offset.toNat = startOf (offsets.map UInt32.toNat) i := by
  cases i with
  | zero => exact ⟨0, rfl, rfl⟩
  | succ i =>
    have hi : i < offsets.length := h
    refine ⟨offsets[i], by simp [offsetAt, hi], ?_⟩
    rw [startOf_succ _ (by simpa using hi)]
    simp

namespace XorbMeta
variable {xorb : XorbMeta} {i a b : Nat}

/-- Where chunk `i` begins in the content of the xorb. -/
def contentStart (xorb : XorbMeta) (i : Nat) : Nat := startOf (xorb.unpacked.map UInt32.toNat) i

/-- Where frame `i` begins in the stored object. -/
def frameStart (xorb : XorbMeta) (i : Nat) : Nat := startOf (xorb.boundary.map UInt32.toNat) i

def size (xorb : XorbMeta) (i : Nat) : Nat := xorb.contentStart (i + 1) - xorb.contentStart i

/-- One offset of each kind per chunk; content offsets never decrease (a chunk
may be empty) and frame offsets increase. -/
structure Geometry (xorb : XorbMeta) : Prop where
  aligned : xorb.boundary.length = xorb.unpacked.length
  unpacked : xorb.unpacked.Pairwise (· ≤ ·)
  boundary : xorb.boundary.Pairwise (· < ·)

theorem numChunks_le (xorb : XorbMeta) : xorb.numChunks.toNat ≤ xorb.unpacked.length := by
  simp only [numChunks, UInt32.toNat_ofNat']
  exact Nat.mod_le _ _

theorem contentStart_mono (h : xorb.unpacked.Pairwise (· ≤ ·)) (hab : a ≤ b)
    (hb : b ≤ xorb.unpacked.length) : xorb.contentStart a ≤ xorb.contentStart b := by
  apply startOf_mono _ hab (by simpa using hb)
  rw [List.pairwise_map]
  exact h.imp (fun hle => hle)

theorem Geometry.contentStart_mono (h : xorb.Geometry) (hab : a ≤ b)
    (hb : b ≤ xorb.unpacked.length) : xorb.contentStart a ≤ xorb.contentStart b :=
  XorbMeta.contentStart_mono h.unpacked hab hb

theorem Geometry.frameStart_mono (h : xorb.Geometry) (hab : a ≤ b)
    (hb : b ≤ xorb.boundary.length) : xorb.frameStart a ≤ xorb.frameStart b := by
  apply startOf_mono _ hab (by simpa using hb)
  rw [List.pairwise_map]
  exact h.boundary.imp (fun hlt => Nat.le_of_lt hlt)

/-- Offsets are 32-bit. -/
theorem frameStart_lt (xorb : XorbMeta) (i : Nat) : xorb.frameStart i < 2 ^ 32 := by
  unfold frameStart startOf
  split
  · decide
  · rw [List.getD_eq_getElem?_getD, List.getElem?_map]
    cases xorb.boundary[i - 1]? with
    | none => decide
    | some offset => exact offset.toNat_lt

/-- The lengths of a run of chunks add up to the distance between its ends. -/
theorem Geometry.sum_size (h : xorb.Geometry) (hab : a ≤ b) (hb : b ≤ xorb.unpacked.length) :
    ∑ i ∈ Finset.Ico a b, xorb.size i = xorb.contentStart b - xorb.contentStart a := by
  apply sum_startOf _ hab (by simpa using hb)
  rw [List.pairwise_map]
  exact h.unpacked.imp (fun hle => hle)

theorem sum_sizes (h : xorb.unpacked.Pairwise (· ≤ ·)) {n : Nat}
    (hle : a + n ≤ xorb.unpacked.length) :
    ((List.range' a n).map xorb.size).sum = xorb.contentStart (a + n) - xorb.contentStart a := by
  induction n generalizing a with
  | zero => simp
  | succ n ih =>
    have hrest := ih (a := a + 1) (by omega)
    have hfirst := contentStart_mono h (Nat.le_add_right a 1) (by omega)
    have hlast := contentStart_mono h (show a + 1 ≤ a + 1 + n by omega) (by omega)
    rw [List.range'_succ, List.map_cons, List.sum_cons, hrest, size,
      show a + (n + 1) = a + 1 + n by omega]
    omega

theorem chunkLen_eq (h : xorb.unpacked.Pairwise (· ≤ ·)) (hi : i < xorb.unpacked.length) :
    ∃ n, xorb.chunkLen i = .ok n ∧ n.toNat = xorb.size i := by
  obtain ⟨start, hstart, hval⟩ := offsetAt_eq xorb.unpacked (i := i) (by omega)
  have hstop : xorb.unpacked[i].toNat = xorb.contentStart (i + 1) := by
    unfold contentStart
    rw [startOf_succ _ (by simpa using hi)]
    simp
  have hle : start ≤ xorb.unpacked[i] := by
    have hmono := contentStart_mono h (Nat.le_add_right i 1) hi
    rw [← hstop] at hmono
    rw [UInt32.le_iff_toNat_le, hval]
    exact hmono
  refine ⟨xorb.unpacked[i] - start, ?_, ?_⟩
  · simp [chunkLen, hi, hstart, bind, Except.bind]
  · rw [UInt32.toNat_sub_of_le _ _ hle, hval, hstop]
    rfl

theorem Geometry.chunkLen_eq (h : xorb.Geometry) (hi : i < xorb.unpacked.length) :
    ∃ n, xorb.chunkLen i = .ok n ∧ n.toNat = xorb.size i :=
  XorbMeta.chunkLen_eq h.unpacked hi

theorem unpackedLen_eq (h : xorb.unpacked.Pairwise (· ≤ ·)) (hab : a ≤ b)
    (hb : b ≤ xorb.numChunks.toNat) :
    ∃ n, xorb.unpackedLen a b = .ok n ∧ n.toNat = xorb.contentStart b - xorb.contentStart a := by
  have hlen := Nat.le_trans hb xorb.numChunks_le
  obtain ⟨hi, hhi, hhv⟩ := offsetAt_eq xorb.unpacked hlen
  obtain ⟨lo, hlo, hlv⟩ := offsetAt_eq xorb.unpacked (Nat.le_trans hab hlen)
  have hle : lo.toUInt64 ≤ hi.toUInt64 := by
    rw [UInt64.le_iff_toNat_le, UInt32.toNat_toUInt64, UInt32.toNat_toUInt64, hhv, hlv]
    exact contentStart_mono h hab hlen
  have hin : ¬(xorb.numChunks.toNat < b ∨ b < a) := by omega
  refine ⟨hi.toUInt64 - lo.toUInt64, ?_, ?_⟩
  · simp [unpackedLen, hin, hhi, hlo, bind, Except.bind]
  · rw [UInt64.toNat_sub_of_le _ _ hle, UInt32.toNat_toUInt64, UInt32.toNat_toUInt64, hhv, hlv]
    rfl

theorem Geometry.unpackedLen_eq (h : xorb.Geometry) (hab : a ≤ b) (hb : b ≤ xorb.numChunks.toNat) :
    ∃ n, xorb.unpackedLen a b = .ok n ∧ n.toNat = xorb.contentStart b - xorb.contentStart a :=
  XorbMeta.unpackedLen_eq h.unpacked hab hb

theorem byteOffset_eq (haligned : xorb.boundary.length = xorb.unpacked.length) (hab : a < b)
    (hb : b ≤ xorb.numChunks.toNat) :
    ∃ lo hi, xorb.byteOffset a b = .ok (lo, hi) ∧ lo.toNat = xorb.frameStart a ∧
      hi.toNat = xorb.frameStart b := by
  have hlen : b ≤ xorb.boundary.length := by
    rw [haligned]
    exact Nat.le_trans hb xorb.numChunks_le
  obtain ⟨hi, hhi, hhv⟩ := offsetAt_eq xorb.boundary hlen
  obtain ⟨lo, hlo, hlv⟩ := offsetAt_eq xorb.boundary (Nat.le_trans hab.le hlen)
  have hin : ¬(xorb.numChunks.toNat < b ∨ b ≤ a) := by omega
  refine ⟨lo.toUInt64, hi.toUInt64, ?_, ?_, ?_⟩
  · simp [byteOffset, hin, hhi, hlo, bind, Except.bind]
  · rw [UInt32.toNat_toUInt64, hlv]
    rfl
  · rw [UInt32.toNat_toUInt64, hhv]
    rfl

theorem Geometry.byteOffset_eq (h : xorb.Geometry) (hab : a < b) (hb : b ≤ xorb.numChunks.toNat) :
    ∃ lo hi, xorb.byteOffset a b = .ok (lo, hi) ∧ lo.toNat = xorb.frameStart a ∧
      hi.toNat = xorb.frameStart b :=
  XorbMeta.byteOffset_eq h.aligned hab hb

end XorbMeta

end Xetcas
