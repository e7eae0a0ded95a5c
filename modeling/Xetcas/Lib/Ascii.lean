import Mathlib.Data.List.Basic
import Mathlib.Data.UInt

namespace Xetcas.Lib

theorem utf8_toList (s : String) :
    s.toUTF8.data.toList = s.toList.flatMap String.utf8EncodeChar := by
  rw [String.toUTF8, ← String.utf8Encode_toList, List.utf8Encode, List.data_toByteArray,
    List.toList_toArray]

/-- A text is read back from its bytes. -/
theorem fromUTF8_bytes (s : String) : String.fromUTF8? ⟨⟨s.toUTF8.data.toList⟩⟩ = some s := by
  have hvalid : String.fromUTF8? s.toUTF8 = some s := by
    simp only [String.fromUTF8?, String.toUTF8_eq_toByteArray, s.isValidUTF8, ↓reduceDIte]
    rfl
  exact hvalid

section Bytes
variable {p : UInt8 → Bool} {q : Char → Bool}

theorem ascii_of_utf8Size {c : Char} : c.utf8Size = 1 ↔ c.val < 128 := by
  rw [Char.utf8Size_eq_one_iff, UInt32.le_iff_toNat_le, UInt32.lt_iff_toNat_lt]
  exact Nat.lt_succ_iff.symm

/-- A byte below 128 begins a character. -/
theorem isUTF8FirstByte_ascii {b : UInt8} (h : b < 128) : b.IsUTF8FirstByte := by
  have hall : ∀ n < 128, (UInt8.ofNat n).IsUTF8FirstByte := by decide
  have hb := hall b.toNat h
  rwa [UInt8.ofNat_toNat] at hb

theorem all_utf8EncodeChar (hp : ∀ b, p b = true → b < 128) (c : Char) :
    (String.utf8EncodeChar c).all p = true ↔ c.val < 128 ∧ p c.val.toUInt8 = true := by
  constructor
  · intro h
    rw [List.all_eq_true] at h
    -- a second byte would not begin a character
    have hone : c.utf8Size = 1 := by
      by_contra hmore
      have hpos := c.utf8Size_pos
      have hlen : 1 < (String.utf8EncodeChar c).length := by
        rw [String.length_utf8EncodeChar]
        omega
      have hsecond := isUTF8FirstByte_ascii (hp _ (h _ (List.getElem_mem hlen)))
      exact absurd (UInt8.isUTF8FirstByte_getElem_utf8EncodeChar.mp hsecond) (by omega)
    refine ⟨ascii_of_utf8Size.mp hone, h _ ?_⟩
    rw [String.utf8EncodeChar_eq_singleton hone]
    exact List.mem_singleton_self _
  · intro h
    rw [String.utf8EncodeChar_eq_singleton (ascii_of_utf8Size.mpr h.1)]
    simpa using h.2

/-- A scan for ASCII bytes is a scan for characters. -/
theorem all_utf8 (hp : ∀ b, p b = true → b < 128) (hq : ∀ c, q c = true → c.val < 128)
    (hpq : ∀ c : Char, c.val < 128 → (p c.val.toUInt8 = q c)) (s : String) :
    s.toUTF8.data.toList.all p = s.toList.all q := by
  rw [utf8_toList]
  induction s.toList with
  | nil => rfl
  | cons c rest ih =>
    rw [List.flatMap_cons, List.all_append, ih, List.all_cons]
    congr 1
    rw [Bool.eq_iff_iff, all_utf8EncodeChar hp]
    constructor
    · intro h
      rw [← hpq c h.1]
      exact h.2
    · intro h
      rw [hpq c (hq c h)]
      exact ⟨hq c h, h⟩

theorem utf8ByteSize_ascii {s : String} (h : ∀ c ∈ s.toList, c.val < 128) :
    s.utf8ByteSize = s.toList.length := by
  have hsize : s.utf8ByteSize = s.toUTF8.data.toList.length := rfl
  rw [hsize, utf8_toList]
  revert h
  induction s.toList with
  | nil =>
    intro _
    rfl
  | cons c rest ih =>
    intro h
    have hone := ascii_of_utf8Size.mpr (h c List.mem_cons_self)
    rw [List.flatMap_cons, List.length_append, String.length_utf8EncodeChar, hone,
      ih (fun d hd => h d (List.mem_cons_of_mem c hd)), List.length_cons, Nat.add_comm]

end Bytes

end Xetcas.Lib
