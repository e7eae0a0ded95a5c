import Mathlib.Data.UInt
import Xetcas.Lib.Text

namespace Xetcas.Lib

section Lossy

/-- How many bytes the first byte of a character announces, itself included,
and the bounds of the second one. -/
def announced (b : UInt8) : Option (Nat × UInt8 × UInt8) :=
  if 0xC2 ≤ b && b ≤ 0xDF then some (2, 0x80, 0xBF)
  else if b == 0xE0 then some (3, 0xA0, 0xBF)
  else if b == 0xED then some (3, 0x80, 0x9F)
  else if 0xE1 ≤ b && b ≤ 0xEF then some (3, 0x80, 0xBF)
  else if b == 0xF0 then some (4, 0x90, 0xBF)
  else if b == 0xF4 then some (4, 0x80, 0x8F)
  else if 0xF1 ≤ b && b ≤ 0xF3 then some (4, 0x80, 0xBF)
  else none

/-- The bytes after the first one that go on with the same character. -/
def continuation (count : Nat) (low high : UInt8) : List UInt8 → List UInt8
  | [] => []
  | b :: bytes =>
    if low ≤ b && b ≤ high then
      b :: (bytes.takeWhile (fun b => 0x80 ≤ b && b ≤ 0xBF)).take (count - 2)
    else []

/-- A character of several bytes: the first byte's low bits, then six of each. -/
def assemble (count : Nat) (b : UInt8) (tail : List UInt8) : Char :=
  Char.ofNat (tail.foldl (fun n b => 64 * n + b.toNat % 64) (b.toNat % 2 ^ (7 - count)))

/-- The characters of bytes, the first `skip` of which belong to one before. -/
def decodeFrom : Nat → List UInt8 → List Char
  | _, [] => []
  | skip + 1, _ :: bytes => decodeFrom skip bytes
  | 0, b :: bytes =>
    if b < 0x80 then Char.ofNat b.toNat :: decodeFrom 0 bytes
    else
      match announced b with
      | none => '\uFFFD' :: decodeFrom 0 bytes
      | some (count, low, high) =>
        let tail := continuation count low high bytes
        (if tail.length + 1 = count then assemble count b tail else '\uFFFD') ::
          decodeFrom tail.length bytes

/-- `String::from_utf8_lossy`: what is no character, a replacement character
stands for, one for each longest piece that begins a character. -/
def fromUtf8Lossy (bytes : List UInt8) : List Char := decodeFrom 0 bytes

def asciiBytes (text : List Char) : List UInt8 := text.map (fun c => UInt8.ofNat c.toNat)

theorem fromUtf8Lossy_ascii {text : List Char} (h : ∀ c ∈ text, c.toNat < 128) :
    fromUtf8Lossy (asciiBytes text) = text := by
  unfold fromUtf8Lossy asciiBytes
  induction text with
  | nil => rfl
  | cons c text ih =>
    rw [List.forall_mem_cons] at h
    have hbyte : (UInt8.ofNat c.toNat).toNat = c.toNat := by
      rw [UInt8.toNat_ofNat']
      omega
    have hsmall : UInt8.ofNat c.toNat < 0x80 := by
      rw [UInt8.lt_iff_toNat_lt, hbyte]
      exact h.1
    rw [List.map_cons, decodeFrom, if_pos hsmall, hbyte, Char.ofNat_toNat, ih h.2]

/-- é, a surrogate, and a character cut short. -/
example : fromUtf8Lossy [0xC3, 0xA9, 0xED, 0xA0, 0x80, 0xE2, 0x82] =
    ['é', '\uFFFD', '\uFFFD', '\uFFFD', '\uFFFD'] := by decide

end Lossy

section Lines

def stripReturn (line : List Char) : List Char :=
  if line.getLast? = some '\r' then line.dropLast else line

/-- The lines of a text that goes on with the line begun. -/
def linesFrom (begun : List Char) : List Char → List (List Char)
  | [] => if begun = [] then [] else [begun]
  | c :: text =>
    if c = '\n' then stripReturn begun :: linesFrom [] text else linesFrom (begun ++ [c]) text

def lines (text : List Char) : List (List Char) := linesFrom [] text

theorem linesFrom_append {begun line rest : List Char} (h : '\n' ∉ line) :
    linesFrom begun (line ++ rest) = linesFrom (begun ++ line) rest := by
  induction line generalizing begun with
  | nil => simp
  | cons c line ih =>
    rw [List.mem_cons, not_or] at h
    rw [List.cons_append, linesFrom, if_neg (fun he => h.1 he.symm), ih h.2, List.append_assoc]
    rfl

def IsEol (eol : List Char) : Prop := eol = ['\n'] ∨ eol = ['\r', '\n']

def joinLines (eol : List Char) : List (List Char) → List Char
  | [] => []
  | [line] => line
  | line :: next :: rest => line ++ eol ++ joinLines eol (next :: rest)

/-- Nonempty lines are found again between their ends. -/
theorem lines_joinLines {eol : List Char} (heol : IsEol eol) {ls : List (List Char)}
    (hne : ∀ l ∈ ls, l ≠ []) (hplain : ∀ l ∈ ls, '\n' ∉ l ∧ '\r' ∉ l) :
    lines (joinLines eol ls) = ls := by
  unfold lines
  induction ls with
  | nil => rfl
  | cons line ls ih =>
    rw [List.forall_mem_cons] at hne hplain
    obtain ⟨hfeed, hreturn⟩ := hplain.1
    cases ls with
    | nil =>
      have hline : linesFrom [] (line ++ []) = linesFrom ([] ++ line) [] := linesFrom_append hfeed
      rw [List.append_nil, List.nil_append] at hline
      rw [joinLines, hline, linesFrom, if_neg hne.1]
    | cons next rest =>
      have hstrip : stripReturn line = line := by
        rw [stripReturn, if_neg]
        exact fun hlast => hreturn (List.mem_of_getLast? hlast)
      rw [joinLines, List.append_assoc, linesFrom_append hfeed, List.nil_append]
      rcases heol with rfl | rfl
      · rw [List.cons_append, List.nil_append, linesFrom, if_pos rfl, hstrip, ih hne.2 hplain.2]
      · rw [List.cons_append, List.cons_append, List.nil_append, linesFrom, if_neg (by decide),
          linesFrom, if_pos rfl, stripReturn, List.getLast?_concat, if_pos rfl,
          List.dropLast_concat, ih hne.2 hplain.2]

end Lines

end Xetcas.Lib
