import Xetcas.Lib.Ascii
import Xetcas.Lib.Components

namespace Xetcas.Lib

inductive Segment where
  | static (name : String)
  /-- `{name}`: one segment, which is not empty. -/
  | param
  /-- `{*name}`: the rest of the path, which is not empty. -/
  | rest
  deriving DecidableEq

/-- What the segments of a path are captured as. -/
def captures : List Segment → List (List Char) → Option (List (List Char))
  | [], [] => some []
  | .static name :: pattern, segment :: path =>
    if segment = name.toList then captures pattern path else none
  | .param :: pattern, segment :: path =>
    if segment = [] then none else (captures pattern path).map (segment :: ·)
  | .rest :: _, path => if relative path = [] then none else some [relative path]
  | _, _ => none

/-- Two patterns that share no path, as far as their shapes show. -/
def disjoint : List Segment → List Segment → Bool
  | [], [] => false
  | .rest :: _, _ :: _ | _ :: _, .rest :: _ => false
  | .static a :: p, .static b :: q => a ≠ b || disjoint p q
  | _ :: p, _ :: q => disjoint p q
  | [], _ :: _ | _ :: _, [] => true

theorem captures_nil (pattern : List Segment) : captures pattern [] = none ∨ pattern = [] := by
  cases pattern with
  | nil => exact .inr rfl
  | cons segment pattern =>
    left
    cases segment <;> rfl

theorem disjoint_sound {p q : List Segment} (h : disjoint p q = true) {path : List (List Char)}
    (hp : (captures p path).isSome = true) : captures q path = none := by
  induction p generalizing q path with
  | nil =>
    cases path with
    | nil =>
      rcases captures_nil q with hnone | rfl
      · exact hnone
      · cases h
    | cons segment path => cases hp
  | cons a p ih =>
    cases path with
    | nil =>
      rcases captures_nil (a :: p) with hnone | hnil
      · rw [hnone] at hp
        cases hp
      · cases hnil
    | cons segment path =>
      cases q with
      | nil => rfl
      | cons b q =>
        cases a with
        | rest => cases b <;> cases h
        | static a =>
          simp only [captures] at hp
          split at hp
          · rename_i ha
            cases b with
            | rest => cases h
            | static b =>
              simp only [captures]
              split
              · rename_i hb
                have hab : a = b := String.toList_inj.mp (ha.symm.trans hb)
                simp only [disjoint, hab, ne_eq, not_true, decide_false, Bool.false_or] at h
                exact ih h hp
              · rfl
            | param =>
              simp only [captures]
              split
              · rfl
              · rw [ih h hp, Option.map_none]
          · cases hp
        | param =>
          simp only [captures] at hp
          split at hp
          · cases hp
          · rename_i hfull
            rw [Option.isSome_map] at hp
            cases b with
            | rest => cases h
            | static b =>
              simp only [captures]
              split
              · exact ih h hp
              · rfl
            | param => rw [captures, if_neg hfull, ih h hp, Option.map_none]

section Percent

def hexValue (b : UInt8) : Option UInt8 :=
  if 0x30 ≤ b ∧ b ≤ 0x39 then some (b - 0x30)
  else if 0x41 ≤ b ∧ b ≤ 0x46 then some (b - 0x37)
  else if 0x61 ≤ b ∧ b ≤ 0x66 then some (b - 0x57)
  else none

/-- Percent-decoding. A percent sign without two digits stays. -/
def percentDecode : List UInt8 → List UInt8
  | [] => []
  | 0x25 :: high :: low :: bytes =>
    match hexValue high, hexValue low with
    | some h, some l => (16 * h + l) :: percentDecode bytes
    | _, _ => 0x25 :: percentDecode (high :: low :: bytes)
  | b :: bytes => b :: percentDecode bytes

theorem percentDecode_plain {bytes : List UInt8} (h : ∀ b ∈ bytes, b ≠ 0x25) :
    percentDecode bytes = bytes := by
  induction bytes with
  | nil => rfl
  | cons b bytes ih =>
    rw [List.forall_mem_cons] at h
    rw [percentDecode, ih h.2]
    intro high low rest hb
    exact absurd hb h.1

end Percent

end Xetcas.Lib
