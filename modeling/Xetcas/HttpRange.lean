import Xetcas.Lib.Text

namespace Xetcas
open Lib

/-- A parsed but unresolved byte range. -/
inductive RangeSpec where
  /-- Both bounds present, end inclusive. -/
  | fromTo (start stop : UInt64)
  | from_ (start : UInt64)
  /-- The final bytes of the object. -/
  | suffix (n : UInt64)
  deriving DecidableEq, Repr

/-- `str::parse::<u64>`: digits, after a plus sign if there is one. -/
def parseU64 (s : List Char) : Option UInt64 := do
  let n ← decimalValue (match s with
    | '+' :: digits => digits
    | digits => digits)
  if n < UInt64.size then some (UInt64.ofNat n) else none

def parseRangeHeader (value : String) : Option RangeSpec := do
  let spec := trim (← stripStart "bytes=".toList (trim value.toList))
  if ',' ∈ spec then none
  else
    let (start, stop) ← splitOnce '-' spec
    let (start, stop) := (trim start, trim stop)
    match start.isEmpty, stop.isEmpty with
    | true, false => (parseU64 stop).map .suffix
    | false, true => (parseU64 start).map .from_
    | false, false =>
      let s ← parseU64 start
      let e ← parseU64 stop
      some (.fromTo s e)
    | true, true => none

def saturatingAdd (a b : UInt64) : UInt64 :=
  if a.toNat + b.toNat < UInt64.size then a + b else UInt64.ofNat (UInt64.size - 1)

def saturatingSub (a b : UInt64) : UInt64 := if b ≤ a then a - b else 0

/-- `RangeSpec::resolve`: a half-open range, or `none` for 416. -/
def RangeSpec.resolve (total : UInt64) : RangeSpec → Option (UInt64 × UInt64)
  | .fromTo s e =>
    if total ≤ s ∨ e < s then none else some (s, min total (saturatingAdd e 1))
  | .from_ s => if total ≤ s then none else some (s, total)
  | .suffix n => if n = 0 then none else some (saturatingSub total n, total)

theorem toNat_saturatingAdd (a b : UInt64) :
    (saturatingAdd a b).toNat = min (a.toNat + b.toNat) (UInt64.size - 1) := by
  unfold saturatingAdd
  split
  · rename_i hfits
    rw [UInt64.toNat_add, Nat.mod_eq_of_lt hfits]
    omega
  · rename_i hover
    rw [UInt64.toNat_ofNat_of_lt' (by decide)]
    omega

theorem toNat_saturatingSub (a b : UInt64) : (saturatingSub a b).toNat = a.toNat - b.toNat := by
  unfold saturatingSub
  split
  · rename_i hle
    exact UInt64.toNat_sub_of_le _ _ hle
  · rename_i hlt
    have hlt' : a.toNat < b.toNat := UInt64.not_le.mp hlt
    simp only [UInt64.toNat_zero]
    omega

theorem toNat_min (a b : UInt64) : (min a b).toNat = min a.toNat b.toNat := by
  change (if a ≤ b then a else b).toNat = min a.toNat b.toNat
  split
  · rename_i hle
    exact (Nat.min_eq_left hle).symm
  · rename_i hlt
    exact (Nat.min_eq_right (Nat.le_of_not_le hlt)).symm

/-- A range that resolves is not empty and ends inside the object, unless the
object is empty. -/
theorem resolve_inside {total start stop : UInt64} {spec : RangeSpec}
    (h : spec.resolve total = some (start, stop)) :
    start.toNat < stop.toNat ∧ stop.toNat ≤ total.toNat ∨ total.toNat = 0 ∧ start.toNat = 0 := by
  cases spec with
  | fromTo s e =>
    obtain ⟨hin, he⟩ := Option.ite_none_left_eq_some.mp h
    cases he
    rw [not_or, UInt64.not_le, UInt64.not_lt, UInt64.lt_iff_toNat_lt, UInt64.le_iff_toNat_le] at hin
    have hsize := total.toNat_lt
    rw [toNat_min, toNat_saturatingAdd]
    simp only [UInt64.size, UInt64.toNat_one]
    omega
  | from_ s =>
    obtain ⟨hin, he⟩ := Option.ite_none_left_eq_some.mp h
    cases he
    rw [UInt64.not_le, UInt64.lt_iff_toNat_lt] at hin
    omega
  | suffix n =>
    obtain ⟨hn, he⟩ := Option.ite_none_left_eq_some.mp h
    cases he
    have hpos : n.toNat ≠ 0 := fun h0 => hn (UInt64.toNat_inj.mp h0)
    rw [toNat_saturatingSub]
    omega

/-- Both ends inside: the inclusive end becomes exclusive. -/
theorem resolve_fromTo (total s e : UInt64) (hse : s.toNat ≤ e.toNat) (he : e.toNat < total.toNat) :
    ∃ stop, (RangeSpec.fromTo s e).resolve total = some (s, stop) ∧ stop.toNat = e.toNat + 1 := by
  have hsize := total.toNat_lt
  have hin : ¬(total ≤ s ∨ e < s) := by
    rw [not_or, UInt64.not_le, UInt64.not_lt, UInt64.lt_iff_toNat_lt, UInt64.le_iff_toNat_le]
    omega
  refine ⟨min total (saturatingAdd e 1), by simp [RangeSpec.resolve, hin], ?_⟩
  rw [toNat_min, toNat_saturatingAdd]
  simp only [UInt64.size, UInt64.toNat_one]
  omega

theorem parseU64_toDigits (n : UInt64) : parseU64 (Nat.toDigits 10 n.toNat) = some n := by
  have hplus : ∀ digits, Nat.toDigits 10 n.toNat ≠ '+' :: digits := by
    intro digits he
    have hdigit : '+'.isDigit = true :=
      Nat.isDigit_of_mem_toDigits (b := 10) (n := n.toNat) (by decide) (by decide) (by simp [he])
    revert hdigit
    decide
  have hlt : n.toNat < UInt64.size := n.toNat_lt
  unfold parseU64
  split
  · rename_i digits he
    exact absurd he (hplus digits)
  · simp [decimalValue_toDigits, hlt]

theorem toDigits_not_white {n : Nat} {c : Char} (h : c ∈ Nat.toDigits 10 n) :
    isWhiteSpace c = false :=
  isDigit_not_white (Nat.isDigit_of_mem_toDigits (by decide) (by decide) h)

theorem toDigits_ne {n : Nat} {d : Char} (hd : d.isDigit = false) : d ∉ Nat.toDigits 10 n := by
  intro h
  have hdigit := Nat.isDigit_of_mem_toDigits (by decide) (by decide) h
  rw [hd] at hdigit
  cases hdigit

/-- A text that ends in a number has nothing to trim at its end. -/
theorem trim_toDigits (first : List Char) (n : Nat)
    (hfirst : ∀ c ∈ (first ++ Nat.toDigits 10 n).head?, isWhiteSpace c = false) :
    trim (first ++ Nat.toDigits 10 n) = first ++ Nat.toDigits 10 n := by
  apply trim_eq_self hfirst
  intro c hc
  rw [List.getLast?_append_of_ne_nil _ Nat.toDigits_ne_nil] at hc
  exact toDigits_not_white (List.mem_of_mem_getLast? hc)

/-- A formatted two-sided range is parsed as written. -/
theorem parse_format (s e : UInt64) :
    parseRangeHeader s!"bytes={s.toNat}-{e.toNat}" = some (.fromTo s e) := by
  have htext : (s!"bytes={s.toNat}-{e.toNat}").toList =
      "bytes=".toList ++ (Nat.toDigits 10 s.toNat ++ '-' :: Nat.toDigits 10 e.toNat) := by
    simp [toString, Nat.toList_repr]
  have hnumber : ∀ n, trim (Nat.toDigits 10 n) = Nat.toDigits 10 n := by
    intro n
    apply trim_toDigits [] n
    intro c hc
    exact toDigits_not_white (List.mem_of_mem_head? hc)
  have hbounds : trim (Nat.toDigits 10 s.toNat ++ '-' :: Nat.toDigits 10 e.toNat) =
      Nat.toDigits 10 s.toNat ++ '-' :: Nat.toDigits 10 e.toNat := by
    have h := trim_toDigits (Nat.toDigits 10 s.toNat ++ ['-']) e.toNat (by
      intro c hc
      rw [List.append_assoc, List.head?_append_of_ne_nil _ Nat.toDigits_ne_nil] at hc
      exact toDigits_not_white (List.mem_of_mem_head? hc))
    simpa using h
  have hwhole : trim ("bytes=".toList ++
      (Nat.toDigits 10 s.toNat ++ '-' :: Nat.toDigits 10 e.toNat)) =
      "bytes=".toList ++ (Nat.toDigits 10 s.toNat ++ '-' :: Nat.toDigits 10 e.toNat) := by
    have h := trim_toDigits ("bytes=".toList ++ (Nat.toDigits 10 s.toNat ++ ['-']))
      e.toNat (by
        intro c hc
        have hb : c = 'b' := by simpa [eq_comm] using hc
        subst hb
        rfl)
    simpa using h
  have hcomma : ',' ∉ Nat.toDigits 10 s.toNat ++ '-' :: Nat.toDigits 10 e.toNat := by
    simp [toDigits_ne (d := ',') (by decide)]
  have hsplit := splitOnce_append (Nat.toDigits 10 e.toNat)
    (toDigits_ne (n := s.toNat) (d := '-') (by decide))
  have hempty : ∀ n, (Nat.toDigits 10 n).isEmpty = false := fun n =>
    List.isEmpty_eq_false_iff.mpr Nat.toDigits_ne_nil
  simp only [parseRangeHeader, htext, hwhole, stripStart_append, hbounds, hcomma, hsplit, hnumber,
    parseU64_toDigits, hempty, Option.bind_eq_bind, Option.bind_some, ↓reduceIte]

end Xetcas
