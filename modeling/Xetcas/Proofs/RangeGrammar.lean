import Xetcas.HttpRange

namespace Xetcas.Proofs.RangeGrammar
open Lib

/-- A non-empty string of decimal digits, and its value. -/
def Digits (s : List Char) (n : UInt64) : Prop :=
  s ≠ [] ∧ (∀ c ∈ s, c.isDigit = true) ∧ Nat.ofDigitChars 10 s 0 = n.toNat

/-- What the standard library reads as a number: a plus sign may stand first. -/
def Number (s : List Char) (n : UInt64) : Prop := ∃ digits, Digits digits n ∧
  (s = digits ∨ s = '+' :: digits)

/-- `bytes=` and two bounds around a dash, with white space around the whole,
after the equals sign and around the bounds. -/
def Shaped (value start stop : List Char) : Prop :=
  ∃ w₁ w₂ w₃ w₄ w₅, Blank w₁ ∧ Blank w₂ ∧ Blank w₃ ∧ Blank w₄ ∧ Blank w₅ ∧
    value = w₁ ++ "bytes=".toList ++ w₂ ++ start ++ w₃ ++ '-' :: w₄ ++ stop ++ w₅

/-- What a pair of bounds stands for, when its numbers are written as in `P`. -/
def Means (P : List Char → UInt64 → Prop) (start stop : List Char) : RangeSpec → Prop
  | .fromTo s e => P start s ∧ P stop e
  | .from_ s => P start s ∧ stop = []
  | .suffix n => start = [] ∧ P stop n

/-- The grammar of a single byte range. -/
def Denotes (P : List Char → UInt64 → Prop) (value : String) (spec : RangeSpec) : Prop :=
  ∃ start stop, Shaped value.toList start stop ∧ Means P start stop spec

section Bounds
variable {s : List Char} {n m : UInt64}

theorem decimalValue_eq_some {k : Nat} : decimalValue s = some k ↔
    s ≠ [] ∧ (∀ c ∈ s, c.isDigit = true) ∧ Nat.ofDigitChars 10 s 0 = k := by
  unfold decimalValue
  rw [Option.ite_none_right_eq_some, Bool.and_eq_true, List.all_eq_true, Option.some.injEq,
    Bool.not_eq_true', List.isEmpty_eq_false_iff]
  tauto

theorem digits_ne_plus (h : Digits s n) (t : List Char) : s ≠ '+' :: t := by
  intro he
  have hplus := h.2.1 '+' (by rw [he]; exact List.mem_cons_self)
  revert hplus
  decide

theorem eq_ofNat_iff {k : Nat} (hk : k < UInt64.size) :
    n = UInt64.ofNat k ↔ k = n.toNat := by
  constructor
  · intro h
    rw [h, UInt64.toNat_ofNat_of_lt' hk]
  · intro h
    rw [h, UInt64.ofNat_toNat]

theorem parseU64_eq_some : parseU64 s = some n ↔ Number s n := by
  have hvalue : ∀ t, ((decimalValue t).bind
      (fun k => if k < UInt64.size then some (UInt64.ofNat k) else none)) = some n ↔
      Digits t n := by
    intro t
    rw [Option.bind_eq_some_iff]
    constructor
    · intro h
      obtain ⟨k, hk, hfits⟩ := h
      obtain ⟨hlt, hn⟩ := Option.ite_none_right_eq_some.mp hfits
      obtain ⟨hne, hdigits, rfl⟩ := decimalValue_eq_some.mp hk
      exact ⟨hne, hdigits, (eq_ofNat_iff hlt).mp (Option.some.inj hn).symm⟩
    · intro h
      obtain ⟨hne, hdigits, hn⟩ := h
      refine ⟨n.toNat, decimalValue_eq_some.mpr ⟨hne, hdigits, hn⟩, ?_⟩
      rw [if_pos n.toNat_lt, UInt64.ofNat_toNat]
  unfold parseU64
  refine (hvalue _).trans ?_
  split
  · rename_i digits
    constructor
    · intro h
      exact ⟨digits, h, .inr rfl⟩
    · intro h
      obtain ⟨digits', hdigits, he | he⟩ := h
      · exact absurd he.symm (digits_ne_plus hdigits digits)
      · cases he
        exact hdigits
  · rename_i hplus
    constructor
    · intro h
      exact ⟨s, h, .inl rfl⟩
    · intro h
      obtain ⟨digits, hdigits, rfl | he⟩ := h
      · exact hdigits
      · exact absurd he (hplus digits)

/-- The number of a text is one. -/
theorem Number.ne_nil (h : Number s n) : s ≠ [] := by
  obtain ⟨digits, hdigits, rfl | rfl⟩ := h
  · exact hdigits.1
  · exact List.cons_ne_nil _ _

/-- A bound has no character that the parser looks for. -/
def Plain (s : List Char) : Prop := ∀ c ∈ s, isWhiteSpace c = false ∧ c ≠ '-' ∧ c ≠ ','

theorem Number.plain (h : Number s n) : Plain s := by
  obtain ⟨digits, hdigits, hs⟩ := h
  have hplain : Plain digits := by
    intro c hc
    have hdigit := hdigits.2.1 c hc
    refine ⟨isDigit_not_white hdigit, ?_, ?_⟩
    · rintro rfl
      revert hdigit
      decide
    · rintro rfl
      revert hdigit
      decide
  rcases hs with rfl | rfl
  · exact hplain
  · intro c hc
    rcases List.mem_cons.mp hc with rfl | hc
    · decide
    · exact hplain c hc

end Bounds

/-- The texts that the parser takes the bounds from. -/
def bounds (value : List Char) : Option (List Char × List Char) := do
  let spec := trim (← stripStart "bytes=".toList (trim value))
  if ',' ∈ spec then none
  else
    let (start, stop) ← splitOnce '-' spec
    some (trim start, trim stop)

section Shape
variable {value : List Char} {start stop : List Char} {spec : RangeSpec}

theorem bounds_shaped (h : bounds value = some (start, stop)) : Shaped value start stop := by
  obtain ⟨rest, hrest, h⟩ := Option.bind_eq_some_iff.mp h
  obtain ⟨_, h⟩ := Option.ite_none_left_eq_some.mp h
  obtain ⟨⟨first, last⟩, hsplit, he⟩ := Option.bind_eq_some_iff.mp h
  cases he
  obtain ⟨w₁, v₁, hw₁, hv₁, hvalue⟩ := trim_parts value
  obtain ⟨w₂, v₂, hw₂, hv₂, hspec⟩ := trim_parts rest
  obtain ⟨w₃, v₃, hw₃, hv₃, hfirst⟩ := trim_parts first
  obtain ⟨w₄, v₄, hw₄, hv₄, hlast⟩ := trim_parts last
  refine ⟨w₁, w₂ ++ w₃, v₃, w₄, v₄ ++ v₂ ++ v₁, hw₁, hw₂.append hw₃, hv₃, hw₄,
    (hv₄.append hv₂).append hv₁, ?_⟩
  rw [stripStart_eq_some.mp hrest] at hvalue
  rw [(splitOnce_eq_some.mp hsplit).1] at hspec
  rw [hvalue]
  nth_rewrite 1 [hspec]
  nth_rewrite 1 [hfirst]
  nth_rewrite 1 [hlast]
  simp only [List.append_assoc, List.cons_append]

theorem Plain.trim {s w w' : List Char} (h : Plain s) (hw : Blank w) (hw' : Blank w') :
    trim (w ++ s ++ w') = s := by
  apply trim_append hw hw'
  · intro c hc
    exact (h c (List.mem_of_mem_head? hc)).1
  · intro c hc
    exact (h c (List.mem_of_mem_getLast? hc)).1

/-- What stands before the dash, from its first character that is not white. -/
theorem head_part {s w w' : List Char} (h : Plain s) (hw : Blank w) (hw' : Blank w') :
    ∃ before head, Blank before ∧ w ++ s ++ w' = before ++ head ∧ trim head = s ∧
      (∀ c ∈ head.head?, isWhiteSpace c = false) ∧ '-' ∉ head ∧ ',' ∉ head := by
  cases s with
  | nil =>
    refine ⟨w ++ w', [], hw.append hw', by simp, rfl, ?_, List.not_mem_nil, List.not_mem_nil⟩
    intro c hc
    cases hc
  | cons d s =>
    refine ⟨w, d :: s ++ w', hw, List.append_assoc _ _ _, ?_, ?_, ?_, ?_⟩
    · exact Plain.trim h Blank.nil hw'
    · intro c hc
      cases hc
      exact (h _ List.mem_cons_self).1
    · intro hmem
      rcases List.mem_append.mp hmem with hmem | hmem
      · exact (h _ hmem).2.1 rfl
      · exact hw'.not_mem (by decide) hmem
    · intro hmem
      rcases List.mem_append.mp hmem with hmem | hmem
      · exact (h _ hmem).2.2 rfl
      · exact hw'.not_mem (by decide) hmem

/-- What stands behind the dash, to its last character that is not white. -/
theorem tail_part {s w w' : List Char} (h : Plain s) (hw : Blank w) (hw' : Blank w') :
    ∃ tail after, Blank after ∧ w ++ s ++ w' = tail ++ after ∧ trim tail = s ∧
      (∀ c ∈ tail.getLast?, isWhiteSpace c = false) ∧ ',' ∉ tail := by
  cases s with
  | nil =>
    refine ⟨[], w ++ w', hw.append hw', by simp, rfl, ?_, List.not_mem_nil⟩
    intro c hc
    cases hc
  | cons d s =>
    refine ⟨w ++ d :: s, w', hw', rfl, ?_, ?_, ?_⟩
    · have htrim := Plain.trim h hw Blank.nil
      rwa [List.append_nil] at htrim
    · intro c hc
      rw [List.getLast?_append_of_ne_nil _ (List.cons_ne_nil d s)] at hc
      exact (h c (List.mem_of_mem_getLast? hc)).1
    · intro hmem
      rcases List.mem_append.mp hmem with hmem | hmem
      · exact hw.not_mem (by decide) hmem
      · exact (h _ hmem).2.2 rfl

/-- Around the dash there is white space on the inside only. -/
theorem dash_ends {head tail : List Char} (hfirst : ∀ c ∈ head.head?, isWhiteSpace c = false)
    (hlast : ∀ c ∈ tail.getLast?, isWhiteSpace c = false) :
    (∀ c ∈ (head ++ '-' :: tail).head?, isWhiteSpace c = false) ∧
      ∀ c ∈ (head ++ '-' :: tail).getLast?, isWhiteSpace c = false := by
  constructor
  · intro c hc
    cases head with
    | nil =>
      cases hc
      decide
    | cons d head => exact hfirst c hc
  · intro c hc
    rw [List.getLast?_append_of_ne_nil _ (List.cons_ne_nil '-' tail), List.getLast?_cons] at hc
    cases hend : tail.getLast? with
    | none =>
      simp only [hend, Option.getD_none, Option.mem_def, Option.some.injEq] at hc
      rw [← hc]
      decide
    | some d =>
      simp only [hend, Option.getD_some, Option.mem_def, Option.some.injEq] at hc
      rw [← hc]
      exact hlast d hend

/-- The unit, and all that follows it up to the white space at the end. -/
theorem trim_unit {w before spec after : List Char} (hw : Blank w) (hafter : Blank after)
    (hne : spec ≠ []) (hlast : ∀ c ∈ spec.getLast?, isWhiteSpace c = false) :
    trim (w ++ ("bytes=".toList ++ (before ++ spec)) ++ after) =
      "bytes=".toList ++ (before ++ spec) := by
  apply trim_append hw hafter
  · intro c hc
    cases hc
    decide
  · intro c hc
    rw [← List.append_assoc, List.getLast?_append_of_ne_nil _ hne] at hc
    exact hlast c hc

theorem shaped_bounds (h : Shaped value start stop) (hstart : Plain start) (hstop : Plain stop) :
    bounds value = some (start, stop) := by
  obtain ⟨w₁, w₂, w₃, w₄, w₅, hw₁, hw₂, hw₃, hw₄, hw₅, hvalue⟩ := h
  obtain ⟨before, head, hbefore, hhead, hstart', hfirst, hdash, hcomma⟩ :=
    head_part hstart hw₂ hw₃
  obtain ⟨tail, after, hafter, htail, hstop', hlast, hcomma'⟩ := tail_part hstop hw₄ hw₅
  obtain ⟨hfirst', hlast'⟩ := dash_ends hfirst hlast
  have hparts : value =
      w₁ ++ ("bytes=".toList ++ (before ++ (head ++ '-' :: tail))) ++ after := by
    rw [hvalue]
    simp only [List.append_assoc, List.cons_append] at hhead htail ⊢
    rw [htail, ← List.append_assoc before, ← hhead]
    simp only [List.append_assoc]
  have htrim : trim value = "bytes=".toList ++ (before ++ (head ++ '-' :: tail)) := by
    rw [hparts]
    exact trim_unit hw₁ hafter (by simp) hlast'
  have hspec : trim (before ++ (head ++ '-' :: tail)) = head ++ '-' :: tail := by
    have hinner := trim_append hbefore Blank.nil hfirst' hlast'
    rwa [List.append_nil] at hinner
  have hnone : ',' ∉ head ++ '-' :: tail := by
    rw [List.mem_append, List.mem_cons]
    intro hmem
    rcases hmem with hmem | hmem | hmem
    · exact hcomma hmem
    · revert hmem
      decide
    · exact hcomma' hmem
  unfold bounds
  simp only [htrim, stripStart_append, Option.bind_eq_bind, Option.bind_some, hspec, hnone,
    splitOnce_append tail hdash, hstart', hstop', ↓reduceIte]

/-- The parser reads as numbers the bounds that are there. -/
theorem read_bounds : (match start.isEmpty, stop.isEmpty with
    | true, false => (parseU64 stop).map RangeSpec.suffix
    | false, true => (parseU64 start).map RangeSpec.from_
    | false, false => do
      let s ← parseU64 start
      let e ← parseU64 stop
      some (RangeSpec.fromTo s e)
    | true, true => none) = some spec ↔ Means Number start stop spec := by
  have hempty : ∀ {n}, ¬Number [] n := fun h => h.ne_nil rfl
  cases start with
  | nil =>
    cases stop with
    | nil => cases spec <;> simp [Means, hempty]
    | cons d stop => cases spec <;> simp [Means, hempty, parseU64_eq_some]
  | cons c start =>
    cases stop with
    | nil => cases spec <;> simp [Means, hempty, parseU64_eq_some]
    | cons d stop =>
      cases spec with
      | fromTo s e => simp [Means, Option.bind_eq_some_iff, parseU64_eq_some]
      | from_ s => simp [Means, Option.bind_eq_some_iff]
      | suffix n => simp [Means, Option.bind_eq_some_iff]

theorem parse_bounds {value : String} : parseRangeHeader value = some spec ↔
    ∃ start stop, bounds value.toList = some (start, stop) ∧ Means Number start stop spec := by
  unfold parseRangeHeader bounds
  cases stripStart "bytes=".toList (trim value.toList) with
  | none => simp
  | some rest =>
    simp only [Option.bind_eq_bind, Option.bind_some]
    split
    · simp
    · cases splitOnce '-' (trim rest) with
      | none => simp
      | some cut =>
        simp only [Option.bind_some, Option.some.injEq, Prod.mk.injEq]
        refine read_bounds.trans ?_
        constructor
        · intro h
          exact ⟨_, _, ⟨rfl, rfl⟩, h⟩
        · intro h
          obtain ⟨start, stop, ⟨rfl, rfl⟩, h⟩ := h
          exact h

theorem Means.plain (h : Means Number start stop spec) : Plain start ∧ Plain stop := by
  have hnil : Plain [] := fun _ hc => absurd hc List.not_mem_nil
  cases spec with
  | fromTo s e => exact ⟨h.1.plain, h.2.plain⟩
  | from_ s =>
    obtain ⟨hstart, rfl⟩ := h
    exact ⟨hstart.plain, hnil⟩
  | suffix n =>
    obtain ⟨rfl, hstop⟩ := h
    exact ⟨hnil, hstop.plain⟩

/-- What the parser accepts is a range with the standard library's numbers. -/
theorem parse_iff {value : String} :
    parseRangeHeader value = some spec ↔ Denotes Number value spec := by
  rw [parse_bounds]
  constructor
  · intro h
    obtain ⟨start, stop, hbounds, hmeans⟩ := h
    exact ⟨start, stop, bounds_shaped hbounds, hmeans⟩
  · intro h
    obtain ⟨start, stop, hshaped, hmeans⟩ := h
    obtain ⟨hstart, hstop⟩ := hmeans.plain
    exact ⟨start, stop, shaped_bounds hshaped hstart hstop, hmeans⟩

end Shape

/-- A range that is written with a plus sign before one of its numbers. -/
def PlusSigned (value : String) : Prop :=
  ∃ start stop spec, Shaped value.toList start stop ∧ Means Number start stop spec ∧
    (start.head? = some '+' ∨ stop.head? = some '+')

section Exact
variable {start stop : List Char} {spec : RangeSpec} {value : String}

theorem Digits.number {s : List Char} {n : UInt64} (h : Digits s n) : Number s n :=
  ⟨s, h, .inl rfl⟩

/-- Without a plus sign a number is a string of digits. -/
theorem Number.digits {s : List Char} {n : UInt64} (h : Number s n) (hplus : s.head? ≠ some '+') :
    Digits s n := by
  obtain ⟨digits, hdigits, rfl | rfl⟩ := h
  · exact hdigits
  · exact absurd rfl hplus

theorem Means.number (h : Means Digits start stop spec) : Means Number start stop spec := by
  cases spec with
  | fromTo s e => exact ⟨h.1.number, h.2.number⟩
  | from_ s => exact ⟨h.1.number, h.2⟩
  | suffix n => exact ⟨h.1, h.2.number⟩

theorem Means.digits (h : Means Number start stop spec) (hstart : start.head? ≠ some '+')
    (hstop : stop.head? ≠ some '+') : Means Digits start stop spec := by
  cases spec with
  | fromTo s e => exact ⟨h.1.digits hstart, h.2.digits hstop⟩
  | from_ s => exact ⟨h.1.digits hstart, h.2⟩
  | suffix n => exact ⟨h.1, h.2.digits hstop⟩

/-- Digits begin with no sign. -/
theorem Means.unsigned (h : Means Digits start stop spec) :
    start.head? ≠ some '+' ∧ stop.head? ≠ some '+' := by
  have hdigits : ∀ {s n}, Digits s n → s.head? ≠ some '+' := by
    intro s n hs hplus
    obtain ⟨t, ht⟩ := List.head?_eq_some_iff.mp hplus
    exact digits_ne_plus hs t ht
  cases spec with
  | fromTo s e => exact ⟨hdigits h.1, hdigits h.2⟩
  | from_ s => exact ⟨hdigits h.1, by simp [h.2]⟩
  | suffix n => exact ⟨by simp [h.1], hdigits h.2⟩

/-- The bounds of a value are the parser's, so they are written in one way. -/
theorem plusSigned_not_denotes (h : PlusSigned value) : ¬Denotes Digits value spec := by
  intro hdenotes
  obtain ⟨start, stop, spec', hshaped, hmeans, hplus⟩ := h
  obtain ⟨start', stop', hshaped', hmeans'⟩ := hdenotes
  have hbounds := shaped_bounds hshaped hmeans.plain.1 hmeans.plain.2
  have hbounds' := shaped_bounds hshaped' hmeans'.number.plain.1 hmeans'.number.plain.2
  rw [hbounds] at hbounds'
  cases hbounds'
  exact hplus.elim hmeans'.unsigned.1 hmeans'.unsigned.2

/-- The parser follows the grammar on every value but those that have a plus
sign before a number. -/
theorem parse_exact_iff (value : String) :
    (∀ spec, parseRangeHeader value = some spec ↔ Denotes Digits value spec) ↔
      ¬PlusSigned value := by
  constructor
  · intro h hplus
    obtain ⟨start, stop, spec, hshaped, hmeans, _⟩ := id hplus
    exact plusSigned_not_denotes hplus ((h spec).mp (parse_iff.mpr ⟨start, stop, hshaped, hmeans⟩))
  · intro hplus spec
    rw [parse_iff]
    constructor
    · intro h
      obtain ⟨start, stop, hshaped, hmeans⟩ := h
      refine ⟨start, stop, hshaped, hmeans.digits ?_ ?_⟩
      · intro hhead
        exact hplus ⟨start, stop, spec, hshaped, hmeans, .inl hhead⟩
      · intro hhead
        exact hplus ⟨start, stop, spec, hshaped, hmeans, .inr hhead⟩
    · intro h
      obtain ⟨start, stop, hshaped, hmeans⟩ := h
      exact ⟨start, stop, hshaped, hmeans.number⟩

/-- A signed bound is served as a range. -/
theorem plus_sign_accepted : parseRangeHeader "bytes=+1-5" = some (.fromTo 1 5) ∧
    ¬Denotes Digits "bytes=+1-5" (.fromTo 1 5) := by
  have hparse : parseRangeHeader "bytes=+1-5" = some (.fromTo 1 5) := by decide
  refine ⟨hparse, plusSigned_not_denotes ?_⟩
  obtain ⟨start, stop, hshaped, hmeans⟩ := parse_iff.mp hparse
  have hbounds := shaped_bounds hshaped hmeans.plain.1 hmeans.plain.2
  refine ⟨start, stop, .fromTo 1 5, hshaped, hmeans, .inl ?_⟩
  have hstart : bounds "bytes=+1-5".toList = some (['+', '1'], ['5']) := by decide
  rw [hstart] at hbounds
  cases hbounds
  rfl

end Exact

end Xetcas.Proofs.RangeGrammar
