import Mathlib.Data.List.Infix
import Mathlib.Data.List.TakeWhile
import Mathlib.Data.Nat.Find

namespace Xetcas.Lib

/-- The Unicode property White_Space. -/
def isWhiteSpace (c : Char) : Bool :=
  let n := c.toNat
  (9 ≤ n && n ≤ 13) || n == 0x20 || n == 0x85 || n == 0xA0 || n == 0x1680 ||
    (0x2000 ≤ n && n ≤ 0x200A) || n == 0x2028 || n == 0x2029 || n == 0x202F || n == 0x205F ||
    n == 0x3000

def trimEnd (s : List Char) : List Char := (s.reverse.dropWhile isWhiteSpace).reverse

def trim (s : List Char) : List Char := trimEnd (s.dropWhile isWhiteSpace)

def stripStart : List Char → List Char → Option (List Char)
  | [], s => some s
  | _ :: _, [] => none
  | c :: cs, d :: s => if c = d then stripStart cs s else none

/-- A text cut at the first occurrence of a character. -/
def splitOnce (c : Char) : List Char → Option (List Char × List Char)
  | [] => none
  | d :: s =>
    if d = c then some ([], s)
    else (splitOnce c s).map (fun r => (d :: r.1, r.2))

/-- Only the ends of a text decide whether trimming changes it. -/
theorem trim_eq_self {s : List Char} (hfirst : ∀ c ∈ s.head?, isWhiteSpace c = false)
    (hlast : ∀ c ∈ s.getLast?, isWhiteSpace c = false) : trim s = s := by
  have hstart : s.dropWhile isWhiteSpace = s := by
    cases s with
    | nil => rfl
    | cons c s => simp [hfirst c (by simp)]
  have hend : s.reverse.dropWhile isWhiteSpace = s.reverse := by
    cases hr : s.reverse with
    | nil => rfl
    | cons c r =>
      have hc : c ∈ s.getLast? := by simp [← List.head?_reverse, hr]
      simp [hlast c hc]
  rw [trim, hstart, trimEnd, hend, List.reverse_reverse]

def Blank (s : List Char) : Prop := ∀ c ∈ s, isWhiteSpace c = true

theorem Blank.nil : Blank [] := fun _ hc => absurd hc List.not_mem_nil

theorem Blank.append {s t : List Char} (hs : Blank s) (ht : Blank t) : Blank (s ++ t) := by
  intro c hc
  rcases List.mem_append.mp hc with h | h
  · exact hs c h
  · exact ht c h

theorem Blank.not_mem {s : List Char} (hs : Blank s) {c : Char} (hc : isWhiteSpace c = false) :
    c ∉ s := by
  intro hmem
  rw [hs c hmem] at hc
  cases hc

theorem blank_takeWhile (s : List Char) : Blank (s.takeWhile isWhiteSpace) :=
  fun _ hc => List.mem_takeWhile_imp hc

/-- Trimming takes white space off both ends. -/
theorem trim_parts (s : List Char) : ∃ before after, Blank before ∧ Blank after ∧
    s = before ++ trim s ++ after := by
  refine ⟨s.takeWhile isWhiteSpace,
    ((s.dropWhile isWhiteSpace).reverse.takeWhile isWhiteSpace).reverse, blank_takeWhile s, ?_, ?_⟩
  · intro c hc
    exact blank_takeWhile _ c (List.mem_reverse.mp hc)
  · rw [trim, trimEnd, List.append_assoc, ← List.reverse_append, List.takeWhile_append_dropWhile,
      List.reverse_reverse, List.takeWhile_append_dropWhile]

theorem trimEnd_append (s : List Char) {t : List Char} (ht : Blank t) :
    trimEnd (s ++ t) = trimEnd s := by
  have hrev : ∀ c ∈ t.reverse, isWhiteSpace c = true := by
    intro c hc
    exact ht c (List.mem_reverse.mp hc)
  rw [trimEnd, List.reverse_append, List.dropWhile_append_of_pos hrev]
  rfl

theorem trim_blank {s : List Char} (hs : Blank s) : trim s = [] := by
  rw [trim, List.dropWhile_eq_nil_iff.mpr hs]
  rfl

/-- And all of it. -/
theorem trim_append {before s after : List Char} (hbefore : Blank before) (hafter : Blank after)
    (hfirst : ∀ c ∈ s.head?, isWhiteSpace c = false)
    (hlast : ∀ c ∈ s.getLast?, isWhiteSpace c = false) : trim (before ++ s ++ after) = s := by
  cases s with
  | nil =>
    rw [List.append_nil]
    exact trim_blank (hbefore.append hafter)
  | cons c s =>
    have hc : isWhiteSpace c = false := hfirst c rfl
    have hdrop : (before ++ (c :: s) ++ after).dropWhile isWhiteSpace = c :: s ++ after := by
      rw [List.append_assoc, List.dropWhile_append_of_pos hbefore]
      simp [hc]
    rw [trim, hdrop, trimEnd_append _ hafter]
    have hself := trim_eq_self hfirst hlast
    rwa [trim, List.dropWhile_cons_of_neg (by simp [hc])] at hself

/-- White space around a text does not matter. -/
theorem trim_around {before after : List Char} (hbefore : Blank before) (hafter : Blank after)
    (s : List Char) : trim (before ++ s ++ after) = trim s := by
  by_cases hs : Blank s
  · rw [trim_blank ((hbefore.append hs).append hafter), trim_blank hs]
  · have hrest : s.dropWhile isWhiteSpace ≠ [] := by
      intro hnil
      exact hs (List.dropWhile_eq_nil_iff.mp hnil)
    have hdrop : (before ++ s ++ after).dropWhile isWhiteSpace =
        s.dropWhile isWhiteSpace ++ after := by
      rw [List.append_assoc, List.dropWhile_append_of_pos hbefore, List.dropWhile_append,
        if_neg (by simpa using hrest)]
    rw [trim, hdrop, trimEnd_append _ hafter, trim]

theorem trim_trim (s : List Char) : trim (trim s) = trim s := by
  obtain ⟨before, after, hbefore, hafter, hs⟩ := trim_parts s
  have haround := trim_around hbefore hafter (trim s)
  rw [← hs] at haround
  exact haround.symm

/-- What a text is trimmed to. -/
theorem trim_eq_iff {s t : List Char} : trim s = t ↔
    trim t = t ∧ ∃ before after, Blank before ∧ Blank after ∧ s = before ++ t ++ after := by
  constructor
  · rintro rfl
    exact ⟨trim_trim s, trim_parts s⟩
  · rintro ⟨ht, before, after, hbefore, hafter, rfl⟩
    rw [trim_around hbefore hafter, ht]

theorem stripStart_append (s t : List Char) : stripStart s (s ++ t) = some t := by
  induction s with
  | nil => rfl
  | cons c s ih => simp [stripStart, ih]

theorem stripStart_eq_some {s t u : List Char} : stripStart s t = some u ↔ t = s ++ u := by
  constructor
  · intro h
    induction s generalizing t with
    | nil => exact Option.some.inj h
    | cons c s ih =>
      cases t with
      | nil => cases h
      | cons d t =>
        rw [stripStart] at h
        split at h
        · rename_i he
          rw [he, ih h, List.cons_append]
        · cases h
  · intro h
    rw [h]
    exact stripStart_append s u

theorem splitOnce_append {c : Char} {s : List Char} (t : List Char) (h : c ∉ s) :
    splitOnce c (s ++ c :: t) = some (s, t) := by
  induction s with
  | nil => simp [splitOnce]
  | cons d s ih =>
    simp only [List.mem_cons, not_or] at h
    have hd : ¬d = c := fun he => h.1 he.symm
    simp [splitOnce, hd, ih h.2]

theorem splitOnce_eq_some {c : Char} {s t u : List Char} :
    splitOnce c s = some (t, u) ↔ s = t ++ c :: u ∧ c ∉ t := by
  constructor
  · intro h
    induction s generalizing t with
    | nil => cases h
    | cons d s ih =>
      rw [splitOnce] at h
      split at h
      · rename_i he
        cases h
        exact ⟨by rw [he]; rfl, List.not_mem_nil⟩
      · rename_i hne
        obtain ⟨⟨t', u'⟩, hrest, he⟩ := Option.map_eq_some_iff.mp h
        cases he
        obtain ⟨rfl, hnot⟩ := ih hrest
        refine ⟨rfl, ?_⟩
        rw [List.mem_cons, not_or]
        exact ⟨fun he => hne he.symm, hnot⟩
  · intro h
    rw [h.1]
    exact splitOnce_append u h.2

section Pattern
variable {α : Type} [DecidableEq α] {pattern s : List α} {k : Nat}

def firstPlace (pattern : List α) : List α → Option Nat
  | [] => none
  | a :: s => if pattern <+: a :: s then some 0 else (firstPlace pattern s).map (· + 1)

theorem firstPlace_eq_some (hne : pattern ≠ []) : firstPlace pattern s = some k ↔
    pattern <+: s.drop k ∧ ∀ j < k, ¬pattern <+: s.drop j := by
  induction s generalizing k with
  | nil => simp [firstPlace, hne]
  | cons a s ih =>
    rw [firstPlace]
    split
    · rename_i hhere
      constructor
      · intro h
        cases h
        exact ⟨hhere, fun j hj => absurd hj (Nat.not_lt_zero j)⟩
      · intro h
        rcases Nat.eq_zero_or_pos k with rfl | hpos
        · rfl
        · exact absurd hhere (h.2 0 hpos)
    · rename_i hnot
      rw [Option.map_eq_some_iff]
      constructor
      · intro h
        obtain ⟨i, hi, rfl⟩ := h
        obtain ⟨hthere, hbefore⟩ := ih.mp hi
        refine ⟨hthere, ?_⟩
        intro j hj
        cases j with
        | zero => exact hnot
        | succ j => exact hbefore j (Nat.lt_of_succ_lt_succ hj)
      · intro h
        obtain ⟨hthere, hbefore⟩ := h
        cases k with
        | zero => exact absurd hthere hnot
        | succ k =>
          exact ⟨k, ih.mpr ⟨hthere, fun j hj => hbefore (j + 1) (Nat.succ_lt_succ hj)⟩, rfl⟩

theorem firstPlace_eq_none (hne : pattern ≠ []) :
    firstPlace pattern s = none ↔ ∀ j, ¬pattern <+: s.drop j := by
  constructor
  · intro h j hj
    -- the least place would have been found
    have hex : ∃ i, pattern <+: s.drop i := ⟨j, hj⟩
    have hsome := (firstPlace_eq_some hne).mpr ⟨Nat.find_spec hex, fun _ hi => Nat.find_min hex hi⟩
    rw [h] at hsome
    cases hsome
  · intro h
    cases hplace : firstPlace pattern s with
    | none => rfl
    | some k => exact absurd ((firstPlace_eq_some hne).mp hplace).1 (h k)

end Pattern

def decimalValue (s : List Char) : Option Nat :=
  if s.all Char.isDigit && !s.isEmpty then some (Nat.ofDigitChars 10 s 0) else none

theorem decimalValue_toDigits (n : Nat) : decimalValue (Nat.toDigits 10 n) = some n := by
  have hdigits : (Nat.toDigits 10 n).all Char.isDigit = true := by
    rw [List.all_eq_true]
    intro c hc
    exact Nat.isDigit_of_mem_toDigits (by decide) (by decide) hc
  simp [decimalValue, hdigits, Nat.ofDigitChars_ten_toDigits, Nat.toDigits_ne_nil]

theorem isDigit_not_white {c : Char} (h : c.isDigit = true) : isWhiteSpace c = false := by
  have hn : 48 ≤ c.toNat ∧ c.toNat ≤ 57 := by
    simp only [Char.isDigit, Bool.and_eq_true, decide_eq_true_eq, ge_iff_le] at h
    exact ⟨h.1, h.2⟩
  unfold isWhiteSpace
  simp only [Bool.or_eq_false_iff, Bool.and_eq_false_iff, decide_eq_false_iff_not, beq_eq_false_iff_ne]
  omega

end Xetcas.Lib
