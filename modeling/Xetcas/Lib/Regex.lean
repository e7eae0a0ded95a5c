import Mathlib.Data.List.Basic

namespace Xetcas.Lib

/-- Regular expressions without alternatives, with the two ends of the text. -/
inductive Regex where
  | startText
  | endText
  /-- One character of a class, given by its ranges. -/
  | cls (ranges : List (Char × Char))
  | seq (first second : Regex)
  | rep (r : Regex) (count : Nat)
  deriving DecidableEq

namespace Regex

def inClass (ranges : List (Char × Char)) (c : Char) : Bool :=
  ranges.any (fun range => range.1 ≤ c && c ≤ range.2)

/-- A place in a text: whether it is the start, and what follows. -/
abbrev Place := Bool × List Char

/-- The places at which a match from a given place can end. -/
def ends : Regex → Place → List Place
  | startText, at_ => if at_.1 then [at_] else []
  | endText, at_ => if at_.2 = [] then [at_] else []
  | cls ranges, at_ =>
    match at_.2 with
    | [] => []
    | c :: rest => if inClass ranges c then [(false, rest)] else []
  | seq first second, at_ => (first.ends at_).flatMap second.ends
  | rep r count, at_ => Nat.repeat (fun places => places.flatMap r.ends) count [at_]

/-- The places of a text after its start. -/
def later : List Char → List Place
  | [] => []
  | _ :: rest => (false, rest) :: later rest

/-- The text has a match somewhere. -/
def search (r : Regex) (text : List Char) : Bool :=
  ((true, text) :: later text).any (fun at_ => !(r.ends at_).isEmpty)

section Anchored
variable {ranges : List (Char × Char)} {text : List Char} {r : Regex}

theorem later_not_start {at_ : Place} (h : at_ ∈ later text) : at_.1 = false := by
  induction text with
  | nil => cases h
  | cons c rest ih =>
    rcases List.mem_cons.mp h with rfl | hrest
    · rfl
    · exact ih hrest

/-- An expression that begins at the start of the text is tried there alone. -/
theorem search_startText : search (seq startText r) text = !(r.ends (true, text)).isEmpty := by
  have hlater : ∀ at_ ∈ later text, (seq startText r).ends at_ = [] := by
    intro at_ hat
    simp [ends, later_not_start hat]
  have hnone : (later text).any (fun at_ => !((seq startText r).ends at_).isEmpty) = false := by
    rw [List.any_eq_false]
    intro at_ hat
    rw [hlater at_ hat]
    simp
  rw [search, List.any_cons, hnone, Bool.or_false]
  simp [ends]

theorem mem_ends_cls {start at_ : Place} : at_ ∈ (cls ranges).ends start ↔
    ∃ c, start.2 = c :: at_.2 ∧ at_.1 = false ∧ inClass ranges c = true := by
  obtain ⟨begun, rest⟩ := start
  cases rest with
  | nil => simp [ends]
  | cons c rest =>
    have hread : (cls ranges).ends (begun, c :: rest) =
        if inClass ranges c then [(false, rest)] else [] := rfl
    rw [hread]
    split
    · rename_i hclass
      rw [List.mem_singleton]
      constructor
      · intro h
        subst h
        exact ⟨c, rfl, rfl, hclass⟩
      · intro h
        obtain ⟨c', hrest, hstart, _⟩ := h
        cases hrest
        exact Prod.ext hstart rfl
    · rename_i hclass
      simp only [List.not_mem_nil, false_iff]
      intro h
      obtain ⟨c', hrest, _, hclass'⟩ := h
      cases hrest
      exact hclass hclass'

/-- As many characters of a class, from here on. -/
theorem mem_ends_rep {count : Nat} {start at_ : Place} :
    at_ ∈ (rep (cls ranges) count).ends start ↔ ∃ read, start.2 = read ++ at_.2 ∧
      read.length = count ∧ at_.1 = (start.1 && read.isEmpty) ∧
        ∀ c ∈ read, inClass ranges c = true := by
  induction count generalizing at_ with
  | zero =>
    have hhere : (rep (cls ranges) 0).ends start = [start] := rfl
    rw [hhere, List.mem_singleton]
    constructor
    · intro h
      subst h
      exact ⟨[], rfl, rfl, by simp, by simp⟩
    · intro h
      obtain ⟨read, hrest, hlen, hstart, _⟩ := h
      obtain rfl := List.eq_nil_of_length_eq_zero hlen
      exact Prod.ext (by simpa using hstart) hrest.symm
  | succ count ih =>
    have hmore : (rep (cls ranges) (count + 1)).ends start =
        ((rep (cls ranges) count).ends start).flatMap (cls ranges).ends := rfl
    rw [hmore, List.mem_flatMap]
    constructor
    · intro h
      obtain ⟨mid, hmid, hlast⟩ := h
      obtain ⟨read, hrest, hlen, _, hread⟩ := ih.mp hmid
      obtain ⟨c, hc, hstart, hclass⟩ := mem_ends_cls.mp hlast
      refine ⟨read ++ [c], by rw [hrest, hc, List.append_assoc]; rfl, ?_, by simp [hstart], ?_⟩
      · rw [List.length_append, hlen]
        rfl
      · intro d hd
        rcases List.mem_append.mp hd with hd | hd
        · exact hread d hd
        · rw [List.mem_singleton.mp hd]
          exact hclass
    · intro h
      obtain ⟨read, hrest, hlen, hstart, hread⟩ := h
      obtain ⟨front, c, rfl⟩ := (List.eq_nil_or_concat read).resolve_left (by
        intro hnil
        simp [hnil] at hlen)
      rw [List.concat_eq_append] at hrest hlen hstart hread
      refine ⟨(start.1 && front.isEmpty, c :: at_.2), ih.mpr ⟨front, ?_, ?_, rfl, ?_⟩,
        mem_ends_cls.mpr ⟨c, rfl, ?_, hread c (by simp)⟩⟩
      · rw [hrest, List.append_assoc]
        rfl
      · simpa using hlen
      · intro d hd
        exact hread d (List.mem_append_left _ hd)
      · have hmore : (front ++ [c]).isEmpty = false := by simp
        rw [hstart, hmore, Bool.and_false]

/-- The whole text is a number of characters of a class. -/
theorem search_whole {count : Nat} :
    search (seq startText (seq (rep (cls ranges) count) endText)) text = true ↔
      text.length = count ∧ ∀ c ∈ text, inClass ranges c = true := by
  have hends : ∀ at_, at_ ∈ (seq (rep (cls ranges) count) endText).ends (true, text) ↔
      at_ ∈ (rep (cls ranges) count).ends (true, text) ∧ at_.2 = [] := by
    intro at_
    rw [ends, List.mem_flatMap]
    constructor
    · intro h
      obtain ⟨mid, hmid, hlast⟩ := h
      rw [ends] at hlast
      split at hlast
      · rename_i hend
        rw [List.mem_singleton.mp hlast]
        exact ⟨hmid, hend⟩
      · cases hlast
    · intro h
      refine ⟨at_, h.1, ?_⟩
      rw [ends, if_pos h.2]
      exact List.mem_singleton_self _
  rw [search_startText, Bool.not_eq_true', List.isEmpty_eq_false_iff_exists_mem]
  constructor
  · intro h
    obtain ⟨at_, hat⟩ := h
    obtain ⟨hrep, hend⟩ := (hends at_).mp hat
    obtain ⟨read, hrest, hlen, _, hread⟩ := mem_ends_rep.mp hrep
    rw [hend, List.append_nil] at hrest
    simp only at hrest
    rw [hrest]
    exact ⟨hlen, hread⟩
  · intro h
    refine ⟨(true && text.isEmpty, []),
      (hends _).mpr ⟨mem_ends_rep.mpr ⟨text, ?_, h.1, rfl, h.2⟩, rfl⟩⟩
    exact (List.append_nil text).symm

end Anchored

end Regex

end Xetcas.Lib
