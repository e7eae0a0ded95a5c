import Xetcas.Lib.Except
import Xetcas.Routes.Git

namespace Xetcas.Proofs.CgiOutput
open Lib Routes.Git

/-- A header block can end here, with this terminator. -/
def EndsAt (out : Bytes) (k : Nat) (terminator : Bytes) : Prop :=
  (terminator = [13, 10, 13, 10] ∨ terminator = [10, 10]) ∧ terminator <+: out.drop k

/-- It ends at the first such place. -/
structure FirstEnd (out : Bytes) (k : Nat) (terminator : Bytes) : Prop where
  ends : EndsAt out k terminator
  first : ∀ j t, EndsAt out j t → k ≤ j

section Scan
variable {out buf : Bytes} {k : Nat} {t : Bytes}

/-- The two terminators begin with different bytes. -/
theorem EndsAt.unique {t' : Bytes} (h : EndsAt out k t) (h' : EndsAt out k t') : t' = t := by
  obtain ⟨htype, hhere⟩ := h
  obtain ⟨htype', hhere'⟩ := h'
  obtain ⟨rest, hrest⟩ := hhere
  obtain ⟨rest', hrest'⟩ := hhere'
  rcases htype with rfl | rfl <;> rcases htype' with rfl | rfl
  · rfl
  · rw [← hrest] at hrest'
    cases hrest'
  · rw [← hrest] at hrest'
    cases hrest'
  · rfl

theorem FirstEnd.unique {k' : Nat} {t' : Bytes} (h : FirstEnd out k t) (h' : FirstEnd out k' t') :
    k' = k ∧ t' = t := by
  have hk : k' = k := Nat.le_antisymm (h'.first k t h.ends) (h.first k' t' h'.ends)
  subst hk
  exact ⟨rfl, h.ends.unique h'.ends⟩

theorem findHeaderEnd_none (h : findHeaderEnd out = none) (k : Nat) (t : Bytes) :
    ¬EndsAt out k t := by
  intro hends
  obtain ⟨htype, hhere⟩ := hends
  unfold findHeaderEnd at h
  cases hcrlf : firstPlace [13, 10, 13, 10] out with
  | some i => cases hlf : firstPlace [10, 10] out <;> simp [hcrlf, hlf] at h
  | none =>
    cases hlf : firstPlace [10, 10] out with
    | some i => simp [hcrlf, hlf] at h
    | none =>
      rcases htype with rfl | rfl
      · exact (firstPlace_eq_none (by simp)).mp hcrlf k hhere
      · exact (firstPlace_eq_none (by simp)).mp hlf k hhere

/-- One terminator is at its first place, and the other not before it. -/
theorem firstEnd_of (hends : EndsAt out k t)
    (hcrlf : ∀ j < k, ¬[13, 10, 13, 10] <+: out.drop j) (hlf : ∀ j < k, ¬[10, 10] <+: out.drop j) :
    FirstEnd out k t := by
  refine ⟨hends, ?_⟩
  intro j t' h
  obtain ⟨htype, hhere⟩ := h
  by_contra hlt
  rcases htype with rfl | rfl
  · exact hcrlf j (Nat.lt_of_not_le hlt) hhere
  · exact hlf j (Nat.lt_of_not_le hlt) hhere

theorem findHeaderEnd_some {split : Nat × Nat} (h : findHeaderEnd out = some split) :
    ∃ t, FirstEnd out split.1 t ∧ split.2 = split.1 + t.length := by
  unfold findHeaderEnd at h
  cases hcrlf : firstPlace [13, 10, 13, 10] out with
  | none =>
    have hno := (firstPlace_eq_none (by simp)).mp hcrlf
    cases hlf : firstPlace [10, 10] out with
    | none => simp [hcrlf, hlf] at h
    | some j =>
      simp only [hcrlf, hlf, Option.map_none, Option.map_some, Option.some.injEq] at h
      subst h
      obtain ⟨hhere, hbefore⟩ := (firstPlace_eq_some (by simp)).mp hlf
      exact ⟨[10, 10], firstEnd_of ⟨.inr rfl, hhere⟩ (fun j _ => hno j) hbefore, rfl⟩
  | some i =>
    obtain ⟨hhere, hbefore⟩ := (firstPlace_eq_some (by simp)).mp hcrlf
    cases hlf : firstPlace [10, 10] out with
    | none =>
      have hno := (firstPlace_eq_none (by simp)).mp hlf
      simp only [hcrlf, hlf, Option.map_none, Option.map_some, Option.some.injEq] at h
      subst h
      exact ⟨[13, 10, 13, 10], firstEnd_of ⟨.inl rfl, hhere⟩ hbefore (fun j _ => hno j), rfl⟩
    | some j =>
      obtain ⟨hhere', hbefore'⟩ := (firstPlace_eq_some (by simp)).mp hlf
      simp only [hcrlf, hlf, Option.map_some, Option.some.injEq] at h
      split at h
      · rename_i hle
        subst h
        exact ⟨[13, 10, 13, 10], firstEnd_of ⟨.inl rfl, hhere⟩ hbefore
          (fun m hm => hbefore' m (hm.trans_le hle)), rfl⟩
      · rename_i hgt
        subst h
        exact ⟨[10, 10], firstEnd_of ⟨.inr rfl, hhere'⟩
          (fun m hm => hbefore m (hm.trans (Nat.lt_of_not_le hgt))) hbefore', rfl⟩

theorem EndsAt.length (h : EndsAt out k t) : 2 ≤ t.length ∧ k + t.length ≤ out.length := by
  obtain ⟨htype, hhere⟩ := h
  have hfits := hhere.length_le
  rw [List.length_drop] at hfits
  rcases htype with rfl | rfl
  · simp only [List.length_cons, List.length_nil] at hfits ⊢
    omega
  · simp only [List.length_cons, List.length_nil] at hfits ⊢
    omega

theorem EndsAt.byte (h : EndsAt out k t) {i : Nat} (hi : i < t.length) : out[k + i]? = t[i]? := by
  obtain ⟨rest, hrest⟩ := h.2
  rw [← List.getElem?_drop, ← hrest, List.getElem?_append_left hi]

/-- A terminator that the bytes so far have, the whole output has there too. -/
theorem EndsAt.extend (h : EndsAt buf k t) (more : Bytes) : EndsAt (buf ++ more) k t := by
  refine ⟨h.1, ?_⟩
  rw [List.drop_append_of_le_length (Nat.le_of_add_right_le h.length.2)]
  exact h.2.trans (List.prefix_append _ _)

theorem EndsAt.restrict {more : Bytes} (h : EndsAt (buf ++ more) k t)
    (hfits : k + t.length ≤ buf.length) : EndsAt buf k t := by
  refine ⟨h.1, ?_⟩
  have hhere := h.2
  rw [List.drop_append_of_le_length (Nat.le_of_add_right_le hfits)] at hhere
  apply List.prefix_of_prefix_length_le hhere (List.prefix_append _ _)
  rw [List.length_drop]
  omega

/-- And one that begins before the first of them would have been in those bytes
too: where LF LF stands, no CR LF CR LF that begins just before it can end. -/
theorem FirstEnd.extend (h : FirstEnd buf k t) (more : Bytes) : FirstEnd (buf ++ more) k t := by
  refine ⟨h.ends.extend more, ?_⟩
  intro j t' hends
  by_contra hlt
  have hlong : buf.length < j + t'.length := by
    by_contra hshort
    exact hlt (h.first j t' (hends.restrict (Nat.le_of_not_lt hshort)))
  have hfits := h.ends.length
  rcases hends.1 with rfl | rfl
  · rcases h.ends.1 with rfl | rfl
    · simp only [List.length_cons, List.length_nil] at hlong hfits
      omega
    · simp only [List.length_cons, List.length_nil] at hlong hfits
      have hk : k = j + 1 := by omega
      have hcr := hends.byte (i := 2) (by decide)
      have hlf := (h.ends.extend more).byte (i := 1) (by decide)
      rw [hk] at hlf
      rw [show j + 1 + 1 = j + 2 from rfl, hcr] at hlf
      simp at hlf
  · simp only [List.length_cons, List.length_nil] at hlong
    omega

theorem findHeaderEnd_eq_some {split : Nat × Nat} : findHeaderEnd out = some split ↔
    ∃ t, FirstEnd out split.1 t ∧ split.2 = split.1 + t.length := by
  constructor
  · exact findHeaderEnd_some
  · intro h
    obtain ⟨t, hfirst, hbody⟩ := h
    cases hfound : findHeaderEnd out with
    | none => exact absurd hfirst.ends (findHeaderEnd_none hfound _ _)
    | some split' =>
      obtain ⟨t', hfirst', hbody'⟩ := findHeaderEnd_some hfound
      obtain ⟨hk, rfl⟩ := hfirst.unique hfirst'
      rw [Option.some.injEq, Prod.ext_iff]
      exact ⟨hk, by rw [hbody', hk, hbody]⟩

/-- What is found in a part of the output is what all of it has. -/
theorem findHeaderEnd_extend {split : Nat × Nat} (h : findHeaderEnd buf = some split)
    (more : Bytes) : findHeaderEnd (buf ++ more) = some split := by
  obtain ⟨t, hfirst, hbody⟩ := findHeaderEnd_some h
  exact findHeaderEnd_eq_some.mpr ⟨t, hfirst.extend more, hbody⟩

end Scan

/-- What the read loop leaves of an output: the buffer and the chunks after it
are the output, and the split is the whole output's, with all of it buffered
that comes before the body. -/
structure Splits (out buffered : Bytes) (split : Option (Nat × Nat)) (left : List Bytes) :
    Prop where
  whole : buffered ++ left.flatten = out
  found : split = findHeaderEnd out
  inside : ∀ {at_}, split = some at_ → findHeaderEnd buffered = some at_
  drained : split = none → left = []

theorem readHead_splits (buffered : Bytes) (chunks : List Bytes) (hne : ∀ c ∈ chunks, c ≠ []) :
    ∃ buffered' split left, readHead buffered (chunks.map .ok) =
        .ok (buffered', split, left.map .ok) ∧
      Splits (buffered ++ chunks.flatten) buffered' split left := by
  induction chunks generalizing buffered with
  | nil =>
    rw [List.map_nil, readHead]
    cases hfound : findHeaderEnd buffered with
    | some at_ =>
      refine ⟨buffered, some at_, [], rfl, rfl, ?_, ?_, nofun⟩
      · rw [List.flatten_nil, List.append_nil, hfound]
      · intro at_' h
        rw [hfound, h]
    | none =>
      refine ⟨buffered, none, [], rfl, rfl, ?_, nofun, fun _ => rfl⟩
      rw [List.flatten_nil, List.append_nil, hfound]
  | cons chunk chunks ih =>
    obtain ⟨byte, bytes, rfl⟩ := List.exists_cons_of_ne_nil (hne _ List.mem_cons_self)
    rw [List.map_cons, readHead]
    cases hfound : findHeaderEnd buffered with
    | some at_ =>
      refine ⟨buffered, some at_, (byte :: bytes) :: chunks, rfl, rfl, ?_, ?_, nofun⟩
      · rw [findHeaderEnd_extend hfound]
      · intro at_' h
        rw [hfound, h]
    | none =>
      obtain ⟨buffered', split, left, hread, hsplits⟩ := ih (buffered ++ byte :: bytes)
        (fun c hc => hne c (List.mem_cons_of_mem _ hc))
      refine ⟨buffered', split, left, hread, ?_⟩
      rw [List.flatten_cons, ← List.append_assoc]
      exact hsplits

/-- However the output arrives, it is cut at the first terminator, and without
one it is all header. -/
theorem output_split_anywhere (chunks : List Bytes) (hne : ∀ c ∈ chunks, c ≠ []) :
    ∃ (head : Bytes) (body : List Bytes), splitOutput (chunks.map .ok) = .ok (head, body.map .ok) ∧
      (∀ k t, FirstEnd chunks.flatten k t → head = chunks.flatten.take k ∧
        body.flatten = chunks.flatten.drop (k + t.length)) ∧
      ((∀ k t, ¬EndsAt chunks.flatten k t) → head = chunks.flatten ∧ body.flatten = []) := by
  obtain ⟨buffered, split, left, hread, hsplits⟩ := readHead_splits [] chunks hne
  rw [List.nil_append] at hsplits
  unfold splitOutput
  rw [hread]
  cases split with
  | none =>
    have hnone := hsplits.found.symm
    have hleft := hsplits.drained rfl
    subst hleft
    have hwhole := hsplits.whole
    rw [List.flatten_nil, List.append_nil] at hwhole
    refine ⟨buffered, [[]], rfl, ?_, ?_⟩
    · intro k t hfirst
      exact absurd hfirst.ends (findHeaderEnd_none hnone k t)
    · intro _
      exact ⟨hwhole, rfl⟩
  | some at_ =>
    obtain ⟨stop, bodyAt⟩ := at_
    have hfound := hsplits.found.symm
    obtain ⟨t, hfirst, hbody⟩ := findHeaderEnd_some (hsplits.inside rfl)
    simp only at hfirst hbody
    have hfits := hfirst.ends.length.2
    refine ⟨buffered.take stop, buffered.drop bodyAt :: left, rfl, ?_, ?_⟩
    · intro k t' hfirst'
      have hsame : findHeaderEnd chunks.flatten = some (k, k + t'.length) :=
        findHeaderEnd_eq_some.mpr ⟨t', hfirst', rfl⟩
      rw [hfound] at hsame
      cases hsame
      rw [← hsplits.whole, List.take_append_of_le_length (Nat.le_of_add_right_le hfits),
        List.drop_append_of_le_length (hbody.trans_le hfits), List.flatten_cons]
      exact ⟨rfl, rfl⟩
    · intro hno
      obtain ⟨t', hfirst', _⟩ := findHeaderEnd_some hfound
      exact absurd hfirst'.ends (hno _ _)

/-- A terminator that arrives in three reads, before an LF LF in the body. -/
theorem straddling_split : ∃ (head : Bytes) (body : List Bytes),
    splitOutput ([[65, 13], [10, 13], [10, 66, 10, 10]].map .ok) = .ok (head, body.map .ok) ∧
      (∀ k t, FirstEnd [[65, 13], [10, 13], [10, 66, 10, 10]].flatten k t →
        head = [[65, 13], [10, 13], [10, 66, 10, 10]].flatten.take k ∧
        body.flatten = [[65, 13], [10, 13], [10, 66, 10, 10]].flatten.drop (k + t.length)) ∧
      ((∀ k t, ¬EndsAt [[65, 13], [10, 13], [10, 66, 10, 10]].flatten k t) →
        head = [[65, 13], [10, 13], [10, 66, 10, 10]].flatten ∧ body.flatten = []) :=
  output_split_anywhere [[65, 13], [10, 13], [10, 66, 10, 10]] (by simp)

end Xetcas.Proofs.CgiOutput
