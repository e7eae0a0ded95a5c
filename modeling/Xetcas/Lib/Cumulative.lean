import Mathlib.Algebra.BigOperators.Group.List.Basic
import Mathlib.Algebra.BigOperators.Intervals

namespace Xetcas.Lib

/-- Where piece `i` starts, when `ends` lists where each of the pieces ends. -/
def startOf (ends : List Nat) (i : Nat) : Nat :=
  if i = 0 then 0 else ends.getD (i - 1) 0

@[simp] theorem startOf_zero (ends : List Nat) : startOf ends 0 = 0 := rfl

theorem startOf_succ (ends : List Nat) {i : Nat} (h : i < ends.length) :
    startOf ends (i + 1) = ends[i] := by
  simp [startOf, List.getD_eq_getElem?_getD, h]

theorem startOf_mono {ends : List Nat} (h : ends.Pairwise (· ≤ ·)) {i j : Nat} (hij : i ≤ j)
    (hj : j ≤ ends.length) : startOf ends i ≤ startOf ends j := by
  cases i with
  | zero => simp
  | succ i =>
    cases j with
    | zero => omega
    | succ j =>
      rw [startOf_succ ends (by omega), startOf_succ ends (by omega)]
      rcases Nat.lt_or_eq_of_le hij with hlt | heq
      · exact List.pairwise_iff_getElem.mp h i j (by omega) (by omega) (by omega)
      · cases heq
        exact le_refl _

theorem startOf_getElem {ends : List Nat} {i : Nat} (h : i < (0 :: ends).length) :
    startOf ends i = (0 :: ends)[i] := by
  cases i with
  | zero => rfl
  | succ i => exact startOf_succ ends (by simpa using h)

section Steps
variable {R : Nat → Nat → Prop} [IsTrans Nat R] {ends : List Nat}

/-- What relates each piece's start to the next one's relates all of them, as
positive lengths do by `<`. -/
theorem pairwise_starts :
    (0 :: ends).Pairwise R ↔ ∀ i < ends.length, R (startOf ends i) (startOf ends (i + 1)) := by
  rw [← List.isChain_iff_pairwise, List.isChain_iff_getElem]
  constructor
  · intro h i hi
    have hchain := h i (by simpa using hi)
    rwa [← startOf_getElem, ← startOf_getElem] at hchain
  · intro h i hi
    have hstep := h i (by simpa using hi)
    rwa [startOf_getElem (Nat.lt_of_succ_lt hi), startOf_getElem hi] at hstep

theorem startOf_steps (h : ∀ i < ends.length, R (startOf ends i) (startOf ends (i + 1)))
    {i j : Nat} (hij : i < j) (hj : j ≤ ends.length) : R (startOf ends i) (startOf ends j) := by
  have hlast : j < (0 :: ends).length := Nat.lt_succ_of_le hj
  rw [startOf_getElem (hij.trans hlast), startOf_getElem hlast]
  exact List.pairwise_iff_getElem.mp (pairwise_starts.mpr h) i j _ _ hij

theorem pairwise_of_steps (h : ∀ i < ends.length, R (startOf ends i) (startOf ends (i + 1))) :
    ends.Pairwise R :=
  (List.pairwise_cons.mp (pairwise_starts.mpr h)).2

end Steps

/-- The lengths of a run of pieces add up to the distance between its ends. -/
theorem sum_startOf {ends : List Nat} (h : ends.Pairwise (· ≤ ·)) {i j : Nat} (hij : i ≤ j)
    (hj : j ≤ ends.length) :
    ∑ k ∈ Finset.Ico i j, (startOf ends (k + 1) - startOf ends k) =
      startOf ends j - startOf ends i := by
  induction j, hij using Nat.le_induction with
  | base => simp
  | succ j hij ih =>
    rw [Finset.sum_Ico_succ_top hij, ih (by omega)]
    have h₁ := startOf_mono h hij (by omega)
    have h₂ := startOf_mono h (Nat.le_add_right j 1) hj
    omega

def endsOf (lens : List Nat) : List Nat := (List.range lens.length).map (fun i => (lens.take (i + 1)).sum)

@[simp] theorem length_endsOf (lens : List Nat) : (endsOf lens).length = lens.length := by
  simp [endsOf]

theorem startOf_endsOf (lens : List Nat) {i : Nat} (h : i ≤ lens.length) :
    startOf (endsOf lens) i = (lens.take i).sum := by
  cases i with
  | zero => simp
  | succ i =>
    rw [startOf_succ _ (by simpa using h)]
    simp [endsOf]

theorem endsOf_pairwise (lens : List Nat) : (endsOf lens).Pairwise (· ≤ ·) := by
  apply List.pairwise_iff_getElem.mpr
  intro i j hi hj hij
  simp only [length_endsOf] at hi hj
  have htake : lens.take (i + 1) <+: lens.take (j + 1) := List.take_prefix_take_left (by omega)
  obtain ⟨tail, htail⟩ := htake
  simp [endsOf, ← htail]

theorem mem_endsOf_le {lens : List Nat} {e : Nat} (h : e ∈ endsOf lens) : e ≤ lens.sum := by
  obtain ⟨i, _, rfl⟩ := List.mem_map.mp h
  have hsplit := List.sum_take_add_sum_drop lens (i + 1)
  omega

/-- The last piece ends where all of them do. -/
theorem getLast_endsOf (lens : List Nat) : (endsOf lens).getLast?.getD 0 = lens.sum := by
  rcases Nat.eq_zero_or_pos lens.length with h | h
  · simp [List.eq_nil_of_length_eq_zero h, endsOf]
  · rw [List.getLast?_eq_getElem?, length_endsOf, List.getElem?_eq_getElem (by simpa using h)]
    simp [endsOf, Nat.sub_add_cancel h]

/-- Piece `k` has a position from `s` up to `e`, when pieces of these lengths
are laid end to end. -/
def Overlaps (lens : List Nat) (s e k : Nat) : Prop :=
  ∃ i, startOf (endsOf lens) k ≤ i ∧ i < startOf (endsOf lens) (k + 1) ∧ s ≤ i ∧ i < e

theorem overlaps_iff {lens : List Nat} {s e k : Nat} : Overlaps lens s e k ↔
    startOf (endsOf lens) k < startOf (endsOf lens) (k + 1) ∧ startOf (endsOf lens) k < e ∧
      s < startOf (endsOf lens) (k + 1) ∧ s < e := by
  constructor
  · intro h
    obtain ⟨i, hstart, hstop, hs, he⟩ := h
    omega
  · intro h
    exact ⟨max (startOf (endsOf lens) k) s, by omega, by omega, by omega, by omega⟩

/-- The pieces from the one that `s` falls in to the one that ends at `e` or
after are those that overlap. -/
theorem overlaps_middle (before mid after : List Nat) {s e : Nat}
    (hpos : ∀ len ∈ mid, 0 < len) (hse : s < e) (hskip : before.sum ≤ s)
    (hhead : ∀ len rest, mid = len :: rest → s < before.sum + len)
    (hlast : ∀ front len, mid = front ++ [len] → before.sum + front.sum < e)
    (htail : after = [] ∨ e ≤ before.sum + mid.sum) {k : Nat}
    (hk : k < (before ++ mid ++ after).length) :
    Overlaps (before ++ mid ++ after) s e k ↔
      before.length ≤ k ∧ k < before.length + mid.length := by
  have hlength : (before ++ mid ++ after).length = before.length + mid.length + after.length := by
    rw [List.length_append, List.length_append]
  have hmono : ∀ {i j}, i ≤ j → j ≤ before.length + mid.length + after.length →
      startOf (endsOf (before ++ mid ++ after)) i ≤ startOf (endsOf (before ++ mid ++ after)) j :=
    fun hij hj => startOf_mono (endsOf_pairwise _) hij (by rwa [length_endsOf, hlength])
  have hat : ∀ front rest, before ++ mid ++ after = front ++ rest →
      startOf (endsOf (before ++ mid ++ after)) front.length = front.sum := by
    intro front rest he
    rw [he, startOf_endsOf _ (by simp), List.take_left]
  rw [overlaps_iff]
  constructor
  · intro h
    obtain ⟨_, hbefore, hafter, _⟩ := h
    constructor
    · by_contra hlt
      have hle := hmono (i := k + 1) (j := before.length) (by omega) (by omega)
      rw [hat before (mid ++ after) (List.append_assoc _ _ _)] at hle
      omega
    · by_contra hge
      have hle := hmono (i := before.length + mid.length) (j := k) (by omega) (by omega)
      rw [← List.length_append, hat _ _ rfl, List.sum_append] at hle
      rcases htail with rfl | hend
      · rw [List.length_nil] at hlength
        omega
      · omega
  · intro h
    obtain ⟨hge, hlt⟩ := h
    have hmid : mid ≠ [] := by
      intro hnil
      rw [hnil, List.length_nil] at hlt
      omega
    obtain ⟨len, rest, hcons⟩ := List.exists_cons_of_ne_nil hmid
    obtain ⟨front, last, hconcat⟩ := (List.eq_nil_or_concat mid).resolve_left hmid
    rw [List.concat_eq_append] at hconcat
    have hfront : mid.length = front.length + 1 := by rw [hconcat, List.length_append]; rfl
    -- the first piece kept reaches beyond `s`, and the last one begins before `e`
    have hfirst := hat (before ++ [len]) (rest ++ after) (by simp [hcons])
    have hend := hat (before ++ front) (last :: after) (by simp [hconcat])
    rw [List.length_append, List.length_singleton, List.sum_append, List.sum_singleton] at hfirst
    rw [List.length_append, List.sum_append] at hend
    have hafter := hmono (i := before.length + 1) (j := k + 1) (by omega) (by omega)
    have hbefore := hmono (i := k) (j := before.length + front.length) (by omega) (by omega)
    have hreach := hhead len rest hcons
    have hopen := hlast front last hconcat
    refine ⟨?_, by omega, by omega, hse⟩
    rw [startOf_endsOf _ hk.le, startOf_endsOf _ hk, List.sum_take_succ _ _ hk]
    have hmem : (before ++ mid ++ after)[k] ∈ mid := by
      rw [List.getElem_append_left (by rw [List.length_append]; exact hlt),
        List.getElem_append_right hge]
      exact List.getElem_mem _
    exact Nat.lt_add_of_pos_right (hpos _ hmem)

section Pieces
variable {α : Type} {pieces : List (List α)}

/-- Cutting a concatenation at the start of a piece cuts between the pieces. -/
theorem drop_startOf {i : Nat} (h : i ≤ pieces.length) :
    pieces.flatten.drop (startOf (endsOf (pieces.map List.length)) i) =
      (pieces.drop i).flatten := by
  rw [startOf_endsOf _ (by simpa using h), List.drop_sum_flatten]

theorem take_startOf {i : Nat} (h : i ≤ pieces.length) :
    pieces.flatten.take (startOf (endsOf (pieces.map List.length)) i) =
      (pieces.take i).flatten := by
  rw [startOf_endsOf _ (by simpa using h), List.take_sum_flatten]

def piecesIn (pieces : List α) (i j : Nat) : List α := (pieces.take j).drop i

/-- A run inside a run of pieces. -/
theorem piecesIn_piecesIn {pieces : List α} {a b i j : Nat} (ha : a ≤ i) (hij : i ≤ j)
    (hb : j ≤ b) : piecesIn (piecesIn pieces a b) (i - a) (j - a) = piecesIn pieces i j := by
  unfold piecesIn
  rw [List.take_drop, List.drop_drop, List.take_take, Nat.add_sub_cancel' (ha.trans hij),
    Nat.min_eq_left hb, Nat.add_sub_cancel' ha]

theorem cut_startOf {i j : Nat} (hj : j ≤ pieces.length) (hij : i ≤ j) :
    (pieces.flatten.take (startOf (endsOf (pieces.map List.length)) j)).drop
      (startOf (endsOf (pieces.map List.length)) i) = (piecesIn pieces i j).flatten := by
  rw [take_startOf hj]
  have hlen : (pieces.take j).length = j := by simp [hj]
  have hstart : startOf (endsOf (pieces.map List.length)) i =
      startOf (endsOf ((pieces.take j).map List.length)) i := by
    rw [startOf_endsOf _ (by simp; omega), startOf_endsOf _ (by simp; omega), List.map_take,
      List.take_take, Nat.min_eq_left hij]
  rw [hstart, drop_startOf (by omega)]
  rfl

end Pieces

end Xetcas.Lib
