import Mathlib.Data.Finset.Card

namespace Xetcas.Lib

/-- Exactly `n` indexes have a property. -/
def Exactly {ι : Type} (p : ι → Prop) (n : Nat) : Prop :=
  ∃ T : Finset ι, (∀ i, i ∈ T ↔ p i) ∧ T.card = n

namespace Exactly
variable {ι : Type} {p q : ι → Prop} {n : Nat} {i : ι}

theorem none (h : ∀ i, ¬p i) : Exactly p 0 := ⟨∅, by simp [h], rfl⟩

theorem stay (h : Exactly p n) (hq : ∀ j, q j ↔ p j) : Exactly q n := by
  obtain ⟨T, hT, hcard⟩ := h
  exact ⟨T, fun j => (hT j).trans (hq j).symm, hcard⟩

/-- Any indexes with the property are among the counted. -/
theorem card_le (h : Exactly p n) {S : Finset ι} (hS : ∀ i ∈ S, p i) : S.card ≤ n := by
  obtain ⟨T, hT, hcard⟩ := h
  rw [← hcard]
  exact Finset.card_le_card (fun i hi => (hT i).mpr (hS i hi))

variable [DecidableEq ι]

/-- Listed once each, they are as many as the list is long. -/
theorem of_nodup {l : List ι} (hn : l.Nodup) (h : ∀ i, i ∈ l ↔ p i) : Exactly p l.length :=
  ⟨l.toFinset, fun i => List.mem_toFinset.trans (h i), List.toFinset_card_of_nodup hn⟩

/-- One index gains the property. -/
theorem join (h : Exactly p n) (hi : ¬p i) (hq : q i) (hother : ∀ j ≠ i, q j ↔ p j) :
    Exactly q (n + 1) := by
  obtain ⟨T, hT, hcard⟩ := h
  have hnot : i ∉ T := fun hm => hi ((hT i).mp hm)
  refine ⟨insert i T, ?_, by rw [Finset.card_insert_of_notMem hnot, hcard]⟩
  intro j
  rcases eq_or_ne j i with rfl | hj
  · simp [hq]
  · simp [hj, hT j, hother j hj]

/-- One index loses it. -/
theorem leave (h : Exactly p n) (hi : p i) (hq : ¬q i) (hother : ∀ j ≠ i, q j ↔ p j) :
    Exactly q (n - 1) ∧ 0 < n := by
  obtain ⟨T, hT, hcard⟩ := h
  have hmem : i ∈ T := (hT i).mpr hi
  refine ⟨⟨T.erase i, ?_, by rw [Finset.card_erase_of_mem hmem, hcard]⟩, ?_⟩
  · intro j
    rcases eq_or_ne j i with rfl | hj
    · simp [hq]
    · simp [hj, hT j, hother j hj]
  · rw [← hcard]
    exact Finset.card_pos.mpr ⟨i, hmem⟩

end Exactly

/-- A semaphore: as many permits are free as are left by those that have one. -/
def Rationed {ι : Type} (p : ι → Prop) (free total : Nat) : Prop :=
  ∃ held, Exactly p held ∧ held + free = total

namespace Rationed
variable {ι : Type} {p q : ι → Prop} {free total : Nat} {i : ι}

theorem none (h : ∀ i, ¬p i) : Rationed p total total := ⟨0, .none h, Nat.zero_add _⟩

theorem stay (h : Rationed p free total) (hq : ∀ j, q j ↔ p j) : Rationed q free total := by
  obtain ⟨held, hexact, htotal⟩ := h
  exact ⟨held, hexact.stay hq, htotal⟩

/-- Where no permit is free, somebody has one. -/
theorem holder (h : Rationed p 0 total) (hpos : 0 < total) : ∃ i, p i := by
  obtain ⟨held, ⟨T, hT, hcard⟩, htotal⟩ := h
  have hsome : T.Nonempty := by
    rw [← Finset.card_pos]
    omega
  obtain ⟨i, hi⟩ := hsome
  exact ⟨i, (hT i).mp hi⟩

variable [DecidableEq ι]

theorem take (h : Rationed p (free + 1) total) (hi : ¬p i) (hq : q i)
    (hother : ∀ j ≠ i, q j ↔ p j) : Rationed q free total := by
  obtain ⟨held, hexact, htotal⟩ := h
  exact ⟨held + 1, hexact.join hi hq hother, by omega⟩

theorem give (h : Rationed p free total) (hi : p i) (hq : ¬q i)
    (hother : ∀ j ≠ i, q j ↔ p j) : Rationed q (free + 1) total := by
  obtain ⟨held, hexact, htotal⟩ := h
  obtain ⟨hexact', hpos⟩ := hexact.leave hi hq hother
  exact ⟨held - 1, hexact', by omega⟩

end Rationed

end Xetcas.Lib
