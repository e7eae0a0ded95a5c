import Mathlib.Data.List.Nodup

namespace Xetcas.Lib

section Lookup
variable {κ ρ : Type} [DecidableEq κ] {k k' : κ} {r : ρ} {rows : List (κ × ρ)}

/-- The row of a key: the first one, should there be several. -/
def rowOf (k : κ) : List (κ × ρ) → Option ρ
  | [] => none
  | (k₀, r) :: rows => if k = k₀ then some r else rowOf k rows

theorem rowOf_mem (h : rowOf k rows = some r) : (k, r) ∈ rows := by
  induction rows with
  | nil => simp [rowOf] at h
  | cons row rows ih =>
    simp only [rowOf] at h
    split at h
    · rename_i he
      cases h
      simp [he]
    · exact List.mem_cons_of_mem _ (ih h)

theorem mem_rowOf (hn : (rows.map Prod.fst).Nodup) (h : (k, r) ∈ rows) :
    rowOf k rows = some r := by
  induction rows with
  | nil => simp at h
  | cons row rows ih =>
    simp only [List.map_cons, List.nodup_cons, List.mem_map] at hn
    rcases List.mem_cons.mp h with he | hm
    · simp [rowOf, ← he]
    · have hk : k ≠ row.1 := fun he => hn.1 ⟨(k, r), hm, he⟩
      simp [rowOf, hk, ih hn.2 hm]

theorem rowOf_eq_none : rowOf k rows = none ↔ k ∉ rows.map Prod.fst := by
  induction rows with
  | nil => simp [rowOf]
  | cons row rows ih =>
    simp only [rowOf, List.map_cons, List.mem_cons, not_or]
    split <;> simp_all

theorem rowOf_append (rows' : List (κ × ρ)) :
    rowOf k (rows ++ rows') = (rowOf k rows).or (rowOf k rows') := by
  induction rows with
  | nil => simp [rowOf]
  | cons row rows ih =>
    simp only [List.cons_append, rowOf]
    split <;> simp_all

/-- The row of a key is the first one that has it. -/
theorem rowOf_eq_some : rowOf k rows = some r ↔
    ∃ before after, rows = before ++ (k, r) :: after ∧ k ∉ before.map Prod.fst := by
  constructor
  · intro h
    induction rows with
    | nil => cases h
    | cons row rows ih =>
      simp only [rowOf] at h
      split at h
      · rename_i he
        cases h
        exact ⟨[], rows, by simp [he], by simp⟩
      · rename_i hne
        obtain ⟨before, after, hrows, hbefore⟩ := ih h
        exact ⟨row :: before, after, by simp [hrows], by simpa using ⟨hne, by simpa using hbefore⟩⟩
  · intro hparts
    obtain ⟨before, after, rfl, hbefore⟩ := hparts
    simp [rowOf_append, rowOf_eq_none.mpr hbefore, rowOf]

end Lookup

/-- Rows under distinct keys, oldest first: a map with the order in which its
keys arrived, or a table with a primary key. -/
structure Table (κ ρ : Type) where
  rows : List (κ × ρ)
  keys : (rows.map Prod.fst).Nodup
  deriving DecidableEq

namespace Table
variable {κ ρ : Type} [DecidableEq κ] {t u v : Table κ ρ} {k k' : κ} {r : ρ}

def empty : Table κ ρ := ⟨[], by simp⟩

def get? (t : Table κ ρ) (k : κ) : Option ρ := rowOf k t.rows

@[simp] theorem get?_empty : (empty : Table κ ρ).get? k = none := rfl

theorem mem_rows : (k, r) ∈ t.rows ↔ t.get? k = some r :=
  ⟨mem_rowOf t.keys, rowOf_mem⟩

theorem get?_eq_none : t.get? k = none ↔ k ∉ t.rows.map Prod.fst := rowOf_eq_none

/-- Add a row, unless its key is taken. -/
def insertOrIgnore (t : Table κ ρ) (k : κ) (r : ρ) : Table κ ρ :=
  if h : t.get? k = none then
    ⟨t.rows ++ [(k, r)], by
      rw [List.map_append]
      refine List.nodup_append.mpr ⟨t.keys, by simp, ?_⟩
      intro a ha b hb hab
      have hk : k ∈ t.rows.map Prod.fst := by simp_all
      exact get?_eq_none.mp h hk⟩
  else t

theorem insertOrIgnore_new (h : t.get? k = none) :
    (t.insertOrIgnore k r).rows = t.rows ++ [(k, r)] := by
  simp [insertOrIgnore, h]

theorem insertOrIgnore_taken (h : t.get? k ≠ none) : t.insertOrIgnore k r = t := by
  simp [insertOrIgnore, h]

theorem get?_insertOrIgnore : (t.insertOrIgnore k r).get? k' =
    if k' = k then some ((t.get? k).getD r) else t.get? k' := by
  cases h : t.get? k with
  | none =>
    unfold get? at h ⊢
    rw [insertOrIgnore_new h, rowOf_append]
    by_cases he : k' = k
    · simp [rowOf, he, h]
    · simp [rowOf, he]
  | some r₀ =>
    rw [insertOrIgnore_taken (by simp [h])]
    split <;> simp_all

/-- Change the row of a key, starting from `none` when it has none. -/
def upsert (t : Table κ ρ) (k : κ) (f : Option ρ → ρ) : Table κ ρ :=
  if h : t.get? k = none then
    ⟨t.rows ++ [(k, f none)], by simpa [insertOrIgnore, h] using (t.insertOrIgnore k (f none)).keys⟩
  else
    ⟨t.rows.map (fun row => (row.1, if row.1 = k then f (some row.2) else row.2)), by
      simpa [List.map_map, Function.comp_def] using t.keys⟩

theorem get?_upsert (f : Option ρ → ρ) :
    (t.upsert k f).get? k' = if k' = k then some (f (t.get? k)) else t.get? k' := by
  cases h : t.get? k with
  | none =>
    unfold get? at h ⊢
    simp only [upsert, get?, h, ↓reduceDIte, rowOf_append]
    by_cases he : k' = k
    · simp [rowOf, he, h]
    · simp [rowOf, he]
  | some r =>
    have hne : ¬t.get? k = none := by simp [h]
    simp only [upsert, hne, ↓reduceDIte]
    cases h' : t.get? k' with
    | none =>
      have hk : k' ≠ k := by
        intro he
        simp_all
      simp only [hk, ↓reduceIte]
      apply get?_eq_none.mpr
      simpa [List.map_map, Function.comp_def] using get?_eq_none.mp h'
    | some r' =>
      rw [← apply_ite some]
      apply mem_rows.mp
      refine List.mem_map.mpr ⟨(k', r'), mem_rows.mpr h', ?_⟩
      by_cases he : k' = k
      · simp_all
      · simp [he]

def map {σ : Type} (t : Table κ ρ) (f : κ → ρ → σ) : Table κ σ :=
  ⟨t.rows.map (fun row => (row.1, f row.1 row.2)), by
    simpa [List.map_map, Function.comp_def] using t.keys⟩

theorem get?_map {σ : Type} (f : κ → ρ → σ) : (t.map f).get? k = (t.get? k).map (f k) := by
  obtain ⟨rows, _⟩ := t
  unfold get? map
  induction rows with
  | nil => rfl
  | cons row rows ih =>
    simp only [List.map_cons, rowOf]
    split
    · simp_all
    · apply ih
      simp_all

omit [DecidableEq κ] in
theorem eq_of_rows (h : t.rows = u.rows) : t = u := by
  cases t
  cases u
  cases h
  rfl

section Map
variable {σ : Type} (f : κ → ρ → σ)

omit [DecidableEq κ] in
@[simp] theorem rows_map : (t.map f).rows = t.rows.map (fun row => (row.1, f row.1 row.2)) := rfl

omit [DecidableEq κ] in
@[simp] theorem map_empty : (empty : Table κ ρ).map f = empty := rfl

theorem map_insertOrIgnore : (t.insertOrIgnore k r).map f = (t.map f).insertOrIgnore k (f k r) := by
  by_cases h : t.get? k = none
  · have hfree : (t.map f).get? k = none := by rw [get?_map, h, Option.map_none]
    apply eq_of_rows
    rw [rows_map, insertOrIgnore_new h, insertOrIgnore_new hfree, List.map_append]
    rfl
  · have htaken : (t.map f).get? k ≠ none := by simpa [get?_map] using h
    rw [insertOrIgnore_taken h, insertOrIgnore_taken htaken]

end Map

/-- Every row of `t` stands unchanged in `u`. -/
def Within (t u : Table κ ρ) : Prop := ∀ k r, t.get? k = some r → u.get? k = some r

theorem Within.refl (t : Table κ ρ) : t.Within t := fun _ _ h => h

theorem Within.trans (h : t.Within u) (g : u.Within v) : t.Within v :=
  fun k r hr => g k r (h k r hr)

theorem within_insertOrIgnore (t : Table κ ρ) (k : κ) (r : ρ) :
    t.Within (t.insertOrIgnore k r) := by
  intro k' r' h
  rw [get?_insertOrIgnore]
  split <;> simp_all

/-- A row of the new table was in the old one, or is the inserted one and its
key was free. -/
theorem get?_insertOrIgnore_some {r' : ρ} (h : (t.insertOrIgnore k r).get? k' = some r') :
    t.get? k' = some r' ∨ (k' = k ∧ r' = r ∧ t.get? k = none) := by
  rw [get?_insertOrIgnore] at h
  split at h
  · cases hg : t.get? k with
    | none => simp_all
    | some r₀ => simp_all
  · exact .inl h

def insertAll (t : Table κ ρ) : List (κ × ρ) → Table κ ρ
  | [] => t
  | (k, r) :: rows => insertAll (t.insertOrIgnore k r) rows

/-- The row a key ends up with: its old one, or else the first one inserted. -/
theorem get?_insertAll (t : Table κ ρ) (rows : List (κ × ρ)) (k : κ) :
    (t.insertAll rows).get? k = (t.get? k).or (rowOf k rows) := by
  induction rows generalizing t with
  | nil => simp [insertAll, rowOf]
  | cons row rows ih =>
    simp only [insertAll, ih, get?_insertOrIgnore, rowOf]
    split
    · rename_i he
      rw [he]
      cases t.get? row.1 <;> simp
    · rfl

theorem map_insertAll {σ : Type} (f : κ → ρ → σ) (t : Table κ ρ) (rows : List (κ × ρ)) :
    (t.insertAll rows).map f =
      (t.map f).insertAll (rows.map (fun row => (row.1, f row.1 row.2))) := by
  induction rows generalizing t with
  | nil => rfl
  | cons row rows ih => rw [insertAll, ih, map_insertOrIgnore, List.map_cons, insertAll]

theorem within_insertAll (t : Table κ ρ) (rows : List (κ × ρ)) : t.Within (t.insertAll rows) := by
  intro k r h
  simp [get?_insertAll, h]

theorem get?_insertAll_some {rows : List (κ × ρ)} (h : (t.insertAll rows).get? k = some r) :
    t.get? k = some r ∨ (k, r) ∈ rows := by
  rw [get?_insertAll] at h
  rcases Option.or_eq_some_iff.mp h with hg | ⟨_, hr⟩
  · exact .inl hg
  · exact .inr (rowOf_mem hr)

/-- Nothing is inserted when every key is taken. -/
theorem insertAll_taken {rows : List (κ × ρ)} (h : ∀ row ∈ rows, t.get? row.1 ≠ none) :
    t.insertAll rows = t := by
  induction rows with
  | nil => rfl
  | cons row rows ih =>
    rw [insertAll, insertOrIgnore_taken (h row (by simp))]
    exact ih (fun other hother => h other (by simp [hother]))

/-- Whatever was there before, an inserted key has a row. -/
theorem insertAll_mem {rows : List (κ × ρ)} (t : Table κ ρ) (h : (k, r) ∈ rows) :
    ∃ r', (t.insertAll rows).get? k = some r' := by
  rw [get?_insertAll]
  apply Option.ne_none_iff_exists'.mp
  intro hn
  rw [Option.or_eq_none_iff, rowOf_eq_none] at hn
  exact hn.2 (List.mem_map.mpr ⟨(k, r), h, rfl⟩)

end Table

end Xetcas.Lib
