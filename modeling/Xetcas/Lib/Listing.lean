import Mathlib.Data.List.Nodup

namespace Xetcas.Lib

/-- The entries of a directory, one after the other, each subdirectory with its
own. -/
inductive Listing (ν α : Type) where
  | nil
  | file (name : ν) (data : α) (rest : Listing ν α)
  | dir (name : ν) (inner rest : Listing ν α)

namespace Listing
variable {ν α : Type}

def names : Listing ν α → List ν
  | nil => []
  | file name _ rest => name :: rest.names
  | dir name _ rest => name :: rest.names

/-- All files below the directory, with their paths from there. -/
def files : Listing ν α → List (List ν × α)
  | nil => []
  | file name data rest => ([name], data) :: rest.files
  | dir name inner rest => inner.files.map (fun f => (name :: f.1, f.2)) ++ rest.files

/-- No directory has two entries of one name. -/
def Distinct : Listing ν α → Prop
  | nil => True
  | file name _ rest => name ∉ rest.names ∧ rest.Distinct
  | dir name inner rest => name ∉ rest.names ∧ inner.Distinct ∧ rest.Distinct

/-- Every file is `depth` names below the directory, and every directory less. -/
def Level : Listing ν α → Nat → Prop
  | nil, _ => True
  | file _ _ rest, depth => depth = 1 ∧ rest.Level depth
  | dir _ inner rest, depth => 1 < depth ∧ inner.Level (depth - 1) ∧ rest.Level depth

section Files
variable {t : Listing ν α} {path : List ν} {data : α}

theorem mem_files_file {name : ν} {data' : α} {rest : Listing ν α} :
    (path, data) ∈ (file name data' rest).files ↔
      path = [name] ∧ data = data' ∨ (path, data) ∈ rest.files := by
  rw [files, List.mem_cons, Prod.mk.injEq]

theorem mem_files_dir {name : ν} {inner rest : Listing ν α} :
    (path, data) ∈ (dir name inner rest).files ↔
      (∃ below, path = name :: below ∧ (below, data) ∈ inner.files) ∨
        (path, data) ∈ rest.files := by
  rw [files, List.mem_append, List.mem_map]
  refine or_congr_left ?_
  constructor
  · intro h
    obtain ⟨⟨below, data'⟩, hmem, he⟩ := h
    cases he
    exact ⟨below, rfl, hmem⟩
  · intro h
    obtain ⟨below, rfl, hmem⟩ := h
    exact ⟨(below, data), hmem, rfl⟩

/-- The path of a file begins with an entry of the directory. -/
theorem name_of_mem (h : (path, data) ∈ t.files) : ∃ name below, path = name :: below ∧
    name ∈ t.names := by
  induction t generalizing path with
  | nil => cases h
  | file name data' rest ih =>
    rcases mem_files_file.mp h with ⟨rfl, rfl⟩ | hrest
    · exact ⟨name, [], rfl, List.mem_cons_self⟩
    · obtain ⟨name', below, rfl, hname⟩ := ih hrest
      exact ⟨name', below, rfl, List.mem_cons_of_mem _ hname⟩
  | dir name inner rest _ ih =>
    rcases mem_files_dir.mp h with ⟨below, rfl, _⟩ | hrest
    · exact ⟨name, below, rfl, List.mem_cons_self⟩
    · obtain ⟨name', below, rfl, hname⟩ := ih hrest
      exact ⟨name', below, rfl, List.mem_cons_of_mem _ hname⟩

theorem not_mem_of_name {name : ν} {below : List ν} (h : name ∉ t.names) :
    (name :: below, data) ∉ t.files := by
  intro hmem
  obtain ⟨name', below', hpath, hname⟩ := name_of_mem hmem
  cases hpath
  exact h hname

/-- A file of a directory is replaced where it is replaced below that directory. -/
theorem mem_dir_placed {name : ν} {below path' : List ν} {data data' : α}
    {inner inner' rest : Listing ν α}
    (hnew : name ∉ rest.names)
    (hinner : ∀ {p : List ν}, (p, data') ∈ inner'.files ↔
      p = below ∧ data' = data ∨ p ≠ below ∧ (p, data') ∈ inner.files) :
    (path', data') ∈ (dir name inner' rest).files ↔ path' = name :: below ∧ data' = data ∨
      path' ≠ name :: below ∧ (path', data') ∈ (dir name inner rest).files := by
  rw [mem_files_dir, mem_files_dir]
  constructor
  · intro hmem
    rcases hmem with ⟨below', rfl, hmem⟩ | hmem
    · rcases hinner.mp hmem with ⟨rfl, rfl⟩ | ⟨hother, hold⟩
      · exact .inl ⟨rfl, rfl⟩
      · exact .inr ⟨by simpa using hother, .inl ⟨below', rfl, hold⟩⟩
    · refine .inr ⟨?_, .inr hmem⟩
      rintro rfl
      exact not_mem_of_name hnew hmem
  · intro hmem
    rcases hmem with ⟨rfl, rfl⟩ | ⟨hother, ⟨below', rfl, hmem⟩ | hmem⟩
    · exact .inl ⟨below, rfl, hinner.mpr (.inl ⟨rfl, rfl⟩)⟩
    · refine .inl ⟨below', rfl, hinner.mpr (.inr ⟨?_, hmem⟩)⟩
      simpa using hother
    · exact .inr hmem

/-- A path names one file. -/
theorem files_nodup (h : t.Distinct) : (t.files.map Prod.fst).Nodup := by
  induction t with
  | nil => exact List.nodup_nil
  | file name data rest ih =>
    obtain ⟨hnew, hrest⟩ := h
    rw [files, List.map_cons, List.nodup_cons]
    refine ⟨?_, ih hrest⟩
    intro hmem
    obtain ⟨⟨path, data'⟩, hfile, rfl⟩ := List.mem_map.mp hmem
    exact not_mem_of_name hnew hfile
  | dir name inner rest ihInner ihRest =>
    obtain ⟨hnew, hinner, hrest⟩ := h
    rw [files, List.map_append, List.map_map]
    refine List.nodup_append.mpr ⟨?_, ihRest hrest, ?_⟩
    · have hmap := (ihInner hinner).map (List.cons_injective (a := name))
      rwa [List.map_map] at hmap
    · intro path hpath path' hpath' he
      obtain ⟨⟨below, data⟩, _, rfl⟩ := List.mem_map.mp hpath
      obtain ⟨⟨path', data'⟩, hfile, rfl⟩ := List.mem_map.mp hpath'
      subst he
      exact not_mem_of_name hnew hfile

end Files

/-- A file under directories that are not there yet. -/
def branch : List ν → α → Listing ν α
  | [], _ => nil
  | [name], data => file name data nil
  | name :: below, data => dir name (branch below data) nil

section Branch
variable {path path' : List ν} {data data' : α}

theorem branch_cons {name next : ν} {below : List ν} :
    branch (name :: next :: below) data = dir name (branch (next :: below) data) nil := rfl

theorem mem_branch (hpath : path ≠ []) :
    (path', data') ∈ (branch path data).files ↔ path' = path ∧ data' = data := by
  induction path generalizing path' with
  | nil => exact absurd rfl hpath
  | cons name below ih =>
    cases below with
    | nil => simp [branch, files]
    | cons next below =>
      rw [branch_cons, mem_files_dir]
      constructor
      · intro h
        rcases h with ⟨path'', rfl, hmem⟩ | hnil
        · obtain ⟨rfl, rfl⟩ := (ih (by simp)).mp hmem
          exact ⟨rfl, rfl⟩
        · cases hnil
      · intro h
        obtain ⟨rfl, rfl⟩ := h
        exact .inl ⟨next :: below, rfl, (ih (by simp)).mpr ⟨rfl, rfl⟩⟩

theorem branch_distinct (path : List ν) (data : α) : (branch path data).Distinct := by
  induction path with
  | nil => trivial
  | cons name below ih =>
    cases below with
    | nil => exact ⟨by simp [names], trivial⟩
    | cons next below => exact ⟨by simp [names], ih, trivial⟩

theorem branch_level (path : List ν) (data : α) : (branch path data).Level path.length := by
  induction path with
  | nil => trivial
  | cons name below ih =>
    cases below with
    | nil => exact ⟨rfl, trivial⟩
    | cons next below => exact ⟨by simp, ih, trivial⟩

theorem names_branch {name : ν} (h : name ∈ (branch path data).names) :
    path.head? = some name := by
  match path with
  | [] => cases h
  | [first] => simpa [branch, names, eq_comm] using h
  | first :: next :: below => simpa [branch, names, eq_comm] using h

/-- A file that is not the one named is not a directory on its path either. -/
theorem head_ne {name : ν} (hdepth : path.length = 1) (hpath : path ≠ [name]) :
    path.head? ≠ some name := by
  obtain ⟨first, rfl⟩ := List.length_eq_one_iff.mp hdepth
  simpa using hpath

end Branch

variable [DecidableEq ν]

/-- Make the directories of a path that are missing and rename a file over it. -/
def place : Listing ν α → List ν → α → Listing ν α
  | nil, path, data => branch path data
  | file name old rest, path, data =>
    if path = [name] then file name data rest else file name old (rest.place path data)
  | dir name inner rest, path, data =>
    if path.head? = some name then dir name (inner.place path.tail data) rest
    else dir name inner (rest.place path data)

section Place
variable {t : Listing ν α} {path path' : List ν} {data data' : α}

/-- No entry appears but the first directory of the path, or the file itself. -/
theorem names_place {name : ν} (h : name ∈ (t.place path data).names) :
    name ∈ t.names ∨ path.head? = some name := by
  induction t with
  | nil => exact .inr (names_branch h)
  | file first old rest ih =>
    rw [place] at h
    split at h
    · exact .inl h
    · rcases List.mem_cons.mp h with rfl | hrest
      · exact .inl List.mem_cons_self
      · exact (ih hrest).imp_left (List.mem_cons_of_mem _)
  | dir first inner rest _ ih =>
    rw [place] at h
    split at h
    · exact .inl h
    · rcases List.mem_cons.mp h with rfl | hrest
      · exact .inl List.mem_cons_self
      · exact (ih hrest).imp_left (List.mem_cons_of_mem _)

theorem place_level (h : t.Level path.length) : (t.place path data).Level path.length := by
  induction t generalizing path with
  | nil => exact branch_level path data
  | file name old rest ih =>
    obtain ⟨hdepth, hrest⟩ := h
    rw [place]
    split
    · exact ⟨hdepth, hrest⟩
    · exact ⟨hdepth, ih hrest⟩
  | dir name inner rest ihInner ihRest =>
    obtain ⟨hdepth, hinner, hrest⟩ := h
    rw [place]
    split
    · rw [← List.length_tail] at hinner
      have hlevel := ihInner hinner
      rw [List.length_tail] at hlevel
      exact ⟨hdepth, hlevel, hrest⟩
    · exact ⟨hdepth, hinner, ihRest hrest⟩

theorem place_distinct (h : t.Level path.length) (hd : t.Distinct) :
    (t.place path data).Distinct := by
  induction t generalizing path with
  | nil => exact branch_distinct path data
  | file name old rest ih =>
    obtain ⟨hdepth, hlevel⟩ := h
    obtain ⟨hnew, hrest⟩ := hd
    rw [place]
    split
    · exact ⟨hnew, hrest⟩
    · rename_i hother
      refine ⟨?_, ih hlevel hrest⟩
      intro hmem
      exact (names_place hmem).elim hnew (head_ne hdepth hother)
  | dir name inner rest ihInner ihRest =>
    obtain ⟨_, hbelow, hlevel⟩ := h
    obtain ⟨hnew, hinner, hrest⟩ := hd
    rw [place]
    split
    · rw [← List.length_tail] at hbelow
      exact ⟨hnew, ihInner hbelow hinner, hrest⟩
    · rename_i hother
      refine ⟨?_, hinner, ihRest hlevel hrest⟩
      intro hmem
      exact (names_place hmem).elim hnew hother

/-- Afterwards the path has the new data, and every other file is as it was. -/
theorem mem_place (h : t.Level path.length) (hd : t.Distinct) (hpath : path ≠ []) :
    (path', data') ∈ (t.place path data).files ↔
      path' = path ∧ data' = data ∨ path' ≠ path ∧ (path', data') ∈ t.files := by
  induction t generalizing path path' with
  | nil =>
    rw [place, mem_branch hpath]
    simp [files]
  | file name old rest ih =>
    obtain ⟨hdepth, hlevel⟩ := h
    obtain ⟨hnew, hrest⟩ := hd
    rw [place]
    split
    · rename_i hsame
      subst hsame
      rw [mem_files_file, mem_files_file]
      by_cases hp : path' = [name]
      · subst hp
        simp [not_mem_of_name hnew]
      · simp [hp]
    · rename_i hother
      rw [mem_files_file, mem_files_file, ih hlevel hrest hpath]
      by_cases hp : path' = path
      · subst hp
        simp [hother]
      · simp [hp]
  | dir name inner rest ihInner ihRest =>
    obtain ⟨hdepth, hbelow, hlevel⟩ := h
    obtain ⟨hnew, hinner, hrest⟩ := hd
    rw [place]
    split
    · rename_i hfirst
      obtain ⟨below, rfl⟩ := List.head?_eq_some_iff.mp hfirst
      have hne : below ≠ [] := by
        intro hnil
        simp [hnil] at hdepth
      exact mem_dir_placed hnew (ihInner hbelow hinner hne)
    · rename_i hfirst
      rw [mem_files_dir, mem_files_dir, ihRest hlevel hrest hpath]
      constructor
      · intro hmem
        rcases hmem with ⟨below, rfl, hmem⟩ | hnew' | ⟨hother, hold⟩
        · refine .inr ⟨?_, .inl ⟨below, rfl, hmem⟩⟩
          rintro rfl
          exact hfirst rfl
        · exact .inl hnew'
        · exact .inr ⟨hother, .inr hold⟩
      · intro hmem
        rcases hmem with hnew' | ⟨hother, hin | hold⟩
        · exact .inr (.inl hnew')
        · exact .inl hin
        · exact .inr (.inr ⟨hother, hold⟩)

end Place

end Listing

end Xetcas.Lib
