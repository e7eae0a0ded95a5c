import Mathlib.Data.List.Infix

namespace Xetcas.Lib

inductive Entry (β : Type) where
  | dir
  | file (data : β)
  deriving DecidableEq

/-- What is at each place below a directory, the directory itself included. -/
abbrev Contents (ν β : Type) := List ν → Option (Entry β)

/-- A tree of directories and files with a list of places that covers it. -/
structure FileTree (ν β : Type) where
  entry : Contents ν β
  places : List (List ν)
  covers : ∀ p, entry p ≠ none → p ∈ places

def Asunder {ν : Type} (p q : List ν) : Prop := ¬p <+: q ∧ ¬q <+: p

section Asunder
variable {ν : Type} {p q r : List ν}

theorem Asunder.symm (h : Asunder p q) : Asunder q p := ⟨h.2, h.1⟩

theorem Asunder.append (h : Asunder p q) (r : List ν) : ¬q <+: p ++ r := by
  intro hq
  rcases List.prefix_or_prefix_of_prefix hq (List.prefix_append p r) with hqp | hpq
  · exact h.2 hqp
  · exact h.1 hpq

theorem not_prefix_dropLast (h : p ≠ []) : ¬p <+: p.dropLast := by
  intro hp
  have hle := hp.length_le
  have hpos := List.length_pos_iff.mpr h
  rw [List.length_dropLast] at hle
  omega

end Asunder

namespace FileTree
variable {ν β : Type}

def isDir (t : FileTree ν β) (p : List ν) : Bool :=
  match t.entry p with
  | some .dir => true
  | _ => false

def isFile (t : FileTree ν β) (p : List ν) : Bool :=
  match t.entry p with
  | some (.file _) => true
  | _ => false

def contents (t : FileTree ν β) (p : List ν) : Contents ν β := fun q => t.entry (p ++ q)

section Reads
variable {t : FileTree ν β} {p q : List ν}

theorem isDir_iff : t.isDir p = true ↔ t.entry p = some .dir := by
  unfold isDir
  split <;> simp_all

theorem isFile_iff : t.isFile p = true ↔ ∃ data, t.entry p = some (.file data) := by
  unfold isFile
  split
  · rename_i data hentry
    exact ⟨fun _ => ⟨data, hentry⟩, fun _ => rfl⟩
  · rename_i hno
    constructor
    · intro h
      cases h
    · intro h
      obtain ⟨data, hentry⟩ := h
      exact absurd hentry (hno data)

end Reads

variable [DecidableEq ν]

/-- Nothing is there, or an empty directory. -/
def vacant (t : FileTree ν β) (p : List ν) : Bool :=
  match t.entry p with
  | none => true
  | some .dir => t.places.all (fun q => !(p.isPrefixOf q) || q == p || (t.entry q).isNone)
  | some (.file _) => false

/-- `mkdir -p`, which fails where a file is in the way. -/
def createDirAll (t : FileTree ν β) (p : List ν) : Option (FileTree ν β) :=
  if p.inits.any t.isFile then none
  else some {
    entry := fun q => if q.isPrefixOf p && (t.entry q).isNone then some .dir else t.entry q
    places := t.places ++ p.inits
    covers := by
      intro q hq
      split at hq
      · rename_i hnew
        rw [Bool.and_eq_true, List.isPrefixOf_iff_prefix] at hnew
        exact List.mem_append_right _ ((List.mem_inits q p).mpr hnew.1)
      · exact List.mem_append_left _ (t.covers q hq) }

def sub (t : FileTree ν β) (p : List ν) : FileTree ν β where
  entry := t.contents p
  places := (t.places.filter p.isPrefixOf).map (List.drop p.length)
  covers := by
    intro q hq
    refine List.mem_map.mpr ⟨p ++ q, List.mem_filter.mpr ⟨t.covers _ hq, ?_⟩, List.drop_left⟩
    exact List.isPrefixOf_iff_prefix.mpr (List.prefix_append p q)

/-- Put a tree in the place of another one. -/
def graft (t : FileTree ν β) (p : List ν) (c : FileTree ν β) : FileTree ν β where
  entry := fun q => if p.isPrefixOf q then c.entry (q.drop p.length) else t.entry q
  places := t.places ++ c.places.map (p ++ ·)
  covers := by
    intro q hq
    split at hq
    · rename_i hp
      obtain ⟨r, rfl⟩ := List.isPrefixOf_iff_prefix.mp hp
      rw [List.drop_left] at hq
      exact List.mem_append_right _ (List.mem_map.mpr ⟨r, c.covers r hq, rfl⟩)
    · exact List.mem_append_left _ (t.covers q hq)

def remove (t : FileTree ν β) (roots : List (List ν)) : FileTree ν β where
  entry := fun q => if roots.any (·.isPrefixOf q) then none else t.entry q
  places := t.places
  covers := by
    intro q hq
    split at hq
    · exact absurd rfl hq
    · exact t.covers q hq

/-- `rename` of a directory: it takes the place of nothing, or of an empty
directory, and not a place inside itself. -/
def rename (t : FileTree ν β) (source target : List ν) : Option (FileTree ν β) :=
  if t.isDir source && t.isDir target.dropLast && t.vacant target && !source.isPrefixOf target then
    some ((t.remove [source]).graft target (t.sub source))
  else none

section Laws
variable {t t' c : FileTree ν β} {p q r source target : List ν} {roots : List (List ν)}

theorem vacant_iff : t.vacant p = true ↔
    t.entry p = none ∨ t.entry p = some .dir ∧ ∀ q, p <+: q → q ≠ p → t.entry q = none := by
  unfold vacant
  split
  · rename_i hnone
    simp [hnone]
  · rename_i hdir
    rw [hdir, List.all_eq_true]
    constructor
    · intro h
      refine .inr ⟨rfl, ?_⟩
      intro q hq hne
      by_contra hthere
      have hone := h q (t.covers q hthere)
      rw [Bool.or_eq_true, Bool.or_eq_true, Bool.not_eq_true', beq_iff_eq,
        Option.isNone_iff_eq_none, List.isPrefixOf_iff_prefix.mpr hq] at hone
      rcases hone with (hp | hp) | hp
      · cases hp
      · exact hne hp
      · exact hthere hp
    · intro h
      rcases h with h | h
      · cases h
      · intro q _
        by_cases hq : p <+: q
        · by_cases he : q = p
          · simp [he]
          · simp [h.2 q hq he]
        · have hno : p.isPrefixOf q = false := by
            rw [← Bool.not_eq_true, List.isPrefixOf_iff_prefix]
            exact hq
          simp [hno]
  · rename_i hfile
    simp [hfile]

theorem vacant_of_contents (h : t'.contents p = t.contents p) (hv : t.vacant p = true) :
    t'.vacant p = true := by
  have hentry : ∀ r, t'.entry (p ++ r) = t.entry (p ++ r) := fun r => congrFun h r
  have hroot := hentry []
  rw [List.append_nil] at hroot
  rw [vacant_iff] at hv ⊢
  rw [hroot]
  refine hv.imp_right (fun hdir => ⟨hdir.1, ?_⟩)
  intro q hq hne
  obtain ⟨r, rfl⟩ := hq
  rw [hentry r]
  exact hdir.2 _ (List.prefix_append p r) hne

section CreateDirAll

theorem entry_createDirAll (h : t.createDirAll p = some t') (q : List ν) :
    t'.entry q = if q <+: p ∧ t.entry q = none then some .dir else t.entry q := by
  unfold createDirAll at h
  split at h
  · cases h
  · cases h
    simp [← List.isPrefixOf_iff_prefix]

theorem createDirAll_same (h : t.createDirAll p = some t') (hq : ¬q <+: p) :
    t'.entry q = t.entry q := by
  rw [entry_createDirAll h, if_neg (fun hnew => hq hnew.1)]

/-- Only places above the new directory are new. -/
theorem contents_createDirAll (h : t.createDirAll p = some t') (hq : ¬q <+: p) :
    t'.contents q = t.contents q := by
  funext r
  exact createDirAll_same h (fun hr => hq ((List.prefix_append q r).trans hr))

theorem createDirAll_made (h : t.createDirAll p = some t') (hq : q <+: p) : t'.isDir q = true := by
  rw [isDir_iff, entry_createDirAll h]
  split
  · rfl
  · rename_i hold
    unfold createDirAll at h
    split at h
    · cases h
    · rename_i hfiles
      cases hentry : t.entry q with
      | none => exact absurd ⟨hq, hentry⟩ hold
      | some e =>
        cases e with
        | dir => rfl
        | file data =>
          refine absurd (List.any_eq_true.mpr ⟨q, (List.mem_inits q p).mpr hq, ?_⟩) hfiles
          exact isFile_iff.mpr ⟨data, hentry⟩

theorem createDirAll_isDir (h : t.createDirAll p = some t') (hq : t.isDir q = true) :
    t'.isDir q = true := by
  rw [isDir_iff] at hq ⊢
  rw [entry_createDirAll h, hq]
  simp

theorem createDirAll_isFile (h : t.createDirAll p = some t') : t'.isFile q = t.isFile q := by
  unfold isFile
  rw [entry_createDirAll h]
  by_cases hnew : q <+: p ∧ t.entry q = none
  · rw [if_pos hnew, hnew.2]
  · rw [if_neg hnew]

end CreateDirAll

theorem contents_graft : (t.graft p c).contents p = c.entry := by
  funext q
  have hq : p.isPrefixOf (p ++ q) = true := List.isPrefixOf_iff_prefix.mpr (List.prefix_append p q)
  simp only [contents, graft]
  rw [if_pos hq, List.drop_left]

theorem graft_same (h : ¬p <+: q) : (t.graft p c).entry q = t.entry q := by
  simp [graft, List.isPrefixOf_iff_prefix, h]

theorem contents_graft_asunder (h : Asunder p q) : (t.graft p c).contents q = t.contents q := by
  funext r
  exact graft_same (h.symm.append r)

theorem remove_same (h : ∀ root ∈ roots, ¬root <+: q) : (t.remove roots).entry q = t.entry q := by
  have hno : roots.any (·.isPrefixOf q) = false := by
    rw [List.any_eq_false]
    intro root hroot
    rw [List.isPrefixOf_iff_prefix]
    exact h root hroot
  simp only [remove, hno]
  rfl

theorem contents_remove_asunder (h : ∀ root ∈ roots, Asunder root q) :
    (t.remove roots).contents q = t.contents q := by
  funext r
  exact remove_same (fun root hroot => (h root hroot).symm.append r)

theorem remove_isFile (h : (t.remove roots).isFile q = true) : t.isFile q = true := by
  obtain ⟨data, hentry⟩ := isFile_iff.mp h
  simp only [remove] at hentry
  split at hentry
  · cases hentry
  · exact isFile_iff.mpr ⟨data, hentry⟩

section Rename

/-- What a rename needs, and what it leaves. -/
theorem rename_eq_some : t.rename source target = some t' ↔
    (t.isDir source = true ∧ t.isDir target.dropLast = true ∧ t.vacant target = true ∧
      ¬source <+: target) ∧ t' = (t.remove [source]).graft target (t.sub source) := by
  unfold rename
  split
  · rename_i hcan
    rw [Bool.and_eq_true, Bool.and_eq_true, Bool.and_eq_true, Bool.not_eq_true',
      ← Bool.not_eq_true, List.isPrefixOf_iff_prefix, and_assoc, and_assoc] at hcan
    rw [and_iff_right hcan, Option.some.injEq, eq_comm]
  · rename_i hcan
    rw [Bool.and_eq_true, Bool.and_eq_true, Bool.and_eq_true, Bool.not_eq_true',
      ← Bool.not_eq_true (List.isPrefixOf _ _), List.isPrefixOf_iff_prefix, and_assoc,
      and_assoc] at hcan
    simp [hcan]

/-- The directory arrives as a whole. -/
theorem contents_rename (h : t.rename source target = some t') :
    t'.contents target = t.contents source := by
  rw [(rename_eq_some.mp h).2]
  exact contents_graft

theorem rename_same (h : t.rename source target = some t') (hsource : ¬source <+: q)
    (htarget : ¬target <+: q) : t'.entry q = t.entry q := by
  rw [(rename_eq_some.mp h).2, graft_same htarget, remove_same]
  intro root hroot
  rw [List.mem_singleton.mp hroot]
  exact hsource

theorem contents_rename_asunder (h : t.rename source target = some t')
    (hsource : Asunder source q) (htarget : Asunder target q) : t'.contents q = t.contents q := by
  funext r
  exact rename_same h (hsource.symm.append r) (htarget.symm.append r)

/-- Nothing stays behind. -/
theorem rename_gone (h : t.rename source target = some t') (hsource : source <+: q)
    (htarget : ¬target <+: q) : t'.entry q = none := by
  rw [(rename_eq_some.mp h).2, graft_same htarget]
  simp only [remove, List.any_cons, List.isPrefixOf_iff_prefix.mpr hsource, Bool.true_or]
  rfl

end Rename

end Laws

end FileTree

end Xetcas.Lib
