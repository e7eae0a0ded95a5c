import Mathlib.Data.List.Infix

namespace Xetcas.Lib

/-- A path below the root, outermost name first; the root is `[]`. -/
abbrev Path := List String

/-- The data of one regular file. `whole` means all of it is on disk. -/
structure Inode (β : Type) where
  data : β
  whole : Bool
  deriving DecidableEq, Repr

/-- A directory tree together with what a power loss is certain to leave of it.
An entry made in a directory is only durable once that directory is synced. -/
structure DurableTree (β : Type) where
  dirs : Path → Bool
  dirDurable : Path → Bool
  files : Path → Option (Inode β)
  filesDurable : Path → Option (Inode β)

namespace DurableTree
variable {β : Type} {t : DurableTree β} {p q : Path}

def bare : DurableTree β where
  dirs := fun p => p.isEmpty
  dirDurable := fun p => p.isEmpty
  files := fun _ => none
  filesDurable := fun _ => none

/-- `mkdir`, a no-op on a directory that exists. -/
def mkdir (t : DurableTree β) (p : Path) : DurableTree β :=
  { t with dirs := Function.update t.dirs p true }

/-- `rename` onto a final name, replacing what is there. -/
def place (t : DurableTree β) (p : Path) (node : Inode β) : DurableTree β :=
  { t with files := Function.update t.files p (some node) }

/-- `fsync` of a directory: its entries become durable. -/
def syncDir (t : DurableTree β) (dir : Path) : DurableTree β :=
  { t with
    dirDurable := fun p => if p ≠ [] ∧ p.dropLast = dir then t.dirs p else t.dirDurable p
    filesDurable := fun p => if p ≠ [] ∧ p.dropLast = dir then t.files p else t.filesDurable p }

/-- Every directory on the way to `p` is there and survives. -/
def survives (t : DurableTree β) (keep : Path → Bool) (p : Path) : Bool :=
  p.inits.all (fun q => q.isEmpty || (t.dirs q && (t.dirDurable q || keep q)))

def torn (node : Inode β) (blank : β) : Inode β :=
  if node.whole then node else { data := blank, whole := false }

/-- A power loss. `keep` says which entries that were not durable survive by
chance; what is reachable only through a lost entry is lost with it. -/
def powerLoss (t : DurableTree β) (blank : β) (keep : Path → Bool) : DurableTree β :=
  let dirs := t.survives keep
  let files := fun p => if t.survives keep p.dropLast then
      ((if keep p then t.files p else t.filesDurable p).map (torn · blank)) else none
  { dirs := dirs, dirDurable := dirs, files := files, filesDurable := files }

/-- The chain of entries that leads to the directory `p` is durable. -/
def Anchored (t : DurableTree β) (p : Path) : Prop :=
  ∀ q, q <+: p → q ≠ [] → t.dirDurable q = true

/-- Durable directories exist, and a file's two versions are complete. -/
structure Sound (t : DurableTree β) : Prop where
  dirs : ∀ p, t.dirDurable p = true → t.dirs p = true
  files : ∀ p node, t.files p = some node → node.whole = true
  filesDurable : ∀ p node, t.filesDurable p = some node → node.whole = true

theorem bare_sound : (bare : DurableTree β).Sound := by
  constructor <;> simp [bare]

theorem anchored_root : t.Anchored [] := by
  intro q hq hne
  exact absurd (List.prefix_nil.mp hq) hne

theorem Anchored.above (h : t.Anchored p) (hq : q <+: p) : t.Anchored q :=
  fun r hr hne => h r (hr.trans hq) hne

/-- One more durable entry extends the chain. -/
theorem Anchored.extend (h : t.Anchored p.dropLast) (hp : p ≠ [] → t.dirDurable p = true) :
    t.Anchored p := by
  intro q hq hne
  by_cases he : q = p
  · subst he
    exact hp hne
  · refine h q ?_ hne
    have hpne : p ≠ [] := by
      intro hsame
      subst hsame
      exact he (List.prefix_nil.mp hq)
    rw [← List.dropLast_append_getLast hpne] at hq
    rcases List.prefix_concat_iff.mp hq with h' | h'
    · exact absurd (h'.trans (List.dropLast_append_getLast hpne)) he
    · exact h'

theorem survives_iff {keep : Path → Bool} : t.survives keep p = true ↔
    ∀ q, q <+: p → q ≠ [] → t.dirs q = true ∧ (t.dirDurable q = true ∨ keep q = true) := by
  simp only [survives, List.all_eq_true, List.mem_inits, Bool.or_eq_true, List.isEmpty_iff,
    Bool.and_eq_true, or_iff_not_imp_left (a := _ = [])]

theorem Anchored.survives (h : t.Anchored p) (hs : t.Sound) (keep : Path → Bool) :
    t.survives keep p = true := by
  rw [survives_iff]
  intro q hq hne
  exact ⟨hs.dirs q (h q hq hne), .inl (h q hq hne)⟩

/-- A chain of directories in which every entry of `t` survives in `t'`. -/
def Grows (t t' : DurableTree β) : Prop :=
  ∀ p, p ≠ [] → t.dirDurable p = true → t'.dirDurable p = true

theorem Grows.anchored {t' : DurableTree β} (h : Grows t t') (ha : t.Anchored p) :
    t'.Anchored p :=
  fun q hq hne => h q hne (ha q hq hne)

theorem mkdir_grows (d : Path) : Grows t (t.mkdir d) := fun _ _ h => h

theorem place_grows (d : Path) (node : Inode β) : Grows t (t.place d node) := fun _ _ h => h

theorem syncDir_grows (hs : t.Sound) (d : Path) : Grows t (t.syncDir d) := by
  intro p _ h
  simp only [syncDir]
  split
  · exact hs.dirs p h
  · exact h

theorem Sound.mkdir (hs : t.Sound) (d : Path) : (t.mkdir d).Sound := by
  refine ⟨?_, hs.files, hs.filesDurable⟩
  intro p h
  by_cases he : p = d
  · simp [DurableTree.mkdir, he]
  · simpa [DurableTree.mkdir, he] using hs.dirs p h

theorem Sound.place (hs : t.Sound) (d : Path) (data : β) : (t.place d ⟨data, true⟩).Sound := by
  refine ⟨hs.dirs, ?_, hs.filesDurable⟩
  intro p node h
  by_cases he : p = d
  · simp only [DurableTree.place, he, Function.update_self, Option.some.injEq] at h
    simp [← h]
  · exact hs.files p node (by simpa [DurableTree.place, he] using h)

theorem Sound.syncDir (hs : t.Sound) (d : Path) : (t.syncDir d).Sound := by
  refine ⟨?_, hs.files, ?_⟩
  · intro p h
    simp only [DurableTree.syncDir] at h ⊢
    split at h
    · exact h
    · exact hs.dirs p h
  · intro p node h
    simp only [DurableTree.syncDir] at h
    split at h
    · exact hs.files p node h
    · exact hs.filesDurable p node h

theorem torn_whole {node : Inode β} (h : node.whole = true) (blank : β) : torn node blank = node := by
  simp [torn, h]

/-- In a sound tree a surviving name holds one of its two complete versions. -/
theorem powerLoss_file (hs : t.Sound) (blank : β) (keep : Path → Bool) :
    (t.powerLoss blank keep).files p =
      if t.survives keep p.dropLast then (if keep p then t.files p else t.filesDurable p) else none := by
  have hcopy : ∀ o : Option (Inode β), (∀ node, o = some node → node.whole = true) →
      o.map (torn · blank) = o := by
    intro o ho
    cases o with
    | none => rfl
    | some node => simp [torn_whole (ho node rfl) blank]
  simp only [powerLoss]
  split
  · cases keep p
    · exact hcopy _ (hs.filesDurable p)
    · exact hcopy _ (hs.files p)
  · rfl

theorem Sound.powerLoss (hs : t.Sound) (blank : β) (keep : Path → Bool) :
    (t.powerLoss blank keep).Sound := by
  have hwhole : ∀ p node, (t.powerLoss blank keep).files p = some node → node.whole = true := by
    intro p node h
    rw [powerLoss_file hs] at h
    split at h
    · split at h
      · exact hs.files p node h
      · exact hs.filesDurable p node h
    · cases h
  exact ⟨fun _ h => h, hwhole, hwhole⟩

theorem powerLoss_anchored (hs : t.Sound) (h : t.Anchored p) (blank : β) (keep : Path → Bool) :
    (t.powerLoss blank keep).Anchored p :=
  fun _ hq _ => (h.above hq).survives hs keep

end DurableTree
end Xetcas.Lib
