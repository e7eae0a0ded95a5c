import Mathlib.Data.List.Infix

namespace Xetcas.Lib

inductive Component where
  | rootDir
  | curDir
  | parentDir
  | normal (name : List Char)
  deriving DecidableEq, Repr

namespace Component

/-- The component that a name between two slashes stands for. -/
def ofName (name : List Char) : Component :=
  if name = ['.', '.'] then .parentDir else .normal name

/-- An empty name and a dot stand for nothing. -/
def isNamed (name : List Char) : Bool := name ≠ [] && name ≠ ['.']

end Component

/-- What a path begins with: the root, or a dot that is its first name. -/
def leading (path : List Char) : List Component :=
  if path.head? = some '/' then [.rootDir]
  else if (path.splitOn '/').head? = some ['.'] then [.curDir]
  else []

/-- The components of a path, a dot only as its first name among them. -/
def components (path : List Char) : List Component :=
  leading path ++ ((path.splitOn '/').filter Component.isNamed).map Component.ofName

/-- Append to a path; an absolute path replaces it. -/
def join (base path : List Char) : List Char :=
  if path.head? = some '/' then path
  else if base = [] ∨ base.getLast? = some '/' then base ++ path
  else base ++ '/' :: path

def startsWith (path base : List Char) : Bool := (components base).isPrefixOf (components path)

/-- One component more of a path without dots: a parent takes the last name
back, and the root is its own parent. -/
def descend (at_ : List Component) : Component → List Component
  | .curDir => at_
  | .parentDir =>
    match at_.getLast? with
    | some (.normal _) => at_.dropLast
    | some .rootDir => at_
    | _ => at_ ++ [.parentDir]
  | c => at_ ++ [c]

def resolve (path : List Char) : List Component := (components path).foldl descend []

/-- A name that is no special component and holds no slash. -/
structure PlainName (name : List Char) : Prop where
  nonempty : name ≠ []
  dot : name ≠ ['.']
  dotDot : name ≠ ['.', '.']
  slash : '/' ∉ name

def relative (names : List (List Char)) : List Char := ['/'].intercalate names

section Relative
variable {names names' : List (List Char)} {base : List Char}

theorem splitOn_relative (h : ∀ name ∈ names, PlainName name) (hne : names ≠ []) :
    (relative names).splitOn '/' = names :=
  List.splitOn_intercalate '/' (fun name hname => (h name hname).slash) hne

theorem relative_append (names names' : List (List Char)) (hne : names ≠ []) (hne' : names' ≠ []) :
    relative (names ++ names') = relative names ++ '/' :: relative names' := by
  induction names with
  | nil => exact absurd rfl hne
  | cons name names ih =>
    unfold relative at ih ⊢
    cases names with
    | nil =>
      rw [List.singleton_append, List.intercalate_cons_of_ne_nil hne', List.intercalate_singleton,
        List.append_assoc]
      rfl
    | cons next names =>
      have hrest : next :: names ++ names' ≠ [] := List.cons_ne_nil _ _
      rw [List.cons_append, List.intercalate_cons_of_ne_nil hrest,
        List.intercalate_cons_of_ne_nil (List.cons_ne_nil next names),
        ih (List.cons_ne_nil next names), List.append_assoc, List.append_assoc, List.append_assoc]

theorem relative_head (h : ∀ name ∈ names, PlainName name) :
    (relative names).head? ≠ some '/' := by
  cases names with
  | nil => simp [relative]
  | cons name names =>
    obtain ⟨c, rest, rfl⟩ := List.exists_cons_of_ne_nil (h name List.mem_cons_self).nonempty
    have hslash := (h _ List.mem_cons_self).slash
    have hc : c ≠ '/' := fun he => hslash (by rw [he]; exact List.mem_cons_self)
    cases names with
    | nil => simpa [relative, List.intercalate] using hc
    | cons next names => simpa [relative, List.intercalate] using hc

theorem named_plain (h : ∀ name ∈ names, PlainName name) :
    names.filter Component.isNamed = names := by
  rw [List.filter_eq_self]
  intro name hname
  simp [Component.isNamed, (h name hname).nonempty, (h name hname).dot]

theorem ofName_plain (h : ∀ name ∈ names, PlainName name) :
    names.map Component.ofName = names.map Component.normal := by
  apply List.map_congr_left
  intro name hname
  simp [Component.ofName, (h name hname).dotDot]

/-- What follows a slash does not change how a path begins. -/
theorem leading_append (base rest : List Char) :
    leading (base ++ '/' :: rest) = if base = [] then [.rootDir] else leading base := by
  cases base with
  | nil => rfl
  | cons c base =>
    unfold leading
    rw [List.splitOn_append_cons_self, List.head?_append_of_ne_nil _ (List.splitOn_ne_nil _ _)]
    rfl

theorem components_append (base rest : List Char) :
    components (base ++ '/' :: rest) = (if base = [] then [.rootDir] else components base) ++
      ((rest.splitOn '/').filter Component.isNamed).map Component.ofName := by
  unfold components
  rw [leading_append, List.splitOn_append_cons_self, List.filter_append, List.map_append]
  split
  · rename_i hnil
    rw [hnil]
    rfl
  · rw [List.append_assoc]

theorem components_relative (h : ∀ name ∈ names, PlainName name) (hne : names ≠ []) :
    components (relative names) = names.map Component.normal := by
  have hdot : names.head? ≠ some ['.'] := by
    intro hhead
    exact (h _ (List.mem_of_mem_head? hhead)).dot rfl
  unfold components leading
  rw [if_neg (relative_head h), splitOn_relative h hne, if_neg hdot, named_plain h, ofName_plain h]
  rfl

/-- Joining plain names to a path appends them to its components. -/
theorem components_join (h : ∀ name ∈ names, PlainName name) (hne : names ≠ []) :
    components (join base (relative names)) = components base ++ names.map Component.normal := by
  have hafter : ∀ front, components (front ++ '/' :: relative names) =
      (if front = [] then [.rootDir] else components front) ++ names.map Component.normal := by
    intro front
    rw [components_append, splitOn_relative h hne, named_plain h, ofName_plain h]
  unfold join
  rw [if_neg (relative_head h)]
  split
  · rename_i hbase
    rcases hbase with rfl | hlast
    · exact components_relative h hne
    · obtain ⟨front, rfl⟩ := List.getLast?_eq_some_iff.mp hlast
      have hslash : components (front ++ ['/']) =
          if front = [] then [.rootDir] else components front := by
        rw [components_append]
        exact List.append_nil _
      rw [hslash, List.append_assoc, List.singleton_append, hafter]
  · rename_i hbase
    rw [hafter, if_neg (fun hnil => hbase (.inl hnil))]

theorem startsWith_join (h : ∀ name ∈ names, PlainName name) (hne : names ≠ []) :
    startsWith (join base (relative names)) base = true := by
  unfold startsWith
  rw [components_join h hne, List.isPrefixOf_iff_prefix]
  exact List.prefix_append _ _

theorem descend_names (start : List Component) (names : List (List Char)) :
    (names.map Component.normal).foldl descend start = start ++ names.map Component.normal := by
  induction names generalizing start with
  | nil => exact (List.append_nil _).symm
  | cons name names ih =>
    rw [List.map_cons, List.foldl_cons, ih]
    exact List.append_assoc _ _ _

/-- Plain names lead below the place that the path names. -/
theorem resolve_join (h : ∀ name ∈ names, PlainName name) (hne : names ≠ []) :
    resolve (join base (relative names)) = resolve base ++ names.map Component.normal := by
  unfold resolve
  rw [components_join h hne, List.foldl_append, descend_names]

theorem resolve_join_injective (h : ∀ name ∈ names, PlainName name)
    (h' : ∀ name ∈ names', PlainName name) (hne : names ≠ []) (hne' : names' ≠ [])
    (he : resolve (join base (relative names)) = resolve (join base (relative names'))) :
    names = names' := by
  rw [resolve_join h hne, resolve_join h' hne'] at he
  have hnormal : Function.Injective Component.normal := fun _ _ hsame => by cases hsame; rfl
  exact List.map_injective_iff.mpr hnormal (List.append_cancel_left he)

end Relative

end Xetcas.Lib
