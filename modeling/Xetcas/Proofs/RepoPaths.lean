import Xetcas.Lib.Except
import Xetcas.Routes.Git

namespace Xetcas.Proofs.RepoPaths
open Lib Routes.Git
variable {path repo rest : String}

theorem checkComponent_plain {component : List Char} (h : checkComponent component = .ok ()) :
    PlainName component := by
  obtain ⟨hspecial, h⟩ := guard_eq_ok.mp h
  rw [not_or, not_or] at hspecial
  refine ⟨hspecial.1, hspecial.2.1, hspecial.2.2, ?_⟩
  intro hslash
  split at h
  · rename_i hall
    have hchar := List.all_eq_true.mp hall '/' hslash
    revert hchar
    decide
  · cases h

/-- Every component of an accepted path is a plain name. -/
theorem sanitize_plain (h : sanitize path = .ok ()) :
    ∀ name ∈ path.toList.splitOn '/', PlainName name := by
  obtain ⟨_, h⟩ := guard_eq_ok.mp h
  intro name hname
  exact checkComponent_plain (forM_eq_ok.mp h name hname)

/-- The loop stops at the first part that ends in `.git`. -/
theorem takeRepo_eq_some {pushed parts pushed' after : List (List Char)} :
    takeRepo pushed parts = some (pushed', after) ↔ ∃ front last,
      parts = front ++ last :: after ∧ pushed' = pushed ++ (front ++ [last]) ∧
        endsInGit last = true ∧ ∀ name ∈ front, endsInGit name = false := by
  induction parts generalizing pushed with
  | nil => simp [takeRepo]
  | cons part parts ih =>
    rw [takeRepo]
    split
    · rename_i hgit
      constructor
      · intro h
        cases h
        exact ⟨[], part, rfl, rfl, hgit, by simp⟩
      · intro h
        obtain ⟨front, last, hparts, rfl, _, hfront⟩ := h
        cases front with
        | nil =>
          cases hparts
          rfl
        | cons first front =>
          cases hparts
          rw [hfront part List.mem_cons_self] at hgit
          cases hgit
    · rename_i hgit
      rw [ih]
      constructor
      · intro h
        obtain ⟨front, last, rfl, rfl, hlast, hfront⟩ := h
        refine ⟨part :: front, last, rfl, by simp, hlast, ?_⟩
        intro name hname
        rcases List.mem_cons.mp hname with rfl | hname
        · simpa using hgit
        · exact hfront name hname
      · intro h
        obtain ⟨front, last, hparts, rfl, hlast, hfront⟩ := h
        cases front with
        | nil =>
          cases hparts
          exact absurd hlast hgit
        | cons first front =>
          cases hparts
          exact ⟨front, last, rfl, by simp, hlast,
            fun name hname => hfront name (List.mem_cons_of_mem _ hname)⟩

/-- How a path is cut: up to the first component that ends in `.git`, and what
comes after. -/
structure Cut (path repo rest : String) (front : List (List Char)) (last : List Char)
    (after : List (List Char)) : Prop where
  parts : path.toList.splitOn '/' = front ++ last :: after
  repo : repo.toList = relative (front ++ [last])
  rest : rest.toList = relative after
  last : endsInGit last = true
  first : ∀ name ∈ front, endsInGit name = false

theorem splitRepo_cut (h : splitRepo path = .ok (repo, rest)) :
    ∃ front last after, Cut path repo rest front last after := by
  unfold splitRepo at h
  split at h
  · rename_i pushed after htake
    cases h
    obtain ⟨front, last, hparts, rfl, hlast, hfront⟩ := takeRepo_eq_some.mp htake
    exact ⟨front, last, after, hparts, String.toList_ofList, String.toList_ofList, hlast, hfront⟩
  · cases h

section Cut
variable {front after : List (List Char)} {last : List Char}

theorem Cut.plain (h : Cut path repo rest front last after) (hs : sanitize path = .ok ()) :
    ∀ name ∈ front ++ [last], PlainName name := by
  intro name hname
  apply sanitize_plain hs
  rw [h.parts]
  rcases List.mem_append.mp hname with hfront | hlast
  · exact List.mem_append_left _ hfront
  · rw [List.mem_singleton.mp hlast]
    exact List.mem_append_right _ List.mem_cons_self

/-- The path is the repository, and the rest after a slash. -/
theorem Cut.whole (h : Cut path repo rest front last after) (hs : sanitize path = .ok ()) :
    path = if rest = "" then repo else repo ++ "/" ++ rest := by
  have hpath : path.toList = relative ((front ++ [last]) ++ after) := by
    rw [List.append_assoc, List.singleton_append, ← h.parts]
    exact (List.intercalate_splitOn '/').symm
  cases hafter : after with
  | nil =>
    have hrest : rest = "" := by
      rw [← String.toList_inj, h.rest, hafter]
      rfl
    rw [if_pos hrest, ← String.toList_inj, h.repo, hpath, hafter, List.append_nil]
  | cons next others =>
    have hnext : PlainName next := by
      apply sanitize_plain hs
      rw [h.parts, hafter]
      simp
    have hrest : rest ≠ "" := by
      intro hempty
      have hnil : relative (next :: others) = [] := by
        rw [← hafter, ← h.rest, hempty]
        rfl
      obtain ⟨c, cs, rfl⟩ := List.exists_cons_of_ne_nil hnext.nonempty
      cases others with
      | nil => cases hnil
      | cons other others => cases hnil
    have happend := relative_append (front ++ [last]) after (by simp) (by simp [hafter])
    rw [if_neg hrest, ← String.toList_inj, String.toList_append, String.toList_append, hpath,
      happend, h.repo, h.rest, List.append_assoc]
    rfl

end Cut

def place (root : List Char) (repo : String) : List Component := resolve (join root repo.toList)

structure Located (config : GitConfig) (path repo rest : String) : Prop where
  located : locate config path = .ok (repo, join config.root repo.toList)
  below : ∃ names, names ≠ [] ∧
    place config.root repo = resolve config.root ++ names.map Component.normal
  cut : ∃ front last after, Cut path repo rest front last after
  whole : path = if rest = "" then repo else repo ++ "/" ++ rest

/-- An accepted path leads to a directory strictly below the git root, whatever
the root is, and no other repository has this directory. -/
theorem repositories_apart (config : GitConfig) (path repo rest : String)
    (hs : sanitize path = .ok ()) (hsplit : splitRepo path = .ok (repo, rest)) :
    Located config path repo rest ∧ ∀ path' repo' rest', sanitize path' = .ok () →
      splitRepo path' = .ok (repo', rest') → repo' ≠ repo →
        place config.root repo' ≠ place config.root repo := by
  obtain ⟨front, last, after, hcut⟩ := splitRepo_cut hsplit
  have hplain := hcut.plain hs
  have hne : front ++ [last] ≠ [] := by simp
  refine ⟨⟨?_, ⟨front ++ [last], hne, ?_⟩, ⟨front, last, after, hcut⟩, hcut.whole hs⟩, ?_⟩
  · have hstarts : startsWith (join config.root repo.toList) config.root = true := by
      rw [hcut.repo]
      exact startsWith_join hplain hne
    unfold locate
    rw [hsplit]
    exact if_pos hstarts
  · rw [place, hcut.repo]
    exact resolve_join hplain hne
  · intro path' repo' rest' hs' hsplit' hother hsame
    obtain ⟨front', last', after', hcut'⟩ := splitRepo_cut hsplit'
    rw [place, place, hcut'.repo, hcut.repo] at hsame
    have hnames := resolve_join_injective (hcut'.plain hs') hplain (by simp) hne hsame
    apply hother
    rw [← String.toList_inj, hcut'.repo, hcut.repo, hnames]

/-- A relative git root with dots in it. -/
theorem model_repository_apart :
    Located ⟨[], some "./srv/../git/".toList, true⟩ "t/x.git/info/refs" "t/x.git" "info/refs" ∧
      ∀ path' repo' rest', sanitize path' = .ok () → splitRepo path' = .ok (repo', rest') →
        repo' ≠ "t/x.git" → place (GitConfig.root ⟨[], some "./srv/../git/".toList, true⟩) repo' ≠
          place (GitConfig.root ⟨[], some "./srv/../git/".toList, true⟩) "t/x.git" :=
  repositories_apart ⟨[], some "./srv/../git/".toList, true⟩ "t/x.git/info/refs" "t/x.git"
    "info/refs" (by decide +kernel) (by decide +kernel)

end Xetcas.Proofs.RepoPaths
