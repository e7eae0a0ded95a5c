import Xetcas.Proofs.RepoPaths
import Xetcas.Routes.GitDispatch

namespace Xetcas.Proofs.Staging
open Lib Routes.Git RepoPaths

def stagingPlace (config : GitConfig) (u : Uuid) : Place := resolve (staging config u)

/-- The directory of a repository that some accepted path names. -/
def RepoPlace (config : GitConfig) (p : Place) : Prop :=
  ∃ path repo dir, sanitize path = .ok () ∧ locate config path = .ok (repo, dir) ∧ p = resolve dir

def HEAD : Place := [.normal "HEAD".toList]

def Ready (t : Files) (p : Place) : Prop := t.isFile (p ++ HEAD) = true

section Places
variable {config : GitConfig} {path repo : String} {dir : List Char} {p q : Place} {u w : Uuid}

/-- A place below the git root, by its names: the last one, and only it, ends
in `.git`. -/
structure Named (config : GitConfig) (p : Place) (front : List (List Char)) (last : List Char) :
    Prop where
  place : p = resolve config.root ++ (front ++ [last]).map Component.normal
  last : endsInGit last = true
  first : ∀ name ∈ front, endsInGit name = false

theorem locate_eq_ok (h : locate config path = .ok (repo, dir)) :
    (∃ rest, splitRepo path = .ok (repo, rest)) ∧ dir = join config.root repo.toList := by
  obtain ⟨⟨repo', rest⟩, hsplit, h⟩ := bind_eq_ok.mp h
  simp only at h
  split at h
  · cases h
    exact ⟨⟨rest, hsplit⟩, rfl⟩
  · cases h

theorem located_named (hs : sanitize path = .ok ()) (h : locate config path = .ok (repo, dir)) :
    ∃ front last, Named config (resolve dir) front last := by
  obtain ⟨⟨rest, hsplit⟩, rfl⟩ := locate_eq_ok h
  obtain ⟨front, last, after, hcut⟩ := splitRepo_cut hsplit
  refine ⟨front, last, ?_, hcut.last, hcut.first⟩
  rw [hcut.repo]
  exact resolve_join (hcut.plain hs) (by simp)

/-- A directory belongs to one repository. -/
theorem located_injective {path' repo' : String} {dir' : List Char} (hs : sanitize path = .ok ())
    (h : locate config path = .ok (repo, dir)) (hs' : sanitize path' = .ok ())
    (h' : locate config path' = .ok (repo', dir')) (he : resolve dir = resolve dir') :
    repo = repo' := by
  obtain ⟨⟨rest, hsplit⟩, rfl⟩ := locate_eq_ok h
  obtain ⟨⟨rest', hsplit'⟩, rfl⟩ := locate_eq_ok h'
  obtain ⟨front, last, after, hcut⟩ := splitRepo_cut hsplit
  obtain ⟨front', last', after', hcut'⟩ := splitRepo_cut hsplit'
  rw [hcut.repo, hcut'.repo] at he
  have hnames := resolve_join_injective (hcut.plain hs) (hcut'.plain hs') (by simp) (by simp) he
  rw [← String.toList_inj, hcut.repo, hcut'.repo, hnames]

theorem RepoPlace.named (h : RepoPlace config p) : ∃ front last, Named config p front last := by
  obtain ⟨path, repo, dir, hs, hlocate, rfl⟩ := h
  exact located_named hs hlocate

theorem normal_injective : Function.Injective Component.normal := by
  intro a b h
  cases h
  rfl

theorem below_root {root : Place} {names names' : List (List Char)} :
    root ++ names.map Component.normal <+: root ++ names'.map Component.normal ↔
      names <+: names' := by
  rw [List.prefix_append_right_inj, List.prefix_map_iff_of_injective normal_injective]

/-- No repository is inside another one. -/
theorem RepoPlace.eq_of_prefix (hp : RepoPlace config p) (hq : RepoPlace config q)
    (h : p <+: q) : p = q := by
  obtain ⟨front, last, hp⟩ := hp.named
  obtain ⟨front', last', hq⟩ := hq.named
  rw [hp.place, hq.place, below_root] at h
  rcases List.prefix_concat_iff.mp h with he | hinside
  · rw [hp.place, hq.place, he]
  · have hlast := hq.first last (hinside.subset (by simp))
    rw [hp.last] at hlast
    cases hlast

theorem RepoPlace.asunder (hp : RepoPlace config p) (hq : RepoPlace config q) (h : p ≠ q) :
    Asunder p q :=
  ⟨fun hpq => h (hp.eq_of_prefix hq hpq), fun hqp => h (hq.eq_of_prefix hp hqp).symm⟩

theorem RepoPlace.not_above_parent (hp : RepoPlace config p) (hq : RepoPlace config q) :
    ¬p <+: q.dropLast := by
  intro h
  have he := hp.eq_of_prefix hq (h.trans (List.dropLast_prefix q))
  obtain ⟨front, last, hname⟩ := hq.named
  rw [he] at h
  exact not_prefix_dropLast (by rw [hname.place]; simp) h

theorem uuid_plain (u : Uuid) : PlainName u.text := by
  have hlen := u.length
  refine ⟨?_, ?_, ?_, ?_⟩
  · intro h
    rw [h] at hlen
    cases hlen
  · intro h
    rw [h] at hlen
    cases hlen
  · intro h
    rw [h] at hlen
    cases hlen
  · intro h
    exact absurd (u.chars '/' h) (by decide)

theorem uuid_not_git (u : Uuid) : endsInGit u.text = false := by
  rw [← Bool.not_eq_true]
  intro h
  have hdot : '.' ∈ u.text := (List.isSuffixOf_iff_suffix.mp h).subset (by decide)
  exact absurd (u.chars '.' hdot) (by decide)

theorem stagingPlace_eq (config : GitConfig) (u : Uuid) : stagingPlace config u =
    resolve config.root ++ [STAGING_DIR.toList, u.text].map Component.normal := by
  have hdir : ∀ name ∈ [STAGING_DIR.toList], PlainName name := by
    intro name hname
    rw [List.mem_singleton.mp hname]
    exact ⟨by decide, by decide, by decide, by decide⟩
  have htext : ∀ name ∈ [u.text], PlainName name := by
    intro name hname
    rw [List.mem_singleton.mp hname]
    exact uuid_plain u
  have houter : resolve (join (join config.root STAGING_DIR.toList) (relative [u.text])) =
      resolve (join config.root STAGING_DIR.toList) ++ [u.text].map Component.normal :=
    resolve_join htext (by simp)
  have hinner : resolve (join config.root (relative [STAGING_DIR.toList])) =
      resolve config.root ++ [STAGING_DIR.toList].map Component.normal :=
    resolve_join hdir (by simp)
  rw [relative, List.intercalate_singleton] at houter hinner
  rw [stagingPlace, staging, houter, hinner, List.append_assoc]
  rfl

/-- Neither the name of the staging area nor a UUID ends in `.git`. -/
theorem RepoPlace.not_above_staging (hp : RepoPlace config p) (u : Uuid) :
    ¬p <+: stagingPlace config u := by
  intro h
  obtain ⟨front, last, hname⟩ := hp.named
  rw [hname.place, stagingPlace_eq, below_root] at h
  have hlast : last ∈ [STAGING_DIR.toList, u.text] := h.subset (by simp)
  have hgit := hname.last
  rcases List.mem_pair.mp hlast with rfl | rfl
  · revert hgit
    decide
  · rw [uuid_not_git] at hgit
    cases hgit

theorem staging_apart (h : u ≠ w) : Asunder (stagingPlace config u) (stagingPlace config w) := by
  have hinj : ∀ {u w : Uuid}, stagingPlace config u <+: stagingPlace config w → u = w := by
    intro u w hpre
    rw [stagingPlace_eq, stagingPlace_eq, below_root] at hpre
    have he := hpre.eq_of_length rfl
    cases u
    cases w
    simp_all
  exact ⟨fun huw => h (hinj huw), fun hwu => h (hinj hwu).symm⟩

theorem ready_iff (t : Files) (dir : List Char) :
    repoIsReady t dir = true ↔ Ready t (resolve dir) := by
  have hhead : ∀ name ∈ ["HEAD".toList], PlainName name := by
    intro name hname
    rw [List.mem_singleton.mp hname]
    exact ⟨by decide, by decide, by decide, by decide⟩
  have hplace : resolve (join dir (relative ["HEAD".toList])) = resolve dir ++ HEAD :=
    resolve_join hhead (by simp)
  rw [relative, List.intercalate_singleton] at hplace
  rw [repoIsReady, Ready, hplace]

/-- Readiness is a matter of the contents. -/
theorem ready_of_contents {t t' : Files} (h : t'.contents p = t.contents q) :
    Ready t' p ↔ Ready t q := by
  have hentry : t'.entry (p ++ HEAD) = t.entry (q ++ HEAD) := congrFun h HEAD
  unfold Ready FileTree.isFile
  rw [hentry]

end Places

/-- A name that ends in `.git` is on the way. -/
def GitNamed (q : Place) : Prop := ∃ name, Component.normal name ∈ q ∧ endsInGit name = true

/-- What is relied on of `git`: what its commands do to the directory they run
in, and that `http-backend` leaves a repository one. -/
structure Works {ε : Type} (git : GitTool ε)
    (Initialized Receives : Contents Component Bytes → Prop) : Prop where
  inits : ∀ {luck t after}, git.run INIT_ARGS luck t = (after, .done) → Initialized after.entry
  configures : ∀ {luck t after}, git.run CONFIG_ARGS luck t = (after, .done) →
    Initialized t.entry → Initialized after.entry ∧ Receives after.entry
  serves : ∀ luck {t}, Initialized t.entry → Receives t.entry →
    Initialized (git.backend luck t).entry ∧ Receives (git.backend luck t).entry
  /-- An initialized directory has its `HEAD`. -/
  head : ∀ {c}, Initialized c → c [] = some .dir ∧ ∃ data, c HEAD = some (.file data)
  /-- The commands leave everything with a name in `.git` alone. -/
  tidy : ∀ {args luck t after exit}, args = INIT_ARGS ∨ args = CONFIG_ARGS →
    git.run args luck t = (after, exit) → ∀ q, GitNamed q → after.entry q = t.entry q

theorem Works.ready {ε : Type} {git : GitTool ε}
    {Initialized Receives : Contents Component Bytes → Prop}
    (works : Works git Initialized Receives) {t : Files} {p : Place}
    (h : Initialized (t.contents p)) : Ready t p :=
  FileTree.isFile_iff.mpr (works.head h).2

/-- What a step of a request can do to the files. -/
inductive Touches {ε : Type} (D : GitDeployment ε) (drawn : List Uuid) (v : Visit) (t : Files) :
    Files → Prop
  | same : Touches D drawn v t t
  | drew {u p t'} (stage : v.stage = .drawing) (new : u ∉ drawn)
      (above : p <+: stagingPlace D.config u) (made : t.createDirAll p = some t') :
      Touches D drawn v t t'
  | parented {u p t'} (stage : v.stage = .parenting u) (above : p <+: (resolve v.dir).dropLast)
      (made : t.createDirAll p = some t') : Touches D drawn v t t'
  | worked {u after} (staged : v.stage.staged = some u)
      (tidy : ∀ q, GitNamed q → after.entry q = t.contents (stagingPlace D.config u) q) :
      Touches D drawn v t (t.graft (stagingPlace D.config u) after)
  | placed {u t'} (stage : v.stage = .placing u)
      (renamed : t.rename (stagingPlace D.config u) (resolve v.dir) = some t') :
      Touches D drawn v t t'
  | removed {u gone} (staged : v.stage.staged = some u) :
      Touches D drawn v t (removeAll t (stagingPlace D.config u) gone)
  | served {luck after} (stage : v.stage = .serving)
      (ran : D.git.backend luck (t.sub (resolve v.dir)) = after) :
      Touches D drawn v t (t.graft (resolve v.dir) after)

section Touches
variable {ε : Type} {D : GitDeployment ε} {Initialized Receives : Contents Component Bytes → Prop}
  {i : Nat} {g g' : GitHost} {v v' : Visit} {act : GitAct ε} {t t' : Files} {p : Place} {u : Uuid}
  {drawn : List Uuid}

theorem moves_touches (works : Works D.git Initialized Receives)
    (h : GitMoves D i g v act g' v') : Touches D g.drawn v g.tree g'.tree := by
  cases h with
  | drawn stage new made => exact .drew stage new (List.prefix_refl _) made
  | undrawn stage new some_ => exact .drew stage new (List.take_prefix _ _) some_
  | initialized stage ran => exact .worked (by rw [stage]; rfl) (works.tidy (.inl rfl) ran)
  | configured stage ran => exact .worked (by rw [stage]; rfl) (works.tidy (.inr rfl) ran)
  | gitFailed stage known ran =>
    refine .worked ?_ (works.tidy known ran)
    rcases stage with stage | stage <;> rw [stage] <;> rfl
  | parented stage made => exact .parented stage (List.prefix_refl _) made
  | unparented stage some_ => exact .parented stage (List.take_prefix _ _) some_
  | placed stage renamed => exact .placed stage renamed
  | cleaned stage => exact .removed (by rw [stage]; rfl)
  | served stage ran => exact .served stage ran
  | _ => exact .same

/-- Roots below a place, to be removed. -/
theorem removeAll_asunder {source : Place} {gone : List Place} (h : Asunder source p) :
    (removeAll t source gone).contents p = t.contents p := by
  apply FileTree.contents_remove_asunder
  intro root hroot
  obtain ⟨q, _, rfl⟩ := List.mem_map.mp hroot
  exact ⟨fun hq => h.1 ((List.prefix_append _ _).trans hq), h.append q⟩

/-- A place above, or apart from, the end of a path that a directory is made at. -/
theorem not_prefix_of_above {q r : Place} (h : ¬p <+: r) (hq : q <+: r) : ¬p <+: q :=
  fun hp => h (hp.trans hq)

/-- The directory of a repository outside the staging directory of the request
stays, is replaced by the staged one, or is served. -/
theorem repo_touched (h : Touches D drawn v t t') (hp : RepoPlace D.config p)
    (hlive : v.stage.live = true → RepoPlace D.config (resolve v.dir))
    (hclear : ∀ u, v.stage.staged = some u → ¬stagingPlace D.config u <+: p) :
    t'.contents p = t.contents p ∨ p = resolve v.dir ∧
      ((∃ u, v.stage = .placing u ∧ t'.contents p = t.contents (stagingPlace D.config u)) ∨
        v.stage = .serving ∧ ∃ luck, t'.contents p = (D.git.backend luck (t.sub p)).entry) := by
  cases h with
  | same => exact .inl rfl
  | drew stage new above made =>
    exact .inl (FileTree.contents_createDirAll made
      (not_prefix_of_above (hp.not_above_staging _) above))
  | parented stage above made =>
    have hdir := hlive (by rw [stage]; rfl)
    exact .inl (FileTree.contents_createDirAll made
      (not_prefix_of_above (hp.not_above_parent hdir) above))
  | worked staged tidy =>
    exact .inl (FileTree.contents_graft_asunder ⟨hclear _ staged, hp.not_above_staging _⟩)
  | placed stage renamed =>
    have hdir := hlive (by rw [stage]; rfl)
    by_cases he : p = resolve v.dir
    · subst he
      exact .inr ⟨rfl, .inl ⟨_, stage, FileTree.contents_rename renamed⟩⟩
    · have hsource : Asunder (stagingPlace D.config _) p :=
        ⟨hclear _ (by rw [stage]; rfl), hp.not_above_staging _⟩
      exact .inl (FileTree.contents_rename_asunder renamed hsource (hp.asunder hdir he).symm)
  | removed staged =>
    exact .inl (removeAll_asunder ⟨hclear _ staged, hp.not_above_staging _⟩)
  | @served luck _ stage ran =>
    have hdir := hlive (by rw [stage]; rfl)
    by_cases he : p = resolve v.dir
    · subst he
      refine .inr ⟨rfl, .inr ⟨stage, luck, ?_⟩⟩
      rw [ran]
      exact FileTree.contents_graft
    · exact .inl (FileTree.contents_graft_asunder (hp.asunder hdir he).symm)

/-- A repository in a staging directory is below a name that git leaves alone. -/
theorem RepoPlace.gitNamed_below {q : Place}
    (hp : RepoPlace D.config (stagingPlace D.config u ++ q)) : GitNamed q := by
  obtain ⟨front, last, hname⟩ := hp.named
  have hq : q ≠ [] := by
    intro hq
    rw [hq, List.append_nil] at hp
    exact hp.not_above_staging u (List.prefix_refl _)
  have hlast := congrArg List.getLast? hname.place
  rw [List.getLast?_append_of_ne_nil _ hq, List.map_append, ← List.append_assoc] at hlast
  exact ⟨last, List.mem_of_getLast? (hlast.trans List.getLast?_concat), hname.last⟩

theorem ready_worked {after : Files} {q : Place}
    (tidy : ∀ q, GitNamed q → after.entry q = t.contents (stagingPlace D.config u) q)
    (hgit : GitNamed q) :
    Ready (t.graft (stagingPlace D.config u) after) (stagingPlace D.config u ++ q) ↔
      Ready t (stagingPlace D.config u ++ q) := by
  have hnamed : GitNamed (q ++ HEAD) := by
    obtain ⟨name, hmem, hname⟩ := hgit
    exact ⟨name, List.mem_append_left _ hmem, hname⟩
  have hsame : (t.graft (stagingPlace D.config u) after).contents (stagingPlace D.config u)
      (q ++ HEAD) = t.contents (stagingPlace D.config u) (q ++ HEAD) := by
    rw [FileTree.contents_graft]
    exact tidy _ hnamed
  unfold FileTree.contents at hsame
  rw [← List.append_assoc] at hsame
  unfold Ready FileTree.isFile
  rw [hsame]

/-- No repository becomes ready but by being placed. -/
theorem ready_touched (h : Touches D drawn v t t') (hp : RepoPlace D.config p)
    (hlive : v.stage.live = true → RepoPlace D.config (resolve v.dir)) (hready : Ready t' p) :
    Ready t p ∨ p = resolve v.dir ∧ ((∃ u, v.stage = .placing u) ∨ v.stage = .serving) := by
  cases h with
  | same => exact .inl hready
  | drew stage new above made =>
    rw [Ready, FileTree.createDirAll_isFile made] at hready
    exact .inl hready
  | parented stage above made =>
    rw [Ready, FileTree.createDirAll_isFile made] at hready
    exact .inl hready
  | @worked u after staged tidy =>
    by_cases hbelow : stagingPlace D.config u <+: p
    · obtain ⟨q, rfl⟩ := hbelow
      exact .inl ((ready_worked tidy (hp.gitNamed_below)).mp hready)
    · rw [Ready, FileTree.isFile, FileTree.graft_same
        (Asunder.append ⟨hp.not_above_staging u, hbelow⟩ HEAD)] at hready
      exact .inl hready
  | @placed u _ stage renamed =>
    have hdir := hlive (by rw [stage]; rfl)
    by_cases he : p = resolve v.dir
    · exact .inr ⟨he, .inl ⟨u, stage⟩⟩
    · have hap := (hp.asunder hdir he).append HEAD
      obtain ⟨data, hentry⟩ := FileTree.isFile_iff.mp hready
      by_cases hbelow : stagingPlace D.config u <+: p ++ HEAD
      · rw [FileTree.rename_gone renamed hbelow hap] at hentry
        cases hentry
      · rw [FileTree.rename_same renamed hbelow hap] at hentry
        exact .inl (FileTree.isFile_iff.mpr ⟨data, hentry⟩)
  | removed staged => exact .inl (FileTree.remove_isFile hready)
  | served stage ran =>
    have hdir := hlive (by rw [stage]; rfl)
    by_cases he : p = resolve v.dir
    · exact .inr ⟨he, .inr stage⟩
    · rw [ready_of_contents (FileTree.contents_graft_asunder (hp.asunder hdir he).symm)] at hready
      exact .inl hready

/-- The staging directory of another attempt stays. -/
theorem staging_touched (h : Touches D drawn v t t')
    (hlive : v.stage.live = true → RepoPlace D.config (resolve v.dir))
    (hclear : v.stage.live = true → ¬stagingPlace D.config u <+: resolve v.dir)
    (hown : v.stage.staged ≠ some u) (hdrawn : u ∈ drawn) :
    t'.contents (stagingPlace D.config u) = t.contents (stagingPlace D.config u) := by
  have hother : ∀ {w}, v.stage.staged = some w →
      Asunder (stagingPlace D.config w) (stagingPlace D.config u) := by
    intro w hw
    apply staging_apart
    intro he
    exact hown (he ▸ hw)
  cases h with
  | same => rfl
  | @drew w _ _ stage new above made =>
    have hne : u ≠ w := by
      intro he
      exact new (he ▸ hdrawn)
    exact FileTree.contents_createDirAll made (not_prefix_of_above (staging_apart hne).1 above)
  | parented stage above made =>
    have hdir := hclear (by rw [stage]; rfl)
    exact FileTree.contents_createDirAll made
      (not_prefix_of_above hdir (above.trans (List.dropLast_prefix _)))
  | worked staged tidy => exact FileTree.contents_graft_asunder (hother staged)
  | placed stage renamed =>
    have hlive' : v.stage.live = true := by rw [stage]; rfl
    exact FileTree.contents_rename_asunder renamed (hother (by rw [stage]; rfl))
      ⟨(hlive hlive').not_above_staging u, hclear hlive'⟩
  | removed staged => exact removeAll_asunder (hother staged)
  | served stage ran =>
    have hlive' : v.stage.live = true := by rw [stage]; rfl
    exact FileTree.contents_graft_asunder ⟨(hlive hlive').not_above_staging u, hclear hlive'⟩

/-- The directory that a repository is to be placed in stays. -/
theorem parent_touched (h : Touches D drawn v t t') (hp : RepoPlace D.config p)
    (hlive : v.stage.live = true → RepoPlace D.config (resolve v.dir))
    (hclear : ∀ u, v.stage.staged = some u → ¬stagingPlace D.config u <+: p)
    (hd : t.isDir p.dropLast = true) : t'.isDir p.dropLast = true := by
  have hsame : ∀ {root}, ¬root <+: p → ¬root <+: p.dropLast :=
    fun hroot habove => hroot (habove.trans (List.dropLast_prefix p))
  cases h with
  | same => exact hd
  | drew stage new above made => exact FileTree.createDirAll_isDir made hd
  | parented stage above made => exact FileTree.createDirAll_isDir made hd
  | worked staged tidy =>
    rw [FileTree.isDir_iff] at hd ⊢
    rw [FileTree.graft_same (hsame (hclear _ staged)), hd]
  | placed stage renamed =>
    have hdir := hlive (by rw [stage]; rfl)
    rw [FileTree.isDir_iff] at hd ⊢
    rw [FileTree.rename_same renamed (hsame (hclear _ (by rw [stage]; rfl)))
      (hdir.not_above_parent hp), hd]
  | removed staged =>
    rw [FileTree.isDir_iff] at hd ⊢
    rw [removeAll, FileTree.remove_same, hd]
    intro root hroot
    obtain ⟨q, _, rfl⟩ := List.mem_map.mp hroot
    exact fun hq => hsame (hclear _ staged) ((List.prefix_append _ q).trans hq)
  | served stage ran =>
    have hdir := hlive (by rw [stage]; rfl)
    rw [FileTree.isDir_iff] at hd ⊢
    rw [FileTree.graft_same (hdir.not_above_parent hp), hd]

end Touches

end Xetcas.Proofs.Staging
