import Xetcas.Lib.Counting
import Xetcas.Proofs.Attempts

namespace Xetcas.Proofs.FirstTouch
open Lib Routes.Git Staging GitVisits Attempts

variable {ε : Type} {D : GitDeployment ε} {Initialized Receives : Contents Component Bytes → Prop}

/-- A repository that was not ready at the start. -/
def Created (D : GitDeployment ε) (t₀ t : Files) (p : Place) : Prop :=
  RepoPlace D.config p ∧ Ready t p ∧ ¬Ready t₀ p

/-- The counter lacks the requests that are about to count. -/
def Counted (D : GitDeployment ε) (t₀ : Files) (s : GitServer) : Prop :=
  ∃ k, Exactly (fun i => (s.visits i).stage = .counting) k ∧
    Exactly (Created D t₀ s.host.tree) (s.host.reposCreated + k)

section Counted
variable {t₀ : Files} {s s' : GitServer} {i : Nat} {g g' : GitHost} {v v' : Visit} {act : GitAct ε}
  {p : Place}

theorem boot_counted (D : GitDeployment ε) (t₀ : Files) : Counted D t₀ (GitServer.boot t₀) := by
  refine ⟨0, .none ?_, .none ?_⟩
  · intro i h
    cases h
  · intro p h
    exact h.2.2 h.2.1

/-- A repository is placed, counted, or neither. -/
theorem moves_counting (hm : GitMoves D i g v act g' v') :
    (∃ u, v.stage = .placing u ∧ v'.stage = .counting ∧ g'.reposCreated = g.reposCreated ∧
      g.tree.rename (stagingPlace D.config u) (resolve v.dir) = some g'.tree) ∨
    (v.stage = .counting ∧ v'.stage ≠ .counting ∧ g'.reposCreated = g.reposCreated + 1 ∧
      g'.tree = g.tree) ∨
    v.stage ≠ .counting ∧ v'.stage ≠ .counting ∧ g'.reposCreated = g.reposCreated ∧
      (g'.tree = g.tree ∨ ∀ u, v.stage ≠ .placing u) := by
  cases hm with
  | placed stage renamed => exact .inl ⟨_, stage, rfl, rfl, renamed⟩
  | counted stage => exact .inr (.inl ⟨stage, by simp, rfl, rfl⟩)
  | turned idle gone =>
    rcases gone with rfl | ⟨e, rfl⟩ <;> exact .inr (.inr ⟨by simp [idle], by simp, rfl, .inl rfl⟩)
  | found ready test =>
    rcases test with ⟨stage, rfl⟩ | ⟨stage | ⟨e, stage⟩, rfl⟩
    all_goals exact .inr (.inr ⟨by simp [stage], by simp, rfl, .inl rfl⟩)
  | givenUp stage =>
    rcases stage with stage | stage
    all_goals exact .inr (.inr ⟨by simp [stage], by simp, rfl, .inl rfl⟩)
  | gitFailed stage known ran =>
    rcases stage with stage | stage
    all_goals exact .inr (.inr ⟨by simp [stage], by simp, rfl, .inr (by simp [stage])⟩)
  | @left _ failure stage =>
    cases failure <;> exact .inr (.inr ⟨by simp [stage], by simp, rfl, .inl rfl⟩)
  | served stage ran =>
    exact .inr (.inr ⟨by simp [stage], by simp [stage], rfl, .inr (by simp [stage])⟩)
  | unlock stage lockStep kind =>
    exact .inr (.inr ⟨by simp [stage], by simp [stage], rfl, .inl rfl⟩)
  | drawn stage new made | undrawn stage new some_ | initialized stage ran | configured stage ran
  | parented stage made | unparented stage some_ | cleaned stage =>
    exact .inr (.inr ⟨by simp [stage], by simp, rfl, .inr (by simp [stage])⟩)
  | admitted stage yes | missing stage | enter stage enter | acquire stage acquire
  | begin stage absent | unplaced stage | responded stage =>
    exact .inr (.inr ⟨by simp [stage], by simp, rfl, .inl rfl⟩)

/-- Whoever places a repository creates it. -/
theorem created_placed (hu : Undisturbed D Initialized Receives t₀ s)
    (h : Entered D s) (works : Works D.git Initialized Receives)
    (hm : GitMoves D i s.host (s.visits i) act g v) {u : Uuid}
    (hstage : (s.visits i).stage = .placing u)
    (hplaced : s.host.tree.rename (stagingPlace D.config u) (resolve (s.visits i).dir) =
      some g.tree) {n : Nat} (hn : Exactly (Created D t₀ s.host.tree) n) :
    Exactly (Created D t₀ g.tree) (n + 1) := by
  have hp := (h.standing i).repoPlace (by simp [hstage])
  have habsent := hu.absent i (by simp [hstage])
  apply hn.join (i := resolve (s.visits i).dir)
  · intro hold
    exact habsent hold.2.1
  · refine ⟨hp, ?_, fun hstart => habsent (hu.kept _ hp hstart)⟩
    apply works.ready
    rw [FileTree.contents_rename hplaced]
    exact ((hu.built i).complete u (.inr hstage)).1
  · intro q hq
    refine and_congr_right (fun hrepo => and_congr_left (fun _ => ?_))
    constructor
    · intro hready
      rcases ready_touched (moves_touches works hm) hrepo (h.standing i).repoPlace hready with
        hold | ⟨hdir, _⟩
      · exact hold
      · exact absurd hdir hq
    · exact hu.ready_kept h works hm hrepo

theorem created_same (hu : Undisturbed D Initialized Receives t₀ s) (h : Entered D s)
    (works : Works D.git Initialized Receives) (hm : GitMoves D i s.host (s.visits i) act g v)
    (hstage : ∀ u, (s.visits i).stage ≠ .placing u) (p : Place) :
    Created D t₀ g.tree p ↔ Created D t₀ s.host.tree p := by
  refine and_congr_right (fun hrepo => and_congr_left (fun _ => ?_))
  constructor
  · intro hready
    rcases ready_touched (moves_touches works hm) hrepo (h.standing i).repoPlace hready with
      hold | ⟨rfl, ⟨u, hplacing⟩ | hserving⟩
    · exact hold
    · exact absurd hplacing (hstage u)
    · exact hu.granted i (by simp [hserving])
  · exact hu.ready_kept h works hm hrepo

theorem Counted.step (hc : Counted D t₀ s) (hu : Undisturbed D Initialized Receives t₀ s)
    (h : Entered D s) (works : Works D.git Initialized Receives)
    (hs : GitServer.step D s (i, act) = some s') : Counted D t₀ s' := by
  obtain ⟨g, v, hm, rfl⟩ := GitServer.step_moves hs
  obtain ⟨k, hk, hn⟩ := hc
  have hother : ∀ j ≠ i, (Function.update s.visits i v j).stage = .counting ↔
      (s.visits j).stage = .counting := by
    intro j hj
    rw [Function.update_of_ne hj]
  rcases moves_counting hm with ⟨u, hstage, hnow, hsame, hplaced⟩ |
    ⟨hstage, hnow, hmore, htree⟩ | ⟨hstage, hnow, hsame, htree⟩
  · refine ⟨k + 1, hk.join (by simp [hstage]) (by simpa using hnow) hother, ?_⟩
    simp only [hsame]
    exact created_placed hu h works hm hstage hplaced hn
  · obtain ⟨hless, hpos⟩ := hk.leave hstage (by simpa using hnow) hother
    refine ⟨k - 1, hless, ?_⟩
    have hsum : s.host.reposCreated + 1 + (k - 1) = s.host.reposCreated + k := by omega
    simp only [hmore, htree, hsum]
    exact hn
  · refine ⟨k, hk.stay ?_, ?_⟩
    · intro j
      rcases eq_or_ne j i with rfl | hj
      · simp [hstage, hnow]
      · exact hother j hj
    · simp only [hsame]
      rcases htree with htree | hplacing
      · rw [htree]
        exact hn
      · exact hn.stay (created_same hu h works hm hplacing)

end Counted

/-- Past the decision to create a repository, or not to. -/
def begun : Stage → Bool
  | .idle | .testing | .wanting | .locking | .rechecking | .bridged => false
  | _ => true

section Attempt
variable {t₀ : Files} {s s₁ s₂ : GitServer} {i k : Nat} {g g' : GitHost} {v v' : Visit}
  {act : GitAct ε}

theorem begun_of_attempting {stage : Stage} (h : stage.attempting = true) : begun stage = true := by
  cases stage <;> simp_all [begun]

theorem moves_begun (hm : GitMoves D i g v act g' v') (h : begun v.stage = true) :
    begun v'.stage = true := by
  cases hm with
  | turned idle gone => simp [idle, begun] at h
  | admitted idle yes => simp [idle, begun] at h
  | missing stage => simp [stage, begun] at h
  | enter stage enter => simp [stage, begun] at h
  | acquire stage acquire => simp [stage, begun] at h
  | found ready test => rcases test with ⟨_, rfl⟩ | ⟨_, rfl⟩ <;> rfl
  | @left _ failure stage => cases failure <;> rfl
  | unlock stage lockStep kind => exact h
  | served stage ran => exact h
  | begin | givenUp | drawn | undrawn | initialized | configured | gitFailed | parented
  | unparented | placed | unplaced | cleaned | counted | responded => rfl

/-- No other request touches the directory of an attempt. -/
theorem attempt_other (hu : Undisturbed D Initialized Receives t₀ s) (h : Entered D s)
    (works : Works D.git Initialized Receives) (hm : GitMoves D k s.host (s.visits k) act g v)
    (hk : i ≠ k) (hattempt : (s.visits i).stage.attempting = true) :
    g.tree.contents (resolve (s.visits i).dir) =
      s.host.tree.contents (resolve (s.visits i).dir) := by
  have hcrit := critical_of_attempting hattempt
  have hlive := live_of_critical hcrit
  rcases repo_touched (moves_touches works hm) ((h.standing i).repoPlace hlive)
    (h.standing k).repoPlace (fun u hstaged => hu.clear k u i hstaged hlive) with
    hsame | ⟨hdir, ⟨u, hstage, _⟩ | ⟨hstage, _⟩⟩
  · exact hsame
  · exact absurd (h.exclusive hcrit (by simp [hstage]) hdir) hk
  · refine absurd ?_ (hu.absent i hattempt)
    rw [hdir]
    exact hu.granted k (by simp [hstage])

/-- Nor does the attempt itself, before it renames. -/
theorem attempt_own (hu : Undisturbed D Initialized Receives t₀ s) (h : Entered D s)
    (works : Works D.git Initialized Receives) (hm : GitMoves D i s.host (s.visits i) act g v)
    (hattempt : (s.visits i).stage.attempting = true) (hnot : v.stage ≠ .counting) :
    g.tree.contents (resolve (s.visits i).dir) =
      s.host.tree.contents (resolve (s.visits i).dir) := by
  have hlive := live_of_critical (critical_of_attempting hattempt)
  rcases repo_touched (moves_touches works hm) ((h.standing i).repoPlace hlive)
    (h.standing i).repoPlace (fun u hstaged => hu.clear i u i hstaged hlive) with
    hsame | ⟨_, ⟨u, hstage, _⟩ | ⟨hstage, _⟩⟩
  · exact hsame
  · rcases moves_counting hm with ⟨_, _, hnow, _⟩ | ⟨hcount, _⟩ | ⟨_, _, _, htree | hno⟩
    · exact absurd hnow hnot
    · rw [hstage] at hcount
      cases hcount
    · rw [htree]
    · exact absurd hstage (hno u)
  · rw [hstage] at hattempt
    cases hattempt

/-- Everything that holds of the runs of the condition. -/
structure Tended (D : GitDeployment ε)
    (Initialized Receives : Contents Component Bytes → Prop) (t₀ : Files) (s : GitServer) :
    Prop where
  entered : Entered D s
  undisturbed : Undisturbed D Initialized Receives t₀ s
  counted : Counted D t₀ s

theorem boot_tended (intact : ∀ p, RepoPlace D.config p → Ready t₀ p →
      Initialized (t₀.contents p) ∧ Receives (t₀.contents p)) :
    Tended D Initialized Receives t₀ (GitServer.boot t₀) := by
  have hidle : ∀ i, ((GitServer.boot t₀).visits i).stage = .idle := fun _ => rfl
  refine ⟨boot_entered t₀, ⟨?_, ?_, intact, ?_, ?_, ?_, fun p _ hready => hready⟩,
    boot_counted D t₀⟩
  · intro j u k hstaged
    cases hstaged
  · intro j u p hstaged
    cases hstaged
  · intro j
    constructor <;> simp [hidle]
  · intro j hattempt
    cases hattempt
  · intro j hgranted
    cases hgranted

theorem Tended.step (h : Tended D Initialized Receives t₀ s)
    (works : Works D.git Initialized Receives) (guard : Apart D s (i, act))
    (hs : GitServer.step D s (i, act) = some s₁) : Tended D Initialized Receives t₀ s₁ :=
  ⟨h.entered.step hs, h.undisturbed.step h.entered works guard hs,
    h.counted.step h.undisturbed h.entered works hs⟩

theorem Tended.run (h : Tended D Initialized Receives t₀ s)
    (works : Works D.git Initialized Receives)
    (run : (GitServer.machine D).Run (Apart D) s s₁) : Tended D Initialized Receives t₀ s₁ := by
  refine run.keeps h ?_
  intro s a t hi guard hstep
  exact hi.step works guard hstep

/-- From one point of an attempt to another one its directory is as it was. -/
theorem attempt_run (h : Tended D Initialized Receives t₀ s)
    (works : Works D.git Initialized Receives)
    (run : (GitServer.machine D).Run (Apart D) s s₁)
    (hattempt : (s.visits i).stage.attempting = true) :
    begun (s₁.visits i).stage = true ∧ ((s₁.visits i).stage.attempting = true →
      (s₁.visits i).dir = (s.visits i).dir ∧
        s₁.host.tree.contents (resolve (s.visits i).dir) =
          s.host.tree.contents (resolve (s.visits i).dir)) := by
  induction run with
  | refl => exact ⟨begun_of_attempting hattempt, fun _ => ⟨rfl, rfl⟩⟩
  | @tail s₁ s₂ a run guard hstep ih =>
    have hi := h.run works run
    obtain ⟨hbegun, hsame⟩ := ih
    obtain ⟨k, act⟩ := a
    obtain ⟨g, v, hm, rfl⟩ := GitServer.step_moves hstep
    rcases eq_or_ne i k with rfl | hk
    · simp only [Function.update_self]
      refine ⟨moves_begun hm hbegun, ?_⟩
      intro hnow
      obtain ⟨hdir, hcases⟩ := moves_attempting hm hnow
      -- an attempt that goes on was one before: it does not begin twice
      have hold : (s₁.visits i).stage.attempting = true := by
        rcases hcases with ⟨_, hold | ⟨hstage, _⟩⟩ | ⟨hold, _⟩
        · exact hold
        · rw [hstage] at hbegun
          cases hbegun
        · exact hold
      obtain ⟨hdir₁, hcontents⟩ := hsame hold
      have hstep' := attempt_own hi.undisturbed hi.entered works hm hold (by
        intro hcount
        rw [hcount] at hnow
        cases hnow)
      rw [hdir₁] at hstep'
      exact ⟨hdir.trans hdir₁, hstep'.trans hcontents⟩
    · simp only [Function.update_of_ne hk]
      refine ⟨hbegun, ?_⟩
      intro hold
      obtain ⟨hdir₁, hcontents⟩ := hsame hold
      have hstep' := attempt_other hi.undisturbed hi.entered works hm hk hold
      rw [hdir₁] at hstep'
      exact ⟨hdir₁, hstep'.trans hcontents⟩

/-- A finished repository goes to where nothing is, or an empty directory. -/
theorem place_succeeds (h : Tended D Initialized Receives t₀ s)
    (works : Works D.git Initialized Receives) {u : Uuid}
    (hstage : (s.visits i).stage = .placing u)
    (hv : s.host.tree.vacant (resolve (s.visits i).dir) = true) :
    ∃ s', GitServer.step D s (i, .place none) = some s' ∧ (s'.visits i).stage = .counting ∧
      Ready s'.host.tree (resolve (s.visits i).dir) := by
  have hcomplete := (h.undisturbed.built i).complete u (.inr hstage)
  have hsource : s.host.tree.isDir (stagingPlace D.config u) = true := by
    have hroot := (works.head hcomplete.1).1
    rw [FileTree.contents, List.append_nil] at hroot
    exact FileTree.isDir_iff.mpr hroot
  have hclear := h.undisturbed.clear i u i (by simp [hstage]) (by simp [hstage])
  obtain ⟨tree, hrename⟩ : ∃ tree,
      s.host.tree.rename (stagingPlace D.config u) (resolve (s.visits i).dir) = some tree :=
    ⟨_, FileTree.rename_eq_some.mpr
      ⟨⟨hsource, (h.undisturbed.built i).parent u hstage, hv, hclear⟩, rfl⟩⟩
  have hmove : move s.host.tree (resolve (staging D.config u)) (resolve (s.visits i).dir) none =
      some (tree, .ok ()) := congrArg (Option.map _) hrename
  have hstep : GitServer.step D s (i, .place none) = some ⟨{ s.host with tree := tree },
      Function.update s.visits i { s.visits i with stage := .counting }⟩ := by
    simp only [GitServer.step, gitStep, hstage, hmove, Option.map_some, Stage.built]
  refine ⟨_, hstep, by simp, ?_⟩
  have hcontents := FileTree.contents_rename hrename
  exact works.ready (hcontents.symm.subst hcomplete.1)

/-- First touch is atomic, and happens once. -/
structure FirstTouched (D : GitDeployment ε)
    (Initialized Receives : Contents Component Bytes → Prop) (t₀ : Files) (s : GitServer) :
    Prop where
  /-- A request in `cgi` has a repository, and one that takes pushes. -/
  served : ∀ i, (s.visits i).stage = .serving →
    Initialized (s.host.tree.contents (resolve (s.visits i).dir)) ∧
      Receives (s.host.tree.contents (resolve (s.visits i).dir))
  configured : ∀ p, RepoPlace D.config p → Initialized (s.host.tree.contents p) →
    Receives (s.host.tree.contents p)
  created : Counted D t₀ s
  /-- What an attempt that fails leaves of its directory, from any point of it on. -/
  unchanged : ∀ i s₁ act s₂ e, (GitServer.machine D).Run (Apart D) s s₁ →
    (s.visits i).stage.attempting = true → (s₁.visits i).stage.attempting = true →
    GitServer.step D s₁ (i, act) = some s₂ → (s₂.visits i).stage = .leaving (some e) →
    s₂.host.tree.contents (resolve (s.visits i).dir) =
      s.host.tree.contents (resolve (s.visits i).dir)
  leftover : ∀ i s₁ u, (GitServer.machine D).Run (Apart D) s s₁ →
    (s.visits i).stage.attempting = true →
    s.host.tree.vacant (resolve (s.visits i).dir) = true → (s₁.visits i).stage = .placing u →
    ∃ s₂, GitServer.step D s₁ (i, .place none) = some s₂ ∧ (s₂.visits i).stage = .counting ∧
      Ready s₂.host.tree (resolve (s.visits i).dir)

theorem Tended.unchanged (h : Tended D Initialized Receives t₀ s)
    (works : Works D.git Initialized Receives) {e : AppError}
    (run : (GitServer.machine D).Run (Apart D) s s₁)
    (hattempt : (s.visits i).stage.attempting = true)
    (hnow : (s₁.visits i).stage.attempting = true)
    (hstep : GitServer.step D s₁ (i, act) = some s₂)
    (hend : (s₂.visits i).stage = .leaving (some e)) :
    s₂.host.tree.contents (resolve (s.visits i).dir) =
      s.host.tree.contents (resolve (s.visits i).dir) := by
  have hi := h.run works run
  obtain ⟨hdir, hcontents⟩ := (attempt_run h works run hattempt).2 hnow
  obtain ⟨g, v, hm, rfl⟩ := GitServer.step_moves hstep
  simp only [Function.update_self] at hend
  have hlast := attempt_own hi.undisturbed hi.entered works hm hnow (by simp [hend])
  rw [hdir] at hlast
  exact hlast.trans hcontents

theorem Tended.leftover (h : Tended D Initialized Receives t₀ s)
    (works : Works D.git Initialized Receives) {u : Uuid}
    (run : (GitServer.machine D).Run (Apart D) s s₁)
    (hattempt : (s.visits i).stage.attempting = true)
    (hv : s.host.tree.vacant (resolve (s.visits i).dir) = true)
    (hstage : (s₁.visits i).stage = .placing u) :
    ∃ s₂, GitServer.step D s₁ (i, .place none) = some s₂ ∧ (s₂.visits i).stage = .counting ∧
      Ready s₂.host.tree (resolve (s.visits i).dir) := by
  obtain ⟨hdir, hcontents⟩ := (attempt_run h works run hattempt).2 (by simp [hstage])
  rw [← hdir]
  apply place_succeeds (h.run works run) works hstage
  rw [hdir]
  exact FileTree.vacant_of_contents hcontents hv

/-- In every run in which no request names a repository in the staging
directory of an attempt. -/
theorem first_touch_once (works : Works D.git Initialized Receives) (t₀ : Files)
    (intact : ∀ p, RepoPlace D.config p → Ready t₀ p →
      Initialized (t₀.contents p) ∧ Receives (t₀.contents p)) (s : GitServer)
    (run : (GitServer.machine D).Run (Apart D) (GitServer.boot t₀) s) :
    FirstTouched D Initialized Receives t₀ s := by
  have h := (boot_tended intact).run works run
  refine ⟨?_, ?_, h.counted, ?_, ?_⟩
  · intro i hstage
    have hp := (h.entered.standing i).repoPlace (by simp [hstage])
    exact h.undisturbed.complete _ hp (h.undisturbed.granted i (by simp [hstage]))
  · intro p hp hinit
    exact (h.undisturbed.complete p hp (works.ready hinit)).2
  · intro i s₁ act s₂ e hrun hattempt hnow hstep hend
    exact h.unchanged works hrun hattempt hnow hstep hend
  · intro i s₁ u hrun hattempt hv hstage
    exact h.leftover works hrun hattempt hv hstage

end Attempt

section Small

def CONFIG : Place := [.normal "config".toList]

def put (t : Files) (p : Place) (e : Entry Bytes) : Files where
  entry := fun q => if q = p then some e else t.entry q
  places := p :: t.places
  covers := by
    intro q hq
    split at hq
    · rename_i he
      rw [he]
      exact List.mem_cons_self
    · exact List.mem_cons_of_mem _ (t.covers q hq)

/-- `HEAD` comes with `init`, and the setting with `config`. Without luck a
command fails. -/
def smallGit : GitTool Bool where
  run := fun args luck t =>
    if luck then
      (if args = INIT_ARGS then put (put t [] .dir) HEAD (.file []) else put t CONFIG (.file [1]),
        .done)
    else (t, .failed "fatal: unable to write file")
  backend := fun _ t => t

def SmallInitialized (c : Contents Component Bytes) : Prop :=
  c [] = some .dir ∧ ∃ data, c HEAD = some (.file data)

def SmallReceives (c : Contents Component Bytes) : Prop := c CONFIG = some (.file [1])

theorem small_works : Works smallGit SmallInitialized SmallReceives := by
  have hargs : CONFIG_ARGS ≠ INIT_ARGS := by decide
  have hhead : ([] : Place) ≠ HEAD := by decide
  have hconfig : ([] : Place) ≠ CONFIG := by decide
  have hother : HEAD ≠ CONFIG := by decide
  constructor
  · intro luck t after h
    cases luck with
    | false => cases h
    | true =>
      cases h
      exact ⟨by simp [put, hhead], [], by simp [put]⟩
  · intro luck t after h hinit
    cases luck with
    | false => cases h
    | true =>
      obtain ⟨hroot, data, hdata⟩ := hinit
      simp only [smallGit, if_neg hargs, if_true, Prod.mk.injEq, and_true] at h
      subst h
      exact ⟨⟨by simpa [put, hconfig] using hroot, data, by simpa [put, hother] using hdata⟩,
        by simp [SmallReceives, put]⟩
  · intro luck t hinit hreceives
    exact ⟨hinit, hreceives⟩
  · intro c h
    exact h
  · intro args luck t after exit _ h q hq
    obtain ⟨name, hmem, hgit⟩ := hq
    have hroot : q ≠ [] := List.ne_nil_of_mem hmem
    have hsingle : ∀ other, endsInGit other = false → q ≠ [.normal other] := by
      intro other hno he
      rw [he, List.mem_singleton] at hmem
      cases hmem
      rw [hno] at hgit
      cases hgit
    have hnotHead : q ≠ HEAD := hsingle _ (by decide)
    have hnotConfig : q ≠ CONFIG := hsingle _ (by decide)
    cases luck with
    | false =>
      cases h
      rfl
    | true =>
      simp only [smallGit, if_true, Prod.mk.injEq] at h
      rw [← h.1]
      split <;> simp [put, hroot, hnotHead, hnotConfig]

def smallHost : GitDeployment Bool := ⟨smallGit, ⟨[], some "/r".toList, true⟩⟩

def firstUuid : Uuid := ⟨"00000000-0000-4000-8000-000000000000".toList, List.all_eq_true.mp rfl, rfl⟩
def secondUuid : Uuid := ⟨"00000000-0000-4000-8000-000000000001".toList, List.all_eq_true.mp rfl, rfl⟩

def directories (p : Place) : Files where
  entry := fun q => if q.isPrefixOf p then some .dir else none
  places := p.inits
  covers := by
    intro q hq
    split at hq
    · rename_i hp
      exact (List.mem_inits q p).mpr (List.isPrefixOf_iff_prefix.mp hp)
    · exact absurd rfl hq

def attempt (i : Nat) (path : String) (u : Uuid) : List (Nat × GitAct Bool) :=
  [(i, .request false path), (i, .test), (i, .enter), (i, .acquire), (i, .recheck),
    (i, .draw u none), (i, .init true), (i, .config true), (i, .parent none)]

def arrival (i : Nat) : List (Nat × GitAct Bool) :=
  [(i, .place none), (i, .count), (i, .unlock), (i, .unlock), (i, .unlock), (i, .leave)]

/-- The first request only, and nothing in the staging directory. -/
def lone (s : GitServer) (a : Nat × GitAct Bool) : Bool :=
  a.1 == 0 && match a.2 with
    | .draw u _ =>
      s.host.tree.places.all (fun q => !(stagingPlace smallHost.config u).isPrefixOf q) &&
        !(stagingPlace smallHost.config u).isPrefixOf (resolve (s.visits 0).dir)
    | _ => true

theorem request_idle {s t : GitServer} {i : Nat} {post : Bool} {path : String}
    (h : GitServer.step D s (i, .request post path) = some t) : (s.visits i).stage = .idle := by
  obtain ⟨_, hstep, _⟩ := Option.map_eq_some_iff.mp h
  simp only [gitStep] at hstep
  split at hstep
  · assumption
  · cases hstep

theorem lone_apart {s t : GitServer} {a : Nat × GitAct Bool}
    (halone : ∀ j ≠ 0, s.visits j = Visit.none) (h : lone s a = true)
    (hs : (GitServer.machine smallHost).step s a = some t) :
    Apart smallHost s a ∧ ∀ j ≠ 0, t.visits j = Visit.none := by
  obtain ⟨i, act⟩ := a
  rw [lone, Bool.and_eq_true, beq_iff_eq] at h
  obtain ⟨rfl, h⟩ := h
  obtain ⟨g, v, hm, rfl⟩ := GitServer.step_moves hs
  refine ⟨?_, fun j hj => by simpa [hj] using halone j hj⟩
  cases act with
  | request post path =>
    intro repo dir _ j u hstaged
    rcases eq_or_ne j 0 with rfl | hj
    · rw [request_idle hs] at hstaged
      cases hstaged
    · rw [halone j hj] at hstaged
      cases hstaged
  | draw u stop =>
    rw [Bool.and_eq_true, List.all_eq_true, Bool.not_eq_true', ← Bool.not_eq_true,
      List.isPrefixOf_iff_prefix] at h
    refine ⟨?_, ?_⟩
    · intro j hlive
      rcases eq_or_ne j 0 with rfl | hj
      · exact h.2
      · rw [halone j hj] at hlive
        cases hlive
    · intro p _ hready hbelow
      obtain ⟨data, hfile⟩ := FileTree.isFile_iff.mp hready
      have hplace := h.1 _ (s.host.tree.covers (p ++ HEAD) (by simp [hfile]))
      rw [Bool.not_eq_true', ← Bool.not_eq_true, List.isPrefixOf_iff_prefix] at hplace
      exact hplace (hbelow.trans (List.prefix_append p HEAD))
  | _ => trivial

/-- An empty directory is where the repository belongs. -/
theorem leftover_touched_once : ∃ s,
    (GitServer.machine smallHost).Run (Apart smallHost)
      (GitServer.boot (directories (resolve "/r/t/leftover.git".toList))) s ∧
    (s.visits 0).stage = .serving ∧ s.host.reposCreated = 1 ∧
    FirstTouched smallHost SmallInitialized SmallReceives
      (directories (resolve "/r/t/leftover.git".toList)) s := by
  obtain ⟨s, hrun, hp⟩ := Machine.exec_reaches (GitServer.machine smallHost)
    (fun s a => lone s a = true) lone
    (fun s => (s.visits 0).stage == .serving && s.host.reposCreated == 1) (fun _ _ h => h)
    (GitServer.boot (directories (resolve "/r/t/leftover.git".toList)))
    (attempt 0 "t/leftover.git/info/refs" firstUuid ++ arrival 0) (by decide +kernel)
  have hboth : (GitServer.machine smallHost).Run (Apart smallHost) _ s ∧
      ∀ j ≠ 0, s.visits j = Visit.none :=
    hrun.records (fun _ _ => rfl) (fun _ _ _ halone h hs => lone_apart halone h hs)
  have hapart := hboth.1
  rw [Bool.and_eq_true, beq_iff_eq, beq_iff_eq] at hp
  refine ⟨s, hapart, hp.1, hp.2, first_touch_once small_works _ ?_ s hapart⟩
  intro p _ hready
  obtain ⟨data, hfile⟩ := FileTree.isFile_iff.mp hready
  simp only [directories] at hfile
  split at hfile <;> cases hfile

/-- The second request names a repository in the staging directory of the first
one, which is renamed away while the second one is in `cgi`. -/
theorem staged_repository_moved : ∃ s,
    (GitServer.machine smallHost).Run Machine.anyStep (GitServer.boot (directories [])) s ∧
    (s.visits 1).stage = .serving ∧
    ¬SmallInitialized (s.host.tree.contents (resolve (s.visits 1).dir)) := by
  obtain ⟨s, hrun, hp⟩ := Machine.exec_reaches (GitServer.machine smallHost) Machine.anyStep
    (fun _ _ => true)
    (fun s => (s.visits 1).stage == .serving && !repoIsReady s.host.tree (s.visits 1).dir)
    (fun _ _ _ => trivial) (GitServer.boot (directories []))
    (attempt 0 "a.git/info/refs" firstUuid ++
      attempt 1 ".xetcasd-staging/00000000-0000-4000-8000-000000000000/b.git/info/refs"
        secondUuid ++
      arrival 1 ++ [(0, .place none)]) (by decide +kernel)
  rw [Bool.and_eq_true, beq_iff_eq, Bool.not_eq_true'] at hp
  refine ⟨s, hrun, hp.1, ?_⟩
  intro hinit
  have hready := (ready_iff _ _).mpr (small_works.ready hinit)
  rw [hp.2] at hready
  cases hready

end Small

end Xetcas.Proofs.FirstTouch
