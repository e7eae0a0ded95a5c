import Xetcas.Proofs.GitVisits

namespace Xetcas.Proofs.Attempts
open Lib Routes.Git Staging GitVisits

variable {ε : Type} {D : GitDeployment ε} {Initialized Receives : Contents Component Bytes → Prop}

/-- No request names a repository in the staging directory of an attempt, and
no attempt makes its staging directory around a repository that is ready or that
a request in progress names. -/
def Apart (D : GitDeployment ε) (s : GitServer) : Nat × GitAct ε → Prop
  | (_, .request post path) => ∀ repo dir,
    dispatchTo D.config post path = .ok (some (repo, dir)) → ∀ j u,
      (s.visits j).stage.staged = some u → ¬stagingPlace D.config u <+: resolve dir
  | (_, .draw u _) =>
    (∀ j, (s.visits j).stage.live = true →
      ¬stagingPlace D.config u <+: resolve (s.visits j).dir) ∧
    ∀ p, RepoPlace D.config p → Ready s.host.tree p → ¬stagingPlace D.config u <+: p
  | _ => True

/-- How far a staged repository is. -/
structure Built (D : GitDeployment ε) (Initialized Receives : Contents Component Bytes → Prop)
    (t : Files) (v : Visit) : Prop where
  initialized : ∀ u, v.stage = .configuring u → Initialized (t.contents (stagingPlace D.config u))
  complete : ∀ u, v.stage = .parenting u ∨ v.stage = .placing u →
    Initialized (t.contents (stagingPlace D.config u)) ∧
      Receives (t.contents (stagingPlace D.config u))
  parent : ∀ u, v.stage = .placing u → t.isDir (resolve v.dir).dropLast = true

/-- What holds in runs without a repository in a staging directory, from files
`t₀` on. -/
structure Undisturbed (D : GitDeployment ε)
    (Initialized Receives : Contents Component Bytes → Prop) (t₀ : Files) (s : GitServer) :
    Prop where
  clear : ∀ j u k, (s.visits j).stage.staged = some u → (s.visits k).stage.live = true →
    ¬stagingPlace D.config u <+: resolve (s.visits k).dir
  clearReady : ∀ j u p, (s.visits j).stage.staged = some u → RepoPlace D.config p →
    Ready s.host.tree p → ¬stagingPlace D.config u <+: p
  complete : ∀ p, RepoPlace D.config p → Ready s.host.tree p →
    Initialized (s.host.tree.contents p) ∧ Receives (s.host.tree.contents p)
  built : ∀ j, Built D Initialized Receives s.host.tree (s.visits j)
  absent : ∀ j, (s.visits j).stage.attempting = true →
    ¬Ready s.host.tree (resolve (s.visits j).dir)
  granted : ∀ j, (s.visits j).stage.granted = true → Ready s.host.tree (resolve (s.visits j).dir)
  kept : ∀ p, RepoPlace D.config p → Ready t₀ p → Ready s.host.tree p

section Undisturbed
variable {t₀ : Files} {s : GitServer} {i j : Nat} {g : GitHost} {v : Visit} {act : GitAct ε}
  {p : Place}

/-- A repository outside the staging directory of the request stays, or is
complete after the step. -/
theorem Undisturbed.repo_step (hu : Undisturbed D Initialized Receives t₀ s) (h : Entered D s)
    (works : Works D.git Initialized Receives) (hm : GitMoves D i s.host (s.visits i) act g v)
    (hp : RepoPlace D.config p)
    (hclear : ∀ u, (s.visits i).stage.staged = some u → ¬stagingPlace D.config u <+: p) :
    g.tree.contents p = s.host.tree.contents p ∨ p = resolve (s.visits i).dir ∧
      Initialized (g.tree.contents p) ∧ Receives (g.tree.contents p) := by
  rcases repo_touched (moves_touches works hm) hp (h.standing i).repoPlace hclear with
    hsame | ⟨hdir, ⟨u, hstage, hplaced⟩ | ⟨hstage, luck, hserved⟩⟩
  · exact .inl hsame
  · rw [hplaced]
    exact .inr ⟨hdir, (hu.built i).complete u (.inr hstage)⟩
  · have hready := hu.granted i (by simp [hstage])
    rw [← hdir] at hready
    obtain ⟨hinit, hreceives⟩ := hu.complete p hp hready
    rw [hserved]
    exact .inr ⟨hdir, works.serves luck hinit hreceives⟩

theorem Undisturbed.ready_kept (hu : Undisturbed D Initialized Receives t₀ s) (h : Entered D s)
    (works : Works D.git Initialized Receives) (hm : GitMoves D i s.host (s.visits i) act g v)
    (hp : RepoPlace D.config p) (hready : Ready s.host.tree p) : Ready g.tree p := by
  rcases hu.repo_step h works hm hp (fun u hstaged => hu.clearReady i u p hstaged hp hready) with
    hsame | ⟨_, hinit, _⟩
  · exact (ready_of_contents hsame).mpr hready
  · exact works.ready hinit

/-- What is ready after a step is not in the staging directory of the request. -/
theorem Undisturbed.ready_clear (hu : Undisturbed D Initialized Receives t₀ s) (h : Entered D s)
    (works : Works D.git Initialized Receives) (hm : GitMoves D i s.host (s.visits i) act g v)
    (hp : RepoPlace D.config p) (hready : Ready g.tree p) {u : Uuid}
    (hstaged : (s.visits j).stage.staged = some u) : ¬stagingPlace D.config u <+: p := by
  rcases ready_touched (moves_touches works hm) hp (h.standing i).repoPlace hready with
    hold | ⟨rfl, ⟨w, hstage⟩ | hstage⟩
  · exact hu.clearReady j u p hstaged hp hold
  · exact hu.clear j u i hstaged (by simp [hstage])
  · exact hu.clear j u i hstaged (by simp [hstage])

theorem Undisturbed.built_own (hu : Undisturbed D Initialized Receives t₀ s)
    (works : Works D.git Initialized Receives)
    (hm : GitMoves D i s.host (s.visits i) act g v) : Built D Initialized Receives g.tree v := by
  cases hm with
  | @initialized _ u luck after stage ran =>
    refine ⟨?_, by simp, by simp⟩
    intro w hw
    cases hw
    have hafter : (s.host.tree.graft (stagingPlace D.config u) after).contents
        (stagingPlace D.config u) = after.entry := FileTree.contents_graft
    exact hafter.symm.subst (works.inits ran)
  | @configured _ u luck after stage ran =>
    refine ⟨by simp, ?_, by simp⟩
    intro w hw
    obtain rfl : u = w := by simpa using hw
    have hafter : (s.host.tree.graft (stagingPlace D.config u) after).contents
        (stagingPlace D.config u) = after.entry := FileTree.contents_graft
    obtain ⟨hinit, hreceives⟩ := works.configures ran ((hu.built i).initialized u stage)
    exact ⟨hafter.symm.subst hinit, hafter.symm.subst hreceives⟩
  | @parented _ u tree stage made =>
    have hdir := hu.clear i u i (by simp [stage]) (by simp [stage])
    refine ⟨by simp, ?_, fun _ _ => FileTree.createDirAll_made made (List.prefix_refl _)⟩
    intro w hw
    obtain rfl : u = w := by simpa using hw
    rw [FileTree.contents_createDirAll made
      (fun habove => hdir (habove.trans (List.dropLast_prefix _)))]
    exact (hu.built i).complete u (.inl stage)
  | turned idle gone => rcases gone with rfl | ⟨e, rfl⟩ <;> constructor <;> simp
  | found ready test => rcases test with ⟨_, rfl⟩ | ⟨_, rfl⟩ <;> constructor <;> simp
  | @left _ failure stage => cases failure <;> constructor <;> simp
  | unlock stage lockStep kind => constructor <;> simp [stage]
  | served stage ran => constructor <;> simp [stage]
  | admitted | missing | enter | acquire | begin | givenUp | drawn | undrawn | gitFailed
  | unparented | placed | unplaced | cleaned | counted | responded => constructor <;> simp

theorem Undisturbed.built_other (hu : Undisturbed D Initialized Receives t₀ s) (h : Entered D s)
    (works : Works D.git Initialized Receives) (hm : GitMoves D i s.host (s.visits i) act g v)
    (hj : j ≠ i) : Built D Initialized Receives g.tree (s.visits j) := by
  have ht := moves_touches works hm
  have hstay : ∀ u, (s.visits j).stage.staged = some u →
      g.tree.contents (stagingPlace D.config u) =
        s.host.tree.contents (stagingPlace D.config u) := by
    intro u hstaged
    apply staging_touched ht (h.standing i).repoPlace
    · exact hu.clear j u i hstaged
    · intro hown
      exact hj (h.sole j i u hstaged hown)
    · exact (h.standing j).drawn u hstaged
  refine ⟨?_, ?_, ?_⟩
  · intro u hstage
    rw [hstay u (by simp [hstage])]
    exact (hu.built j).initialized u hstage
  · intro u hstage
    rw [hstay u (by rcases hstage with hstage | hstage <;> simp [hstage])]
    exact (hu.built j).complete u hstage
  · intro u hstage
    have hlive : (s.visits j).stage.live = true := by simp [hstage]
    apply parent_touched ht ((h.standing j).repoPlace hlive) (h.standing i).repoPlace
    · intro w hw
      exact hu.clear i w j hw hlive
    · exact (hu.built j).parent u hstage

/-- While one request attempts to create a repository, no other one places it. -/
theorem Undisturbed.absent_other (hu : Undisturbed D Initialized Receives t₀ s) (h : Entered D s)
    (works : Works D.git Initialized Receives) (hm : GitMoves D i s.host (s.visits i) act g v)
    (hj : j ≠ i) (hattempt : (s.visits j).stage.attempting = true) :
    ¬Ready g.tree (resolve (s.visits j).dir) := by
  have hcrit := critical_of_attempting hattempt
  have hp := (h.standing j).repoPlace (live_of_critical hcrit)
  intro hready
  rcases ready_touched (moves_touches works hm) hp (h.standing i).repoPlace hready with
    hold | ⟨hdir, ⟨u, hstage⟩ | hstage⟩
  · exact hu.absent j hattempt hold
  · exact hj (h.exclusive hcrit (by simp [hstage]) hdir)
  · apply hu.absent j hattempt
    rw [hdir]
    exact hu.granted i (by simp [hstage])

theorem Undisturbed.absent_own (hu : Undisturbed D Initialized Receives t₀ s) (h : Entered D s)
    (works : Works D.git Initialized Receives) (hm : GitMoves D i s.host (s.visits i) act g v)
    (hattempt : v.stage.attempting = true) : ¬Ready g.tree (resolve v.dir) := by
  obtain ⟨hdir, hcases⟩ := moves_attempting hm hattempt
  rw [hdir]
  rcases hcases with ⟨htree, hold | ⟨_, hold⟩⟩ | ⟨hold, hstage⟩
  · rw [htree]
    exact hu.absent i hold
  · rw [htree, ← ready_iff, hold]
    exact Bool.false_ne_true
  · have hp := (h.standing i).repoPlace (live_of_critical (critical_of_attempting hold))
    intro hready
    rcases ready_touched (moves_touches works hm) hp (h.standing i).repoPlace hready with
      hbefore | ⟨_, ⟨u, hplacing⟩ | hserving⟩
    · exact hu.absent i hold hbefore
    · exact hstage u hplacing
    · rw [hserving] at hold
      cases hold

theorem Undisturbed.granted_own (hu : Undisturbed D Initialized Receives t₀ s) (h : Entered D s)
    (works : Works D.git Initialized Receives) (hm : GitMoves D i s.host (s.visits i) act g v)
    (hgranted : v.stage.granted = true) : Ready g.tree (resolve v.dir) := by
  obtain ⟨hdir, hcases⟩ := moves_granted hm hgranted
  rw [hdir]
  rcases hcases with hold | ⟨hlive, hready⟩ | ⟨u, hstage, hplaced⟩
  · have hp := (h.standing i).repoPlace (live_of_granted hold)
    exact hu.ready_kept h works hm hp (hu.granted i hold)
  · have hp := (h.standing i).repoPlace hlive
    exact hu.ready_kept h works hm hp ((ready_iff _ _).mp hready)
  · apply works.ready
    rw [FileTree.contents_rename hplaced]
    exact ((hu.built i).complete u (.inr hstage)).1

/-- A repository in the staging directory of an attempt would have come there
with this step, against the condition. -/
theorem Undisturbed.clear_step (hu : Undisturbed D Initialized Receives t₀ s)
    (guard : Apart D s (i, act)) (hm : GitMoves D i s.host (s.visits i) act g v)
    {visits : Nat → Visit} (hvisits : visits = Function.update s.visits i v) (j : Nat) (u : Uuid)
    (k : Nat) (hj : (visits j).stage.staged = some u) (hk : (visits k).stage.live = true) :
    ¬stagingPlace D.config u <+: resolve (visits k).dir := by
  have hstaged : (s.visits j).stage.staged = some u ∨ ∃ stop, act = .draw u stop := by
    rcases eq_or_ne j i with rfl | hji
    · rw [hvisits, Function.update_self] at hj
      rcases moves_staged hm hj with hold | ⟨_, _, hdraw⟩
      · exact .inl hold
      · exact .inr hdraw
    · rw [hvisits, Function.update_of_ne hji] at hj
      exact .inl hj
  have hlive : (s.visits k).stage.live = true ∧ (visits k).dir = (s.visits k).dir ∨
      ∃ post path repo, act = .request post path ∧
        dispatchTo D.config post path = .ok (some (repo, (visits k).dir)) := by
    rcases eq_or_ne k i with rfl | hki
    · rw [hvisits, Function.update_self] at hk ⊢
      rcases moves_live hm hk with hold | ⟨post, path, hact, hsent⟩
      · exact .inl hold
      · exact .inr ⟨post, path, _, hact, hsent⟩
    · rw [hvisits, Function.update_of_ne hki] at hk ⊢
      exact .inl ⟨hk, rfl⟩
  rcases hlive with ⟨hlive, hdir⟩ | ⟨post, path, repo, rfl, hsent⟩
  · rw [hdir]
    rcases hstaged with hold | ⟨stop, rfl⟩
    · exact hu.clear j u k hold hlive
    · exact guard.1 k hlive
  · rcases hstaged with hold | ⟨stop, hdraw⟩
    · exact guard repo _ hsent j u hold
    · cases hdraw

/-- No step puts a ready repository into the staging directory of an attempt. -/
theorem Undisturbed.clearReady_step (hu : Undisturbed D Initialized Receives t₀ s)
    (h : Entered D s) (works : Works D.git Initialized Receives) (guard : Apart D s (i, act))
    (hm : GitMoves D i s.host (s.visits i) act g v) {u : Uuid}
    (hstaged : (Function.update s.visits i v j).stage.staged = some u)
    (hp : RepoPlace D.config p) (hready : Ready g.tree p) :
    ¬stagingPlace D.config u <+: p := by
  rcases eq_or_ne j i with rfl | hj
  · rw [Function.update_self] at hstaged
    rcases moves_staged hm hstaged with hold | ⟨hstage, hnew, stop, rfl⟩
    · exact hu.ready_clear h works hm hp hready hold
    · -- no file is made on the way to the staging directory
      rcases ready_touched (moves_touches works hm) hp (h.standing j).repoPlace hready with
        hbefore | ⟨_, ⟨w, hplacing⟩ | hserving⟩
      · exact guard.2 p hp hbefore
      · rw [hstage] at hplacing
        cases hplacing
      · rw [hstage] at hserving
        cases hserving
  · rw [Function.update_of_ne hj] at hstaged
    exact hu.ready_clear h works hm hp hready hstaged

theorem Undisturbed.step {s' : GitServer} (hu : Undisturbed D Initialized Receives t₀ s)
    (h : Entered D s) (works : Works D.git Initialized Receives) (guard : Apart D s (i, act))
    (hs : GitServer.step D s (i, act) = some s') : Undisturbed D Initialized Receives t₀ s' := by
  obtain ⟨g, v, hm, rfl⟩ := GitServer.step_moves hs
  refine ⟨hu.clear_step guard hm rfl, ?_, ?_, ?_, ?_, ?_, ?_⟩
  · intro j u p hstaged hp hready
    exact hu.clearReady_step h works guard hm hstaged hp hready
  · intro p hp hready
    have hclear : ∀ u, (s.visits i).stage.staged = some u → ¬stagingPlace D.config u <+: p :=
      fun u hstaged => hu.ready_clear h works hm hp hready hstaged
    rcases hu.repo_step h works hm hp hclear with hsame | ⟨_, hcomplete⟩
    · simp only [hsame]
      exact hu.complete p hp ((ready_of_contents hsame).mp hready)
    · exact hcomplete
  · intro j
    rcases eq_or_ne j i with rfl | hj
    · simpa using hu.built_own works hm
    · simpa [hj] using hu.built_other h works hm hj
  · intro j hattempt
    rcases eq_or_ne j i with rfl | hj
    · simp only [Function.update_self] at hattempt ⊢
      exact hu.absent_own h works hm hattempt
    · simp only [Function.update_of_ne hj] at hattempt ⊢
      exact hu.absent_other h works hm hj hattempt
  · intro j hgranted
    rcases eq_or_ne j i with rfl | hj
    · simp only [Function.update_self] at hgranted ⊢
      exact hu.granted_own h works hm hgranted
    · simp only [Function.update_of_ne hj] at hgranted ⊢
      exact hu.ready_kept h works hm ((h.standing j).repoPlace (live_of_granted hgranted))
        (hu.granted j hgranted)
  · intro p hp hready
    exact hu.ready_kept h works hm hp (hu.kept p hp hready)

end Undisturbed

end Xetcas.Proofs.Attempts
