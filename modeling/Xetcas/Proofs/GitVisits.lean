import Xetcas.Proofs.MutualExclusion
import Xetcas.Proofs.Staging

namespace Xetcas.Proofs.GitVisits
open Lib Routes.Git Staging

variable {ε : Type} {D : GitDeployment ε} {Initialized Receives : Contents Component Bytes → Prop}

/-- What is known of a request from its own steps. -/
structure Standing (D : GitDeployment ε) (g : GitHost) (i : Nat) (v : Visit) : Prop where
  located : v.stage.live = true →
    ∃ path, sanitize path = .ok () ∧ locate D.config path = .ok (v.repo, v.dir)
  waiting : v.stage = .locking → ∃ m, g.repoLocks.phase i = .waiting v.repo m
  holding : v.stage.critical = true → ∃ m, g.repoLocks.phase i = .holding v.repo m
  drawn : ∀ u, v.stage.staged = some u → u ∈ g.drawn

section Standing
variable {i j : Nat} {g g' : GitHost} {v v' w : Visit} {act : GitAct ε}

theorem dispatchTo_located {post : Bool} {path repo : String} {dir : List Char}
    (h : dispatchTo D.config post path = .ok (some (repo, dir))) :
    sanitize path = .ok () ∧ locate D.config path = .ok (repo, dir) := by
  obtain ⟨hs, h⟩ := check_eq_ok.mp h
  split at h
  · cases h
  · obtain ⟨located, hlocate, h⟩ := bind_eq_ok.mp h
    cases h
    exact ⟨hs, hlocate⟩

theorem none_standing (g : GitHost) : Standing D g i Visit.none := by
  constructor
  · intro h
    cases h
  · intro h
    cases h
  · intro h
    cases h
  · intro u h
    cases h

/-- Another stage of the same request, with nothing to show that was not known. -/
theorem Standing.restage (h : Standing D g i v) {stage : Stage}
    (hlive : stage.live = true → v.stage.live = true) (hwait : stage ≠ .locking)
    (hcrit : stage.critical = true → v.stage.critical = true)
    (hlocks : g'.repoLocks = g.repoLocks)
    (hdrawn : ∀ u, stage.staged = some u → u ∈ g'.drawn) :
    Standing D g' i { v with stage := stage } := by
  refine ⟨fun hl => h.located (hlive hl), fun hl => absurd hl hwait, ?_, hdrawn⟩
  intro hc
  rw [hlocks]
  exact h.holding (hcrit hc)

theorem moves_standing (hm : GitMoves D i g v act g' v') (h : Standing D g i v) :
    Standing D g' i v' := by
  cases hm with
  | turned idle gone =>
    rcases gone with rfl | ⟨e, rfl⟩
    all_goals apply h.restage <;> simp
  | admitted idle yes =>
    exact ⟨fun _ => ⟨_, dispatchTo_located yes⟩, by simp, by simp, by simp⟩
  | found ready test =>
    rcases test with ⟨stage, rfl⟩ | ⟨stage | ⟨e, stage⟩, rfl⟩
    all_goals apply h.restage <;> simp [stage]
  | enter stage enter =>
    exact ⟨fun _ => h.located (by simp [stage]), fun _ => KeyedLocks.step_enter enter, by simp,
      by simp⟩
  | acquire stage acquire =>
    obtain ⟨m, hm⟩ := h.waiting stage
    exact ⟨fun _ => h.located (by simp [stage]), by simp,
      fun _ => ⟨m, KeyedLocks.step_acquire hm acquire⟩, by simp⟩
  | givenUp stage =>
    rcases stage with stage | stage
    all_goals apply h.restage <;> simp [stage]
  | gitFailed stage known ran =>
    rcases stage with stage | stage
    all_goals apply h.restage <;> simp [stage]
    all_goals exact h.drawn _ (by simp [stage])
  | drawn stage new made => apply h.restage <;> simp [stage]
  | unlock stage lockStep kind =>
    exact ⟨fun hl => h.located hl, by simp [stage], by simp [stage], by simp [stage]⟩
  | @left _ failure stage => cases failure <;> apply h.restage <;> simp [stage]
  | served stage ran => exact ⟨h.located, h.waiting, h.holding, h.drawn⟩
  | initialized stage ran | configured stage ran | parented stage made | unparented stage some_
  | unplaced stage =>
    apply h.restage <;> simp [stage]
    exact h.drawn _ (by simp [stage])
  | missing stage | begin stage absent | undrawn stage new some_ | counted stage
  | responded stage | placed stage renamed | cleaned stage => apply h.restage <;> simp [stage]

/-- A request takes steps of its own call of `lock` only. -/
theorem moves_phase_other (hm : GitMoves D i g v act g' v') (hj : j ≠ i) :
    g'.repoLocks.phase j = g.repoLocks.phase j := by
  cases hm with
  | enter stage enter => exact KeyedLocks.step_phase_other enter hj
  | acquire stage acquire => exact KeyedLocks.step_phase_other acquire hj
  | unlock stage lockStep kind =>
    rcases kind with rfl | rfl | rfl
    all_goals exact KeyedLocks.step_phase_other lockStep hj
  | _ => rfl

theorem moves_locks (hm : GitMoves D i g v act g' v') :
    g'.repoLocks = g.repoLocks ∨ ∃ a, g.repoLocks.step a = some g'.repoLocks := by
  cases hm with
  | enter stage enter => exact .inr ⟨_, enter⟩
  | acquire stage acquire => exact .inr ⟨_, acquire⟩
  | unlock stage lockStep kind => exact .inr ⟨_, lockStep⟩
  | _ => exact .inl rfl

theorem moves_drawn (hm : GitMoves D i g v act g' v') {u : Uuid} (hu : u ∈ g.drawn) :
    u ∈ g'.drawn := by
  cases hm with
  | drawn stage new made => exact List.mem_cons_of_mem _ hu
  | undrawn stage new some_ => exact List.mem_cons_of_mem _ hu
  | _ => exact hu

/-- A staging directory is the request's own from the step on that makes it. -/
theorem moves_staged (hm : GitMoves D i g v act g' v') {u : Uuid} (hu : v'.stage.staged = some u) :
    v.stage.staged = some u ∨ v.stage = .drawing ∧ u ∉ g.drawn ∧ ∃ stop, act = .draw u stop := by
  cases hm with
  | drawn stage new made =>
    cases hu
    exact .inr ⟨stage, new, _, rfl⟩
  | turned idle gone => rcases gone with rfl | ⟨e, rfl⟩ <;> simp at hu
  | found ready test => rcases test with ⟨_, rfl⟩ | ⟨_, rfl⟩ <;> simp at hu
  | gitFailed stage known ran => rcases stage with stage | stage <;> simpa [stage] using hu
  | @left _ failure stage => cases failure <;> simp at hu
  | unlock stage lockStep kind => exact .inl hu
  | served stage ran => exact .inl hu
  | initialized stage ran | configured stage ran | parented stage made | unparented stage some_
  | unplaced stage => simpa [stage] using hu
  | admitted | missing | enter | acquire | begin | givenUp | undrawn | placed | cleaned | counted
  | responded => simp at hu

theorem Standing.other (h : Standing D g j w) (hm : GitMoves D i g v act g' v') (hj : j ≠ i) :
    Standing D g' j w := by
  have hphase := moves_phase_other hm hj
  refine ⟨h.located, ?_, ?_, fun u hu => moves_drawn hm (h.drawn u hu)⟩
  · intro hw
    rw [hphase]
    exact h.waiting hw
  · intro hc
    rw [hphase]
    exact h.holding hc

theorem Standing.repoPlace (h : Standing D g i v) (hlive : v.stage.live = true) :
    RepoPlace D.config (resolve v.dir) := by
  obtain ⟨path, hs, hlocate⟩ := h.located hlive
  exact ⟨path, v.repo, v.dir, hs, hlocate, rfl⟩

end Standing

theorem live_of_critical {stage : Stage} (h : stage.critical = true) : stage.live = true := by
  cases stage <;> simp_all

theorem critical_of_attempting {stage : Stage} (h : stage.attempting = true) :
    stage.critical = true := by
  cases stage <;> simp_all

theorem live_of_granted {stage : Stage} (h : stage.granted = true) : stage.live = true := by
  cases stage <;> simp_all

/-- What holds of the requests in every run. -/
structure Entered (D : GitDeployment ε) (s : GitServer) : Prop where
  locks : KeyedLocks.machine.Reachable Machine.anyStep s.host.repoLocks
  standing : ∀ i, Standing D s.host i (s.visits i)
  sole : ∀ i j u, (s.visits i).stage.staged = some u → (s.visits j).stage.staged = some u → i = j

section Entered
variable {s s' : GitServer} {i j : Nat} {act : GitAct ε}

theorem boot_entered (tree : Files) : Entered D (GitServer.boot tree) := by
  refine ⟨.start rfl, fun i => none_standing _, ?_⟩
  intro i j u hi
  cases hi

theorem Entered.step (h : Entered D s) (hs : GitServer.step D s (i, act) = some s') :
    Entered D s' := by
  obtain ⟨g, v, hm, rfl⟩ := GitServer.step_moves hs
  -- a staging directory that is not of an earlier step is of no other request
  have hnew : ∀ {j u}, j ≠ i → v.stage.staged = some u → (s.visits j).stage.staged ≠ some u := by
    intro j u hj hu hju
    rcases moves_staged hm hu with hold | ⟨_, hfresh, _⟩
    · exact hj (h.sole j i u hju hold)
    · exact hfresh ((h.standing j).drawn u hju)
  refine ⟨?_, ?_, ?_⟩
  · rcases moves_locks hm with hsame | ⟨a, ha⟩
    · simpa [hsame] using h.locks
    · exact h.locks.next a trivial ha
  · intro j
    rcases eq_or_ne j i with rfl | hj
    · simpa using moves_standing hm (h.standing j)
    · simpa [hj] using (h.standing j).other hm hj
  · intro j k u hju hku
    rcases eq_or_ne j i with rfl | hj
    · rcases eq_or_ne k j with rfl | hk
      · rfl
      · simp only [Function.update_self, Function.update_of_ne hk] at hju hku
        exact absurd hku (hnew hk hju)
    · rcases eq_or_ne k i with rfl | hk
      · simp only [Function.update_self, Function.update_of_ne hj] at hju hku
        exact absurd hju (hnew hj hku)
      · simp only [Function.update_of_ne hj, Function.update_of_ne hk] at hju hku
        exact h.sole j k u hju hku

/-- Two requests are never both in the lock for one directory. -/
theorem Entered.exclusive (h : Entered D s) (hi : (s.visits i).stage.critical = true)
    (hj : (s.visits j).stage.critical = true)
    (hdir : resolve (s.visits i).dir = resolve (s.visits j).dir) : i = j := by
  obtain ⟨path, hs, hlocate⟩ := (h.standing i).located (live_of_critical hi)
  obtain ⟨path', hs', hlocate'⟩ := (h.standing j).located (live_of_critical hj)
  have hrepo := located_injective hs hlocate hs' hlocate' hdir
  obtain ⟨m, hm⟩ := (h.standing i).holding hi
  obtain ⟨m', hm'⟩ := (h.standing j).holding hj
  rw [hrepo] at hm
  exact (MutualExclusion.reachable_guarded h.locks).exclusive hm hm'

end Entered

section Moves
variable {i : Nat} {g g' : GitHost} {v v' : Visit} {act : GitAct ε}

/-- A request keeps its repository. -/
theorem moves_live (hm : GitMoves D i g v act g' v') (h : v'.stage.live = true) :
    v.stage.live = true ∧ v'.dir = v.dir ∨
      ∃ post path, act = .request post path ∧
        dispatchTo D.config post path = .ok (some (v'.repo, v'.dir)) := by
  cases hm with
  | turned idle gone => rcases gone with rfl | ⟨e, rfl⟩ <;> simp at h
  | admitted idle yes => exact .inr ⟨_, _, rfl, yes⟩
  | found ready test =>
    rcases test with ⟨stage, rfl⟩ | ⟨stage | ⟨e, stage⟩, rfl⟩
    all_goals exact .inl ⟨by simp [stage], rfl⟩
  | givenUp stage => rcases stage with stage | stage <;> exact .inl ⟨by simp [stage], rfl⟩
  | gitFailed stage known ran =>
    rcases stage with stage | stage <;> exact .inl ⟨by simp [stage], rfl⟩
  | missing stage | enter stage enter | acquire stage acquire | begin stage absent
  | drawn stage new made | undrawn stage new some_ | initialized stage ran | configured stage ran
  | parented stage made | unparented stage some_ | placed stage renamed | unplaced stage
  | cleaned stage | counted stage | unlock stage lockStep kind | left stage | served stage ran
  | responded stage => exact .inl ⟨by simp [stage], rfl⟩

/-- An attempt begins without a repository, and changes no files while it waits
for the rename. -/
theorem moves_attempting (hm : GitMoves D i g v act g' v') (h : v'.stage.attempting = true) :
    v'.dir = v.dir ∧ (g'.tree = g.tree ∧ (v.stage.attempting = true ∨
        v.stage = .rechecking ∧ repoIsReady g.tree v.dir = false) ∨
      v.stage.attempting = true ∧ ∀ u, v.stage ≠ .placing u) := by
  cases hm with
  | turned idle gone => rcases gone with rfl | ⟨e, rfl⟩ <;> simp at h
  | found ready test => rcases test with ⟨_, rfl⟩ | ⟨_, rfl⟩ <;> simp at h
  | begin stage absent => exact ⟨rfl, .inl ⟨rfl, .inr ⟨stage, absent⟩⟩⟩
  | unplaced stage => exact ⟨rfl, .inl ⟨rfl, .inl (by simp [stage])⟩⟩
  | gitFailed stage known ran =>
    rcases stage with stage | stage <;> exact ⟨rfl, .inr ⟨by simp [stage], by simp [stage]⟩⟩
  | drawn stage new made | initialized stage ran | configured stage ran | parented stage made
  | unparented stage some_ | cleaned stage =>
    exact ⟨rfl, .inr ⟨by simp [stage], by simp [stage]⟩⟩
  | @left _ failure stage => cases failure <;> simp at h
  | unlock stage lockStep kind => simp [stage] at h
  | served stage ran => simp [stage] at h
  | admitted | missing | enter | acquire | givenUp | undrawn | placed | counted | responded =>
    simp at h

theorem moves_granted (hm : GitMoves D i g v act g' v') (h : v'.stage.granted = true) :
    v'.dir = v.dir ∧ (v.stage.granted = true ∨
      v.stage.live = true ∧ repoIsReady g.tree v.dir = true ∨
      ∃ u, v.stage = .placing u ∧
        g.tree.rename (stagingPlace D.config u) (resolve v.dir) = some g'.tree) := by
  cases hm with
  | turned idle gone => rcases gone with rfl | ⟨e, rfl⟩ <;> simp at h
  | found ready test =>
    rcases test with ⟨stage, rfl⟩ | ⟨stage | ⟨e, stage⟩, rfl⟩
    all_goals exact ⟨rfl, .inr (.inl ⟨by simp [stage], ready⟩)⟩
  | placed stage renamed => exact ⟨rfl, .inr (.inr ⟨_, stage, renamed⟩)⟩
  | counted stage => exact ⟨rfl, .inl (by simp [stage])⟩
  | @left _ failure stage =>
    cases failure with
    | none => exact ⟨rfl, .inl (by simp [stage])⟩
    | some e => simp at h
  | unlock stage lockStep kind => exact ⟨rfl, .inl h⟩
  | served stage ran => exact ⟨rfl, .inl h⟩
  | admitted | missing | enter | acquire | begin | givenUp | drawn | undrawn | initialized
  | configured | gitFailed | parented | unparented | unplaced | cleaned | responded => simp at h

end Moves

end Xetcas.Proofs.GitVisits
