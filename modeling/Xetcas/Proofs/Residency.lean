import Xetcas.Lib.Counting
import Xetcas.Server

namespace Xetcas.Proofs.Residency
open Lib Server Routes Routes.Xorbs

/-- Past `acquire_owned`, as far as the stage says. -/
def pastPermit : XorbStage → Bool
  | .idle | .acquiring .. | .unwinding false | .ended => false
  | _ => true

def beforePermit : XorbStage → Bool
  | .idle | .acquiring .. => true
  | _ => false

/-- A handler has its permit until its values are dropped; before it has one,
it has started no task. -/
structure Permitted (u : XorbUpload) : Prop where
  held : pastPermit u.stage = true → u.permit = true
  early : beforePermit u.stage = true → u.permit = false ∧ u.task = .none
  ended : u.stage = .ended → u.permit = false

/-- A body in memory whose upload has no permit any more. -/
def LeftBehind (u : XorbUpload) : Prop := u.resident = true ∧ u.permit = false

theorem holdsBytes_pastPermit {stage : XorbStage} (h : stage.holdsBytes = true) :
    pastPermit stage = true := by
  cases stage with
  | unwinding holds => cases holds <;> simp_all [XorbStage.holdsBytes, pastPermit]
  | _ => simp_all [XorbStage.holdsBytes, pastPermit]

theorem none_permitted : Permitted XorbUpload.none :=
  ⟨by simp [XorbUpload.none, pastPermit], fun _ => ⟨rfl, rfl⟩, fun _ => rfl⟩

section Step
variable {U : Upstream} {i : Nat} {g g' : AppState} {u u' : XorbUpload} {act : XorbAct}

theorem moves_permitted (h : XorbMoves U i g u act g' u') (hp : Permitted u) :
    Permitted u' := by
  have hheld := hp.held
  cases h with
  | refused idle no =>
    obtain ⟨hpermit, _⟩ := hp.early (by simp [idle, beforePermit])
    exact ⟨by simp [pastPermit], by simp [beforePermit], fun _ => hpermit⟩
  | admitted idle yes =>
    obtain ⟨hpermit, htask⟩ := hp.early (by simp [idle, beforePermit])
    exact ⟨by simp [pastPermit], fun _ => ⟨hpermit, htask⟩, by simp⟩
  | permit stage free =>
    exact ⟨fun _ => rfl, by simp [beforePermit], by simp⟩
  | read stage _ =>
    exact ⟨fun _ => hheld (by simp [stage, pastPermit]), by simp [beforePermit], by simp⟩
  | prepared stage task good enter =>
    exact ⟨fun _ => hheld (by simp [stage, pastPermit]), by simp [beforePermit], by simp⟩
  | @returned _ _ holds _ live freed hholds hexists =>
    refine ⟨?_, by simp [XorbUpload.return_, beforePermit], by simp [XorbUpload.return_]⟩
    intro hpast
    cases holds with
    | false => simp [XorbUpload.return_, pastPermit] at hpast
    | true => exact hheld (holdsBytes_pastPermit (hholds rfl))
  | orphanEnded task gone =>
    refine ⟨hheld, ?_, hp.ended⟩
    intro hbefore
    exact ⟨(hp.early hbefore).1, rfl⟩
  | locked stage acquire =>
    exact ⟨fun _ => hheld (by simp [stage, pastPermit]), by simp [beforePermit], by simp⟩
  | write stage absent =>
    exact ⟨fun _ => hheld (by simp [stage, pastPermit]), by simp [beforePermit], by simp⟩
  | renamed task =>
    refine ⟨hheld, ?_, hp.ended⟩
    intro hbefore
    have htask := (hp.early hbefore).2
    rw [task] at htask
    cases htask
  | inserting task stage =>
    exact ⟨fun _ => hheld (by simp [stage, pastPermit]), by simp [beforePermit], by simp⟩
  | inserted task stage =>
    exact ⟨by simp [XorbUpload.return_, pastPermit], by simp [XorbUpload.return_, beforePermit],
      by simp [XorbUpload.return_]⟩
  | insertedGone task gone =>
    refine ⟨hheld, ?_, hp.ended⟩
    intro hbefore
    exact ⟨(hp.early hbefore).1, rfl⟩
  | @dropped holds live hholds =>
    refine ⟨?_, by simp [beforePermit], by simp⟩
    intro hpast
    cases holds with
    | false => simp [pastPermit] at hpast
    | true => exact hheld (holdsBytes_pastPermit (hholds rfl))
  | unlock stage lockStep kind => exact hp
  | release stage unlocked =>
    exact ⟨by simp [pastPermit], by simp [beforePermit], fun _ => rfl⟩

/-- What a step does to the permits: it takes one for an upload without a body,
gives one back, or leaves them alone and adds no body without a permit. -/
inductive PermitMoves (g : AppState) (u : XorbUpload) (g' : AppState) (u' : XorbUpload) :
    XorbAct → Prop
  | take (before : u.permit = false) (after : u'.permit = true) (empty : u.resident = false)
      (free : g.uploadPermits = g'.uploadPermits + 1) : PermitMoves g u g' u' .permit
  | give {act : XorbAct} (before : u.permit = true) (after : u'.permit = false)
      (free : g'.uploadPermits = g.uploadPermits + 1) : PermitMoves g u g' u' act
  | same {act : XorbAct} (permit : u'.permit = u.permit) (free : g'.uploadPermits = g.uploadPermits)
      (left : u.permit = false → u'.resident = true → u.resident = true) :
      PermitMoves g u g' u' act

theorem moves_permits (h : XorbMoves U i g u act g' u') (hp : Permitted u) :
    PermitMoves g u g' u' act := by
  have hheld := hp.held
  cases h with
  | refused idle no =>
    refine .same rfl rfl ?_
    intro _ hres
    simpa [XorbUpload.resident, idle, XorbStage.holdsBytes] using hres
  | admitted idle yes =>
    refine .same rfl rfl ?_
    intro _ hres
    simpa [XorbUpload.resident, idle, XorbStage.holdsBytes] using hres
  | permit stage free =>
    obtain ⟨hpermit, htask⟩ := hp.early (by simp [stage, beforePermit])
    refine .take hpermit rfl ?_ ?_
    · simp [XorbUpload.resident, stage, htask, XorbStage.holdsBytes, XorbTask.holdsBytes]
    · simp only
      omega
  | read stage _ =>
    refine .same rfl rfl ?_
    simp [hheld (by simp [stage, pastPermit])]
  | prepared stage task good enter =>
    refine .same rfl rfl ?_
    simp [hheld (by simp [stage, pastPermit])]
  | @returned _ _ holds task live freed hholds hexists =>
    refine .same rfl rfl ?_
    intro _ hres
    simp only [XorbUpload.resident, XorbUpload.return_, Bool.or_eq_true] at hres ⊢
    rcases hres with hstage | htask
    · cases holds with
      | false => simp [XorbStage.holdsBytes] at hstage
      | true => exact .inl (hholds rfl)
    · rcases freed with rfl | ⟨rfl, _⟩
      · simp [XorbTask.holdsBytes] at htask
      · exact .inr htask
  | orphanEnded task gone =>
    refine .same rfl rfl ?_
    intro _ hres
    simp only [XorbUpload.resident, XorbTask.holdsBytes, Bool.or_false] at hres
    simp [XorbUpload.resident, hres]
  | locked stage acquire =>
    refine .same rfl rfl ?_
    simp [hheld (by simp [stage, pastPermit])]
  | write stage absent =>
    refine .same rfl rfl ?_
    simp [hheld (by simp [stage, pastPermit])]
  | renamed task =>
    refine .same rfl rfl ?_
    simp [XorbUpload.resident, task, XorbTask.holdsBytes]
  | inserting task stage =>
    refine .same rfl rfl ?_
    simp [hheld (by simp [stage, pastPermit])]
  | inserted task stage =>
    refine .same rfl rfl ?_
    simp [hheld (by simp [stage, pastPermit])]
  | insertedGone task gone =>
    refine .same rfl rfl ?_
    intro _ hres
    simp only [XorbUpload.resident, XorbTask.holdsBytes, Bool.or_false] at hres
    simp [XorbUpload.resident, hres]
  | @dropped holds live hholds =>
    refine .same rfl rfl ?_
    intro _ hres
    simp only [XorbUpload.resident, Bool.or_eq_true] at hres ⊢
    rcases hres with hstage | htask
    · cases holds with
      | false => simp [XorbStage.holdsBytes] at hstage
      | true => exact .inl (hholds rfl)
    · exact .inr htask
  | unlock stage lockStep kind => exact .same rfl rfl (fun _ hres => hres)
  | @release holds stage unlocked =>
    cases hpermit : u.permit with
    | true => exact .give hpermit rfl (by simp)
    | false =>
      refine .same hpermit.symm (by simp) ?_
      intro _ hres
      simp only [XorbUpload.resident, XorbStage.holdsBytes, Bool.false_or, Bool.or_eq_true] at hres ⊢
      exact .inr hres

end Step

variable {D : Deployment} {s s' : Server}

/-- The free permits outnumber the bodies left behind. -/
def Spare (s : Server) : Prop :=
  ∀ T : Finset Nat, (∀ i ∈ T, LeftBehind (s.xorbUploads i)) → T.card < s.state.uploadPermits

/-- A permit is only handed out while the free permits outnumber the bodies
that dropped handlers have left in their tasks. -/
def PermitsSpare (s : Server) (a : Server.Act) : Prop :=
  ∀ i, a = .xorb i .permit → Spare s

/-- Every permit is free or held, and a free permit stands for every body left
behind. -/
structure Accounted (D : Deployment) (s : Server) : Prop where
  permitted : ∀ i, Permitted (s.xorbUploads i)
  counts : ∃ held left, Exactly (fun i => (s.xorbUploads i).permit = true) held ∧
    Exactly (fun i => LeftBehind (s.xorbUploads i)) left ∧
    held + s.state.uploadPermits = D.uploadConcurrency ∧ left ≤ s.state.uploadPermits

theorem boot_accounted (D : Deployment) (index : Index) (objects : Path → Option Bytes) :
    Accounted D (boot D index objects) :=
  ⟨fun _ => none_permitted, 0, 0, .none (by simp [boot, XorbUpload.none]),
    .none (by simp [boot, LeftBehind, XorbUpload.resident, XorbUpload.none, XorbStage.holdsBytes,
      XorbTask.holdsBytes]), by simp [boot, AppState.new], Nat.zero_le _⟩

/-- An upload's step, as far as permits and bodies are concerned. -/
theorem Accounted.xorb (h : Accounted D s) {i : Nat} {act : XorbAct} {g : AppState}
    {u : XorbUpload} (hspare : act = .permit → Spare s)
    (hp : Permitted u) (hm : PermitMoves s.state (s.xorbUploads i) g u act) :
    Accounted D { s with state := g, xorbUploads := Function.update s.xorbUploads i u } := by
  obtain ⟨held, left, hheld, hleft, htotal, hle⟩ := h.counts
  refine ⟨?_, ?_⟩
  · intro j
    rcases eq_or_ne j i with rfl | hj
    · simpa using hp
    · simpa [hj] using h.permitted j
  cases hm with
  | take before after empty free =>
    obtain ⟨T, hT, hcard⟩ := hleft
    have hroom := hspare rfl T (fun j hj => (hT j).mp hj)
    refine ⟨held + 1, left, hheld.join (i := i) (by simp [before]) (by simp [after])
      (fun j hj => by simp [hj]), ⟨T, ?_, hcard⟩, by simp only; omega, by simp only; omega⟩
    intro j
    rcases eq_or_ne j i with rfl | hj
    · simp [hT j, LeftBehind, empty, after]
    · simp [hT j, hj]
  | give before after free =>
    obtain ⟨hheld', hpos⟩ := hheld.leave (q := fun j =>
      ((Function.update s.xorbUploads i u) j).permit = true) (i := i) before (by simp [after])
      (fun j hj => by simp [hj])
    cases hres : u.resident with
    | true =>
      refine ⟨held - 1, left + 1, hheld', hleft.join (i := i) (by simp [LeftBehind, before])
        (by simp [LeftBehind, hres, after]) (fun j hj => by simp [hj]), by simp only; omega,
        by simp only; omega⟩
    | false =>
      refine ⟨held - 1, left, hheld', hleft.stay ?_, by simp only; omega, by simp only; omega⟩
      intro j
      rcases eq_or_ne j i with rfl | hj
      · simp [LeftBehind, hres, before]
      · simp [hj]
  | same permit free kept =>
    have hheld' : Exactly (fun j => ((Function.update s.xorbUploads i u) j).permit = true) held := by
      refine hheld.stay ?_
      intro j
      rcases eq_or_ne j i with rfl | hj
      · simp [permit]
      · simp [hj]
    rcases Classical.em (LeftBehind (s.xorbUploads i) ∧ ¬LeftBehind u) with ⟨hwas, hnot⟩ | hsame
    · obtain ⟨hleft', hpos⟩ := hleft.leave (q := fun j =>
        LeftBehind ((Function.update s.xorbUploads i u) j)) (i := i) hwas (by simpa using hnot)
        (fun j hj => by simp [hj])
      exact ⟨held, left - 1, hheld', hleft', by simp only; omega, by simp only; omega⟩
    · refine ⟨held, left, hheld', hleft.stay ?_, by simp only; omega, by simp only; omega⟩
      intro j
      rcases eq_or_ne j i with rfl | hj
      · simp only [Function.update_self]
        constructor
        · intro hnow
          have hbefore : (s.xorbUploads j).permit = false := by rw [← permit, hnow.2]
          exact ⟨kept hbefore hnow.1, hbefore⟩
        · intro hwas
          by_contra hnot
          exact hsame ⟨hwas, hnot⟩
      · simp [hj]

theorem Accounted.step (h : Accounted D s) {a : Server.Act} (hspare : PermitsSpare s a)
    (hs : Server.step D s a = some s') : Accounted D s' := by
  cases step_moves hs with
  | xorb turn =>
    have hm := xorbStep_moves turn
    refine h.xorb ?_ (moves_permitted hm (h.permitted _)) (moves_permits hm (h.permitted _))
    intro hsame
    subst hsame
    exact hspare _ rfl
  | shard turn =>
    rename_i g _
    have hpermits : g.uploadPermits = s.state.uploadPermits := by
      rw [Shards.shardStep_frame turn]
    obtain ⟨held, left, hheld, hleft, htotal, hle⟩ := h.counts
    refine ⟨h.permitted, held, left, hheld, hleft, ?_, ?_⟩
    · simpa [hpermits] using htotal
    · simpa [hpermits] using hle
  | crash => exact boot_accounted D _ _

/-- At most as many bodies are in memory as there are upload permits, in every
run that hands out a permit only while the free permits outnumber the bodies
left behind. -/
theorem resident_bodies_bounded (h : (machine D).Reachable PermitsSpare s) (T : Finset Nat)
    (hT : ∀ i ∈ T, (s.xorbUploads i).resident = true) : T.card ≤ D.uploadConcurrency := by
  have hacc : Accounted D s := by
    refine h.invariant (I := Accounted D) ?_ ?_
    · intro s hsame
      subst hsame
      exact boot_accounted D _ _
    · intro s a t _ hi hok hstep
      exact hi.step hok hstep
  obtain ⟨held, left, hheld, hleft, htotal, hle⟩ := hacc.counts
  have hsplit := Finset.card_filter_add_card_filter_not (s := T)
    (fun i => (s.xorbUploads i).permit = true)
  have hin := hheld.card_le (S := T.filter (fun i => (s.xorbUploads i).permit = true))
    (fun i hi => (Finset.mem_filter.mp hi).2)
  have hout := hleft.card_le (S := T.filter (fun i => ¬(s.xorbUploads i).permit = true)) (by
    intro i hi
    obtain ⟨hmem, hnot⟩ := Finset.mem_filter.mp hi
    exact ⟨hT i hmem, by simpa using hnot⟩)
  omega

/-- Fewer uploads than free permits leave enough of them. -/
theorem spare_of_few {n : Nat} (hfew : ∀ j, n ≤ j → s.xorbUploads j = .none)
    (hroom : n < s.state.uploadPermits) : Spare s := by
  intro T hT
  have hsub : T ⊆ Finset.range n := by
    intro j hj
    rw [Finset.mem_range]
    by_contra hbeyond
    obtain ⟨hresident, _⟩ := hT j hj
    rw [hfew j (Nat.le_of_not_lt hbeyond)] at hresident
    cases hresident
  have hcard := Finset.card_le_card hsub
  rw [Finset.card_range] at hcard
  omega

/-- A handler is dropped while its body is verified; `n` others come. -/
def dropWhileVerifying (n : Nat) : List Server.Act :=
  sendLetter 0 Formats.plainBody ++ [.xorb 0 .drop, .xorb 0 .release] ++
    (List.range' 1 n).flatMap (fun i => sendLetter i Formats.plainBody)

/-- A body left behind and another one are within the bound. -/
theorem two_bodies_bounded : ∃ s, (machine sampleServer).Reachable PermitsSpare s ∧
    LeftBehind (s.xorbUploads 0) ∧ (∀ i ∈ ({0, 1} : Finset Nat), (s.xorbUploads i).resident = true) ∧
      ({0, 1} : Finset Nat).card ≤ sampleServer.uploadConcurrency := by
  let few : Server → Server.Act → Bool := fun s a =>
    onlyUploads 2 a && decide (2 < s.state.uploadPermits)
  obtain ⟨s, hrun, hend⟩ := Machine.exec_reaches (machine sampleServer)
    (fun s a => few s a = true) few
    (fun s => (s.xorbUploads 0).resident && !(s.xorbUploads 0).permit && (s.xorbUploads 1).resident)
    (fun _ _ h => h) (boot sampleServer .fresh (fun _ => none)) (dropWhileVerifying 1)
    (by decide +kernel)
  have hguarded : (machine sampleServer).Reachable (fun s a => few s a = true) s := ⟨_, rfl, hrun⟩
  have hreach : (machine sampleServer).Reachable PermitsSpare s := by
    refine hguarded.meets ?_
    intro s a hreach hfew _ _
    refine spare_of_few (n := 2) (fun j hj => reachable_untouched hreach ?_ hj) ?_
    · intro s a h
      exact (Bool.and_eq_true_iff.mp h).1
    · exact of_decide_eq_true (Bool.and_eq_true_iff.mp hfew).2
  simp only [Bool.and_eq_true, Bool.not_eq_true'] at hend
  obtain ⟨⟨hzero, hgone⟩, hone⟩ := hend
  have hbodies : ∀ i ∈ ({0, 1} : Finset Nat), (s.xorbUploads i).resident = true := by
    simpa using ⟨hzero, hone⟩
  exact ⟨s, hreach, ⟨hzero, hgone⟩, hbodies, resident_bodies_bounded hreach {0, 1} hbodies⟩

/-- With sixteen permits there are seventeen bodies in memory. -/
theorem seventeen_bodies : ∃ s, (machine sampleServer).Reachable Machine.anyStep s ∧
    ∃ T : Finset Nat, (∀ i ∈ T, (s.xorbUploads i).resident = true) ∧
      sampleServer.uploadConcurrency < T.card := by
  obtain ⟨s, hrun, hres⟩ := Machine.exec_reaches (machine sampleServer) Machine.anyStep
    (fun _ _ => true) (fun s => (List.range 17).all (fun i => (s.xorbUploads i).resident))
    (fun _ _ _ => trivial) (boot sampleServer .fresh (fun _ => none)) (dropWhileVerifying 16)
    (by decide +kernel)
  refine ⟨s, ⟨_, rfl, hrun⟩, Finset.range 17, ?_, by decide⟩
  intro i hi
  exact List.all_eq_true.mp hres i (by simpa using hi)

end Xetcas.Proofs.Residency
