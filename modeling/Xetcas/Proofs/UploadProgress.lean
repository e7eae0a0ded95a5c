import Xetcas.Proofs.Residency
import Xetcas.Proofs.Provenance

namespace Xetcas.Proofs.UploadProgress
open Lib Server Routes Routes.Xorbs Provenance Residency MutualExclusion

def Occupied (l : KeyedLocks) : Prop :=
  ∀ m, l.locked m = true → ∃ t, inner (l.phase t) = some m

section Locks
variable {l l' : KeyedLocks} {t : Nat} {p : LockPhase}

theorem empty_occupied : Occupied .empty := by
  intro m hm
  cases hm

/-- A call changes its phase, and with it only whether it owns its own mutex. -/
theorem Occupied.rephase (h : Occupied l) {locked : Nat → Bool}
    (hphase : l'.phase = Function.update l.phase t p) (hlocked : l'.locked = locked)
    (hsame : ∀ m, locked m = true →
      inner p = some m ∨ l.locked m = true ∧ inner (l.phase t) ≠ some m) : Occupied l' := by
  intro m hm
  rw [hlocked] at hm
  rw [hphase]
  rcases hsame m hm with hnew | ⟨hold, hother⟩
  · exact ⟨t, by simpa using hnew⟩
  · obtain ⟨j, hj⟩ := h m hold
    have hne : j ≠ t := by
      rintro rfl
      exact hother hj
    exact ⟨j, by simpa [hne] using hj⟩

theorem step_occupied (h : Occupied l) {a : KeyedLocks.Act} (hs : l.step a = some l') :
    Occupied l' := by
  cases KeyedLocks.step_moves hs with
  | @enterOld t key m idle found =>
    exact h.rephase rfl rfl (fun m hm => .inr ⟨hm, by simp [idle, MutualExclusion.inner]⟩)
  | @enterNew t key idle absent =>
    refine h.rephase rfl rfl ?_
    intro m hm
    rcases eq_or_ne m l.fresh with rfl | hne
    · simp at hm
    · exact .inr ⟨by simpa [hne] using hm, by simp [idle, MutualExclusion.inner]⟩
  | @acquire t key m waiting open_ =>
    refine h.rephase rfl rfl ?_
    intro m' hm
    rcases eq_or_ne m' m with rfl | hne
    · exact .inl rfl
    · exact .inr ⟨by simpa [hne] using hm, by simp [waiting, MutualExclusion.inner]⟩
  | cancel waiting =>
    exact h.rephase rfl rfl (fun m hm => .inr ⟨hm, by simp [waiting, MutualExclusion.inner]⟩)
  | @prune t key m m' holding found last =>
    refine h.rephase rfl rfl ?_
    intro n hn
    rcases eq_or_ne n m with rfl | hne
    · exact .inl rfl
    · exact .inr ⟨hn, by simpa [holding, MutualExclusion.inner] using fun he => hne he.symm⟩
  | @keep t key m holding shared =>
    refine h.rephase rfl rfl ?_
    intro n hn
    rcases eq_or_ne n m with rfl | hne
    · exact .inl rfl
    · exact .inr ⟨hn, by simpa [holding, MutualExclusion.inner] using fun he => hne he.symm⟩
  | @unlock t m pruned =>
    refine h.rephase rfl rfl ?_
    intro n hn
    rcases eq_or_ne n m with rfl | hne
    · simp at hn
    · exact .inr ⟨by simpa [hne] using hn,
        by simpa [pruned, MutualExclusion.inner] using fun he => hne he.symm⟩
  | dropArc unlocked =>
    exact h.rephase rfl rfl (fun m hm => .inr ⟨hm, by simp [unlocked, MutualExclusion.inner]⟩)

theorem reachable_occupied (h : KeyedLocks.machine.Reachable Machine.anyStep l) : Occupied l := by
  refine h.invariant (I := Occupied) ?_ (fun _ _ _ _ hi _ hs => step_occupied hi hs)
  intro l hsame
  subst hsame
  exact empty_occupied

end Locks

/-- The handler has no call in the lock table. -/
def outside : XorbStage → Bool
  | .idle | .acquiring .. | .reading .. | .verifying | .ended => true
  | _ => false

/-- Every handler at an await of a task has that task, and only handlers at the
lock or past it have a call in the lock table. -/
structure Placed (locks : KeyedLocks) (i : Nat) (u : XorbUpload) : Prop where
  verifying : u.stage = .verifying → ∃ body expected, u.task = .verify body expected
  writing : ∀ {record dedup disk}, u.stage = .writing record dedup disk →
    ∃ stored renamed, u.task = .write stored renamed
  inserting : u.stage = .inserting → ∃ record dedup disk, u.task = .put record dedup disk
  outside : outside u.stage = true → locks.phase i = .idle

section Step
variable {U : Upstream} {i : Nat} {g g' : AppState} {u u' : XorbUpload} {act : XorbAct}

/-- A stage that awaits no task. -/
theorem placed_of {locks : KeyedLocks} (hverifying : u.stage ≠ .verifying)
    (hwriting : ∀ record dedup disk, u.stage ≠ .writing record dedup disk)
    (hinserting : u.stage ≠ .inserting)
    (houtside : UploadProgress.outside u.stage = true → locks.phase i = .idle) :
    Placed locks i u :=
  ⟨fun h => absurd h hverifying, fun h => absurd h (hwriting _ _ _), fun h => absurd h hinserting,
    houtside⟩

theorem none_placed {locks : KeyedLocks} (h : locks.phase i = .idle) :
    Placed locks i XorbUpload.none :=
  placed_of (by simp [XorbUpload.none]) (by simp [XorbUpload.none]) (by simp [XorbUpload.none])
    (fun _ => h)

theorem moves_placed (h : XorbMoves U i g u act g' u') (hu : Placed g.xorbLocks i u) :
    Placed g'.xorbLocks i u' := by
  have hidle := hu.outside
  cases h with
  | refused idle no =>
    exact placed_of (by simp) (by simp) (by simp) (fun _ => hidle (by simp [idle, outside]))
  | admitted idle yes =>
    exact placed_of (by simp) (by simp) (by simp) (fun _ => hidle (by simp [idle, outside]))
  | permit stage free =>
    exact placed_of (by simp) (by simp) (by simp) (fun _ => hidle (by simp [stage, outside]))
  | read stage fits =>
    exact ⟨fun _ => ⟨_, _, rfl⟩, by simp, by simp, fun _ => hidle (by simp [stage, outside])⟩
  | prepared stage task good enter =>
    exact placed_of (by simp) (by simp) (by simp) (by simp [outside])
  | returned live freed holds exists_ =>
    exact placed_of (by simp [XorbUpload.return_]) (by simp [XorbUpload.return_])
      (by simp [XorbUpload.return_]) (by simp [XorbUpload.return_, outside])
  | orphanEnded task gone =>
    refine ⟨?_, ?_, ?_, hidle⟩
    · intro hstage
      obtain ⟨body, expected, htask⟩ := hu.verifying hstage
      simp [show u.stage = _ from hstage, htask, XorbStage.awaits] at gone
    · intro record dedup disk hstage
      obtain ⟨stored, renamed, htask⟩ := hu.writing hstage
      simp [show u.stage = _ from hstage, htask, XorbStage.awaits] at gone
    · intro hstage
      obtain ⟨record, dedup, disk, htask⟩ := hu.inserting hstage
      simp [show u.stage = _ from hstage, htask, XorbStage.awaits] at gone
  | locked stage acquire => exact placed_of (by simp) (by simp) (by simp) (by simp [outside])
  | write stage absent => exact ⟨by simp, fun _ => ⟨_, _, rfl⟩, by simp, by simp [outside]⟩
  | renamed task =>
    refine ⟨?_, fun _ => ⟨_, _, rfl⟩, ?_, hidle⟩
    · intro hstage
      obtain ⟨body, expected, htask⟩ := hu.verifying hstage
      simp [task] at htask
    · intro hstage
      obtain ⟨record, dedup, disk, htask⟩ := hu.inserting hstage
      simp [task] at htask
  | inserting task stage => exact ⟨by simp, by simp, fun _ => ⟨_, _, _, rfl⟩, by simp [outside]⟩
  | inserted task stage =>
    exact placed_of (by simp [XorbUpload.return_]) (by simp [XorbUpload.return_])
      (by simp [XorbUpload.return_]) (by simp [XorbUpload.return_, outside])
  | insertedGone task gone =>
    refine ⟨?_, ?_, fun h => absurd h gone, hidle⟩
    · intro hstage
      obtain ⟨body, expected, htask⟩ := hu.verifying hstage
      simp [task] at htask
    · intro record dedup disk hstage
      obtain ⟨stored, renamed, htask⟩ := hu.writing hstage
      simp [task] at htask
  | dropped live holds => exact placed_of (by simp) (by simp) (by simp) (by simp [outside])
  | unlock stage lockStep kind =>
    exact placed_of (by simp [stage]) (by simp [stage]) (by simp [stage]) (by simp [stage, outside])
  | release stage unlocked => exact placed_of (by simp) (by simp) (by simp) (fun _ => unlocked)

/-- A handler goes on: nobody drops it, its tasks do not fail, and reads fail
only on a body beyond the limit. -/
def proceeds (u : XorbUpload) : XorbAct → Bool
  | .request .. | .drop | .failTask _ => false
  | .failRead _ =>
    match u.stage with
    | .reading body _ => decide (MAX_UPLOAD_BYTES < body.length)
    | _ => false
  | _ => true

/-- Past `acquire_owned`, until everything is dropped. -/
def past : XorbStage → Bool
  | .idle | .acquiring .. | .ended => false
  | _ => true

/-- Past the lock, too, or without need of it. -/
def inside : XorbStage → Bool
  | .checking _ | .writing .. | .inserting | .unwinding _ => true
  | _ => false

/-- The steps that are left of dropping a call. -/
def callLeft : LockPhase → Nat
  | .idle => 0
  | .unlocked _ => 1
  | .waiting .. => 1
  | .pruned _ => 2
  | .holding .. => 3

/-- The steps that are left of an upload past `acquire_owned`. -/
def left (locks : KeyedLocks) (i : Nat) (u : XorbUpload) : Nat :=
  match u.stage with
  | .idle | .acquiring .. | .ended => 0
  | .unwinding _ => 1 + callLeft (locks.phase i)
  | .inserting => 7
  | .writing .. =>
    match u.task with
    | .write _ false => 9
    | _ => 8
  | .checking _ => 10
  | .locking _ => 11
  | .verifying => 12
  | .reading .. => 13

theorem callLeft_le (p : LockPhase) : callLeft p ≤ 3 := by
  cases p <;> simp [callLeft]

/-- It waits for the mutex of another upload. -/
def Blocked (locks : KeyedLocks) (i : Nat) (u : XorbUpload) : Prop :=
  ∃ up m, u.stage = .locking up ∧ locks.phase i = .waiting u.hash m ∧ locks.locked m = true

/-- The next step of dropping the lock future or the guard. -/
theorem unlock_step {holds : Bool} (U : Upstream) (hstage : u.stage = .unwinding holds)
    (hphase : g.xorbLocks.phase i ≠ .idle) : ∃ g', xorbStep U i g u .unlock = some (g', u) ∧
      callLeft (g'.xorbLocks.phase i) < callLeft (g.xorbLocks.phase i) := by
  cases hp : g.xorbLocks.phase i with
  | idle => exact absurd hp hphase
  | waiting key m =>
    refine ⟨_, by simp only [xorbStep, hstage, hp, Option.bind_some, KeyedLocks.step]; rfl, ?_⟩
    simp [callLeft]
  | holding key m =>
    refine ⟨_, by simp only [xorbStep, hstage, hp, Option.bind_some, KeyedLocks.step]; rfl, ?_⟩
    simp [callLeft]
  | pruned m =>
    refine ⟨_, by simp only [xorbStep, hstage, hp, Option.bind_some, KeyedLocks.step]; rfl, ?_⟩
    simp [callLeft]
  | unlocked m =>
    refine ⟨_, by simp only [xorbStep, hstage, hp, Option.bind_some, KeyedLocks.step]; rfl, ?_⟩
    simp [callLeft]

/-- The upload has a step that brings it closer to its end. -/
def Goes (U : Upstream) (g : AppState) (i : Nat) (u : XorbUpload) : Prop :=
  ∃ act g' u', proceeds u act = true ∧ xorbStep U i g u act = some (g', u') ∧
    left g'.xorbLocks i u' < left g.xorbLocks i u

section Goes
variable {body : Bytes} {expected : MerkleHash} {up : Upload}

theorem reading_goes (U : Upstream) (hp : Placed g.xorbLocks i u)
    (hstage : u.stage = .reading body expected) : Goes U g i u := by
  have hidle := hp.outside (by simp [hstage, outside])
  have hreturned : ∀ answer, left g.xorbLocks i (u.return_ answer false) <
      left g.xorbLocks i u := by
    intro answer
    simp [left, hstage, XorbUpload.return_, hidle, callLeft]
  by_cases hlong : MAX_UPLOAD_BYTES < body.length
  · have hstep : ∀ message, xorbStep U i g u (.failRead message) = some (g,
        u.return_ (.error (.badRequest s!"reading xorb body: {message}")) false) := by
      intro message
      simp only [xorbStep, hstage]
    exact ⟨_, _, _, by simp [proceeds, hstage, hlong], hstep "length limit exceeded",
      hreturned _⟩
  · by_cases hempty : body.isEmpty = true
    · have hstep : xorbStep U i g u .read =
          some (g, u.return_ (.error (.badRequest "empty xorb body")) false) := by
        simp only [xorbStep, hstage, if_neg hlong, if_pos hempty]
      exact ⟨_, _, _, rfl, hstep, hreturned _⟩
    · have hstep : xorbStep U i g u .read =
          some (g, { u with stage := .verifying, task := .verify body expected }) := by
        simp only [xorbStep, hstage, if_neg hlong, if_neg hempty]
      exact ⟨_, _, _, rfl, hstep, by simp [left, hstage]⟩

theorem verifying_goes (U : Upstream) (hp : Placed g.xorbLocks i u)
    (hstage : u.stage = .verifying) : Goes U g i u := by
  have hidle := hp.outside (by simp [hstage, outside])
  obtain ⟨body, expected, htask⟩ := hp.verifying hstage
  cases hprepare : prepare U body expected 0 with
  | error e =>
    have hstep : xorbStep U i g u (.verified 0) =
        some (g, { u with task := .none }.return_ (.error e) false) := by
      simp only [xorbStep, htask, afterVerify, hstage, hprepare]
    refine ⟨_, _, _, rfl, hstep, ?_⟩
    simp [left, hstage, XorbUpload.return_, hidle, callLeft]
  | ok up =>
    have hstep : xorbStep U i g u (.verified 0) =
        some ({ g with xorbLocks := g.xorbLocks.enter i u.hash },
          { u with stage := .locking up, task := .none }) := by
      simp only [xorbStep, htask, afterVerify, hstage, hprepare, KeyedLocks.step, hidle]
      rfl
    exact ⟨_, _, _, rfl, hstep, by simp [left, hstage]⟩

theorem locking_goes (U : Upstream) (hl : Locked g.xorbLocks i u)
    (hstage : u.stage = .locking up) : Goes U g i u ∨ Blocked g.xorbLocks i u := by
  obtain ⟨m, hphase⟩ := hl.waiting hstage
  cases hlocked : g.xorbLocks.locked m with
  | true => exact .inr ⟨up, m, hstage, hphase, hlocked⟩
  | false =>
    have hacquire : ∃ locks, g.xorbLocks.step (.acquire i) = some locks := by
      simp [KeyedLocks.step, hphase, hlocked]
    obtain ⟨locks, hacquire⟩ := hacquire
    have hstep : xorbStep U i g u .locked =
        some ({ g with xorbLocks := locks }, { u with stage := .checking up }) := by
      simp only [xorbStep, hstage, hacquire, Option.map_some]
    exact .inl ⟨_, _, _, rfl, hstep, by simp [left, hstage]⟩

theorem checking_goes (U : Upstream)
    (hstage : u.stage = .checking up) : Goes U g i u := by
  have hfew := callLeft_le (g.xorbLocks.phase i)
  by_cases hrow : (g.index.getXorb u.hash).isSome = true
  · have hstep : xorbStep U i g u .checked = some (g, u.return_ (.ok ⟨false⟩) true) := by
      simp only [xorbStep, hstage, if_pos hrow]
    refine ⟨_, _, _, rfl, hstep, ?_⟩
    simp only [left, hstage, XorbUpload.return_]
    omega
  · have hstep : xorbStep U i g u .checked = some (g, { u with
        stage := .writing up.record up.dedupChunks up.stored.length
        task := .write up.stored false }) := by
      simp only [xorbStep, hstage, if_neg hrow]
    exact ⟨_, _, _, rfl, hstep, by simp [left, hstage]⟩

theorem writing_goes (U : Upstream) (hp : Placed g.xorbLocks i u) {record : XorbRecord}
    {dedup : List (String × UInt32)} {disk : Nat}
    (hstage : u.stage = .writing record dedup disk) : Goes U g i u := by
  obtain ⟨stored, renamed, htask⟩ := hp.writing hstage
  cases renamed with
  | false =>
    have hstep : xorbStep U i g u .renamed =
        some ({ g with objects := Function.update g.objects (pathFor u.hash) (some stored) },
          { u with task := .write stored true }) := by
      simp only [xorbStep, htask]
    exact ⟨_, _, _, rfl, hstep, by simp [left, hstage, htask]⟩
  | true =>
    have hstep : xorbStep U i g u .written =
        some (g, { u with stage := .inserting, task := .put record dedup disk }) := by
      simp only [xorbStep, htask, hstage]
    exact ⟨_, _, _, rfl, hstep, by simp [left, hstage, htask]⟩

theorem inserting_goes (U : Upstream) (hp : Placed g.xorbLocks i u)
    (hstage : u.stage = .inserting) : Goes U g i u := by
  have hfew := callLeft_le (g.xorbLocks.phase i)
  obtain ⟨record, dedup, disk, htask⟩ := hp.inserting hstage
  have hstep : xorbStep U i g u .inserted =
      some ({ g with index := (g.index.putXorb record dedup disk).1 },
        { u with task := .none }.return_ (.ok ⟨(g.index.putXorb record dedup disk).2⟩) false) := by
    simp only [xorbStep, htask, hstage]
  refine ⟨_, _, _, rfl, hstep, ?_⟩
  simp only [left, hstage, XorbUpload.return_]
  omega

theorem unwinding_goes (U : Upstream) {holds : Bool}
    (hstage : u.stage = .unwinding holds) : Goes U g i u := by
  by_cases hphase : g.xorbLocks.phase i = .idle
  · have hstep : xorbStep U i g u .release =
        some ({ g with uploadPermits := g.uploadPermits + if u.permit then 1 else 0 },
          { u with stage := .ended, permit := false }) := by
      simp only [xorbStep, hstage, if_pos hphase]
    exact ⟨_, _, _, rfl, hstep, by simp [left, hstage]⟩
  · obtain ⟨g', hstep, hless⟩ := unlock_step U hstage hphase
    refine ⟨.unlock, g', u, rfl, hstep, ?_⟩
    simp only [left, hstage]
    omega

end Goes

/-- An upload past `acquire_owned` goes on, or waits for a mutex. -/
theorem upload_step (U : Upstream) (hp : Placed g.xorbLocks i u) (hl : Locked g.xorbLocks i u)
    (hpast : past u.stage = true) : Goes U g i u ∨ Blocked g.xorbLocks i u := by
  cases hstage : u.stage with
  | idle => simp [hstage, past] at hpast
  | acquiring body expected => simp [hstage, past] at hpast
  | ended => simp [hstage, past] at hpast
  | reading body expected => exact .inl (reading_goes U hp hstage)
  | verifying => exact .inl (verifying_goes U hp hstage)
  | locking up => exact locking_goes U hl hstage
  | checking up => exact .inl (checking_goes U hstage)
  | writing record dedup disk => exact .inl (writing_goes U hp hstage)
  | inserting => exact .inl (inserting_goes U hp hstage)
  | unwinding holds => exact .inl (unwinding_goes U hstage)

/-- What a step of a handler that goes on leaves. -/
structure Onward (g : AppState) (u : XorbUpload) (g' : AppState) (u' : XorbUpload) : Prop where
  past : past u'.stage = true ∨ u'.stage = .ended
  inside : inside u.stage = true → inside u'.stage = true ∨ u'.stage = .ended
  permits : g.uploadPermits ≤ g'.uploadPermits
  gives : u.permit = true → u'.permit = true ∨ g.uploadPermits < g'.uploadPermits
  answered : u.stage.live = true ∨ u.answer.isSome = true →
    u'.stage.live = true ∨ u'.answer.isSome = true

theorem moves_onward (h : XorbMoves U i g u act g' u') (hgoes : proceeds u act = true)
    (hpast : UploadProgress.past u.stage = true) : Onward g u g' u' := by
  cases h with
  | refused idle no => simp [idle, UploadProgress.past] at hpast
  | admitted idle yes => simp [idle, UploadProgress.past] at hpast
  | permit stage free => simp [stage, UploadProgress.past] at hpast
  | dropped live holds => cases hgoes
  | release stage unlocked =>
    refine ⟨.inr rfl, fun _ => .inr rfl, by simp, ?_, ?_⟩
    · intro hpermit
      exact .inr (by simp [hpermit])
    · simp [stage, XorbStage.live]
  | unlock stage lockStep kind => exact ⟨.inl hpast, .inl, le_refl _, .inl, id⟩
  | read stage fits =>
    exact ⟨.inl rfl, by simp [stage, UploadProgress.inside], le_refl _, .inl, fun _ => .inl rfl⟩
  | prepared stage task good enter =>
    exact ⟨.inl rfl, by simp [stage, UploadProgress.inside], le_refl _, .inl, fun _ => .inl rfl⟩
  | returned live freed holds exists_ =>
    exact ⟨.inl rfl, fun _ => .inl rfl, le_refl _, .inl, fun _ => .inr rfl⟩
  | orphanEnded task gone => exact ⟨.inl hpast, .inl, le_refl _, .inl, id⟩
  | locked stage acquire =>
    exact ⟨.inl rfl, fun _ => .inl rfl, le_refl _, .inl, fun _ => .inl rfl⟩
  | write stage absent =>
    exact ⟨.inl rfl, fun _ => .inl rfl, le_refl _, .inl, fun _ => .inl rfl⟩
  | renamed task => exact ⟨.inl hpast, .inl, le_refl _, .inl, id⟩
  | inserting task stage =>
    exact ⟨.inl rfl, fun _ => .inl rfl, le_refl _, .inl, fun _ => .inl rfl⟩
  | inserted task stage =>
    exact ⟨.inl rfl, fun _ => .inl rfl, le_refl _, .inl, fun _ => .inr rfl⟩
  | insertedGone task gone => exact ⟨.inl hpast, .inl, le_refl _, .inl, id⟩

end Step

variable {D : Deployment} {s t u : Server} {i j : Nat}

/-- What progress rests on: the calls in the lock table belong to their
uploads, and the permits are free or held. -/
structure Standing (D : Deployment) (s : Server) : Prop where
  traced : Traced D s
  placed : ∀ i, Placed s.state.xorbLocks i (s.xorbUploads i)
  permitted : ∀ i, Permitted (s.xorbUploads i)
  rationed : Rationed (fun i => (s.xorbUploads i).permit = true) s.state.uploadPermits
    D.uploadConcurrency

theorem boot_standing (D : Deployment) (index : Index) (objects : Path → Option Bytes) :
    Standing D (boot D index objects) :=
  ⟨boot_traced D _ _, fun _ => none_placed rfl, fun _ => none_permitted,
    .none (by simp [boot, XorbUpload.none])⟩

theorem Standing.step (h : Standing D s) {a : Server.Act} (hs : Server.step D s a = some t) :
    Standing D t := by
  have htraced := h.traced.step hs
  cases step_moves hs with
  | @xorb i act g u turn =>
    have hm := xorbStep_moves turn
    refine ⟨htraced, ?_, ?_, ?_⟩
    · intro j
      rcases eq_or_ne j i with rfl | hj
      · simpa using moves_placed hm (h.placed j)
      · have hphase := moves_phase_other hm hj
        have hother := h.placed j
        have hsame : Placed g.xorbLocks j (s.xorbUploads j) :=
          ⟨hother.verifying, hother.writing, hother.inserting, fun ho => hphase ▸ hother.outside ho⟩
        simpa [hj] using hsame
    · intro j
      rcases eq_or_ne j i with rfl | hj
      · simpa using moves_permitted hm (h.permitted j)
      · simpa [hj] using h.permitted j
    · have hrationed := h.rationed
      cases moves_permits hm (h.permitted i) with
      | take before after empty free =>
        rw [free] at hrationed
        exact hrationed.take (i := i) (by simp [before]) (by simpa using after)
          (fun j hj => by simp [hj])
      | give before after free =>
        simp only [free]
        exact hrationed.give (i := i) before (by simp [after]) (fun j hj => by simp [hj])
      | same permit free kept =>
        simp only [free]
        refine hrationed.stay ?_
        intro j
        rcases eq_or_ne j i with rfl | hj
        · simp [permit]
        · simp [hj]
  | @shard i act g u turn =>
    have hframe := Shards.shardStep_frame turn
    refine ⟨htraced, ?_, h.permitted, ?_⟩
    · rw [hframe]
      exact h.placed
    · rw [hframe]
      exact h.rationed
  | crash => exact boot_standing D _ _

theorem reachable_standing {ok : Server → Server.Act → Prop} (h : (machine D).Reachable ok s) :
    Standing D s := by
  refine h.invariant (I := Standing D) ?_ (fun _ _ _ _ hi _ hs => hi.step hs)
  intro s hsame
  subst hsame
  exact boot_standing D _ _

def Proceeds (s : Server) : Server.Act → Prop
  | .xorb i act => proceeds (s.xorbUploads i) act = true
  | _ => False

/-- Uploads past `acquire_owned` have gone on, and the others stand still. -/
structure Follows (D : Deployment) (s t : Server) : Prop where
  run : (machine D).Run Proceeds s t
  standing : Standing D t
  permits : s.state.uploadPermits ≤ t.state.uploadPermits
  still : ∀ j, past (s.xorbUploads j).stage = false → t.xorbUploads j = s.xorbUploads j

theorem Follows.refl (h : Standing D s) : Follows D s s :=
  ⟨.refl, h, le_refl _, fun _ _ => rfl⟩

theorem Follows.trans (h : Follows D s t) (g : Follows D t u) : Follows D s u := by
  refine ⟨h.run.trans g.run, g.standing, h.permits.trans g.permits, ?_⟩
  intro j hj
  have hsame := h.still j hj
  rw [← hsame] at hj ⊢
  exact g.still j hj

structure Alone (i : Nat) (s t : Server) : Prop where
  uploads : ∀ j ≠ i, t.xorbUploads j = s.xorbUploads j
  phases : ∀ j ≠ i, t.state.xorbLocks.phase j = s.state.xorbLocks.phase j

theorem Alone.refl (i : Nat) (s : Server) : Alone i s s := ⟨fun _ _ => rfl, fun _ _ => rfl⟩

theorem Alone.trans (h : Alone i s t) (g : Alone i t u) : Alone i s u :=
  ⟨fun j hj => (g.uploads j hj).trans (h.uploads j hj),
    fun j hj => (g.phases j hj).trans (h.phases j hj)⟩

/-- What an upload has done for the permits and its client. -/
structure Yields (i : Nat) (s t : Server) : Prop where
  gives : (s.xorbUploads i).permit = true →
    (t.xorbUploads i).permit = true ∨ s.state.uploadPermits < t.state.uploadPermits
  answered : (s.xorbUploads i).stage.live = true ∨ (s.xorbUploads i).answer.isSome = true →
    (t.xorbUploads i).stage.live = true ∨ (t.xorbUploads i).answer.isSome = true

theorem Yields.refl (i : Nat) (s : Server) : Yields i s s := ⟨.inl, id⟩

theorem Yields.trans (h : Yields i s t) (hpermits : t.state.uploadPermits ≤ u.state.uploadPermits)
    (g : Yields i t u) (hbefore : s.state.uploadPermits ≤ t.state.uploadPermits) :
    Yields i s u := by
  refine ⟨?_, fun ha => g.answered (h.answered ha)⟩
  intro hpermit
  rcases h.gives hpermit with hstill | hmore
  · rcases g.gives hstill with hkept | hmore
    · exact .inl hkept
    · exact .inr (by omega)
  · exact .inr (by omega)

theorem follows_step {act : XorbAct} {g : AppState} {v : XorbUpload} (h : Standing D s)
    (hpast : past (s.xorbUploads i).stage = true) (hgoes : proceeds (s.xorbUploads i) act = true)
    (hstep : xorbStep D.upstream i s.state (s.xorbUploads i) act = some (g, v)) :
    ∃ t, Follows D s t ∧ Alone i s t ∧ t.state = g ∧ t.xorbUploads i = v ∧ Yields i s t ∧
      Onward s.state (s.xorbUploads i) g v := by
  have hm := xorbStep_moves hstep
  have honward := moves_onward hm hgoes hpast
  let t : Server := { s with state := g, xorbUploads := Function.update s.xorbUploads i v }
  have hs : Server.step D s (.xorb i act) = some t := by
    rw [Server.step, hstep]
    rfl
  refine ⟨t, ⟨.single (.xorb i act) hgoes hs, h.step hs, honward.permits, ?_⟩, ⟨?_, ?_⟩, rfl,
    by simp [t], ⟨?_, ?_⟩, honward⟩
  · intro j hj
    have hne : j ≠ i := by
      rintro rfl
      simp [hpast] at hj
    simp [t, hne]
  · intro j hj
    simp [t, hj]
  · intro j hj
    exact moves_phase_other hm hj
  · simpa [t] using honward.gives
  · simpa [t] using honward.answered

theorem past_of_inside {stage : XorbStage} (h : inside stage = true) : past stage = true := by
  cases stage with
  | checking | writing | inserting | unwinding => rfl
  | _ => cases h

/-- Between the lock and its end an upload waits for nobody. -/
theorem inside_ends (h : Standing D s) (hin : inside (s.xorbUploads i).stage = true) :
    ∃ t, Follows D s t ∧ Alone i s t ∧ Yields i s t ∧ (t.xorbUploads i).stage = .ended := by
  have hends : ∃ t, (machine D).Run Proceeds s t ∧ (Follows D s t ∧ Alone i s t ∧ Yields i s t ∧
      (inside (t.xorbUploads i).stage = true ∨ (t.xorbUploads i).stage = .ended)) ∧
      (t.xorbUploads i).stage = .ended := by
    refine Machine.Run.arrives (fun t => left t.state.xorbLocks i (t.xorbUploads i)) ?_
      ⟨.refl h, .refl i s, .refl i s, .inl hin⟩
    intro t hi hnot
    obtain ⟨hfollows, halone, hyields, hin | hended⟩ := hi
    · have hpast := past_of_inside hin
      have hstanding := hfollows.standing
      obtain ⟨act, g, v, hgoes, hstep, hless⟩ | ⟨up, m, hlocking, _⟩ :=
        upload_step D.upstream (hstanding.placed i) (hstanding.traced.locked i) hpast
      · obtain ⟨u, hu, halone', rfl, rfl, hyields', honward⟩ :=
          follows_step hstanding hpast hgoes hstep
        exact ⟨u, hu.run, ⟨hfollows.trans hu, halone.trans halone',
          hyields.trans hu.permits hyields' hfollows.permits, honward.inside hin⟩, hless⟩
      · rw [hlocking] at hin
        cases hin
    · exact absurd hended hnot
  obtain ⟨t, _, ⟨hfollows, halone, hyields, _⟩, hended⟩ := hends
  exact ⟨t, hfollows, halone, hyields, hended⟩

/-- Whoever has the mutex that an upload waits for gives it back. -/
theorem unblocked (h : Standing D s) (hblocked : Blocked s.state.xorbLocks i (s.xorbUploads i)) :
    ∃ t, Follows D s t ∧ t.xorbUploads i = s.xorbUploads i ∧
      t.state.xorbLocks.phase i = s.state.xorbLocks.phase i ∧
      ¬Blocked t.state.xorbLocks i (t.xorbUploads i) := by
  obtain ⟨up, m, hstage, hphase, hlocked⟩ := hblocked
  obtain ⟨j, hj⟩ := reachable_occupied h.traced.locks m hlocked
  have hne : i ≠ j := by
    rintro rfl
    simp [hphase, MutualExclusion.inner] at hj
  have hin : inside (s.xorbUploads j).stage = true := by
    cases hs : (s.xorbUploads j).stage with
    | locking up' =>
      obtain ⟨m', hm'⟩ := (h.traced.locked j).waiting hs
      simp [hm', MutualExclusion.inner] at hj
    | checking | writing | inserting | unwinding => rfl
    | _ =>
      rw [(h.placed j).outside (by simp [hs, outside])] at hj
      cases hj
  obtain ⟨t, hfollows, halone, _, hended⟩ := inside_ends h hin
  have hsame := halone.uploads i hne
  have hphase' := halone.phases i hne
  refine ⟨t, hfollows, hsame, hphase', ?_⟩
  rintro ⟨up', m', _, hwaiting, hlocked'⟩
  rw [hphase', hphase, hsame] at hwaiting
  cases hwaiting
  obtain ⟨k, hk⟩ := reachable_occupied hfollows.standing.traced.locks _ hlocked'
  have hkj : k ≠ j := by
    rintro rfl
    rw [(hfollows.standing.placed k).outside (by simp [hended, outside])] at hk
    cases hk
  rw [halone.phases k hkj] at hk
  exact hkj ((reachable_guarded h.traced.locks).sole k j m hk hj)

/-- With its permit an upload comes to its end, whatever it waits for. -/
theorem upload_ends (h : Standing D s) (hpast : past (s.xorbUploads i).stage = true) :
    ∃ t, Follows D s t ∧ Yields i s t ∧ (t.xorbUploads i).stage = .ended := by
  have hends : ∃ t, (machine D).Run Proceeds s t ∧ (Follows D s t ∧ Yields i s t ∧
      (past (t.xorbUploads i).stage = true ∨ (t.xorbUploads i).stage = .ended)) ∧
      (t.xorbUploads i).stage = .ended := by
    refine Machine.Run.arrives (fun t => left t.state.xorbLocks i (t.xorbUploads i)) ?_
      ⟨.refl h, .refl i s, .inl hpast⟩
    intro t hi hnot
    obtain ⟨hfollows, hyields, hpast | hended⟩ := hi
    · have hfree : ∃ u, Follows D t u ∧ u.xorbUploads i = t.xorbUploads i ∧
          u.state.xorbLocks.phase i = t.state.xorbLocks.phase i ∧
          ¬Blocked u.state.xorbLocks i (u.xorbUploads i) := by
        by_cases hblocked : Blocked t.state.xorbLocks i (t.xorbUploads i)
        · exact unblocked hfollows.standing hblocked
        · exact ⟨t, .refl hfollows.standing, rfl, rfl, hblocked⟩
      obtain ⟨u, hu, hsame, hphase, hunblocked⟩ := hfree
      have hpast' : past (u.xorbUploads i).stage = true := by
        rw [hsame]
        exact hpast
      obtain ⟨act, g, v, hgoes, hstep, hless⟩ | hblocked :=
        upload_step D.upstream (hu.standing.placed i) (hu.standing.traced.locked i) hpast'
      · obtain ⟨w, hw, _, rfl, rfl, hyields', honward⟩ :=
          follows_step hu.standing hpast' hgoes hstep
        have hkept : Yields i t u :=
          ⟨fun hpermit => .inl (by rw [hsame]; exact hpermit), by rw [hsame]; exact id⟩
        have hleft : left u.state.xorbLocks i (u.xorbUploads i) =
            left t.state.xorbLocks i (t.xorbUploads i) := by
          simp only [left, hsame, hphase]
        rw [hleft] at hless
        exact ⟨w, (hu.trans hw).run, ⟨hfollows.trans (hu.trans hw),
          hyields.trans (hu.trans hw).permits (hkept.trans hw.permits hyields' hu.permits)
            hfollows.permits, honward.past⟩, hless⟩
      · exact absurd hblocked hunblocked
    · exact absurd hended hnot
  obtain ⟨t, _, ⟨hfollows, hyields, _⟩, hended⟩ := hends
  exact ⟨t, hfollows, hyields, hended⟩

/-- A permit becomes free: whoever has one comes to its end. -/
theorem permit_returns (h : Standing D s) (hpositive : 0 < D.uploadConcurrency)
    (hwaits : past (s.xorbUploads i).stage = false) : ∃ t, Follows D s t ∧
      t.xorbUploads i = s.xorbUploads i ∧ 0 < t.state.uploadPermits := by
  by_cases hfree : 0 < s.state.uploadPermits
  · exact ⟨s, .refl h, rfl, hfree⟩
  have hrationed := h.rationed
  rw [show s.state.uploadPermits = 0 by omega] at hrationed
  obtain ⟨j, hj⟩ := hrationed.holder hpositive
  have hpast : past (s.xorbUploads j).stage = true := by
    cases hs : (s.xorbUploads j).stage with
    | idle | acquiring =>
      rw [((h.permitted j).early (by simp [hs, beforePermit])).1] at hj
      cases hj
    | ended =>
      rw [(h.permitted j).ended hs] at hj
      cases hj
    | _ => rfl
  obtain ⟨t, hfollows, hyields, hended⟩ := upload_ends h hpast
  refine ⟨t, hfollows, hfollows.still i hwaits, ?_⟩
  rcases hyields.gives hj with hkept | hmore
  · rw [(hfollows.standing.permitted j).ended hended] at hkept
    cases hkept
  · omega

/-- The upload machinery never locks up: from every state, however many
handlers were dropped and tasks have failed, each upload that has begun can come
to its end, with an answer unless its client is gone. -/
theorem uploads_never_lock_up (hpositive : 0 < D.uploadConcurrency)
    (h : (machine D).Reachable Machine.anyStep s) (hbegun : (s.xorbUploads i).stage ≠ .idle) :
    ∃ t, (machine D).Run Proceeds s t ∧ (t.xorbUploads i).stage = .ended ∧
      ((s.xorbUploads i).stage.live = true → (t.xorbUploads i).answer.isSome = true) := by
  have hstanding := reachable_standing h
  have hfinal : ∀ {t}, Standing D t → (t.xorbUploads i).stage = .ended →
      (t.xorbUploads i).stage.live = true ∨ (t.xorbUploads i).answer.isSome = true →
      (t.xorbUploads i).answer.isSome = true := by
    intro t _ hended hor
    rcases hor with hlive | hanswer
    · rw [hended] at hlive
      cases hlive
    · exact hanswer
  cases hstage : (s.xorbUploads i).stage with
  | idle => exact absurd hstage hbegun
  | ended => exact ⟨s, .refl, hstage, fun hlive => by cases hlive⟩
  | acquiring body expected =>
    obtain ⟨t, hfollows, hsame, hfree⟩ :=
      permit_returns hstanding hpositive (i := i) (by simp [hstage, past])
    let g : AppState := { t.state with uploadPermits := t.state.uploadPermits - 1 }
    let v : XorbUpload := { t.xorbUploads i with stage := .reading body expected, permit := true }
    have hstep : xorbStep D.upstream i t.state (t.xorbUploads i) .permit = some (g, v) := by
      simp only [xorbStep, hsame, hstage, if_neg hfree.ne', g, v]
    have hs : Server.step D t (.xorb i .permit) = some { t with
        state := g, xorbUploads := Function.update t.xorbUploads i v } := by
      rw [Server.step, hstep]
      rfl
    obtain ⟨u, hu, hyields, hended⟩ := upload_ends (i := i) (hfollows.standing.step hs)
      (by simp [v, past])
    have hgoes : Proceeds t (.xorb i .permit) := rfl
    refine ⟨u, (hfollows.run.tail _ hgoes hs).trans hu.run, hended, fun _ => ?_⟩
    exact hfinal hu.standing hended (hyields.answered (.inl (by simp [v, XorbStage.live])))
  | _ =>
    obtain ⟨t, hfollows, hyields, hended⟩ := upload_ends (i := i) hstanding (by simp [hstage, past])
    refine ⟨t, hfollows.run, hended, fun hlive => ?_⟩
    exact hfinal hfollows.standing hended (hyields.answered (.inl (by rw [hstage]; exact hlive)))

/-- The second upload of the letter waits for the first. -/
theorem second_upload_ends : ∃ s t, (machine sampleServer).Reachable Machine.anyStep s ∧
    critical (s.xorbUploads 0).stage = true ∧ (s.xorbUploads 1).stage.live = true ∧
    (machine sampleServer).step s (.xorb 1 .locked) = none ∧
    (machine sampleServer).Run Proceeds s t ∧ (t.xorbUploads 1).stage = .ended ∧
      ((s.xorbUploads 1).stage.live = true → (t.xorbUploads 1).answer.isSome = true) := by
  obtain ⟨s, hrun, hend⟩ := Machine.exec_reaches (machine sampleServer) Machine.anyStep
    (fun _ _ => true)
    (fun s => critical (s.xorbUploads 0).stage && (s.xorbUploads 1).stage.live &&
      ((machine sampleServer).step s (.xorb 1 .locked)).isNone)
    (fun _ _ _ => trivial) (boot sampleServer .fresh (fun _ => none))
    (sendLetter 0 Formats.plainBody ++ checkLetter 0 ++ sendLetter 1 Formats.packedBody ++
      [.xorb 1 (.verified 2)]) (by decide +kernel)
  rw [Bool.and_eq_true, Bool.and_eq_true] at hend
  obtain ⟨⟨hcritical, hlive⟩, hwaits⟩ := hend
  have hreach : (machine sampleServer).Reachable Machine.anyStep s := ⟨_, rfl, hrun⟩
  have hbegun : (s.xorbUploads 1).stage ≠ .idle := by
    intro hidle
    rw [hidle] at hlive
    cases hlive
  obtain ⟨t, hends⟩ := uploads_never_lock_up (by decide) hreach hbegun
  exact ⟨s, t, hreach, hcritical, hlive, Option.isNone_iff_eq_none.mp hwaits, hends⟩

end Xetcas.Proofs.UploadProgress
