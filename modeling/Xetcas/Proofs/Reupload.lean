import Xetcas.Proofs.Frozen

namespace Xetcas.Proofs.Reupload
open Lib Server Routes Routes.Xorbs Provenance Agreement Frozen
variable {U : Upstream} {D : Deployment} {s s' t : Server} {hash : String}

/-- A body that `upload` reads, verifies and accepts. -/
structure Readable (U : Upstream) (body : Bytes) (expected : MerkleHash) : Prop where
  full : body.isEmpty = false
  fits : body.length ≤ MAX_UPLOAD_BYTES
  good : ∃ now up, prepare U body expected now = .ok up

/-- The clock is not among what a body is checked for. -/
theorem prepare_now {body : Bytes} {expected : MerkleHash} {now : UInt64} {up : Upload}
    (h : prepare U body expected now = .ok up) (now' : UInt64) :
    ∃ up', prepare U body expected now' = .ok up' := by
  obtain ⟨⟨stored, record⟩, hverify, h⟩ := bind_eq_ok.mp h
  obtain ⟨hvalid, h⟩ := check_eq_ok.mp h
  obtain ⟨dedup, hdedup, _⟩ := bind_eq_ok.mp h
  have hverify' : verifyXorb U body expected now' =
      .ok (stored, { record with createdAt := now' }) := by
    unfold verifyXorb at hverify ⊢
    obtain ⟨hframes, hverify⟩ := guard_eq_ok.mp hverify
    obtain ⟨parsed, hparsed, hverify⟩ := bind_eq_ok.mp hverify
    obtain ⟨hcomputed, hverify⟩ := guard_eq_ok.mp hverify
    obtain ⟨hnone, hverify⟩ := guard_eq_ok.mp hverify
    obtain ⟨hmany, hverify⟩ := guard_eq_ok.mp hverify
    obtain ⟨hlong, hverify⟩ := guard_eq_ok.mp hverify
    cases hverify
    refine guard_eq_ok.mpr ⟨hframes, bind_eq_ok.mpr ⟨parsed, hparsed, ?_⟩⟩
    exact guard_eq_ok.mpr ⟨hcomputed, guard_eq_ok.mpr ⟨hnone, guard_eq_ok.mpr ⟨hmany,
      guard_eq_ok.mpr ⟨hlong, rfl⟩⟩⟩⟩
  exact ⟨_, bind_eq_ok.mpr ⟨_, hverify', check_eq_ok.mpr ⟨hvalid,
    bind_eq_ok.mpr ⟨dedup, hdedup, rfl⟩⟩⟩⟩

/-- A request that sends a valid body for `hash`. -/
structure Sends (U : Upstream) (config : Config) (hash : String) (authorization : Option String)
    (key : UploadXorbKey) (body : Bytes) : Prop where
  addressed : key.hash = hash
  readable : ∃ expected, admitUpload U config authorization key = .ok expected ∧
    Readable U body expected

/-- Where an upload can be, with what in hand, when there is a row for its
hash: on its way to the check, or past it with nothing inserted. -/
def Again (U : Upstream) (hash : String) (u : XorbUpload) : Prop :=
  match u.stage with
  | .idle => u.task = .none ∧ u.answer = none
  | .acquiring body expected => u.hash = hash ∧ u.task = .none ∧ u.answer = none ∧
    Readable U body expected
  | .reading body expected => u.hash = hash ∧ u.task = .none ∧ u.answer = none ∧
    Readable U body expected
  | .verifying => u.hash = hash ∧ u.answer = none ∧
    ∃ body expected, u.task = .verify body expected ∧ Readable U body expected
  | .locking _ => u.hash = hash ∧ u.task = .none ∧ u.answer = none
  | .checking _ => u.hash = hash ∧ u.task = .none ∧ u.answer = none
  | .writing _ _ _ => False
  | .inserting => False
  | .unwinding _ => u.task = .none ∧ u.answer = some (.ok ⟨false⟩)
  | .ended => u.task = .none ∧ u.answer = some (.ok ⟨false⟩)

section Upload
variable {i : Nat} {g g' : AppState} {u u' : XorbUpload} {act : XorbAct}

theorem Again.task (h : Again U hash u) : u.task = .none ∨ u.stage = .verifying ∧
    u.hash = hash ∧ u.answer = none ∧
    ∃ body expected, u.task = .verify body expected ∧ Readable U body expected := by
  unfold Again at h
  split at h
  · exact .inl h.1
  · exact .inl h.2.1
  · exact .inl h.2.1
  · rename_i stage
    exact .inr ⟨stage, h⟩
  · exact .inl h.2.1
  · exact .inl h.2.1
  · exact h.elim
  · exact h.elim
  · exact .inl h.1
  · exact .inl h.1

theorem Again.answer (h : Again U hash u) {answer : AppResult UploadXorbResponse}
    (hanswer : u.answer = some answer) : answer = .ok ⟨false⟩ := by
  have hnone : u.answer = none ∨ u.answer = some (.ok ⟨false⟩) := by
    unfold Again at h
    split at h
    · exact .inl h.2
    · exact .inl h.2.2.1
    · exact .inl h.2.2.1
    · exact .inl h.2.1
    · exact .inl h.2.2
    · exact .inl h.2.2
    · exact h.elim
    · exact h.elim
    · exact .inr h.2
    · exact .inr h.2
  rcases hnone with hnone | hfalse
  · rw [hnone] at hanswer
    cases hanswer
  · rw [hfalse] at hanswer
    cases hanswer
    rfl

/-- A handler's step that runs into no failure and sends, if anything, a valid
body for `hash`. -/
structure Smooth (U : Upstream) (config : Config) (hash : String) (act : XorbAct) : Prop where
  stays : act ≠ .drop
  reads : ∀ message, act ≠ .failRead message
  tasks : ∀ message, act ≠ .failTask message
  sends : ∀ authorization key body, act = .request authorization key body →
    Sends U config hash authorization key body

/-- A step that changes neither the index nor an object. -/
def Untouched (g g' : AppState) : Prop := g'.index = g.index ∧ g'.objects = g.objects

theorem Again.ended (h : Again U hash u) (hended : u.stage = .ended) :
    u.answer = some (.ok ⟨false⟩) := by
  rw [Again, hended] at h
  exact h.2

section Steps
variable {authorization : Option String} {key : UploadXorbKey} {body : Bytes} {now : UInt64}

theorem request_again (hu : Again U hash u)
    (hact : Smooth U g.config hash (.request authorization key body))
    (h : xorbStep U i g u (.request authorization key body) = some (g', u')) : Again U hash u' ∧ Untouched g g' := by
  obtain ⟨haddressed, expected, hkey, hreadable⟩ := hact.sends _ _ _ rfl
  simp only [xorbStep] at h
  split at h
  · rename_i stage
    simp only [hkey] at h
    cases h
    simp only [Again, stage] at hu
    exact ⟨⟨haddressed, hu.1, hu.2, hreadable⟩, rfl, rfl⟩
  · cases h

theorem permit_again (hu : Again U hash u)
    (h : xorbStep U i g u .permit = some (g', u')) : Again U hash u' ∧ Untouched g g' := by
  simp only [xorbStep] at h
  split at h
  · rename_i stage
    simp only [Again, stage] at hu
    split at h
    · cases h
    · cases h
      exact ⟨hu, rfl, rfl⟩
  · cases h

theorem read_again (hu : Again U hash u)
    (h : xorbStep U i g u .read = some (g', u')) : Again U hash u' ∧ Untouched g g' := by
  simp only [xorbStep] at h
  split at h
  · rename_i stage
    simp only [Again, stage] at hu
    obtain ⟨hhash, _, hanswer, hreadable⟩ := hu
    split at h
    · cases h
    · rw [hreadable.full, if_neg Bool.false_ne_true] at h
      cases h
      exact ⟨⟨hhash, hanswer, _, _, rfl, hreadable⟩, rfl, rfl⟩
  · cases h

/-- The same body is prepared, with another time stamp. -/
theorem verified_again (hu : Again U hash u)
    (h : xorbStep U i g u (.verified now) = some (g', u')) : Again U hash u' ∧ Untouched g g' := by
  rcases hu.task with hnone | ⟨stage, hhash, hanswer, body, expected, htask, hreadable⟩
  · simp [xorbStep, hnone] at h
  · obtain ⟨_, _, hgood⟩ := hreadable.good
    obtain ⟨up, hup⟩ := prepare_now hgood now
    simp only [xorbStep, htask, afterVerify, stage, hup] at h
    obtain ⟨locks, _, he⟩ := Option.map_eq_some_iff.mp h
    cases he
    exact ⟨⟨hhash, rfl, hanswer⟩, rfl, rfl⟩

theorem locked_again (hu : Again U hash u)
    (h : xorbStep U i g u .locked = some (g', u')) : Again U hash u' ∧ Untouched g g' := by
  simp only [xorbStep] at h
  split at h
  · rename_i stage
    simp only [Again, stage] at hu
    obtain ⟨locks, _, he⟩ := Option.map_eq_some_iff.mp h
    cases he
    exact ⟨hu, rfl, rfl⟩
  · cases h

/-- The check finds the row. -/
theorem checked_again (hrow : (g.index.getXorb hash).isSome = true) (hu : Again U hash u)
    (h : xorbStep U i g u .checked = some (g', u')) : Again U hash u' ∧ Untouched g g' := by
  simp only [xorbStep] at h
  split at h
  · rename_i stage
    simp only [Again, stage] at hu
    obtain ⟨hhash, htask, _⟩ := hu
    rw [hhash, if_pos hrow] at h
    cases h
    exact ⟨⟨htask, rfl⟩, rfl, rfl⟩
  · cases h

/-- It never gets to a task that writes. -/
theorem Again.writes_nothing (hu : Again U hash u)
    (hact : act = .renamed ∨ act = .written ∨ act = .inserted) :
    xorbStep U i g u act = none := by
  rcases hu.task with hnone | ⟨_, _, _, _, _, htask, _⟩
  · rcases hact with rfl | rfl | rfl <;> simp [xorbStep, hnone]
  · rcases hact with rfl | rfl | rfl <;> simp [xorbStep, htask]

theorem unlock_again (hu : Again U hash u)
    (h : xorbStep U i g u .unlock = some (g', u')) : Again U hash u' ∧ Untouched g g' := by
  simp only [xorbStep] at h
  split at h
  · obtain ⟨locks, _, he⟩ := Option.map_eq_some_iff.mp h
    cases he
    exact ⟨hu, rfl, rfl⟩
  · cases h

theorem release_again (hu : Again U hash u)
    (h : xorbStep U i g u .release = some (g', u')) : Again U hash u' ∧ Untouched g g' := by
  simp only [xorbStep] at h
  split at h
  · rename_i stage
    simp only [Again, stage] at hu
    split at h
    · cases h
      exact ⟨hu, rfl, rfl⟩
    · cases h
  · cases h

end Steps

/-- With a row for its hash, an upload goes on to answer that it inserted
nothing. -/
theorem step_again (hrow : (g.index.getXorb hash).isSome = true) (hu : Again U hash u)
    (hact : Smooth U g.config hash act) (h : xorbStep U i g u act = some (g', u')) :
    Again U hash u' ∧ Untouched g g' := by
  have hwrites : ∀ {act}, act = .renamed ∨ act = .written ∨ act = .inserted →
      xorbStep U i g u act ≠ some (g', u') := by
    intro act hact
    rw [hu.writes_nothing hact]
    simp
  cases act with
  | request authorization key body => exact request_again hu hact h
  | permit => exact permit_again hu h
  | read => exact read_again hu h
  | verified now => exact verified_again hu h
  | locked => exact locked_again hu h
  | checked => exact checked_again hrow hu h
  | renamed => exact absurd h (hwrites (.inl rfl))
  | written => exact absurd h (hwrites (.inr (.inl rfl)))
  | inserted => exact absurd h (hwrites (.inr (.inr rfl)))
  | failRead message => exact absurd rfl (hact.reads message)
  | failTask message => exact absurd rfl (hact.tasks message)
  | drop => exact absurd rfl hact.stays
  | unlock => exact unlock_again hu h
  | release => exact release_again hu h

end Upload

/-- Every step of upload `i` runs into no failure, and its request sends a valid
body for `hash`. -/
def Resends (D : Deployment) (hash : String) (i : Nat) (s : Server) (a : Server.Act) : Prop :=
  isDrop a = false ∧ ∀ act, a = .xorb i act → Smooth D.upstream s.state.config hash act

/-- Upload `i` changes neither the index nor an object with this step. -/
def LeavesStored (D : Deployment) (i : Nat) (s : Server) (a : Server.Act) : Prop :=
  ∀ act s', a = .xorb i act → Server.step D s a = some s' → Untouched s.state s'.state

theorem step_resent {i : Nat} {a : Server.Act}
    (hrow : (s.state.index.getXorb hash).isSome = true)
    (hu : Again D.upstream hash (s.xorbUploads i)) (ha : Resends D hash i s a)
    (hstep : Server.step D s a = some s') :
    Again D.upstream hash (s'.xorbUploads i) ∧ LeavesStored D i s a := by
  cases step_moves hstep with
  | @xorb j act g u turn =>
    rcases eq_or_ne j i with rfl | hj
    · obtain ⟨hagain, huntouched⟩ := step_again hrow hu (ha.2 act rfl) turn
      refine ⟨by simpa using hagain, ?_⟩
      intro act' s'' _ hs''
      cases Option.some.inj (hs''.symm.trans hstep)
      exact huntouched
    · refine ⟨by simpa [Ne.symm hj] using hu, ?_⟩
      intro act' s'' he _
      cases he
      exact absurd rfl hj
  | shard turn => exact ⟨hu, fun act' s'' he _ => nomatch he⟩
  | crash => exact ⟨⟨rfl, rfl⟩, fun act' s'' he _ => nomatch he⟩

/-- What comes of sending a stored xorb again: no step of the upload changes
the index or an object, and if it returns it has inserted nothing. -/
structure Resent (D : Deployment) (hash : String) (i : Nat) (s t : Server) : Prop where
  leaves : (machine D).Run (fun s a => Resends D hash i s a ∧ LeavesStored D i s a) s t
  answers : ∀ answer, (t.xorbUploads i).answer = some answer → answer = .ok ⟨false⟩
  ends : (t.xorbUploads i).stage = .ended → (t.xorbUploads i).answer = some (.ok ⟨false⟩)

/-- Every later upload of a hash that has a row, whatever its layout, is
answered `false` and changes nothing. -/
theorem resent_unchanged {i : Nat} (hrow : (s.state.index.getXorb hash).isSome = true)
    (hstart : s.xorbUploads i = .none) (hrun : (machine D).Run (Resends D hash i) s t) :
    Resent D hash i s t := by
  have hboth : (machine D).Run (fun s a => Resends D hash i s a ∧ LeavesStored D i s a) s t ∧
      (t.state.index.getXorb hash).isSome = true ∧ Again D.upstream hash (t.xorbUploads i) := by
    refine hrun.records (I := fun s => (s.state.index.getXorb hash).isSome = true ∧
      Again D.upstream hash (s.xorbUploads i)) ⟨hrow, ?_⟩ ?_
    · rw [hstart]
      exact ⟨rfl, rfl⟩
    · intro s a t hi ha hstep
      obtain ⟨hagain, hleaves⟩ := step_resent hi.1 hi.2 ha hstep
      obtain ⟨record, hrecord⟩ := Option.isSome_iff_exists.mp hi.1
      exact ⟨⟨ha, hleaves⟩, Option.isSome_iff_exists.mpr
        ⟨record, (step_grows hstep).xorbs _ _ hrecord⟩, hagain⟩
  exact ⟨hboth.1, fun answer hanswer => hboth.2.2.answer hanswer, hboth.2.2.ended⟩

/-- At this step an upload for `hash` is answered that it inserted the xorb. -/
def Inserts (hash : String) (s : Server) (a : Server.Act) (s' : Server) : Prop :=
  ∃ i act, a = .xorb i act ∧ (s'.xorbUploads i).hash = hash ∧
    (s.xorbUploads i).answer ≠ some (.ok ⟨true⟩) ∧ (s'.xorbUploads i).answer = some (.ok ⟨true⟩)

/-- The answer `true` is given where a row comes to be. -/
theorem inserts_row (hhex : D.upstream.HexRoundTrip) {ok : Server → Server.Act → Prop}
    (h : (machine D).Reachable ok s) {a : Server.Act} (hstep : Server.step D s a = some s')
    (hins : Inserts hash s a s') :
    s.state.index.getXorb hash = none ∧ (s'.state.index.getXorb hash).isSome = true := by
  obtain ⟨i, act, rfl, hhash, hbefore, hafter⟩ := hins
  have htask := ((reachable_traced h).sourced i).task
  cases step_moves hstep with
  | @xorb _ _ g u turn =>
    simp only [Function.update_self] at hhash hafter
    cases xorbStep_moves turn with
    | @inserted record dedup disk task stage =>
      rw [task] at htask
      obtain ⟨up, hup, rfl, _⟩ := htask
      have hown := (prepared_hash hhex hup).trans hhash
      simp only [XorbUpload.return_, Option.some.injEq, Except.ok.injEq,
        UploadXorbResponse.mk.injEq] at hafter
      unfold Index.putXorb at hafter ⊢
      split at hafter
      · rename_i hfree
        rw [← hown]
        refine ⟨hfree, ?_⟩
        simp [Index.getXorb, hfree, Table.get?_insertOrIgnore]
      · cases hafter
    | returned live freed holds exists_ =>
      simp only [XorbUpload.return_, Option.some.injEq] at hafter
      have hfalse := (exists_ ⟨true⟩ hafter).1
      cases hfalse
    | refused idle no => cases hafter
    | _ => exact absurd hafter hbefore

/-- Of all uploads of a hash, whatever their order, at most one is answered that
it inserted the xorb. -/
theorem inserts_once (hhex : D.upstream.HexRoundTrip) {ok : Server → Server.Act → Prop}
    (h : (machine D).Reachable ok s) {a : Server.Act} (hstep : Server.step D s a = some s')
    (hok : ok s a) (hins : Inserts hash s a s') (hrun : (machine D).Run ok s' t)
    {b : Server.Act} {t' : Server} (hstep' : Server.step D t b = some t') :
    ¬Inserts hash t b t' := by
  intro hagain
  obtain ⟨record, hrecord⟩ := Option.isSome_iff_exists.mp (inserts_row hhex h hstep hins).2
  have hkept := (run_grows hrun).xorbs _ _ hrecord
  have hreach := (h.next a hok hstep).extend hrun
  rw [show t.state.index.xorbs.get? hash = _ from
    (inserts_row hhex hreach hstep' hagain).1] at hkept
  cases hkept

end Xetcas.Proofs.Reupload
