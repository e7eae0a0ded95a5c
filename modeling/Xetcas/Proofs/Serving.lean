import Xetcas.Proofs.Delivery
import Xetcas.Proofs.HangUps

namespace Xetcas.Proofs.Serving
open Lib Routes Routes.Lfs Service Registration Content Frozen Verified Identity Delivery DecodeTasks
open HangUps
variable {D : Deployment} {U : Upstream} {g : AppState} {permits permits' : Nat}
  {d d' : LfsDownload} {act : DownloadAct} {s t u : Service} {i j : Nat} {oid : String}

/-- Downloads go on, and their clients read. -/
def reads : DownloadAct → Bool
  | .drop | .failRead _ => false
  | _ => true

/-- The steps of downloads whose clients read. -/
def Reads (_ : Service) : Service.Act → Prop
  | .download _ act => reads act = true
  | .server _ => False

theorem Reads.noFault {s : Service} {a : Service.Act} (h : Reads s a) : NoFault s a := by
  cases a with
  | server act => exact h.elim
  | download i act =>
    refine ⟨trivial, ?_⟩
    intro j message he
    cases he
    cases h

theorem noFault_of_reads {s : Service} (h : reads act = true) : NoFault s (.download i act) :=
  Reads.noFault (s := s) (a := .download i act) h

theorem taskAct_reads (h : taskAct act = true) : reads act = true := by
  cases act with
  | drop | failRead => cases h
  | _ => rfl

/-- What is left to be done until the task is over and the queue is empty. -/
def effort (d : LfsDownload) : Nat := 2 * work d.task + d.body.queue.length

/-- A step of the task puts one item into the queue at most. -/
theorem moves_queue (h : DownloadMoves U g permits d act permits' d') (hact : taskAct act = true) :
    d'.body.queue.length ≤ d.body.queue.length + 1 := by
  cases h with
  | sent task here queue sender receiver => simp [queue]
  | failed task here queue receiver => simp [LfsDownload.endTask, queue]
  | failedGone task gone => simp [LfsDownload.endTask]
  | finished task => simp [LfsDownload.endTask]
  | missing | opened | undecodable | decoded | unsent | turned => simp
  | _ => cases hact

theorem moves_effort (h : DownloadMoves U g permits d act permits' d')
    (hact : taskAct act = true ∨ act = .received ∧ d.body.queue ≠ []) : effort d' < effort d := by
  unfold effort
  rcases hact with hact | ⟨rfl, hqueue⟩
  · have hpermit : act ≠ .permit := by
      rintro rfl
      cases hact
    have hwork := moves_work h hpermit
    have hgrown := moves_queue h hact
    rw [hact, Bool.toNat_true] at hwork
    omega
  · cases h with
    | received stage queue sender receiver => simp [queue]
    | broke stage queue sender => simp [LfsDownload.finish, queue]
    | completed stage queue sender => exact absurd queue hqueue

/-- A full queue has a client that can take from it. -/
theorem receive_isSome (U : Upstream) (g : AppState) (permits : Nat) (hstage : d.stage = .streaming)
    (hqueue : d.body.queue ≠ [] ∨ d.body.senderGone = true) :
    (downloadStep U g permits d .received).isSome = true := by
  cases hreceive : d.body.receive with
  | none =>
    obtain ⟨hempty, hsender⟩ := Channel.receive_waits hreceive
    rcases hqueue with hfull | hgone
    · exact absurd hempty hfull
    · rw [hsender] at hgone
      cases hgone
  | some r =>
    obtain ⟨body, got⟩ := r
    cases got with
    | none => simp [downloadStep, hstage, hreceive]
    | some item => cases item <;> simp [downloadStep, hstage, hreceive]

/-- As long as the task runs there is a step that leaves less to be done. -/
theorem effort_step (U : Upstream) (g : AppState) (permits : Nat) (ht : Tidy d)
    (htask : d.task ≠ none) : ∃ act permits' d', reads act = true ∧
      downloadStep U g permits d act = some (permits', d') ∧ effort d' < effort d := by
  have hany : ∃ act, (taskAct act = true ∨ act = .received ∧ d.body.queue ≠ []) ∧
      (downloadStep U g permits d act).isSome = true := by
    rcases task_goes_on U g permits htask with ⟨act, hact, hsome⟩ | ⟨hhere, hfull⟩
    · exact ⟨act, .inl hact, hsome⟩
    · have hqueue : d.body.queue ≠ [] := by
        intro hempty
        simp [hempty] at hfull
      have hstage : d.stage = .streaming := by
        cases hstage : d.stage with
        | streaming => rfl
        | ended outcome =>
          rw [ht.concluded (by simp [hstage, concluded]) htask] at hhere
          cases hhere
        | _ => exact absurd (ht.early (by simp [hstage, early])) htask
      exact ⟨.received, .inr ⟨rfl, hqueue⟩, receive_isSome U g permits hstage (.inl hqueue)⟩
  obtain ⟨act, hact, hsome⟩ := hany
  obtain ⟨⟨permits', d'⟩, hstep⟩ := Option.isSome_iff_exists.mp hsome
  refine ⟨act, permits', d', ?_, hstep, moves_effort (downloadStep_moves hstep) hact⟩
  rcases hact with hact | ⟨rfl, _⟩
  · exact taskAct_reads hact
  · rfl

/-- A step of one download, as a step of the service. -/
theorem step_download {d : LfsDownload}
    (h : downloadStep D.upstream s.server.state s.downloadPermits (s.downloads i) act =
      some (permits, d)) :
    (machine D).step s (.download i act) = some
      { s with downloadPermits := permits, downloads := Function.update s.downloads i d } := by
  change Service.step D s (.download i act) = _
  rw [Service.step, h]
  rfl

/-- A permit becomes free: where there is none, a decode task runs and its
client, if there is one, reads. -/
theorem permit_frees (h : (machine D).Reachable NoFault s)
    (hidle : (s.downloads i).stage = .idle) : ∃ t, (machine D).Run Reads s t ∧
      t.server = s.server ∧ t.downloads i = s.downloads i ∧ 0 < t.downloadPermits := by
  by_cases hfree : 0 < s.downloadPermits
  · exact ⟨s, .refl, rfl, rfl, hfree⟩
  have hnone : s.downloadPermits = 0 := by omega
  have haccounted := decoders_accounted h.free
  rw [Accounted, hnone] at haccounted
  obtain ⟨j, htask⟩ := haccounted.holder (by decide)
  have hne : i ≠ j := by
    rintro rfl
    exact htask ((reachable_tidy h.free i).early (by simp [hidle, early]))
  have hfinishes : ∃ t, (machine D).Run Reads s t ∧ ((machine D).Reachable NoFault t ∧
      t.server = s.server ∧ t.downloads i = s.downloads i ∧
      ((t.downloads j).task ≠ none ∨ 0 < t.downloadPermits)) ∧ 0 < t.downloadPermits := by
    refine Machine.Run.finishes (fun t => effort (t.downloads j)) ?_ ⟨h, rfl, rfl, .inl htask⟩
    intro t hi hgoal
    obtain ⟨hreach, hserver, hsame, htask | hpos⟩ := hi
    · obtain ⟨act, permits, d, hreads, hstep, hless⟩ := effort_step D.upstream t.server.state
        t.downloadPermits (reachable_tidy hreach.free j) htask
      have hnext := step_download hstep
      refine ⟨.download j act, _, hreads, hnext, ⟨hreach.next _ (noFault_of_reads hreads) hnext,
        hserver, by simpa [hne] using hsame, ?_⟩, by simpa using hless⟩
      cases moves_permits (downloadStep_moves hstep) (reachable_tidy hreach.free j) with
      | take before after free => exact absurd before htask
      | give before after free => exact .inr (by simp [free])
      | same task free => exact .inl (by simpa [task] using htask)
    · exact absurd hpos hgoal
  obtain ⟨t, hrun, ⟨_, hserver, hsame, _⟩, hgoal⟩ := hfinishes
  exact ⟨t, hrun, hserver, hsame, hgoal⟩

/-- A request for a registered oid is answered as soon as there is a permit. -/
theorem request_answered (hoffsets : D.upstream.CumulativeOffsets)
    (hs : Sound D.upstream s.server.state) {file : FileRecord}
    (hfound : s.server.state.index.fileBySha256 oid = some file)
    (hidle : (s.downloads i).stage = .idle) (hfree : 0 < s.downloadPermits) :
    ∃ t, (machine D).Run Reads s t ∧ t.server = s.server ∧
      (t.downloads i).stage = .streaming ∧
      (t.downloads i).head = some (oid, file.fileLength) := by
  obtain ⟨hoid, hfile, _⟩ := oid_named hs.rows hs.verified hfound
  obtain ⟨segments, hplan⟩ := planSegments_stored hoffsets hs.rows hs.described hfile
  obtain ⟨left, hleft⟩ := Nat.exists_eq_succ_of_ne_zero hfree.ne'
  have hvalid : checkRequest (validateLfsObjectSpec ⟨oid, 0⟩) = .ok () := by
    have : validateLfsObjectSpec ⟨oid, 0⟩ = .ok () := requireHashHex_ok.mpr hoid
    rw [this]
    rfl
  let d₁ : LfsDownload := { s.downloads i with stage := .looking oid }
  let d₂ : LfsDownload := { s.downloads i with stage := .planning oid file }
  let d₃ : LfsDownload := { s.downloads i with stage := .acquiring oid file segments }
  let d₄ : LfsDownload := { s.downloads i with
    stage := .streaming, head := some (oid, file.fileLength),
    task := some (.between segments), body := .fresh }
  let s₁ := { s with downloads := Function.update s.downloads i d₁ }
  let s₂ := { s with downloads := Function.update s.downloads i d₂ }
  let s₃ := { s with downloads := Function.update s.downloads i d₃ }
  have hasked : (machine D).step s (.download i (.request oid)) = some s₁ :=
    step_download (by simp only [downloadStep, hidle, hvalid]; rfl)
  have hlooked : (machine D).step s₁ (.download i .looked) = some s₂ := by
    have hturn : downloadStep D.upstream s₁.server.state s₁.downloadPermits (s₁.downloads i)
        .looked = some (s.downloadPermits, d₂) := by
      simp [s₁, d₁, d₂, downloadStep, hfound]
    rw [step_download hturn]
    simp [s₁, s₂]
  have hplanned : (machine D).step s₂ (.download i .planned) = some s₃ := by
    have hturn : downloadStep D.upstream s₂.server.state s₂.downloadPermits (s₂.downloads i)
        .planned = some (s.downloadPermits, d₃) := by
      simp [s₂, d₂, d₃, downloadStep, hplan]
    rw [step_download hturn]
    simp [s₂, s₃]
  have hpermit : (machine D).step s₃ (.download i .permit) = some
      { s with downloadPermits := left, downloads := Function.update s.downloads i d₄ } := by
    have hturn : downloadStep D.upstream s₃.server.state s₃.downloadPermits (s₃.downloads i)
        .permit = some (left, d₄) := by
      simp [s₃, d₃, d₄, downloadStep, hleft]
    rw [step_download hturn]
    simp [s₃]
  refine ⟨_, ((((Machine.Run.single _ (by rfl) hasked).tail _ (by rfl) hlooked).tail _ (by rfl)
    hplanned).tail _ (by rfl) hpermit), rfl, ?_, ?_⟩ <;> simp [d₄]

/-- What comes of a step of a download that is answered: there is less to be
done, or it is complete. -/
structure Advances (d d' : LfsDownload) : Prop where
  head : d'.head = d.head
  advances : d'.stage = .streaming ∧ effort d' < effort d ∨
    d'.stage = .ended .complete ∧ effort d' ≤ effort d

theorem task_advances (h : DownloadMoves U g permits d act permits' d') (hact : taskAct act = true)
    (hstage : d.stage = .streaming) : Advances d d' := by
  have hless := moves_effort h (.inl hact)
  cases h with
  | missing | opened | undecodable | decoded | sent | unsent | failed | failedGone | turned
  | finished => exact ⟨rfl, .inl ⟨hstage, hless⟩⟩
  | _ => cases hact

theorem receive_advances {file : FileRecord} (hflows : Flows False U g file d)
    (h : DownloadMoves U g permits d .received permits' d') : Advances d d' := by
  cases h with
  | received stage queue sender receiver =>
    exact ⟨rfl, .inl ⟨stage, by simp [effort, queue]⟩⟩
  | broke stage queue sender =>
    have hcarries := hflows.carries
    rw [queue] at hcarries
    exact hcarries.error_faulty.elim
  | completed stage queue sender =>
    exact ⟨rfl, .inr ⟨rfl, by simp [effort, LfsDownload.finish]⟩⟩

/-- An answered download whose client reads always goes on. -/
theorem streaming_step (permits : Nat) {file : FileRecord} (hflows : Flows False U g file d)
    (hstage : d.stage = .streaming) : ∃ act permits' d', reads act = true ∧
      downloadStep U g permits d act = some (permits', d') ∧ Advances d d' := by
  have hreceive : d.body.queue ≠ [] ∨ d.body.senderGone = true → ∃ act permits' d',
      reads act = true ∧ downloadStep U g permits d act = some (permits', d') ∧ Advances d d' := by
    intro hqueue
    obtain ⟨⟨permits', d'⟩, hstep⟩ :=
      Option.isSome_iff_exists.mp (receive_isSome U g permits hstage hqueue)
    exact ⟨.received, permits', d', rfl, hstep, receive_advances hflows (downloadStep_moves hstep)⟩
  by_cases htask : d.task = none
  · exact hreceive (.inr (by rw [hflows.sender, htask]; rfl))
  · rcases task_goes_on U g permits htask with ⟨act, hact, hsome⟩ | ⟨_, hfull⟩
    · obtain ⟨⟨permits', d'⟩, hstep⟩ := Option.isSome_iff_exists.mp hsome
      exact ⟨act, permits', d', taskAct_reads hact, hstep,
        task_advances (downloadStep_moves hstep) hact hstage⟩
    · refine hreceive (.inl ?_)
      intro hempty
      simp [hempty] at hfull

theorem answer_completes (hdecode : D.upstream.FramesDecode) (hhex : D.upstream.HexRoundTrip)
    (h : (machine D).Reachable NoFault s) {length : UInt64}
    (hstage : (s.downloads i).stage = .streaming)
    (hhead : (s.downloads i).head = some (oid, length)) :
    ∃ t, (machine D).Run Reads s t ∧ (machine D).Reachable NoFault t ∧
      t.server = s.server ∧ (t.downloads i).head = some (oid, length) ∧
      (t.downloads i).stage = .ended .complete := by
  have hfinishes : ∃ t, (machine D).Run Reads s t ∧ ((machine D).Reachable NoFault t ∧
      t.server = s.server ∧ (t.downloads i).head = some (oid, length) ∧
      ((t.downloads i).stage = .streaming ∨ (t.downloads i).stage = .ended .complete)) ∧
      (t.downloads i).stage = .ended .complete := by
    refine Machine.Run.finishes
      (fun t => effort (t.downloads i) + (!concluded (t.downloads i).stage).toNat) ?_
      ⟨h, rfl, hhead, .inl hstage⟩
    intro t hi hgoal
    obtain ⟨hreach, hserver, hhead, hstage | hdone⟩ := hi
    · have hd := reachable_delivers False hdecode hhex hreach i
      obtain ⟨oid', file, hans, hflows⟩ := hd.answered hstage
      obtain ⟨act, permits, d, hreads, hstep, hadvances⟩ :=
        streaming_step t.downloadPermits hflows hstage
      have hnext := step_download hstep
      refine ⟨.download i act, _, hreads, hnext, ⟨hreach.next _ (noFault_of_reads hreads) hnext,
        hserver, by simpa [hadvances.head] using hhead, ?_⟩, ?_⟩
      · rcases hadvances.advances with ⟨hon, _⟩ | ⟨hend, _⟩
        · simp [hon]
        · simp [hend]
      · rcases hadvances.advances with ⟨hon, hless⟩ | ⟨hend, hless⟩
        · simpa [hon, hstage, concluded] using hless
        · simp only [Function.update_self, hend, hstage, concluded]
          simp only [Bool.not_true, Bool.toNat_false, Bool.not_false, Bool.toNat_true]
          omega
    · exact absurd hdone hgoal
  obtain ⟨t, hrun, ⟨hreach, hserver, hhead, _⟩, hgoal⟩ := hfinishes
  exact ⟨t, hrun, hreach, hserver, hhead, hgoal⟩

/-- However many downloads are stalled or abandoned: while clients read, or are
gone, a registered oid can be fetched to its last byte. -/
theorem registered_download_completes (hdecode : D.upstream.FramesDecode)
    (hhex : D.upstream.HexRoundTrip) (h : (machine D).Reachable NoFault s)
    (hlinked : (s.server.state.index.fileBySha256 oid).isSome = true)
    (hidle : (s.downloads i).stage = .idle) :
    ∃ t file, (machine D).Run Reads s t ∧ t.server = s.server ∧
      (t.downloads i).stage = .ended .complete ∧ Linked t.server.state oid file ∧
      (t.downloads i).head = some (oid, file.fileLength) ∧
      (t.downloads i).received.flatten = contentOf D.upstream t.server.state file := by
  obtain ⟨file, hfound⟩ := Option.isSome_iff_exists.mp hlinked
  obtain ⟨t₁, hrun₁, hserver₁, hsame₁, hfree⟩ := permit_frees h hidle
  have hreads : ∀ s a, Reads s a → NoFault s a := fun _ _ ha => ha.noFault
  have h₁ := h.extend (hrun₁.weaken hreads)
  have hs := reachable_sound hdecode hhex (reachable_server (h₁.weaken (fun _ _ h => h.1)))
  obtain ⟨t₂, hrun₂, hserver₂, hstage₂, hhead₂⟩ := request_answered hdecode.cumulativeOffsets hs
    (hserver₁ ▸ hfound) (hsame₁ ▸ hidle) hfree
  have h₂ := h₁.extend (hrun₂.weaken hreads)
  obtain ⟨t₃, hrun₃, h₃, hserver₃, hhead₃, hdone⟩ :=
    answer_completes hdecode hhex h₂ hstage₂ hhead₂
  have hserver : t₃.server = s.server := hserver₃.trans (hserver₂.trans hserver₁)
  obtain ⟨oid', file', hans, hwhole⟩ :=
    (reachable_delivers False hdecode hhex h₃ i).completed hdone
  have hsame := hans.head.symm.trans hhead₃
  simp only [Option.some.injEq, Prod.mk.injEq] at hsame
  obtain ⟨rfl, _⟩ := hsame
  exact ⟨t₃, file', (hrun₁.trans hrun₂).trans hrun₃, hserver, hdone, hans.linked, hans.head, hwhole⟩

/-- The letter can be fetched while another download of it is stalled. -/
theorem letter_fetched : ∃ s t file, (machine Server.sampleServer).Reachable NoFault s ∧
    (s.downloads 0).task ≠ none ∧ (s.downloads 1).stage = .idle ∧
    (machine Server.sampleServer).Run Reads s t ∧ t.server = s.server ∧
      (t.downloads 1).stage = .ended .complete ∧ Linked t.server.state Formats.letterOid file ∧
      (t.downloads 1).head = some (Formats.letterOid, file.fileLength) ∧
      (t.downloads 1).received.flatten =
        contentOf Server.sampleServer.upstream t.server.state file := by
  obtain ⟨s, _, hs, hend⟩ := sample_reaches (.start rfl)
    (fun s => (s.downloads 0).task.isSome &&
      (s.server.state.index.fileBySha256 Formats.letterOid).isSome &&
        decide ((s.downloads 1).stage = .idle))
    (registerLetter ++ askLetter 0) (by decide +kernel)
  rw [Bool.and_eq_true, Bool.and_eq_true] at hend
  obtain ⟨⟨htask, hlinked⟩, hidle⟩ := hend
  rw [decide_eq_true_eq] at hidle
  obtain ⟨t, file, hdone⟩ := registered_download_completes (Formats.documented_framesDecode _)
    (Formats.documented_hexRoundTrip _) hs hlinked hidle
  exact ⟨s, t, file, hs, Option.isSome_iff_ne_none.mp htask, hidle, hdone⟩

def Accepted (oid : String) (d : LfsDownload) : Prop :=
  match d.stage with
  | .idle => False
  | .looking asked => asked = oid
  | .ended outcome => ∀ e, outcome ≠ .refused e
  | _ => True

theorem moves_accepted (hoffsets : U.CumulativeOffsets) (hs : Sound U g)
    (hlinked : (g.index.fileBySha256 oid).isSome = true) (hd : Delivers False U g d)
    (h : DownloadMoves U g permits d act permits' d') (hfault : ∀ message, act ≠ .failRead message)
    (ha : Accepted oid d) : Accepted oid d' := by
  have hbefore := ha
  unfold Accepted at hbefore
  cases h with
  | malformed stage _ | asked stage _ =>
    rw [stage] at hbefore
    exact hbefore.elim
  | unknown stage absent =>
    rw [stage] at hbefore
    rw [hbefore] at absent
    rw [absent] at hlinked
    cases hlinked
  | @unplanned asked file e stage bad =>
    rw [Delivers, stage] at hd
    obtain ⟨segments, hplan⟩ := planSegments_stored hoffsets hs.rows hs.described (hd.2.stored hs)
    rw [hplan] at bad
    cases bad
  | known | planned | permit => trivial
  | received stage =>
    simp only [Accepted, stage]
  | broke | completed | dropped =>
    intro e he
    cases he
  | unread stage => exact absurd rfl (hfault _)
  | _ => exact ha

/-- A request for a registered oid is never refused and its body never breaks
off, whatever happens meanwhile, as long as reads succeed. -/
theorem registered_download_served (hdecode : D.upstream.FramesDecode)
    (hhex : D.upstream.HexRoundTrip) (h : (machine D).Reachable NoFault s)
    (hlinked : (s.server.state.index.fileBySha256 oid).isSome = true)
    (hrequest : (machine D).step s (.download i (.request oid)) = some t)
    (hrun : (machine D).Run (fun s a => NoFault s a ∧ NoCrash s a) t u) {outcome : Outcome}
    (hended : (u.downloads i).stage = .ended outcome) : outcome = .complete ∨ outcome = .gone := by
  have hoffsets := hdecode.cumulativeOffsets
  have hs := reachable_sound hdecode hhex (reachable_server (h.weaken (fun _ _ h => h.1)))
  have hfirst : t.server = s.server ∧ Accepted oid (t.downloads i) := by
    obtain ⟨file, hfound⟩ := Option.isSome_iff_exists.mp hlinked
    obtain ⟨hoid, _, _⟩ := oid_named hs.rows hs.verified hfound
    have hstep : Service.step D s (.download i (.request oid)) = some t := hrequest
    cases step_moves hstep with
    | download turn =>
      refine ⟨rfl, ?_⟩
      simp only [Function.update_self]
      cases downloadStep_moves turn with
      | malformed stage bad =>
        have hvalid : validateLfsObjectSpec ⟨oid, 0⟩ = .ok () := requireHashHex_ok.mpr hoid
        rw [hvalid] at bad
        cases bad
      | asked stage good => rfl
  have hkept := hrun.keeps (I := fun v => (machine D).Reachable NoFault v ∧
    (v.server.state.index.fileBySha256 oid).isSome = true ∧ Accepted oid (v.downloads i))
    ⟨h.next _ (noFault_of_reads rfl) hrequest, hfirst.1 ▸ hlinked, hfirst.2⟩ (by
      intro v a w hv hok hstep
      obtain ⟨hreach, hlinked, haccepted⟩ := hv
      have hserver := reachable_server (hreach.weaken (fun _ _ h => h.1))
      have hs := reachable_sound hdecode hhex hserver
      refine ⟨hreach.next a hok.1 hstep, ?_, ?_⟩
      · rcases step_server hok.1.1 hstep with hsame | ⟨act, _, hturn⟩
        · rw [hsame]
          exact hlinked
        · rw [Index.fileBySha256_isSome] at hlinked ⊢
          obtain ⟨fileHash, row, hrow, hsha⟩ := hlinked
          exact ⟨fileHash, row, (Server.step_grows hturn).files _ _ hrow, hsha⟩
      · cases step_moves hstep with
        | crash turn => exact absurd rfl hok.2
        | server up turn => exact haccepted
        | @download j act permits d turn =>
          rcases eq_or_ne i j with rfl | hj
          · simp only [Function.update_self]
            refine moves_accepted hoffsets hs hlinked
              (reachable_delivers False hdecode hhex hreach i)
              (downloadStep_moves turn) ?_ haccepted
            rintro message rfl
            exact hok.1.2 i message rfl
          · simpa [hj] using haccepted)
  obtain ⟨hreach, _, haccepted⟩ := hkept
  rw [Accepted, hended] at haccepted
  rcases download_unbroken hdecode hhex hreach hended with hdone | hgone | hrefused | ⟨_, hrefused⟩
  · exact .inl hdone
  · exact .inr hgone
  · exact absurd hrefused (haccepted _)
  · exact absurd hrefused (haccepted _)

/-- The letter is served. -/
theorem letter_kept_serving : ∃ s t u outcome, (machine Server.sampleServer).Reachable NoFault s ∧
    (machine Server.sampleServer).step s (.download 0 (.request Formats.letterOid)) = some t ∧
    (machine Server.sampleServer).Run (fun s a => NoFault s a ∧ NoCrash s a) t u ∧
    (u.downloads 0).stage = .ended outcome ∧ (outcome = .complete ∨ outcome = .gone) := by
  obtain ⟨s, _, hs, hend⟩ := sample_reaches (.start rfl)
    (fun s => (s.server.state.index.fileBySha256 Formats.letterOid).isSome &&
      (((machine Server.sampleServer).step s (.download 0 (.request Formats.letterOid))).bind
        (fun t => (machine Server.sampleServer).exec (fun _ a => upAndFaultless a) t
          ((askLetter 0).tail ++ decodeLetter 0 ++ receiveLetter 0))).any
        (fun u => concluded (u.downloads 0).stage)) registerLetter (by decide +kernel)
  rw [Bool.and_eq_true] at hend
  obtain ⟨u, hu, hconcluded⟩ := (Option.any_eq_true _ _).mp hend.2
  obtain ⟨t, hrequest, hexec⟩ := Option.bind_eq_some_iff.mp hu
  have hrun : (machine Server.sampleServer).Run (fun s a => NoFault s a ∧ NoCrash s a) t u :=
    Machine.exec_run (fun _ _ h => noCrash_of_upAndFaultless h) _ hexec
  cases hstage : (u.downloads 0).stage with
  | ended outcome =>
    exact ⟨s, t, u, outcome, hs, hrequest, hrun, hstage,
      registered_download_served (Formats.documented_framesDecode _)
        (Formats.documented_hexRoundTrip _) hs hend.1 hrequest hrun hstage⟩
  | _ => simp [hstage, concluded] at hconcluded

end Xetcas.Proofs.Serving
