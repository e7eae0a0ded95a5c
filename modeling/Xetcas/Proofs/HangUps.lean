import Xetcas.Proofs.DecodeTasks

namespace Xetcas.Proofs.HangUps
open Lib Routes Routes.Lfs Service DecodeTasks
variable {D : Deployment} {U : Upstream} {g : AppState} {permits permits' : Nat}
  {d d' : LfsDownload} {act : DownloadAct} {s t : Service} {i : Nat}

def taskAct : DownloadAct → Bool
  | .opened | .decoded | .sent | .turned | .finished => true
  | _ => false

def decodeAct : DownloadAct → Bool
  | .decoded => true
  | _ => false

/-- An upper bound on the steps a loop over these segments takes: for each one
its opening, two for each chunk, and the way back. -/
def loopWork (todo : List Segment) : Nat :=
  1 + (todo.map (fun segment => 2 * segment.numChunks + 2)).sum

/-- An upper bound on the steps that are left. -/
def work : Option Decoder → Nat
  | none => 0
  | some (.between todo) => loopWork todo
  | some (.reading _ left todo) => 2 * left + 1 + loopWork todo
  | some (.sending _ _ left todo) => 2 * left + 2 + loopWork todo
  | some (.failing _) => 1

/-- The chunks still to be decoded once nobody receives them: the loop over the
chunks stops at the first one, and the loop over the segments does not stop. -/
def decodesLeft : Option Decoder → Nat
  | none | some (.failing _) => 0
  | some (.between todo) => todo.length
  | some (.reading _ left todo) => min left 1 + todo.length
  | some (.sending _ _ _ todo) => todo.length

@[simp] theorem loopWork_nil : loopWork [] = 1 := rfl

@[simp] theorem loopWork_cons (segment : Segment) (todo : List Segment) :
    loopWork (segment :: todo) = 2 * segment.numChunks + 2 + loopWork todo := by
  simp only [loopWork, List.map_cons, List.sum_cons]
  omega

theorem loopWork_pos (todo : List Segment) : 0 < loopWork todo := by
  unfold loopWork
  omega

/-- Every step of the task is paid for out of its work. -/
theorem moves_work (h : DownloadMoves U g permits d act permits' d') (hpermit : act ≠ .permit) :
    (taskAct act).toNat + work d'.task ≤ work d.task := by
  cases h with
  | permit stage free => exact absurd rfl hpermit
  | @missing segment todo message task absent =>
    have := loopWork_pos todo
    simp only [task, work, taskAct, loopWork_cons, Bool.toNat_true]
    omega
  | @opened segment todo object task found =>
    simp only [task, work, taskAct, loopWork_cons, Bool.toNat_true]
    omega
  | undecodable task bad =>
    simp only [task, work, taskAct, Bool.toNat_true]
    omega
  | decoded task good =>
    simp only [task, work, taskAct, Bool.toNat_true]
    omega
  | sent task here queue sender receiver =>
    simp only [task, work, taskAct, Bool.toNat_true]
    omega
  | unsent task gone =>
    simp only [task, work, taskAct, Bool.toNat_true]
    omega
  | failed task here queue receiver => simp [task, work, taskAct, LfsDownload.endTask]
  | failedGone task gone => simp [task, work, taskAct, LfsDownload.endTask]
  | turned task =>
    simp only [task, work, taskAct, Bool.toNat_true]
    omega
  | finished task => simp [task, work, taskAct, LfsDownload.endTask]
  | faulted task =>
    rcases task with ⟨segment, todo, task⟩ | ⟨reader, left, todo, task⟩
    · have := loopWork_pos todo
      simp only [task, work, taskAct, loopWork_cons, Bool.toNat_false]
      omega
    · simp only [task, work, taskAct, Bool.toNat_false]
      omega
  | _ => simp [taskAct, LfsDownload.finish]

/-- With the client gone, every chunk that is decoded is among those left. -/
theorem moves_decodes (h : DownloadMoves U g permits d act permits' d')
    (hconcluded : concluded d.stage = true) (ht : Tidy d) :
    concluded d'.stage = true ∧
      (decodeAct act).toNat + decodesLeft d'.task ≤ decodesLeft d.task := by
  have hgone := ht.concluded hconcluded
  cases h with
  | missing task absent => exact ⟨hconcluded, by simp [task, decodesLeft, decodeAct]⟩
  | @opened segment todo object task found =>
    refine ⟨hconcluded, ?_⟩
    simp [task, decodesLeft, decodeAct]
    omega
  | undecodable task bad => exact ⟨hconcluded, by simp [task, decodesLeft, decodeAct]⟩
  | decoded task good => exact ⟨hconcluded, by simp [task, decodesLeft, decodeAct]⟩
  | sent task here queue sender receiver =>
    rw [hgone (by simp [task])] at here
    cases here
  | unsent task gone => exact ⟨hconcluded, by simp [task, decodesLeft, decodeAct]⟩
  | failed task here queue receiver =>
    rw [hgone (by simp [task])] at here
    cases here
  | failedGone task gone =>
    exact ⟨hconcluded, by simp [task, decodesLeft, decodeAct, LfsDownload.endTask]⟩
  | turned task =>
    refine ⟨hconcluded, ?_⟩
    simp [task, decodesLeft, decodeAct]
  | finished task => exact ⟨hconcluded, by simp [task, decodesLeft, decodeAct, LfsDownload.endTask]⟩
  | faulted task =>
    refine ⟨hconcluded, ?_⟩
    rcases task with ⟨segment, todo, task⟩ | ⟨reader, left, todo, task⟩ <;>
      simp [task, decodesLeft, decodeAct]
  | malformed stage _ | asked stage _ | unknown stage _ | known stage _ | unplanned stage _
  | planned stage _ | permit stage _ | received stage | broke stage | completed stage =>
    simp [stage, concluded] at hconcluded
  | unread stage =>
    rcases stage with ⟨_, stage⟩ | ⟨_, _, stage⟩ <;> simp [stage, concluded] at hconcluded
  | dropped idle ended =>
    cases hstage : d.stage with
    | ended outcome => exact absurd hstage (ended outcome)
    | _ => simp [hstage, concluded] at hconcluded

/-- A task that runs can go on, or its client has a full queue to take from. -/
theorem task_goes_on (U : Upstream) (g : AppState) (permits : Nat) (htask : d.task ≠ none) :
    (∃ act, taskAct act = true ∧ (downloadStep U g permits d act).isSome = true) ∨
      d.body.receiverGone = false ∧ d.body.queue.length = 8 := by
  obtain ⟨decoder, htask⟩ := Option.ne_none_iff_exists'.mp htask
  cases decoder with
  | between todo =>
    cases todo with
    | nil => exact .inl ⟨.finished, rfl, by simp [downloadStep, htask]⟩
    | cons segment todo =>
      refine .inl ⟨.opened, rfl, ?_⟩
      cases hobject : g.objects segment.path <;> simp [downloadStep, htask, hobject]
  | reading reader left todo =>
    cases left with
    | zero => exact .inl ⟨.turned, rfl, by simp [downloadStep, htask]⟩
    | succ left =>
      refine .inl ⟨.decoded, rfl, ?_⟩
      cases hread : U.deserializeChunk reader <;> simp [downloadStep, htask, hread]
  | sending chunk reader left todo =>
    cases hsend : d.body.send (.ok chunk) with
    | none => exact .inr (Channel.send_waits hsend)
    | some r =>
      obtain ⟨body, ok⟩ := r
      refine .inl ⟨.sent, rfl, ?_⟩
      cases ok <;> simp [downloadStep, htask, hsend]
  | failing message =>
    cases hsend : d.body.send (.error message) with
    | none => exact .inr (Channel.send_waits hsend)
    | some r => exact .inl ⟨.sent, rfl, by simp [downloadStep, htask, hsend]⟩

def onDownload (i : Nat) (p : DownloadAct → Bool) : Service.Act → Bool
  | .download j act => j == i && p act
  | .server _ => false

/-- Once the client is gone, its decode task waits for nobody, ends within its
work, and decodes one chunk at most of each segment that is left. -/
theorem hung_up_winds_down (h : (machine D).Reachable Machine.anyStep s)
    (hconcluded : concluded (s.downloads i).stage = true) {as : List Service.Act}
    (htrace : (machine D).Trace NoCrash s as t) :
    as.countP (onDownload i taskAct) ≤ work (s.downloads i).task ∧
      as.countP (onDownload i decodeAct) ≤ decodesLeft (s.downloads i).task ∧
      ((t.downloads i).task = none ∨
        ∃ act u, taskAct act = true ∧ step D t (.download i act) = some u) := by
  have hstep : ∀ u a v, ((machine D).Reachable Machine.anyStep u ∧
      concluded (u.downloads i).stage = true) → NoCrash u a → (machine D).step u a = some v →
      ((machine D).Reachable Machine.anyStep v ∧ concluded (v.downloads i).stage = true) ∧
        (onDownload i taskAct a).toNat + work (v.downloads i).task ≤ work (u.downloads i).task ∧
        (onDownload i decodeAct a).toNat + decodesLeft (v.downloads i).task ≤
          decodesLeft (u.downloads i).task := by
    intro u a v hu hup hstep
    have hnext := hu.1.next a trivial hstep
    cases step_moves hstep with
    | crash turn => exact absurd rfl hup
    | server up turn => exact ⟨⟨hnext, hu.2⟩, by simp [onDownload], by simp [onDownload]⟩
    | @download j act permits d turn =>
      have hm := downloadStep_moves turn
      rcases eq_or_ne j i with rfl | hj
      · have ht := reachable_tidy hu.1 j
        obtain ⟨hconcluded', hdecodes⟩ := moves_decodes hm hu.2 ht
        have hpermit : act ≠ .permit := by
          rintro rfl
          cases hm with
          | permit stage free => simp [stage, concluded] at hu
        refine ⟨⟨hnext, by simpa using hconcluded'⟩, ?_, ?_⟩
        · simpa [onDownload] using moves_work hm hpermit
        · simpa [onDownload] using hdecodes
      · have hne : i ≠ j := fun he => hj he.symm
        exact ⟨⟨hnext, by simpa [hne] using hu.2⟩, by simp [onDownload, hj, hne],
          by simp [onDownload, hj, hne]⟩
  obtain ⟨_, hwork⟩ := htrace.spends (I := fun u => (machine D).Reachable Machine.anyStep u ∧
    concluded (u.downloads i).stage = true) (onDownload i taskAct)
    (fun u => work (u.downloads i).task)
    ⟨h, hconcluded⟩ (fun u a v hu hup hs => ⟨(hstep u a v hu hup hs).1, (hstep u a v hu hup hs).2.1⟩)
  obtain ⟨⟨hreach, hconcluded'⟩, hdecodes⟩ := htrace.spends
    (I := fun u => (machine D).Reachable Machine.anyStep u ∧ concluded (u.downloads i).stage = true)
    (onDownload i decodeAct) (fun u => decodesLeft (u.downloads i).task) ⟨h, hconcluded⟩
    (fun u a v hu hup hs => ⟨(hstep u a v hu hup hs).1, (hstep u a v hu hup hs).2.2⟩)
  refine ⟨by omega, by omega, ?_⟩
  by_cases htask : (t.downloads i).task = none
  · exact .inl htask
  · refine .inr ?_
    rcases task_goes_on D.upstream t.server.state t.downloadPermits htask with hgo | ⟨hhere, _⟩
    · obtain ⟨act, hact, hsome⟩ := hgo
      obtain ⟨r, hr⟩ := Option.isSome_iff_exists.mp hsome
      exact ⟨act, _, hact, by rw [step, hr]; rfl⟩
    · rw [(reachable_tidy hreach i).concluded hconcluded' htask] at hhere
      cases hhere

/-- A client is gone while its task sends: the task decodes nothing more. -/
theorem hung_up_letter : ∃ s t, (machine Server.sampleServer).Reachable Machine.anyStep s ∧
    (s.downloads 0).stage = .ended .gone ∧ (s.downloads 0).task ≠ none ∧
    (machine Server.sampleServer).Trace NoCrash s [.download 0 .sent, .download 0 .finished] t ∧
    [Act.download 0 .sent, .download 0 .finished].countP (onDownload 0 taskAct) ≤
        work (s.downloads 0).task ∧
      [Act.download 0 .sent, .download 0 .finished].countP (onDownload 0 decodeAct) ≤
        decodesLeft (s.downloads 0).task ∧
      ((t.downloads 0).task = none ∨ ∃ act u, taskAct act = true ∧
        step Server.sampleServer t (.download 0 act) = some u) := by
  obtain ⟨s, _, hs, hend⟩ := sample_reaches (.start rfl)
    (fun s => decide ((s.downloads 0).stage = .ended .gone) && (s.downloads 0).task.isSome &&
        ((machine Server.sampleServer).exec (fun _ a => upAndFaultless a) s
          [.download 0 .sent, .download 0 .finished]).isSome)
    (registerLetter ++ askLetter 0 ++
      [.download 0 .opened, .download 0 .decoded, .download 0 .drop]) (by decide +kernel)
  rw [Bool.and_eq_true, Bool.and_eq_true] at hend
  obtain ⟨⟨hgone, htask⟩, hexec⟩ := hend
  rw [decide_eq_true_eq] at hgone
  obtain ⟨t, ht⟩ := Option.isSome_iff_exists.mp hexec
  have htrace : (machine Server.sampleServer).Trace NoCrash s _ t :=
    Machine.exec_trace (fun s _ h => (noCrash_of_upAndFaultless (s := s) h).2) _ ht
  exact ⟨s, t, hs.free, hgone, Option.isSome_iff_ne_none.mp htask, htrace,
    hung_up_winds_down hs.free (by simp [hgone, concluded]) htrace⟩

end Xetcas.Proofs.HangUps
