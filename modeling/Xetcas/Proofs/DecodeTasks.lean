import Xetcas.Lib.Counting
import Xetcas.Service

namespace Xetcas.Proofs.DecodeTasks
open Lib Routes Routes.Lfs Service
variable {D : Deployment} {U : Upstream} {g : AppState} {permits permits' : Nat}
  {d d' : LfsDownload} {act : DownloadAct} {s t : Service} {i : Nat}

def early : DownloadStage → Bool
  | .idle | .looking _ | .planning .. | .acquiring .. => true
  | _ => false

def concluded : DownloadStage → Bool
  | .ended _ => true
  | _ => false

/-- There is no task before the answer, and no client after the end. -/
structure Tidy (d : LfsDownload) : Prop where
  early : early d.stage = true → d.task = none
  concluded : concluded d.stage = true → d.task ≠ none → d.body.receiverGone = true
  sender : d.task ≠ none → d.body.senderGone = false

theorem none_tidy : Tidy LfsDownload.none :=
  ⟨fun _ => rfl, by simp [concluded, LfsDownload.none], by simp [LfsDownload.none]⟩

/-- The task goes on, at the same end of the channel. -/
theorem Tidy.task_moved (h : Tidy d) (htask : d.task ≠ none) (hstage : d'.stage = d.stage)
    (hsender : d'.body.senderGone = d.body.senderGone)
    (hreceiver : d'.body.receiverGone = d.body.receiverGone) : Tidy d' := by
  refine ⟨?_, ?_, ?_⟩
  · intro hearly
    exact absurd (h.early (hstage ▸ hearly)) htask
  · intro hconcluded _
    rw [hreceiver]
    exact h.concluded (hstage ▸ hconcluded) htask
  · intro _
    rw [hsender]
    exact h.sender htask

/-- The task is over. -/
theorem tidy_of_no_task (htask : d.task = none) : Tidy d :=
  ⟨fun _ => htask, fun _ h => absurd htask h, fun h => absurd htask h⟩

/-- The client is gone. -/
theorem Tidy.close (h : Tidy d) {body : Body} (hsender : body.senderGone = d.body.senderGone)
    {outcome : Outcome} : Tidy ({ d with body := body.dropReceiver }.finish outcome) :=
  ⟨by simp [LfsDownload.finish, DecodeTasks.early], fun _ _ => rfl,
    fun htask => hsender.trans (h.sender htask)⟩

theorem moves_tidy (h : DownloadMoves U g permits d act permits' d') (ht : Tidy d) : Tidy d' := by
  have hearly := ht.early
  cases h with
  | malformed stage bad => exact tidy_of_no_task (hearly (by simp [stage, early]))
  | asked stage good => exact tidy_of_no_task (hearly (by simp [stage, early]))
  | unknown stage absent => exact tidy_of_no_task (hearly (by simp [stage, early]))
  | known stage found => exact tidy_of_no_task (hearly (by simp [stage, early]))
  | unplanned stage bad => exact tidy_of_no_task (hearly (by simp [stage, early]))
  | planned stage good => exact tidy_of_no_task (hearly (by simp [stage, early]))
  | permit stage free => exact ⟨by simp [early], by simp [concluded], fun _ => rfl⟩
  | missing task absent => exact ht.task_moved (by simp [task]) rfl rfl rfl
  | opened task found => exact ht.task_moved (by simp [task]) rfl rfl rfl
  | undecodable task bad => exact ht.task_moved (by simp [task]) rfl rfl rfl
  | decoded task good => exact ht.task_moved (by simp [task]) rfl rfl rfl
  | sent task here queue sender receiver =>
    exact ht.task_moved (by simp [task]) rfl sender (receiver.trans here.symm)
  | unsent task gone => exact ht.task_moved (by simp [task]) rfl rfl rfl
  | failed task here queue receiver => exact tidy_of_no_task rfl
  | failedGone task gone => exact tidy_of_no_task rfl
  | turned task => exact ht.task_moved (by simp [task]) rfl rfl rfl
  | finished task => exact tidy_of_no_task rfl
  | received stage queue sender receiver =>
    exact ⟨by simp [stage, early], by simp [stage, concluded],
      fun htask => sender.trans (ht.sender htask)⟩
  | broke stage queue sender => exact ht.close sender
  | completed stage queue sender => exact ht.close rfl
  | unread stage =>
    refine tidy_of_no_task (hearly ?_)
    rcases stage with ⟨_, stage⟩ | ⟨_, _, stage⟩ <;> simp [stage, early]
  | faulted task =>
    refine ht.task_moved ?_ rfl rfl rfl
    rcases task with ⟨_, _, task⟩ | ⟨_, _, _, task⟩ <;> simp [task]
  | dropped idle ended => exact ht.close rfl

theorem reachable_tidy (h : (machine D).Reachable Machine.anyStep s) (i : Nat) :
    Tidy (s.downloads i) := by
  revert i
  refine h.invariant (I := fun s => ∀ i, Tidy (s.downloads i)) ?_ ?_
  · intro s hsame i
    subst hsame
    exact none_tidy
  · intro s a t _ hi _ hstep j
    cases step_moves hstep with
    | crash turn => exact none_tidy
    | server up turn => exact hi j
    | @download i act permits d turn =>
      rcases eq_or_ne j i with rfl | hj
      · simpa using moves_tidy (downloadStep_moves turn) (hi j)
      · simpa [hj] using hi j

/-- What a step does to the permits: the answer takes one for its task, the task
gives it back when it ends, and nothing else touches them. -/
inductive PermitMoves (permits : Nat) (d : LfsDownload) (permits' : Nat) (d' : LfsDownload) : Prop
  | take (before : d.task = none) (after : d'.task ≠ none) (free : permits = permits' + 1)
  | give (before : d.task ≠ none) (after : d'.task = none) (free : permits' = permits + 1)
  | same (task : d'.task = none ↔ d.task = none) (free : permits' = permits)

theorem moves_permits (h : DownloadMoves U g permits d act permits' d') (ht : Tidy d) :
    PermitMoves permits d permits' d' := by
  cases h with
  | permit stage free => exact .take (ht.early (by simp [stage, early])) (by simp) free
  | failed task here queue receiver => exact .give (by simp [task]) rfl rfl
  | failedGone task gone => exact .give (by simp [task]) rfl rfl
  | finished task => exact .give (by simp [task]) rfl rfl
  | missing task absent => exact .same (by simp [task]) rfl
  | opened task found => exact .same (by simp [task]) rfl
  | undecodable task bad => exact .same (by simp [task]) rfl
  | decoded task good => exact .same (by simp [task]) rfl
  | sent task here queue sender receiver => exact .same (by simp [task]) rfl
  | unsent task gone => exact .same (by simp [task]) rfl
  | turned task => exact .same (by simp [task]) rfl
  | faulted task =>
    refine .same ?_ rfl
    rcases task with ⟨_, _, task⟩ | ⟨_, _, _, task⟩ <;> simp [task]
  | _ => exact .same Iff.rfl rfl

/-- Every download permit is free, or owned by a decode task that runs. -/
def Accounted (s : Service) : Prop :=
  Rationed (fun i => (s.downloads i).task ≠ none) s.downloadPermits DEFAULT_DOWNLOAD_CONCURRENCY

theorem boot_accounted (server : Server) : Accounted (boot server) :=
  .none (by simp [boot, LfsDownload.none])

theorem Accounted.download (h : Accounted s) {d : LfsDownload}
    (hm : PermitMoves s.downloadPermits (s.downloads i) permits d) :
    Accounted
      { s with downloadPermits := permits, downloads := Function.update s.downloads i d } := by
  unfold Accounted at h ⊢
  cases hm with
  | take before after free =>
    rw [free] at h
    exact h.take (i := i) (by simp [before]) (by simpa using after) (fun j hj => by simp [hj])
  | give before after free =>
    simp only [free]
    exact h.give (i := i) before (by simp [after]) (fun j hj => by simp [hj])
  | same task free =>
    simp only [free]
    refine h.stay ?_
    intro j
    rcases eq_or_ne j i with rfl | hj
    · simp [task]
    · simp [hj]

theorem decoders_accounted (h : (machine D).Reachable Machine.anyStep s) : Accounted s := by
  refine h.invariant (I := Accounted) ?_ ?_
  · intro s hsame
    subst hsame
    exact boot_accounted _
  · intro s a t hreach hi _ hstep
    cases step_moves hstep with
    | crash turn => exact boot_accounted _
    | server up turn => exact hi
    | @download i act permits d turn =>
      exact hi.download (moves_permits (downloadStep_moves turn) (reachable_tidy hreach i))

/-- However requests, hang-ups, failing reads and restarts fall, no more than 64
decode tasks run, and a permit is missing for exactly those that do. -/
theorem decoders_bounded (h : (machine D).Reachable Machine.anyStep s) :
    ∃ T : Finset Nat, (∀ i, i ∈ T ↔ (s.downloads i).task ≠ none) ∧
      T.card ≤ DEFAULT_DOWNLOAD_CONCURRENCY ∧
      s.downloadPermits = DEFAULT_DOWNLOAD_CONCURRENCY - T.card := by
  obtain ⟨running, ⟨T, hT, hcard⟩, htotal⟩ := decoders_accounted h
  exact ⟨T, hT, by omega, by omega⟩

/-- One task runs and there are 63 permits. -/
theorem letter_decoder_bounded : ∃ s, (machine Server.sampleServer).Reachable Machine.anyStep s ∧
    (s.downloads 0).task ≠ none ∧ s.downloadPermits = 63 ∧
    ∃ T : Finset Nat, (∀ i, i ∈ T ↔ (s.downloads i).task ≠ none) ∧
      T.card ≤ DEFAULT_DOWNLOAD_CONCURRENCY ∧
      s.downloadPermits = DEFAULT_DOWNLOAD_CONCURRENCY - T.card := by
  obtain ⟨s, _, hs, hend⟩ := sample_reaches (.start rfl)
    (fun s => (s.downloads 0).task.isSome && s.downloadPermits == 63)
    (registerLetter ++ askLetter 0) (by decide +kernel)
  rw [Bool.and_eq_true, beq_iff_eq] at hend
  exact ⟨s, hs.free, Option.isSome_iff_ne_none.mp hend.1, hend.2, decoders_bounded hs.free⟩

end Xetcas.Proofs.DecodeTasks
