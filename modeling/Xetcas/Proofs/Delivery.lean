import Xetcas.Proofs.Identity
import Xetcas.Service

namespace Xetcas.Proofs.Delivery
open Lib Routes Routes.Lfs Registration Reconstructable Content Frozen Verified Identity
variable {U : Upstream} {state state' : AppState} {file : FileRecord} {oid : String}

/-- A registered file with this oid. -/
def Linked (state : AppState) (oid : String) (file : FileRecord) : Prop :=
  ∃ fileHash row, state.index.files.get? fileHash = some row ∧ row.sha256 = some oid ∧
    row.record = file

theorem Linked.grows (h : Linked state oid file) (hg : state.index.Grows state'.index) :
    Linked state' oid file := by
  obtain ⟨fileHash, row, hrow, hoid, hfile⟩ := h
  exact ⟨fileHash, row, hg.files _ _ hrow, hoid, hfile⟩

theorem Linked.stored (h : Linked state oid file) (hs : Sound U state) :
    FileStored U state.index file := by
  obtain ⟨_, _, hrow, _, rfl⟩ := h
  exact (hs.rows.files hrow).2.2

theorem Linked.named (h : Linked state oid file) (hs : Sound U state) :
    U.sha256Hex (contentOf U state file) = oid := by
  obtain ⟨_, _, hrow, hoid, rfl⟩ := h
  exact hs.verified _ _ _ hrow hoid

theorem Hashing.front {segments : List Segment} {hashed : Bytes} (hs : Sound U state)
    (hfile : FileStored U state.index file) (h : Hashing U state file segments hashed) :
    hashed <+: contentOf U state file := by
  obtain ⟨read, rest, hterms, _, rfl⟩ := h
  rw [contentOf_chunks hs.described hfile, fileChunks, hterms, List.map_append,
    List.flatten_append, List.flatten_append]
  exact List.prefix_append _ _

/-- What the decode task has left to send of the segment at hand, and the
segments after it. -/
inductive Ahead (U : Upstream) : Decoder → List Bytes → List Segment → Prop
  | between {todo} : Ahead U (.between todo) [] todo
  | reading {reader left todo hand} (reads : decodeFrames U left reader = (hand, none)) :
      Ahead U (.reading reader left todo) hand todo
  | sending {chunk reader left todo hand} (reads : decodeFrames U left reader = (hand, none)) :
      Ahead U (.sending chunk reader left todo) (chunk :: hand) todo

/-- What is on its way to a client, from the decode task over the queue to what
was received. Errors are on their way only where reads can fail. -/
inductive Carries (faults : Prop) (U : Upstream) (state : AppState) (file : FileRecord) :
    Option Decoder → List (Except String Bytes) → List Bytes → Prop
  | running {decoder queued received hand todo} (ahead : Ahead U decoder hand todo)
      (sent : Hashing U state file todo (received ++ queued ++ hand).flatten) :
      Carries faults U state file (some decoder) (queued.map .ok) received
  | failing {message queued received} (faulty : faults)
      (front : (received ++ queued).flatten <+: contentOf U state file) :
      Carries faults U state file (some (.failing message)) (queued.map .ok) received
  | failed {message queued received} (faulty : faults)
      (front : (received ++ queued).flatten <+: contentOf U state file) :
      Carries faults U state file none (queued.map .ok ++ [.error message]) received
  | finished {queued received} (whole : (received ++ queued).flatten = contentOf U state file) :
      Carries faults U state file none (queued.map .ok) received

/-- A response whose client is there. -/
structure Flows (faults : Prop) (U : Upstream) (state : AppState) (file : FileRecord)
    (d : LfsDownload) : Prop where
  carries : Carries faults U state file d.task d.body.queue d.received
  sender : d.body.senderGone = d.task.isNone
  receiver : d.body.receiverGone = false

structure Unanswered (d : LfsDownload) : Prop where
  head : d.head = none
  task : d.task = none
  received : d.received = []

structure Answered (state : AppState) (d : LfsDownload) (oid : String) (file : FileRecord) :
    Prop where
  linked : Linked state oid file
  head : d.head = some (oid, file.fileLength)

/-- How an answered download can have ended. -/
structure Closed (faults : Prop) (U : Upstream) (state : AppState) (file : FileRecord)
    (d : LfsDownload) (outcome : Outcome) : Prop where
  front : d.received.flatten <+: contentOf U state file
  whole : outcome = .complete → d.received.flatten = contentOf U state file
  broken : ∀ message, outcome = .broken message → faults
  answered : ∀ e, outcome ≠ .refused e

def Refusal (faults : Prop) (outcome : Outcome) : Prop :=
  outcome = .gone ∨
    ∃ e, outcome = .refused e ∧ (faults ∨ e = .notFound ∨ ∃ message, e = .badRequest message)

/-- Where a download stands with the file it is for. -/
def Delivers (faults : Prop) (U : Upstream) (state : AppState) (d : LfsDownload) : Prop :=
  match d.stage with
  | .idle | .looking _ => Unanswered d
  | .planning oid file => Unanswered d ∧ Linked state oid file
  | .acquiring oid file segments =>
    Unanswered d ∧ Linked state oid file ∧ Hashing U state file segments []
  | .streaming => ∃ oid file, Answered state d oid file ∧ Flows faults U state file d
  | .ended outcome => Unanswered d ∧ Refusal faults outcome ∨
    ∃ oid file, Answered state d oid file ∧ Closed faults U state file d outcome

section Kept
variable {faults : Prop} {d : LfsDownload} {outcome : Outcome}

theorem Carries.keeps {task : Option Decoder} {queue : List (Except String Bytes)}
    {received : List Bytes} (h : Carries faults U state file task queue received)
    (hk : Keeps state state') (hfile : FileStored U state.index file)
    (hsame : contentOf U state' file = contentOf U state file) :
    Carries faults U state' file task queue received := by
  cases h with
  | running ahead sent => exact .running ahead (sent.keeps hk hfile)
  | failing faulty front => exact .failing faulty (hsame ▸ front)
  | failed faulty front => exact .failed faulty (hsame ▸ front)
  | finished whole => exact .finished (hsame ▸ whole)

theorem Answered.grows (h : Answered state d oid file) (hg : state.index.Grows state'.index) :
    Answered state' d oid file :=
  ⟨h.linked.grows hg, h.head⟩

theorem Delivers.keeps (h : Delivers faults U state d) (hk : Keeps state state')
    (hs : Sound U state) (hs' : Sound U state') : Delivers faults U state' d := by
  have hcontent : ∀ {oid file}, Linked state oid file →
      contentOf U state' file = contentOf U state file := by
    intro oid file hlinked
    exact hk.contentOf hs.described hs'.described (hlinked.stored hs)
  unfold Delivers at h ⊢
  split at h
  · exact h
  · exact h
  · exact ⟨h.1, h.2.grows hk.index⟩
  · exact ⟨h.1, h.2.1.grows hk.index, h.2.2.keeps hk (h.2.1.stored hs)⟩
  · obtain ⟨oid, file, hans, hflow⟩ := h
    exact ⟨oid, file, hans.grows hk.index,
      hflow.carries.keeps hk (hans.linked.stored hs) (hcontent hans.linked), hflow.sender,
      hflow.receiver⟩
  · rcases h with hrefused | ⟨oid, file, hans, hclosed⟩
    · exact .inl hrefused
    · have hsame := hcontent hans.linked
      exact .inr ⟨oid, file, hans.grows hk.index, hsame ▸ hclosed.front,
        fun hc => hsame ▸ hclosed.whole hc, hclosed.broken, hclosed.answered⟩

end Kept

section Step
variable {faults : Prop} {g : AppState} {permits permits' : Nat} {d d' : LfsDownload}
  {act : DownloadAct}

/-- The decode task moves: only an answered download has one, and with the
client gone nothing of it matters any more. -/
theorem Delivers.task_moved (h : Delivers faults U g d) (htask : d.task ≠ none)
    (hstage : d'.stage = d.stage) (hhead : d'.head = d.head) (hreceived : d'.received = d.received)
    (hflow : ∀ oid file, Linked g oid file → Flows faults U g file d → Flows faults U g file d') :
    Delivers faults U g d' := by
  unfold Delivers at h ⊢
  rw [hstage]
  split at h
  · exact absurd h.task htask
  · exact absurd h.task htask
  · exact absurd h.1.task htask
  · exact absurd h.1.task htask
  · obtain ⟨oid, file, hans, hflows⟩ := h
    exact ⟨oid, file, ⟨hans.linked, hhead ▸ hans.head⟩, hflow oid file hans.linked hflows⟩
  · rcases h with hrefused | ⟨oid, file, hans, hclosed⟩
    · exact absurd hrefused.1.task htask
    · exact .inr ⟨oid, file, ⟨hans.linked, hhead ▸ hans.head⟩, hreceived ▸ hclosed.front,
        fun hc => hreceived ▸ hclosed.whole hc, hclosed.broken, hclosed.answered⟩

/-- What a running task has in front of it. -/
theorem Carries.running_inv {decoder : Decoder} {queue : List (Except String Bytes)}
    {received : List Bytes} (h : Carries faults U g file (some decoder) queue received)
    (hrunning : ∀ message, decoder ≠ .failing message) : ∃ queued hand todo,
      queue = queued.map .ok ∧ Ahead U decoder hand todo ∧
        Hashing U g file todo (received ++ queued ++ hand).flatten := by
  cases h with
  | running ahead sent => exact ⟨_, _, _, rfl, ahead, sent⟩
  | failing faulty front => exact absurd rfl (hrunning _)

/-- The item at the front of the queue goes over to the client. -/
theorem Carries.receive {task : Option Decoder} {chunk : Bytes}
    {queue : List (Except String Bytes)} {received : List Bytes}
    (h : Carries faults U g file task (.ok chunk :: queue) received) :
    Carries faults U g file task queue (received ++ [chunk]) := by
  generalize hqueue : (.ok chunk :: queue : List (Except String Bytes)) = all at h
  have hfront : ∀ {queued : List Bytes}, .ok chunk :: queue = queued.map Except.ok →
      ∃ rest, queued = chunk :: rest ∧ queue = rest.map Except.ok := by
    intro queued he
    obtain ⟨first, rest, rfl, hfirst, hrest⟩ := List.map_eq_cons_iff.mp he.symm
    cases hfirst
    exact ⟨rest, rfl, hrest.symm⟩
  cases h with
  | running ahead sent =>
    obtain ⟨rest, rfl, rfl⟩ := hfront hqueue
    exact .running ahead (by simpa using sent)
  | failing faulty front =>
    obtain ⟨rest, rfl, rfl⟩ := hfront hqueue
    exact .failing faulty (by simpa using front)
  | @failed message queued _ faulty front =>
    cases queued with
    | nil => cases hqueue
    | cons first queued =>
      cases hqueue
      exact .failed faulty (by simpa using front)
  | finished whole =>
    obtain ⟨rest, rfl, rfl⟩ := hfront hqueue
    exact .finished (by simpa using whole)

/-- An error in the queue comes from a read that failed. -/
theorem Carries.error_faulty {task : Option Decoder} {message : String}
    {queue : List (Except String Bytes)} {received : List Bytes}
    (h : Carries faults U g file task (.error message :: queue) received) : faults := by
  generalize hqueue : (.error message :: queue : List (Except String Bytes)) = all at h
  have hnot : ∀ {queued : List Bytes}, .error message :: queue ≠ queued.map Except.ok := by
    intro queued he
    obtain ⟨_, _, _, hfirst, _⟩ := List.map_eq_cons_iff.mp he.symm
    cases hfirst
  cases h with
  | running ahead sent => exact absurd hqueue hnot
  | failing faulty front => exact faulty
  | failed faulty front => exact faulty
  | finished whole => exact absurd hqueue hnot

/-- The task is over and the queue is empty: the client has everything. -/
theorem Carries.drained {received : List Bytes} (h : Carries faults U g file none [] received) :
    received.flatten = contentOf U g file := by
  generalize hqueue : ([] : List (Except String Bytes)) = all at h
  cases h with
  | failed faulty front => simp at hqueue
  | @finished queued _ whole =>
    obtain rfl := List.map_eq_nil_iff.mp hqueue.symm
    simpa using whole

/-- As long as the task runs there are chunks in the queue. -/
theorem Carries.queued {decoder : Decoder} {queue : List (Except String Bytes)}
    {received : List Bytes} (h : Carries faults U g file (some decoder) queue received)
    (hs : Sound U g) (hfile : FileStored U g.index file) :
    ∃ queued, queue = queued.map .ok ∧ (received ++ queued).flatten <+: contentOf U g file := by
  cases h with
  | @running _ queued _ hand _ ahead sent =>
    have hfront := Hashing.front hs hfile sent
    rw [List.flatten_append] at hfront
    exact ⟨queued, rfl, (List.prefix_append _ _).trans hfront⟩
  | failing faulty front => exact ⟨_, rfl, front⟩

/-- What the client has is the front of the content. -/
theorem Carries.front {task : Option Decoder} {queue : List (Except String Bytes)}
    {received : List Bytes} (h : Carries faults U g file task queue received)
    (hs : Sound U g) (hfile : FileStored U g.index file) :
    received.flatten <+: contentOf U g file := by
  have hshorter : ∀ queued : List Bytes, received.flatten <+: (received ++ queued).flatten := by
    intro queued
    rw [List.flatten_append]
    exact List.prefix_append _ _
  cases h with
  | @running _ queued _ hand _ ahead sent =>
    have hfront := hshorter (queued ++ hand)
    rw [← List.append_assoc] at hfront
    exact hfront.trans (Hashing.front hs hfile sent)
  | failing faulty front => exact (hshorter _).trans front
  | failed faulty front => exact (hshorter _).trans front
  | finished whole => exact whole ▸ hshorter _

/-- Before the answer a download is refused without a trace. -/
theorem Unanswered.refused (h : Unanswered d) {body : Body} {outcome : Outcome}
    (hrefusal : Refusal faults outcome) :
    Delivers faults U g ({ d with body := body }.finish outcome) :=
  .inl ⟨⟨h.head, h.task, h.received⟩, hrefusal⟩

theorem Delivers.answered (h : Delivers faults U g d) (hstage : d.stage = .streaming) :
    ∃ oid file, Answered g d oid file ∧ Flows faults U g file d := by
  rw [Delivers, hstage] at h
  exact h

theorem Delivers.completed (h : Delivers faults U g d) (hstage : d.stage = .ended .complete) :
    ∃ oid file, Answered g d oid file ∧ d.received.flatten = contentOf U g file := by
  rw [Delivers, hstage] at h
  rcases h with ⟨_, hgone | ⟨e, hrefused, _⟩⟩ | ⟨oid, file, hans, hclosed⟩
  · cases hgone
  · cases hrefused
  · exact ⟨oid, file, hans, hclosed.whole rfl⟩

/-- The client hangs up, or has seen the end of the body. -/
theorem Flows.close (h : Flows faults U g file d) (hs : Sound U g) (hans : Answered g d oid file)
    {body : Body} {outcome : Outcome}
    (hwhole : outcome = .complete → d.received.flatten = contentOf U g file)
    (hbroken : ∀ message, outcome = .broken message → faults)
    (hanswered : ∀ e, outcome ≠ .refused e) :
    Delivers faults U g ({ d with body := body }.finish outcome) :=
  .inr ⟨oid, file, ⟨hans.linked, hans.head⟩, h.carries.front hs (hans.linked.stored hs), hwhole,
    hbroken, hanswered⟩

section Requests
variable {segments : List Segment} {e : AppError}

theorem Delivers.malformed (h : Delivers faults U g d) (stage : d.stage = .idle)
    (bad : checkRequest (validateLfsObjectSpec ⟨oid, 0⟩) = .error e) :
    Delivers faults U g (d.finish (.refused e)) := by
  rw [Delivers, stage] at h
  refine h.refused (.inr ⟨_, rfl, .inr (.inr ?_)⟩)
  unfold checkRequest at bad
  split at bad <;> cases bad
  exact ⟨_, rfl⟩

theorem Delivers.asked (h : Delivers faults U g d) (stage : d.stage = .idle) :
    Delivers faults U g { d with stage := .looking oid } := by
  rw [Delivers, stage] at h
  exact ⟨h.head, h.task, h.received⟩

theorem Delivers.unknown (h : Delivers faults U g d) (stage : d.stage = .looking oid) :
    Delivers faults U g (d.finish (.refused .notFound)) := by
  rw [Delivers, stage] at h
  exact h.refused (.inr ⟨_, rfl, .inr (.inl rfl)⟩)

theorem Delivers.known (h : Delivers faults U g d) (stage : d.stage = .looking oid)
    (found : g.index.fileBySha256 oid = some file) :
    Delivers faults U g { d with stage := .planning oid file } := by
  rw [Delivers, stage] at h
  exact ⟨⟨h.head, h.task, h.received⟩, Index.fileBySha256_some found⟩

/-- A registered file can be planned. -/
theorem Delivers.plannable (h : Delivers faults U g d) (hoffsets : U.CumulativeOffsets)
    (hs : Sound U g) (stage : d.stage = .planning oid file) :
    Filestream.planSegments g.index file ≠ .error e := by
  rw [Delivers, stage] at h
  intro bad
  obtain ⟨segments, hplan⟩ := planSegments_stored hoffsets hs.rows hs.described (h.2.stored hs)
  rw [hplan] at bad
  cases bad

theorem Delivers.planned (h : Delivers faults U g d) (stage : d.stage = .planning oid file)
    (good : Filestream.planSegments g.index file = .ok segments) :
    Delivers faults U g { d with stage := .acquiring oid file segments } := by
  rw [Delivers, stage] at h
  obtain ⟨hun, hlinked⟩ := h
  exact ⟨⟨hun.head, hun.task, hun.received⟩, hlinked, hashing_nothing good⟩

/-- With the permit the task starts on an empty queue. -/
theorem Delivers.permitted (h : Delivers faults U g d)
    (stage : d.stage = .acquiring oid file segments) :
    Delivers faults U g { d with
      stage := .streaming, head := some (oid, file.fileLength),
      task := some (.between segments), body := .fresh } := by
  rw [Delivers, stage] at h
  obtain ⟨hun, hlinked, hhashing⟩ := h
  refine ⟨oid, file, ⟨hlinked, rfl⟩, ?_, rfl, rfl⟩
  simp only [hun.received]
  have hstart : Carries faults U g file (some (.between segments))
      (([] : List Bytes).map .ok) [] := .running .between hhashing
  exact hstart

theorem Delivers.unread (h : Delivers faults U g d) {message : String} (faulty : faults)
    (stage : (∃ oid, d.stage = .looking oid) ∨ ∃ oid file, d.stage = .planning oid file) :
    Delivers faults U g (d.finish (.refused (.index message))) := by
  have hun : Unanswered d := by
    rcases stage with ⟨oid, stage⟩ | ⟨oid, file, stage⟩
    · rw [Delivers, stage] at h
      exact h
    · rw [Delivers, stage] at h
      exact h.1
  exact hun.refused (.inr ⟨_, rfl, .inl faulty⟩)

end Requests

section Task
variable {segment : Segment} {todo : List Segment} {object reader rest chunk : Bytes} {left : Nat}
  {message : String} {body : Body}

/-- What the task of a response has in front of it. -/
theorem Flows.running {decoder : Decoder} (h : Flows faults U g file d)
    (task : d.task = some decoder) (hrunning : ∀ message, decoder ≠ .failing message) :
    ∃ queued hand todo, d.body.queue = queued.map .ok ∧ Ahead U decoder hand todo ∧
      Hashing U g file todo (d.received ++ queued ++ hand).flatten := by
  have hcarries := h.carries
  rw [task] at hcarries
  exact hcarries.running_inv hrunning

/-- It goes on with nothing lost. -/
theorem Flows.goes_on {decoder next : Decoder} {queued hand : List Bytes}
    (h : Flows faults U g file d) (task : d.task = some decoder)
    (hqueue : d.body.queue = queued.map .ok) (ahead : Ahead U next hand todo)
    (sent : Hashing U g file todo (d.received ++ queued ++ hand).flatten) :
    Flows faults U g file { d with task := some next } := by
  refine ⟨?_, by simp [h.sender, task], h.receiver⟩
  simp only [hqueue]
  exact .running ahead sent

theorem Flows.present (h : Flows faults U g file d) (hoffsets : U.CumulativeOffsets)
    (hs : Sound U g) (hfile : FileStored U g.index file)
    (task : d.task = some (.between (segment :: todo))) : g.objects segment.path ≠ none := by
  intro absent
  obtain ⟨queued, hand, todo, _, ahead, sent⟩ := h.running task (by simp)
  cases ahead
  obtain ⟨data, hread, _⟩ := Hashing.next hoffsets hs.rows hs.described hfile sent
  simp [decodeSegment, absent] at hread

theorem Flows.opened (h : Flows faults U g file d) (hoffsets : U.CumulativeOffsets)
    (hs : Sound U g) (hfile : FileStored U g.index file)
    (task : d.task = some (.between (segment :: todo)))
    (found : g.objects segment.path = some object) :
    Flows faults U g file { d with
      task := some (.reading (object.drop segment.byteStart) segment.numChunks todo) } := by
  obtain ⟨queued, hand, todo, hqueue, ahead, sent⟩ := h.running task (by simp)
  cases ahead
  obtain ⟨data, hread, hsent⟩ := Hashing.next hoffsets hs.rows hs.described hfile sent
  simp only [decodeSegment, found] at hread
  exact h.goes_on task hqueue (.reading hread) (by simpa using hsent)

theorem Flows.decodable (h : Flows faults U g file d)
    (task : d.task = some (.reading reader (left + 1) todo)) {e : String} :
    U.deserializeChunk reader ≠ .error e := by
  intro bad
  obtain ⟨queued, hand, todo, _, ahead, sent⟩ := h.running task (by simp)
  cases ahead with
  | reading reads => simp [decodeFrames, bad] at reads

theorem Flows.decoded (h : Flows faults U g file d)
    (task : d.task = some (.reading reader (left + 1) todo))
    (good : U.deserializeChunk reader = .ok (chunk, rest)) :
    Flows faults U g file { d with task := some (.sending chunk rest left todo) } := by
  obtain ⟨queued, hand, todo, hqueue, ahead, sent⟩ := h.running task (by simp)
  cases ahead with
  | reading reads =>
    simp only [decodeFrames, good, Prod.mk.injEq] at reads
    obtain ⟨rfl, hrest⟩ := reads
    exact h.goes_on task hqueue (.sending (Prod.ext rfl hrest)) sent

theorem Flows.sent (h : Flows faults U g file d)
    (task : d.task = some (.sending chunk reader left todo))
    (queue : body.queue = d.body.queue ++ [.ok chunk])
    (sender : body.senderGone = d.body.senderGone) (receiver : body.receiverGone = false) :
    Flows faults U g file { d with task := some (.reading reader left todo), body := body } := by
  obtain ⟨queued, hand, todo, hqueue, ahead, sent⟩ := h.running task (by simp)
  cases ahead with
  | sending reads =>
    refine ⟨?_, by simp [sender, h.sender, task], receiver⟩
    have hall : body.queue = (queued ++ [chunk]).map .ok := by simp [queue, hqueue]
    simp only [hall]
    exact .running (.reading reads) (by simpa using sent)

theorem Flows.failed (h : Flows faults U g file d) (task : d.task = some (.failing message))
    (queue : body.queue = d.body.queue ++ [.error message])
    (receiver : body.receiverGone = false) :
    Flows faults U g file { d with body := body }.endTask := by
  have hcarries := h.carries
  rw [task] at hcarries
  refine ⟨?_, by simp [LfsDownload.endTask], by simpa [LfsDownload.endTask] using receiver⟩
  simp only [LfsDownload.endTask, Channel.queue_dropSender, queue]
  generalize hq : d.body.queue = all at hcarries
  cases hcarries with
  | running ahead sent => cases ahead
  | failing faulty front => exact .failed faulty front

theorem Flows.turned (h : Flows faults U g file d)
    (task : d.task = some (.reading reader 0 todo)) :
    Flows faults U g file { d with task := some (.between todo) } := by
  obtain ⟨queued, hand, todo, hqueue, ahead, sent⟩ := h.running task (by simp)
  cases ahead with
  | reading reads =>
    cases reads
    exact h.goes_on task hqueue .between sent

theorem Flows.finished (h : Flows faults U g file d) (hs : Sound U g)
    (hfile : FileStored U g.index file) (task : d.task = some (.between [])) :
    Flows faults U g file d.endTask := by
  obtain ⟨queued, hand, todo, hqueue, ahead, sent⟩ := h.running task (by simp)
  cases ahead
  refine ⟨?_, by simp [LfsDownload.endTask], by simpa [LfsDownload.endTask] using h.receiver⟩
  simp only [LfsDownload.endTask, Channel.queue_dropSender, hqueue]
  exact .finished (Hashing.whole hs.described hfile (by simpa using sent))

theorem Flows.faulted (h : Flows faults U g file d) (hs : Sound U g)
    (hfile : FileStored U g.index file) (htask : d.task ≠ none) (faulty : faults) :
    Flows faults U g file { d with task := some (.failing message) } := by
  have hcarries := h.carries
  obtain ⟨decoder, hdecoder⟩ := Option.ne_none_iff_exists'.mp htask
  rw [hdecoder] at hcarries
  obtain ⟨queued, hqueue, hfront⟩ := hcarries.queued hs hfile
  refine ⟨?_, by simp [h.sender, hdecoder], h.receiver⟩
  simp only [hqueue]
  exact .failing faulty hfront

end Task

section Client
variable {chunk : Bytes} {message : String} {body : Body}

theorem Delivers.received (h : Delivers faults U g d) (stage : d.stage = .streaming)
    (queue : d.body.queue = .ok chunk :: body.queue)
    (sender : body.senderGone = d.body.senderGone)
    (receiver : body.receiverGone = d.body.receiverGone) :
    Delivers faults U g { d with body := body, received := d.received ++ [chunk] } := by
  obtain ⟨oid, file, hans, hflows⟩ := h.answered stage
  have hcarries := hflows.carries
  rw [queue] at hcarries
  rw [Delivers]
  simp only [stage]
  exact ⟨oid, file, ⟨hans.linked, hans.head⟩, hcarries.receive,
    by simpa [sender] using hflows.sender, by simpa [receiver] using hflows.receiver⟩

theorem Delivers.broke (h : Delivers faults U g d) (hs : Sound U g) (stage : d.stage = .streaming)
    {queue : List (Except String Bytes)} (hqueue : d.body.queue = .error message :: queue) :
    Delivers faults U g ({ d with body := body }.finish (.broken message)) := by
  obtain ⟨oid, file, hans, hflows⟩ := h.answered stage
  refine hflows.close hs hans (by simp) ?_ (by simp)
  intro _ _
  have hcarries := hflows.carries
  rw [hqueue] at hcarries
  exact hcarries.error_faulty

theorem Delivers.complete (h : Delivers faults U g d) (hs : Sound U g)
    (stage : d.stage = .streaming) (queue : d.body.queue = [])
    (sender : d.body.senderGone = true) :
    Delivers faults U g ({ d with body := body }.finish .complete) := by
  obtain ⟨oid, file, hans, hflows⟩ := h.answered stage
  refine hflows.close hs hans ?_ (by simp) (by simp)
  intro _
  have hcarries := hflows.carries
  have htask : d.task = none := by simpa [hflows.sender] using sender
  rw [queue, htask] at hcarries
  exact hcarries.drained

theorem Delivers.dropped (h : Delivers faults U g d) (hs : Sound U g) (idle : d.stage ≠ .idle)
    (ended : ∀ outcome, d.stage ≠ .ended outcome) :
    Delivers faults U g ({ d with body := body }.finish .gone) := by
  unfold Delivers at h
  split at h
  · rename_i stage
    exact absurd stage idle
  · exact h.refused (.inl rfl)
  · exact h.1.refused (.inl rfl)
  · exact h.1.refused (.inl rfl)
  · obtain ⟨oid, file, hans, hflows⟩ := h
    exact hflows.close hs hans (by simp) (by simp) (by simp)
  · rename_i stage
    exact absurd stage (ended _)

end Client

theorem moves_delivers (hoffsets : U.CumulativeOffsets) (hs : Sound U g)
    (h : DownloadMoves U g permits d act permits' d')
    (hfault : ∀ message, act = .failRead message → faults) (hd : Delivers faults U g d) :
    Delivers faults U g d' := by
  cases h with
  | malformed stage bad => exact hd.malformed stage bad
  | asked stage good => exact hd.asked stage
  | unknown stage absent => exact hd.unknown stage
  | known stage found => exact hd.known stage found
  | unplanned stage bad => exact absurd bad (hd.plannable hoffsets hs stage)
  | planned stage good => exact hd.planned stage good
  | permit stage free => exact hd.permitted stage
  | unread stage => exact hd.unread (hfault _ rfl) stage
  | missing task absent =>
    refine hd.task_moved (by simp [task]) rfl rfl rfl (fun oid file hlinked hflows => ?_)
    exact absurd absent (hflows.present hoffsets hs (hlinked.stored hs) task)
  | opened task found =>
    refine hd.task_moved (by simp [task]) rfl rfl rfl (fun oid file hlinked hflows => ?_)
    exact hflows.opened hoffsets hs (hlinked.stored hs) task found
  | undecodable task bad =>
    refine hd.task_moved (by simp [task]) rfl rfl rfl (fun oid file hlinked hflows => ?_)
    exact absurd bad (hflows.decodable task)
  | decoded task good =>
    refine hd.task_moved (by simp [task]) rfl rfl rfl (fun oid file hlinked hflows => ?_)
    exact hflows.decoded task good
  | sent task here queue sender receiver =>
    refine hd.task_moved (by simp [task]) rfl rfl rfl (fun oid file hlinked hflows => ?_)
    exact hflows.sent task queue sender receiver
  | unsent task gone =>
    refine hd.task_moved (by simp [task]) rfl rfl rfl (fun oid file hlinked hflows => ?_)
    exact absurd (gone.symm.trans hflows.receiver) (by simp)
  | failed task here queue receiver =>
    refine hd.task_moved (by simp [task]) rfl rfl rfl (fun oid file hlinked hflows => ?_)
    exact hflows.failed task queue receiver
  | failedGone task gone =>
    refine hd.task_moved (by simp [task]) rfl rfl rfl (fun oid file hlinked hflows => ?_)
    exact absurd (gone.symm.trans hflows.receiver) (by simp)
  | turned task =>
    refine hd.task_moved (by simp [task]) rfl rfl rfl (fun oid file hlinked hflows => ?_)
    exact hflows.turned task
  | finished task =>
    refine hd.task_moved (by simp [task]) rfl rfl rfl (fun oid file hlinked hflows => ?_)
    exact hflows.finished hs (hlinked.stored hs) task
  | faulted task =>
    have htask : d.task ≠ none := by
      rcases task with ⟨_, _, task⟩ | ⟨_, _, _, task⟩ <;> simp [task]
    refine hd.task_moved htask rfl rfl rfl (fun oid file hlinked hflows => ?_)
    exact hflows.faulted hs (hlinked.stored hs) htask (hfault _ rfl)
  | received stage queue sender receiver => exact hd.received stage queue sender receiver
  | broke stage queue sender => exact hd.broke hs stage queue
  | completed stage queue sender => exact hd.complete hs stage queue sender
  | dropped idle ended => exact hd.dropped hs idle ended

end Step

variable {D : Deployment} {s : Service}

/-- Upload handlers run until they return; reads under a download fail at most
where `faults` hold. -/
def Faulty (faults : Prop) (s : Service) (a : Service.Act) : Prop :=
  Service.NoDrop s a ∧ ∀ i message, a = .download i (.failRead message) → faults

theorem reachable_delivers (faults : Prop) (hdecode : D.upstream.FramesDecode)
    (hhex : D.upstream.HexRoundTrip) (h : (Service.machine D).Reachable (Faulty faults) s) (i : Nat) :
    Delivers faults D.upstream s.server.state (s.downloads i) := by
  revert i
  refine h.invariant
    (I := fun s => ∀ i, Delivers faults D.upstream s.server.state (s.downloads i)) ?_ ?_
  · intro s hsame i
    subst hsame
    exact ⟨rfl, rfl, rfl⟩
  · intro s a t hreach hi hok hstep j
    have hserver := Service.reachable_server (hreach.weaken (fun _ _ h => h.1))
    have hs := reachable_sound hdecode hhex hserver
    cases Service.step_moves hstep with
    | crash turn => exact ⟨rfl, rfl, rfl⟩
    | @server act t up turn =>
      have hs' := reachable_sound hdecode hhex (hserver.next act hok.1 turn)
      exact (hi j).keeps (step_keeps hhex hserver turn) hs hs'
    | @download i act permits d turn =>
      rcases eq_or_ne j i with rfl | hj
      · simp only [Function.update_self]
        refine moves_delivers hdecode.cumulativeOffsets hs (downloadStep_moves turn) ?_ (hi j)
        intro message he
        exact hok.2 j message (by rw [he])
      · simp only [Function.update_of_ne hj]
        exact hi j

/-- Whatever a client has of a download is the front of a content whose SHA-256
it asked for, whose length it was told, and which it has whole once the body
ends without an error. -/
theorem download_exact (hdecode : D.upstream.FramesDecode) (hhex : D.upstream.HexRoundTrip)
    (h : (Service.machine D).Reachable Service.NoDrop s) {i : Nat} {oid : String}
    {length : UInt64} (hhead : (s.downloads i).head = some (oid, length)) :
    ∃ file, Linked s.server.state oid file ∧
      D.upstream.sha256Hex (contentOf D.upstream s.server.state file) = oid ∧
      (contentOf D.upstream s.server.state file).length = length.toNat ∧
      (s.downloads i).received.flatten <+: contentOf D.upstream s.server.state file ∧
      ((s.downloads i).stage = .ended .complete →
        (s.downloads i).received.flatten = contentOf D.upstream s.server.state file) := by
  have hs := reachable_sound hdecode hhex (Service.reachable_server h)
  have hd := reachable_delivers True hdecode hhex
    (h.weaken (fun _ _ h => ⟨h, fun _ _ _ => trivial⟩)) i
  have hnot : ¬Unanswered (s.downloads i) := by
    intro hun
    rw [hun.head] at hhead
    cases hhead
  have hlength : ∀ {oid' file}, Answered s.server.state (s.downloads i) oid' file →
      oid' = oid ∧ (contentOf D.upstream s.server.state file).length = length.toNat := by
    intro oid' file hans
    have hsame := hans.head.symm.trans hhead
    simp only [Option.some.injEq, Prod.mk.injEq] at hsame
    rw [← hsame.2]
    exact ⟨hsame.1, length_contentOf hdecode.cumulativeOffsets hs.rows hs.described
      (hans.linked.stored hs)⟩
  unfold Delivers at hd
  split at hd
  · exact absurd hd hnot
  · exact absurd hd hnot
  · exact absurd hd.1 hnot
  · exact absurd hd.1 hnot
  · rename_i stage
    obtain ⟨oid', file, hans, hflows⟩ := hd
    obtain ⟨rfl, hlen⟩ := hlength hans
    refine ⟨file, hans.linked, hans.linked.named hs, hlen,
      hflows.carries.front hs (hans.linked.stored hs), ?_⟩
    rw [stage]
    simp
  · rename_i outcome stage
    rcases hd with hrefused | ⟨oid', file, hans, hclosed⟩
    · exact absurd hrefused.1 hnot
    · obtain ⟨rfl, hlen⟩ := hlength hans
      refine ⟨file, hans.linked, hans.linked.named hs, hlen, hclosed.front, ?_⟩
      rw [stage]
      intro hcomplete
      cases hcomplete
      exact hclosed.whole rfl

/-- The letter is delivered. -/
theorem letter_delivered : ∃ s, (Service.machine Server.sampleServer).Reachable Service.NoDrop s ∧
    (s.downloads 0).head = some (Formats.letterOid, 1) ∧ (s.downloads 0).received = [[65]] ∧
    ∃ file, Linked s.server.state Formats.letterOid file ∧
      Server.sampleServer.upstream.sha256Hex
        (contentOf Server.sampleServer.upstream s.server.state file) = Formats.letterOid ∧
      (contentOf Server.sampleServer.upstream s.server.state file).length = (1 : UInt64).toNat ∧
      (s.downloads 0).received.flatten <+:
        contentOf Server.sampleServer.upstream s.server.state file ∧
      ((s.downloads 0).stage = .ended .complete → (s.downloads 0).received.flatten =
        contentOf Server.sampleServer.upstream s.server.state file) := by
  obtain ⟨s, _, hs, hend⟩ := Service.sample_reaches (.start rfl)
    (fun s => (s.downloads 0).head == some (Formats.letterOid, 1) &&
      (s.downloads 0).received == [[65]])
    (Service.registerLetter ++ Service.askLetter 0 ++ Service.decodeLetter 0 ++
      Service.receiveLetter 0) (by decide +kernel)
  rw [Bool.and_eq_true, beq_iff_eq, beq_iff_eq] at hend
  have hreach : (Service.machine Server.sampleServer).Reachable Service.NoDrop s :=
    hs.weaken (fun _ _ h => h.1)
  exact ⟨s, hreach, hend.1, hend.2, download_exact (Formats.documented_framesDecode _)
    (Formats.documented_hexRoundTrip _) hreach hend.1⟩

/-- While no read fails, no body breaks off, and a request is refused only
because its oid is malformed or unknown. -/
theorem download_unbroken (hdecode : D.upstream.FramesDecode) (hhex : D.upstream.HexRoundTrip)
    (h : (Service.machine D).Reachable Service.NoFault s) {i : Nat} {outcome : Outcome}
    (hended : (s.downloads i).stage = .ended outcome) :
    outcome = .complete ∨ outcome = .gone ∨ outcome = .refused .notFound ∨
      ∃ message, outcome = .refused (.badRequest message) := by
  have hd := reachable_delivers False hdecode hhex
    (h.weaken (fun _ _ h => ⟨h.1, h.2⟩)) i
  rw [Delivers, hended] at hd
  rcases hd with ⟨_, hgone | ⟨e, rfl, hfalse | rfl | ⟨message, rfl⟩⟩⟩ | ⟨oid, file, hans, hclosed⟩
  · exact .inr (.inl hgone)
  · exact hfalse.elim
  · exact .inr (.inr (.inl rfl))
  · exact .inr (.inr (.inr ⟨message, rfl⟩))
  · cases outcome with
    | complete => exact .inl rfl
    | gone => exact .inr (.inl rfl)
    | broken message => exact (hclosed.broken message rfl).elim
    | refused e => exact absurd rfl (hclosed.answered e)

end Xetcas.Proofs.Delivery
