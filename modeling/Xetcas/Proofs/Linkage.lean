import Xetcas.Routes.Lfs
import Xetcas.Server

namespace Xetcas.Proofs.Linkage
open Lib Server Routes

/-- What a registered oid is good for. -/
structure Served (U : Upstream) (state : AppState) (oid : String) : Prop where
  registered : (state.index.fileBySha256 oid).isSome
  downloads : Lfs.download U state oid ≠ .error .notFound
  /-- A batch that offers xet lists the object with neither action nor error. -/
  stored : ∀ (request : LfsBatchRequest) auth env (k : Nat) spec,
    request.transfers.any (· == TRANSFER_XET) = true → request.objects[k]? = some spec →
      spec.oid = oid → (Lfs.uploadBatch state request auth env).objects[k]? =
        some ⟨oid, spec.size, false, .empty, none⟩

/-- A row with the oid is all it takes. -/
theorem served_of_registered {U : Upstream} {state : AppState} {oid : String}
    (h : (state.index.fileBySha256 oid).isSome) : Served U state oid := by
  obtain ⟨file, hfile⟩ := Option.isSome_iff_exists.mp h
  refine ⟨h, ?_, ?_⟩
  · intro hmissing
    unfold Lfs.download at hmissing
    rcases bind_eq_error.mp hmissing with hrequest | ⟨_, _, hfound⟩
    · cases hspec : validateLfsObjectSpec ⟨oid, 0⟩ with
      | ok _ => simp [hspec, checkRequest] at hrequest
      | error e => simp [hspec, checkRequest] at hrequest
    · simp only [hfile] at hfound
      rcases bind_eq_error.mp hfound with hstream | ⟨_, _, hdone⟩
      · rcases bind_eq_error.mp hstream with hplan | ⟨_, _, hemit⟩
        · obtain ⟨message, he⟩ := Filestream.planSegments_error hplan
          cases he
        · cases hemit
      · cases hdone
  · intro request auth env k spec hoffers hspec hoid
    simp [Lfs.uploadBatch, hoffers, hspec, Lfs.uploadObject, hoid, h]

def Recorded (index : Index) (oid : String) : Prop :=
  ∃ fileHash row, index.files.get? fileHash = some row ∧ row.sha256 = some oid

/-- Some file of the list brings the oid, under a hash that is free, and no file
before it takes the hash. -/
def Brings (index : Index) (files : List FileRecord) (oid : String) : Prop :=
  ∃ before file after, files = before ++ file :: after ∧ file.sha256 = oid ∧
    index.files.get? file.fileHash = none ∧ ∀ other ∈ before, other.fileHash ≠ file.fileHash

/-- An oid has a row afterwards when it had one before, or comes with a file
whose hash was free. -/
theorem putFiles_recorded {index : Index} {files : List FileRecord} (chunks : List ChunkIndexEntry)
    {oid : String} (hoid : oid.isEmpty = false) :
    Recorded (index.putFiles files chunks).1 oid ↔ Recorded index oid ∨ Brings index files oid := by
  constructor
  · intro hparts
    obtain ⟨fileHash, row, hrow, hsha⟩ := hparts
    rcases Index.putFiles_get?.mp hrow with hold | ⟨hfree, before, file, after, hfiles, rfl, rfl, hfirst⟩
    · exact .inl ⟨fileHash, row, hold, hsha⟩
    · refine .inr ⟨before, file, after, hfiles, ?_, hfree, hfirst⟩
      cases he : file.sha256.isEmpty with
      | true => simp [Index.fileRow, he] at hsha
      | false => simpa [Index.fileRow, he] using hsha
  · intro hparts
    rcases hparts with ⟨fileHash, row, hrow, hsha⟩ | ⟨before, file, after, hfiles, rfl, hfree, hfirst⟩
    · exact ⟨fileHash, row, Index.putFiles_get?.mpr (.inl hrow), hsha⟩
    · refine ⟨file.fileHash, Index.fileRow file, Index.putFiles_get?.mpr (.inr ⟨hfree, before, file, after,
        hfiles, rfl, rfl, hfirst⟩), ?_⟩
      simp [Index.fileRow, hoid]

variable {D : Deployment} {s s' : Server}

/-- The step that answers a shard upload with 200 is the end of its insert. -/
theorem answered {a : Server.Act} {i : Nat} {response : UploadShardResponse}
    (hs : Server.step D s a = some s') (hbefore : (s.shardUploads i).answer = none)
    (hafter : (s'.shardUploads i).answer = some (.ok response)) :
    ∃ files chunks, (s.shardUploads i).task = some (files, chunks) ∧
      s'.state.index = (s.state.index.putFiles files chunks).1 := by
  cases step_moves hs with
  | xorb turn => simp [hbefore] at hafter
  | crash => simp [boot, Shards.ShardUpload.none] at hafter
  | @shard j act g u turn =>
    rcases eq_or_ne i j with rfl | hne
    · simp only [Function.update_self] at hafter
      cases Shards.shardStep_moves turn with
      | inserted task stage => exact ⟨_, _, task, rfl⟩
      | refused freed => simp [Shards.ShardUpload.return_] at hafter
      | _ => simp [hbefore] at hafter
    · simp [hne, hbefore] at hafter

/-- An oid is served from the 200 of a shard upload on exactly when it was
recorded before, or comes with a file whose hash was free. -/
theorem accepted_oid_served_iff (s s' : Server) (a : Server.Act) (i : Nat)
    (response : UploadShardResponse) (files : List FileRecord) (chunks : List ChunkIndexEntry)
    (oid : String) (hs : Server.step D s a = some s') (hbefore : (s.shardUploads i).answer = none)
    (hafter : (s'.shardUploads i).answer = some (.ok response))
    (htask : (s.shardUploads i).task = some (files, chunks)) (hoid : oid.isEmpty = false) :
    (∀ t, (machine D).Run Machine.anyStep s' t → Served D.upstream t.state oid) ↔
      Recorded s.state.index oid ∨ Brings s.state.index files oid := by
  obtain ⟨files', chunks', htask', hindex⟩ := answered hs hbefore hafter
  rw [htask] at htask'
  cases htask'
  rw [← putFiles_recorded chunks hoid, ← hindex]
  constructor
  · intro h
    exact Index.fileBySha256_isSome.mp (h s' .refl).registered
  · intro hparts t hrun
    obtain ⟨fileHash, row, hrow, hsha⟩ := hparts
    apply served_of_registered
    exact Index.fileBySha256_isSome.mpr ⟨fileHash, row, (run_grows hrun).files _ _ hrow, hsha⟩

/-- What the end of an insert is checked for: it answers 200, and the first file
of the shard has this oid. -/
def answersOid (i : Nat) (oid : String) (s : Server) : Bool :=
  match Server.step sampleServer s (.shard i .inserted), (s.shardUploads i).task with
  | some s', some (file :: _, _) => (s.shardUploads i).answer.isNone && file.sha256 == oid &&
    (s'.shardUploads i).answer.any Except.isOk
  | _, _ => false

theorem answersOid_step {i : Nat} {oid : String} {s : Server} (h : answersOid i oid s = true) :
    ∃ s' response file files chunks, Server.step sampleServer s (.shard i .inserted) = some s' ∧
      (s.shardUploads i).answer = none ∧ (s'.shardUploads i).answer = some (.ok response) ∧
      (s.shardUploads i).task = some (file :: files, chunks) ∧ file.sha256 = oid := by
  unfold answersOid at h
  split at h
  · rename_i s' file files chunks hs htask
    simp only [Bool.and_eq_true, Option.isNone_iff_eq_none, beq_iff_eq, Option.any_eq_true] at h
    obtain ⟨⟨hnone, hoid⟩, answer, hanswer, hok⟩ := h
    cases answer with
    | ok response => exact ⟨s', response, file, files, chunks, hs, hnone, hanswer, htask, hoid⟩
    | error e => cases hok
  · cases h

/-- The letter's oid is served once its file is registered with it. -/
theorem letter_served : ∃ s, (machine sampleServer).Reachable Machine.anyStep s ∧
    ∀ t, (machine sampleServer).Run Machine.anyStep s t →
      Served sampleServer.upstream t.state Formats.letterOid := by
  obtain ⟨s, hrun, hend⟩ := Machine.exec_reaches (machine sampleServer) Machine.anyStep
    (fun _ _ => true)
    (fun s => answersOid 0 Formats.letterOid s &&
      (s.state.index.files.get? (Formats.hex Formats.letterFileHash)).isNone &&
      ((s.shardUploads 0).task.any (fun t => (t.1.head?.map FileRecord.fileHash) ==
        some (Formats.hex Formats.letterFileHash))))
    (fun _ _ _ => trivial) (boot sampleServer .fresh (fun _ => none))
    (sendLetter 0 Formats.plainBody ++ checkLetter 0 ++ storeLetter 0 ++
      registerLetter 0 (some Formats.letterMetadata)) (by decide +kernel)
  simp only [Bool.and_eq_true, Option.isNone_iff_eq_none] at hend
  obtain ⟨⟨hanswers, hfree⟩, hhash⟩ := hend
  obtain ⟨s', response, file, files, chunks, hs, hbefore, hafter, htask, hoid⟩ :=
    answersOid_step hanswers
  simp only [htask, Option.any_some, List.head?_cons, Option.map_some, beq_iff_eq,
    Option.some.injEq] at hhash
  have hreach : (machine sampleServer).Reachable Machine.anyStep s := ⟨_, rfl, hrun⟩
  refine ⟨s', hreach.next (.shard 0 .inserted) trivial hs, ?_⟩
  apply (accepted_oid_served_iff s s' _ 0 response _ chunks Formats.letterOid hs hbefore hafter
    htask (by decide +kernel)).mpr
  exact .inr ⟨[], file, files, rfl, hoid, by rw [hhash, hfree], by simp⟩

/-- A file is registered without its SHA-256 and then with it: both uploads are
answered 200, and the oid is not found. -/
theorem accepted_oid_missing : ∃ s, (machine sampleServer).Reachable Machine.anyStep s ∧
    ∃ s' response file files chunks,
      Server.step sampleServer s (.shard 1 .inserted) = some s' ∧
      (s.shardUploads 1).answer = none ∧ (s'.shardUploads 1).answer = some (.ok response) ∧
      (s.shardUploads 1).task = some (file :: files, chunks) ∧ file.sha256 = Formats.letterOid ∧
      s'.state.index.fileBySha256 Formats.letterOid = none := by
  obtain ⟨s, hrun, hend⟩ := Machine.exec_reaches (machine sampleServer) Machine.anyStep
    (fun _ _ => true)
    (fun s => answersOid 1 Formats.letterOid s &&
      (Server.step sampleServer s (.shard 1 .inserted)).any
        (fun s' => (s'.state.index.fileBySha256 Formats.letterOid).isNone))
    (fun _ _ _ => trivial) (boot sampleServer .fresh (fun _ => none))
    (sendLetter 0 Formats.plainBody ++ checkLetter 0 ++ storeLetter 0 ++ registerLetter 0 none ++
      [.shard 0 .inserted] ++ registerLetter 1 (some Formats.letterMetadata)) (by decide +kernel)
  simp only [Bool.and_eq_true] at hend
  obtain ⟨s', response, file, files, chunks, hs, hbefore, hafter, htask, hoid⟩ :=
    answersOid_step hend.1
  refine ⟨s, ⟨_, rfl, hrun⟩, s', response, file, files, chunks, hs, hbefore, hafter, htask, hoid, ?_⟩
  simpa [hs] using hend.2

end Xetcas.Proofs.Linkage
