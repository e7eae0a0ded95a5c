import Xetcas.Proofs.Identity

namespace Xetcas.Proofs.Skipped
open Lib Server Routes Identity Content

section Answer
variable {state : AppState} {auth : Option String} {env : Lfs.Ambient} {spec : LfsObjectSpec}

/-- Neither action nor error: git-lfs takes the object as stored. -/
def Skips (object : LfsBatchObject) : Prop := object.actions.rows = [] ∧ object.error = none

/-- An object is skipped when a row has its oid, and in no other case. -/
theorem uploadObject_skips {offersXet : Bool} {i : Nat} :
    Skips (Lfs.uploadObject state offersXet auth env spec i) ↔
      offersXet = true ∧ (state.index.fileBySha256 spec.oid).isSome = true := by
  unfold Lfs.uploadObject
  cases offersXet with
  | false => simp [Skips]
  | true =>
    cases hlinked : (state.index.fileBySha256 spec.oid).isSome with
    | true => simp [Skips, Table.empty]
    | false => simp [Skips, Table.insertOrIgnore_new Table.get?_empty]

/-- What a batch of the operation `upload` answers for each of its objects. -/
theorem batch_objects {request : LfsBatchRequest} {response : LfsBatchResponse}
    (hupload : request.operation = "upload") (h : Lfs.batch state request auth env = .ok response)
    {k : Nat} {object : LfsBatchObject} (hspec : request.objects[k]? = some spec)
    (hobject : response.objects[k]? = some object) :
    object = Lfs.uploadObject state (request.transfers.any (· == TRANSFER_XET)) auth env spec k := by
  obtain ⟨_, h⟩ := check_eq_ok.mp h
  obtain ⟨response', hresponse, h⟩ := bind_eq_ok.mp h
  rw [if_pos hupload] at hresponse
  cases hresponse
  obtain ⟨_, h⟩ := check_eq_ok.mp h
  cases h
  simp only [Lfs.uploadBatch, List.getElem?_map, List.getElem?_zipIdx, hspec, Option.map_some,
    Nat.zero_add, Option.some.injEq] at hobject
  exact hobject.symm

end Answer

variable {D : Deployment} {s t : Server}

/-- An oid that some row has, keeps a row. -/
theorem linked_stays {ok : Server → Server.Act → Prop} (hrun : (machine D).Run ok s t) {oid : String}
    (h : (s.state.index.fileBySha256 oid).isSome = true) :
    (t.state.index.fileBySha256 oid).isSome = true := by
  obtain ⟨fileHash, row, hrow, hsha⟩ := Index.fileBySha256_isSome.mp h
  exact Index.fileBySha256_isSome.mpr ⟨fileHash, row, (run_grows hrun).files _ _ hrow, hsha⟩

/-- What git-lfs does not upload, the server can give back, now and later: the
object's own bytes, as many as announced. -/
theorem skipped_objects_download (hdecode : D.upstream.FramesDecode)
    (hhex : D.upstream.HexRoundTrip) (h : (machine D).Reachable NoDrop s)
    (request : LfsBatchRequest) (auth : Option String) (env : Lfs.Ambient)
    (response : LfsBatchResponse) (hupload : request.operation = "upload")
    (hanswer : Lfs.batch s.state request auth env = .ok response)
    (k : Nat) (spec : LfsObjectSpec) (object : LfsBatchObject)
    (hspec : request.objects[k]? = some spec) (hobject : response.objects[k]? = some object)
    (hskips : Skips object) (t : Server) (hrun : (machine D).Run NoDrop s t) :
    ∃ length chunks,
      Lfs.download D.upstream t.state spec.oid = .ok ⟨length, chunks, none⟩ ∧
      D.upstream.sha256Hex chunks.flatten = spec.oid ∧
      chunks.flatten.length = length.toNat := by
  rw [batch_objects hupload hanswer hspec hobject, uploadObject_skips] at hskips
  obtain ⟨file, hlinked⟩ := Option.isSome_iff_exists.mp (linked_stays hrun hskips.2)
  obtain ⟨_, hname, hserved, hlength, hchunks⟩ :=
    (reachable_sound hdecode hhex (h.extend hrun)).download hdecode.cumulativeOffsets hlinked
  refine ⟨file.fileLength, fileChunks D.upstream t.state file, hserved, ?_, ?_⟩
  · rw [← hchunks, ← hname]
  · rw [← hchunks, hlength]

/-- A batch that offers xet and asks for the letter. -/
def letterBatch : LfsBatchRequest := ⟨"upload", [TRANSFER_XET], none, [⟨Formats.letterOid, 1⟩], ""⟩

def letterAmbient : Lfs.Ambient := ⟨3, fun _ => "session"⟩

/-- Once the letter is registered, a batch skips it. -/
def skipsLetter (s : Server) : Bool :=
  match Lfs.batch s.state letterBatch none letterAmbient with
  | .ok response => response.objects[0]?.any (fun object =>
      object.actions.rows.isEmpty && object.error.isNone)
  | .error _ => false

theorem skipped_letter_downloads : ∃ s, (machine sampleServer).Reachable NoDrop s ∧
    ∃ length chunks,
      Lfs.download sampleServer.upstream s.state Formats.letterOid = .ok ⟨length, chunks, none⟩ ∧
      sampleServer.upstream.sha256Hex chunks.flatten = Formats.letterOid ∧
      chunks.flatten.length = length.toNat := by
  obtain ⟨s, hrun, hend⟩ := Machine.exec_reaches (machine sampleServer) NoDrop
    (fun _ a => !isDrop a) skipsLetter (fun _ _ h => by simpa [NoDrop] using h)
    (boot sampleServer .fresh (fun _ => none))
    (sendLetter 0 Formats.plainBody ++ checkLetter 0 ++ storeLetter 0 ++
      registerLetter 0 (some Formats.letterMetadata) ++ [.shard 0 .inserted]) (by decide +kernel)
  have hreach : (machine sampleServer).Reachable NoDrop s := ⟨_, rfl, hrun⟩
  unfold skipsLetter at hend
  split at hend
  · rename_i response hanswer
    obtain ⟨object, hobject, hskips⟩ := (Option.any_eq_true _ _).mp hend
    rw [Bool.and_eq_true, List.isEmpty_iff, Option.isNone_iff_eq_none] at hskips
    exact ⟨s, hreach, skipped_objects_download (Formats.documented_framesDecode _)
      (Formats.documented_hexRoundTrip _) hreach letterBatch none letterAmbient response rfl hanswer
      0 ⟨Formats.letterOid, 1⟩ object rfl hobject hskips s .refl⟩
  · cases hend

end Xetcas.Proofs.Skipped
