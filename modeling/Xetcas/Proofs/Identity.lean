import Mathlib.Data.Set.Function
import Xetcas.Proofs.Verified

namespace Xetcas.Proofs.Identity
open Lib Server Routes Routes.Shards Agreement Registration Reconstructable Content Verified
variable {U : Upstream} {state state' : AppState} {file : FileRecord}

/-- What a file hash is computed from: the hash and length of each chunk. -/
def leaf (U : Upstream) (chunk : Bytes) : MerkleHash × UInt64 :=
  (U.computeDataHash chunk, UInt64.ofNat chunk.length)

section Names

/-- What the record says of a chunk is true of it. -/
theorem chunkAt_leaf {object : Bytes} {record : XorbRecord} {frames chunks : List Bytes}
    (h : Describes U object record frames chunks) (hg : (XorbMeta.fromRecord record).Geometry)
    {i : Nat} (hi : i < chunks.length) :
    chunkAt record i = .ok (leaf U (chunks.getD i [])) := by
  obtain ⟨len, hlen, hsize⟩ := hg.chunkLen_eq (i := i) (h.lengths.2.1.symm ▸ hi)
  have hval : len.toUInt64 = UInt64.ofNat (chunks.getD i []).length := by
    rw [h.size_eq hi] at hsize
    have hsmall := len.toNat_lt
    apply UInt64.toNat_inj.mp
    rw [UInt32.toNat_toUInt64, UInt64.toNat_ofNat_of_lt' (by unfold UInt64.size; omega), hsize]
  simp [chunkAt, h.chunkHashAt_eq hi, hlen, hval, leaf, orBadRequest, bind, Except.bind]

/-- The chunks that a term was checked with are the ones it stands for. -/
theorem termStored_leaves (hoffsets : U.CumulativeOffsets) (hrows : Rows U state.index)
    (hd : Described U state) {term : FileTermRecord} {leaves : List (MerkleHash × UInt64)}
    {record : XorbRecord} (h : TermStored state.index term leaves record) :
    leaves = (termChunks U state term).map (leaf U) := by
  obtain ⟨object, frames, _, hdescribes⟩ := stored_describes hd h.stored
  have hg := (row_stored hoffsets hrows h.stored).geometry
  have hinside : term.chunkIndexEnd.toNat ≤ (XorbMeta.fromRecord record).numChunks.toNat := h.inside
  have hfits := hinside.trans (XorbMeta.fromRecord record).numChunks_le
  replace hfits := hdescribes.lengths.2.1 ▸ hfits
  have hread : (List.range' term.chunkIndexStart.toNat
      (term.chunkIndexEnd.toNat - term.chunkIndexStart.toNat)).mapM (chunkAt record) = .ok
        ((List.Ico term.chunkIndexStart.toNat term.chunkIndexEnd.toNat).map
          (fun i => leaf U ((storedChunks U state term.xorbHash).getD i []))) := by
    apply mapM_eq_map
    intro i hi
    have hlt := (List.Ico.mem.mp hi).2
    exact chunkAt_leaf hdescribes hg (by omega)
  rw [h.chunks] at hread
  cases hread
  rw [termChunks, piecesIn_map hfits, List.map_map]
  rfl

/-- A file's name is the hash of its chunks. -/
theorem file_named (hoffsets : U.CumulativeOffsets) (hrows : Rows U state.index)
    (hd : Described U state) (hfile : FileStored U state.index file) :
    file.fileHash = U.hex (U.fileHash ((fileChunks U state file).map (leaf U))) := by
  obtain ⟨leaves, hterms, hhash⟩ := hfile.terms
  have hleaves : List.Forall₂ Eq (file.terms.map (fun term =>
      (termChunks U state term).map (leaf U))) leaves := by
    apply List.forall₂_map_left_iff.mpr
    apply hterms.imp
    intro term leaves hterm
    obtain ⟨record, hstored⟩ := hterm
    exact (termStored_leaves hoffsets hrows hd hstored).symm
  rw [List.forall₂_eq_eq_eq] at hleaves
  rw [← hhash, ← hleaves, fileChunks, List.map_flatten, List.map_map]
  rfl

/-- An oid on record is the hash of the whole content. -/
theorem oid_named (hrows : Rows U state.index) (hv : OidsVerified U state) {oid : String}
    (hlinked : state.index.fileBySha256 oid = some file) :
    isHashHex oid = true ∧ FileStored U state.index file ∧
      oid = U.sha256Hex (contentOf U state file) := by
  obtain ⟨fileHash, row, hrow, hoid, rfl⟩ := Index.fileBySha256_some hlinked
  obtain ⟨hrecord, _, hfile⟩ := hrows.files hrow
  refine ⟨?_, hfile, (hv fileHash row oid hrow hoid).symm⟩
  have hsha := file_sha256 hfile.valid
  rw [hrecord] at hoid
  unfold Index.fileRow at hoid
  split at hoid
  · cases hoid
  · rename_i hnonempty
    cases hoid
    simpa [hnonempty] using hsha

end Names

def Registered (state : AppState) (file : FileRecord) : Prop :=
  ∃ fileHash row, state.index.files.get? fileHash = some row ∧ row.record = file

/-- The chunks, chunk lists and contents of registered files. -/
def chunksHeld (U : Upstream) (state : AppState) : Set Bytes :=
  {chunk | ∃ file, Registered state file ∧ chunk ∈ fileChunks U state file}

def leavesHeld (U : Upstream) (state : AppState) : Set (List (MerkleHash × UInt64)) :=
  {leaves | ∃ file, Registered state file ∧ leaves = (fileChunks U state file).map (leaf U)}

def contentsHeld (U : Upstream) (state : AppState) : Set Bytes :=
  {content | ∃ file, Registered state file ∧ content = contentOf U state file}

/-- No two different things registered in these states have one hash. -/
structure CollisionFree (U : Upstream) (state state' : AppState) : Prop where
  chunks : Set.InjOn U.computeDataHash (chunksHeld U state ∪ chunksHeld U state')
  files : Set.InjOn U.fileHash (leavesHeld U state ∪ leavesHeld U state')
  contents : Set.InjOn U.sha256Hex (contentsHeld U state ∪ contentsHeld U state')

/-- Lists that a function takes to the same list, and does not merge any of
their elements, are the same. -/
theorem map_injOn {α β : Type} {f : α → β} {held : Set α} (hf : Set.InjOn f held)
    {xs ys : List α} (hx : ∀ x ∈ xs, x ∈ held) (hy : ∀ y ∈ ys, y ∈ held)
    (h : xs.map f = ys.map f) : xs = ys := by
  induction xs generalizing ys with
  | nil =>
    cases ys with
    | nil => rfl
    | cons y ys => cases h
  | cons x xs ih =>
    cases ys with
    | nil => cases h
    | cons y ys =>
      rw [List.map_cons, List.map_cons, List.cons.injEq] at h
      have hhead := hf (hx x (by simp)) (hy y (by simp)) h.1
      have htail := ih (fun z hz => hx z (by simp [hz])) (fun z hz => hy z (by simp [hz])) h.2
      rw [hhead, htail]

section Same
variable {file' : FileRecord}

/-- Files of one name have the same chunks. -/
theorem same_chunks (hinj : U.HexInjective) (hfree : CollisionFree U state state')
    (hreg : Registered state file) (hreg' : Registered state' file')
    (hnames : U.hex (U.fileHash ((fileChunks U state file).map (leaf U))) =
      U.hex (U.fileHash ((fileChunks U state' file').map (leaf U)))) :
    fileChunks U state file = fileChunks U state' file' := by
  have hleaves := hfree.files (.inl ⟨file, hreg, rfl⟩) (.inr ⟨file', hreg', rfl⟩)
    (hinj _ _ hnames)
  have hhashes := congrArg (List.map Prod.fst) hleaves
  rw [List.map_map, List.map_map] at hhashes
  exact map_injOn hfree.chunks (fun c hc => .inl ⟨file, hreg, hc⟩)
    (fun c hc => .inr ⟨file', hreg', hc⟩) hhashes

end Same

/-- What the downloads of a state rest on. -/
structure Sound (U : Upstream) (state : AppState) : Prop where
  rows : Rows U state.index
  described : Described U state
  verified : OidsVerified U state

theorem Sound.download (h : Sound U state) (hoffsets : U.CumulativeOffsets) {oid : String}
    (hlinked : state.index.fileBySha256 oid = some file) :
    Registered state file ∧ oid = U.sha256Hex (contentOf U state file) ∧
      Lfs.download U state oid = .ok ⟨file.fileLength, fileChunks U state file, none⟩ ∧
      (contentOf U state file).length = file.fileLength.toNat ∧
      contentOf U state file = (fileChunks U state file).flatten := by
  obtain ⟨hoid, hfile, hname⟩ := oid_named h.rows h.verified hlinked
  obtain ⟨fileHash, row, hrow, _, hrecord⟩ := Index.fileBySha256_some hlinked
  exact ⟨⟨fileHash, row, hrow, hrecord⟩, hname,
    download_streams hoid hlinked (streamFile_chunks hoffsets h.rows h.described hfile),
    length_contentOf hoffsets h.rows h.described hfile, contentOf_chunks h.described hfile⟩

variable {D : Deployment} {s t : Server}

theorem reachable_sound (hdecode : D.upstream.FramesDecode) (hhex : D.upstream.HexRoundTrip)
    (h : (machine D).Reachable NoDrop s) : Sound D.upstream s.state :=
  ⟨reachable_rows h, reachable_described hdecode hhex h, reachable_verified hdecode hhex h⟩

/-- Whatever clients have sent to two servers, an identifier that both of them
know stands for the same bytes. -/
theorem identifiers_stand_for_content (hdecode : D.upstream.FramesDecode)
    (hhex : D.upstream.HexRoundTrip) (hinj : D.upstream.HexInjective)
    (hs : (machine D).Reachable NoDrop s) (ht : (machine D).Reachable NoDrop t)
    (hfree : CollisionFree D.upstream s.state t.state) :
    (∀ fileHash row row', s.state.index.files.get? fileHash = some row →
      t.state.index.files.get? fileHash = some row' →
        ∃ chunks, streamFile D.upstream s.state row.record = .ok (chunks, none) ∧
          streamFile D.upstream t.state row'.record = .ok (chunks, none)) ∧
      ∀ oid, (s.state.index.fileBySha256 oid).isSome → (t.state.index.fileBySha256 oid).isSome →
        ∃ len chunks chunks', Lfs.download D.upstream s.state oid = .ok ⟨len, chunks, none⟩ ∧
          Lfs.download D.upstream t.state oid = .ok ⟨len, chunks', none⟩ ∧
          chunks.flatten = chunks'.flatten := by
  have hoffsets := hdecode.cumulativeOffsets
  have h := reachable_sound hdecode hhex hs
  have h' := reachable_sound hdecode hhex ht
  refine ⟨?_, ?_⟩
  · intro fileHash row row' hrow hrow'
    obtain ⟨_, hname, hfile⟩ := h.rows.files hrow
    obtain ⟨_, hname', hfile'⟩ := h'.rows.files hrow'
    rw [file_named hoffsets h.rows h.described hfile] at hname
    rw [file_named hoffsets h'.rows h'.described hfile'] at hname'
    have hsame := same_chunks hinj hfree ⟨fileHash, row, hrow, rfl⟩ ⟨fileHash, row', hrow', rfl⟩
      (hname.trans hname'.symm)
    refine ⟨_, streamFile_chunks hoffsets h.rows h.described hfile, ?_⟩
    rw [hsame]
    exact streamFile_chunks hoffsets h'.rows h'.described hfile'
  · intro oid hoid hoid'
    obtain ⟨file, hlinked⟩ := Option.isSome_iff_exists.mp hoid
    obtain ⟨file', hlinked'⟩ := Option.isSome_iff_exists.mp hoid'
    obtain ⟨hreg, hname, hserved, hlen, hchunks⟩ := h.download hoffsets hlinked
    obtain ⟨hreg', hname', hserved', hlen', hchunks'⟩ := h'.download hoffsets hlinked'
    have hsame := hfree.contents (.inl ⟨file, hreg, rfl⟩) (.inr ⟨file', hreg', rfl⟩)
      (hname.symm.trans hname')
    have hlength : file.fileLength = file'.fileLength := by
      apply UInt64.toNat_inj.mp
      rw [← hlen, ← hlen', hsame]
    refine ⟨_, _, _, hserved, ?_, hchunks.symm.trans (hsame.trans hchunks')⟩
    rw [hlength]
    exact hserved'

def letterOnly (state : AppState) : Bool :=
  state.index.files.rows.all (fun row =>
    fileChunks sampleServer.upstream state row.2.record == [[65]] &&
      contentOf sampleServer.upstream state row.2.record == [65])

theorem letterOnly_registered (h : letterOnly state = true) (hreg : Registered state file) :
    fileChunks sampleServer.upstream state file = [[65]] ∧
      contentOf sampleServer.upstream state file = [65] := by
  obtain ⟨fileHash, row, hrow, rfl⟩ := hreg
  have hone := List.all_eq_true.mp h _ (Table.mem_rows.mpr hrow)
  simpa using hone

theorem injOn_of_one {α β : Type} {f : α → β} {held held' : Set α} {a : α}
    (h : ∀ x ∈ held, x = a) (h' : ∀ x ∈ held', x = a) : Set.InjOn f (held ∪ held') := by
  apply Set.Subsingleton.injOn
  have hone : ∀ x ∈ held ∪ held', x = a := by
    intro x hx
    rcases hx with hx | hx
    · exact h x hx
    · exact h' x hx
  exact fun x hx y hy => (hone x hx).trans (hone y hy).symm

theorem letterOnly_held (h : letterOnly state = true) :
    (∀ chunk ∈ chunksHeld sampleServer.upstream state, chunk = [65]) ∧
      (∀ leaves ∈ leavesHeld sampleServer.upstream state,
        leaves = [leaf sampleServer.upstream [65]]) ∧
      ∀ content ∈ contentsHeld sampleServer.upstream state, content = [65] := by
  refine ⟨?_, ?_, ?_⟩
  · intro chunk hparts
    obtain ⟨file, hreg, hchunk⟩ := hparts
    rw [(letterOnly_registered h hreg).1] at hchunk
    exact List.mem_singleton.mp hchunk
  · intro leaves hparts
    obtain ⟨file, hreg, rfl⟩ := hparts
    rw [(letterOnly_registered h hreg).1]
    rfl
  · intro content hparts
    obtain ⟨file, hreg, rfl⟩ := hparts
    exact (letterOnly_registered h hreg).2

theorem letterOnly_collisionFree (h : letterOnly state = true) (h' : letterOnly state' = true) :
    CollisionFree sampleServer.upstream state state' := by
  obtain ⟨hchunks, hleaves, hcontents⟩ := letterOnly_held h
  obtain ⟨hchunks', hleaves', hcontents'⟩ := letterOnly_held h'
  exact ⟨injOn_of_one hchunks hchunks', injOn_of_one hleaves hleaves',
    injOn_of_one hcontents hcontents'⟩

/-- An upload of the letter, its registration, and what they leave behind. -/
def letterAlone (body : Bytes) : Bool :=
  (((machine sampleServer).exec (fun _ a => !isDrop a) (boot sampleServer .fresh (fun _ => none))
    (sendLetter 0 body ++ checkLetter 0 ++ storeLetter 0 ++
      registerLetter 0 (some Formats.letterMetadata) ++ [.shard 0 .inserted])).map (fun s =>
        letterOnly s.state && (s.state.index.fileBySha256 Formats.letterOid).isSome &&
          (s.state.objects (pathFor Formats.letterHex)).map (List.take 8) ==
            some (body.take 8))).getD false

theorem letterAlone_reaches {body : Bytes} (h : letterAlone body = true) :
    ∃ s, (machine sampleServer).Reachable NoDrop s ∧ letterOnly s.state = true ∧
      (s.state.index.fileBySha256 Formats.letterOid).isSome = true ∧
      (s.state.objects (pathFor Formats.letterHex)).map (List.take 8) = some (body.take 8) := by
  obtain ⟨s, hrun, hend⟩ := Machine.exec_reaches (machine sampleServer) NoDrop _ _
    (fun _ _ h => by simpa [NoDrop] using h) _ _ (Option.getD_eq_iff.mp h |>.resolve_right (by simp))
  rw [Bool.and_eq_true, Bool.and_eq_true, beq_iff_eq] at hend
  exact ⟨s, ⟨_, rfl, hrun⟩, hend.1.1, hend.1.2, hend.2⟩

/-- One server has the letter as it is and the other has it compressed. -/
theorem letter_stands_for_itself : ∃ s t,
    (machine sampleServer).Reachable NoDrop s ∧ (machine sampleServer).Reachable NoDrop t ∧
    s.state.objects (pathFor Formats.letterHex) ≠ t.state.objects (pathFor Formats.letterHex) ∧
    ∃ len chunks chunks',
      Lfs.download sampleServer.upstream s.state Formats.letterOid = .ok ⟨len, chunks, none⟩ ∧
      Lfs.download sampleServer.upstream t.state Formats.letterOid = .ok ⟨len, chunks', none⟩ ∧
      chunks.flatten = chunks'.flatten := by
  have halone : letterAlone Formats.plainBody = true := by decide +kernel
  have halone' : letterAlone Formats.packedBody = true := by decide +kernel
  obtain ⟨s, hs, honly, hoid, hplain⟩ := letterAlone_reaches halone
  obtain ⟨t, ht, honly', hoid', hpacked⟩ := letterAlone_reaches halone'
  obtain ⟨_, hserved⟩ := identifiers_stand_for_content (Formats.documented_framesDecode _)
    (Formats.documented_hexRoundTrip _) (Formats.documented_hexInjective _) hs ht
    (letterOnly_collisionFree honly honly')
  refine ⟨s, t, hs, ht, ?_, hserved Formats.letterOid hoid hoid'⟩
  intro hsame
  rw [hsame, hpacked] at hplain
  revert hplain
  decide

end Xetcas.Proofs.Identity
