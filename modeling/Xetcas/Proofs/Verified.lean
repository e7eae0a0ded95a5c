import Xetcas.Proofs.Frozen

namespace Xetcas.Proofs.Verified
open Lib Server Routes Routes.Shards Registration Reconstructable Content Frozen
variable {U : Upstream} {state state' : AppState} {file : FileRecord}

/-- What is known of a file once its turn in `verify_sha256` is over. -/
def Checked (U : Upstream) (state : AppState) (file : FileRecord) : Prop :=
  file.sha256.isEmpty = true ∨ (state.index.getFile file.fileHash).isSome = true ∨
    U.sha256Hex (contentOf U state file) = file.sha256

/-- What was hashed are the chunks of the terms whose segments were read. -/
def Hashing (U : Upstream) (state : AppState) (file : FileRecord) (segments : List Segment)
    (hashed : Bytes) : Prop :=
  ∃ read rest, file.terms = read ++ rest ∧
    List.Forall₂ (fun term segment => Filestream.planSegment
      (state.index.getXorbs (file.terms.map FileTermRecord.xorbHash)) term = .ok segment)
      rest segments ∧
    hashed = (read.map (termChunks U state)).flatten.flatten

/-- Where a shard upload stands with the oids of its files. -/
structure ShardChecked (U : Upstream) (state : AppState) (u : ShardUpload) : Prop where
  done : ∀ {files chunks todo check}, u.stage = .verifying files chunks todo check →
    ∃ done, files = done ++ todo ∧ ∀ file ∈ done, Checked U state file
  hashing : ∀ {files chunks file todo segments hashed},
    u.stage = .verifying files chunks (file :: todo) (.hashing segments hashed) →
      Hashing U state file segments hashed
  task : ∀ {files chunks}, u.task = some (files, chunks) → ∀ file ∈ files, Checked U state file

theorem none_shardChecked : ShardChecked U state ShardUpload.none :=
  ⟨by simp [ShardUpload.none], by simp [ShardUpload.none], by simp [ShardUpload.none]⟩

section Kept

theorem Checked.keeps (h : Checked U state file) (hk : Keeps state state')
    (hd : Described U state) (hd' : Described U state')
    (hfile : FileStored U state.index file) : Checked U state' file := by
  rcases h with hempty | hknown | hsha
  · exact .inl hempty
  · obtain ⟨record, hrecord⟩ := Option.isSome_iff_exists.mp hknown
    obtain ⟨row, hrow, _⟩ := Option.map_eq_some_iff.mp hrecord
    refine .inr (.inl ?_)
    rw [Index.getFile, hk.index.files _ _ hrow]
    rfl
  · rw [← hk.contentOf hd hd' hfile] at hsha
    exact .inr (.inr hsha)

/-- A segment that was planned stays the one to read. -/
theorem planSegment_grows {index index' : Index} {names : List String} {term : FileTermRecord}
    {segment : Segment} (hg : index.Grows index')
    (h : Filestream.planSegment (index.getXorbs names) term = .ok segment) :
    Filestream.planSegment (index'.getXorbs names) term = .ok segment := by
  cases hrecord : index.getXorbs names term.xorbHash with
  | none => simp [Filestream.planSegment, hrecord] at h
  | some record =>
    have hrecord' : index'.getXorbs names term.xorbHash = some record := by
      unfold Index.getXorbs at hrecord ⊢
      split at hrecord
      · rename_i hnamed
        rw [if_pos hnamed]
        exact hg.xorbs _ _ hrecord
      · cases hrecord
    unfold Filestream.planSegment at h ⊢
    rw [hrecord] at h
    rw [hrecord']
    exact h

theorem Hashing.keeps {segments : List Segment} {hashed : Bytes}
    (h : Hashing U state file segments hashed) (hk : Keeps state state')
    (hfile : FileStored U state.index file) : Hashing U state' file segments hashed := by
  obtain ⟨read, rest, hterms, hplanned, hhashed⟩ := h
  refine ⟨read, rest, hterms, hplanned.imp (fun _ _ h => planSegment_grows hk.index h), ?_⟩
  · have hsame : ∀ term ∈ read, termChunks U state' term = termChunks U state term := by
      intro term hterm
      exact hk.termChunks hfile (by simp [hterms, hterm])
    rw [hhashed, List.map_congr_left hsame]

theorem ShardChecked.keeps {u : ShardUpload} (h : ShardChecked U state u)
    (hsourced : ShardSourced U state.index u) (hk : Keeps state state') (hd : Described U state)
    (hd' : Described U state') : ShardChecked U state' u := by
  refine ⟨?_, ?_, ?_⟩
  · intro files chunks todo check hstage
    have hbuilt := hsourced.stage
    rw [hstage] at hbuilt
    obtain ⟨done, rfl, hdone⟩ := h.done hstage
    refine ⟨done, rfl, ?_⟩
    intro file hfile
    exact (hdone file hfile).keeps hk hd hd' (hbuilt.stored file (by simp [hfile]))
  · intro files chunks file todo segments hashed hstage
    have hbuilt := hsourced.stage
    rw [hstage] at hbuilt
    obtain ⟨done, rfl, _⟩ := h.done hstage
    exact (h.hashing hstage).keeps hk (hbuilt.stored file (by simp))
  · intro files chunks htask file hfile
    exact (h.task htask file hfile).keeps hk hd hd' ((hsourced.task htask).stored file hfile)

end Kept

section Moves
variable {g g' : AppState} {u u' : ShardUpload} {act : ShardAct} {segments : List Segment}
  {hashed : Bytes}

theorem hashing_nothing (h : Filestream.planSegments state.index file = .ok segments) :
    Hashing U state file segments [] :=
  ⟨[], file.terms, rfl, mapM_eq_ok.mp h, rfl⟩

/-- A stored file can be planned. -/
theorem planSegments_stored (hoffsets : U.CumulativeOffsets) (hrows : Rows U state.index)
    (hd : Described U state) (hfile : FileStored U state.index file) :
    ∃ segments, Filestream.planSegments state.index file = .ok segments := by
  obtain ⟨segments, hplan, _⟩ := mapM_exists
    (fun term hterm => planSegment_reads hoffsets hrows hd hfile hterm)
  exact ⟨segments, hplan⟩

/-- A planned segment can be read, and its data are the chunks of one more
term. -/
theorem Hashing.next (hoffsets : U.CumulativeOffsets) (hrows : Rows U state.index)
    (hd : Described U state) (hfile : FileStored U state.index file) {segment : Segment}
    (h : Hashing U state file (segment :: segments) hashed) :
    ∃ data, decodeSegment U state.objects segment = (data, none) ∧
      Hashing U state file segments (hashed ++ data.flatten) := by
  obtain ⟨read, rest, hterms, hplanned, rfl⟩ := h
  cases hplanned with
  | @cons term _ rest _ hplan hplanned =>
    have hmem : term ∈ file.terms := by simp [hterms]
    obtain ⟨segment', hplan', hread⟩ := planSegment_reads hoffsets hrows hd hfile hmem
    rw [hplan] at hplan'
    cases hplan'
    exact ⟨_, hread, read ++ [term], rest, by simp [hterms], hplanned, by simp⟩

/-- All segments are read: what was hashed is the content. -/
theorem Hashing.whole (hd : Described U state) (hfile : FileStored U state.index file)
    (h : Hashing U state file [] hashed) : hashed = contentOf U state file := by
  obtain ⟨read, rest, hterms, hplanned, rfl⟩ := h
  cases hplanned
  rw [contentOf_chunks hd hfile, fileChunks, hterms, List.append_nil]

/-- The shortcut is taken for files without an oid and for registered ones. -/
theorem checked_of_lookUp (h : lookUp state.index file = true) : Checked U state file := by
  unfold lookUp at h
  rcases Bool.or_eq_true_iff.mp h with hempty | hknown
  · exact .inl hempty
  · exact .inr (.inl (Option.isSome_of_any hknown))

theorem checked_of_compareSha (h : compareSha U file (contentOf U state file) = .ok ()) :
    Checked U state file := by
  obtain ⟨hsame, _⟩ := guard_eq_ok.mp h
  exact .inr (.inr (not_not.mp hsame))

/-- A stage other than `verifying`, and a task that was there before. -/
theorem ShardChecked.quiet (h : ShardChecked U g u)
    (hstage : ∀ files chunks todo check, u'.stage ≠ .verifying files chunks todo check)
    (htask : u'.task = none ∨ u'.task = u.task) : ShardChecked U g u' := by
  refine ⟨fun hs => absurd hs (hstage _ _ _ _), fun hs => absurd hs (hstage _ _ _ _), ?_⟩
  intro files chunks ht
  rcases htask with hnone | hsame
  · rw [hnone] at ht
    cases ht
  · exact h.task (hsame ▸ ht)

/-- The first of the files to check joins those that are checked. -/
theorem done_turn {P : FileRecord → Prop} {files done todo : List FileRecord} {file : FileRecord}
    (hfiles : files = done ++ file :: todo) (hdone : ∀ other ∈ done, P other) (hfile : P file) :
    ∃ done, files = done ++ todo ∧ ∀ other ∈ done, P other := by
  refine ⟨done ++ [file], by simp [hfiles], ?_⟩
  intro other hother
  rcases List.mem_append.mp hother with hold | hnew
  · exact hdone other hold
  · cases List.mem_singleton.mp hnew
    exact hfile

/-- A file's turn is over. -/
theorem ShardChecked.turn (h : ShardChecked U g u) {files todo : List FileRecord}
    {chunks : List ChunkIndexEntry} {check : ShaCheck}
    (hstage : u.stage = .verifying files chunks (file :: todo) check)
    (hfile : Checked U g file) :
    ShardChecked U g { u with stage := .verifying files chunks todo .lookup } := by
  obtain ⟨done, hfiles, hdone⟩ := h.done hstage
  refine ⟨?_, by simp, h.task⟩
  intro files' chunks todo' check' hs
  cases hs
  exact done_turn hfiles hdone hfile

theorem moves_checked (hoffsets : U.CumulativeOffsets) (hrows : Rows U g.index)
    (hd : Described U g) (h : ShardMoves U g u act g' u') (hsourced : ShardSourced U g.index u)
    (hu : ShardChecked U g u) : ShardChecked U g u' := by
  have hbuilt := hsourced.stage
  cases h with
  | refused freed =>
    refine hu.quiet (by simp [ShardUpload.return_]) ?_
    rcases freed with rfl | ⟨rfl, _⟩
    · exact .inl rfl
    · exact .inr rfl
  | received idle allowed full => exact hu.quiet (by simp) (.inr rfl)
  | decoded stage good => exact hu.quiet (by simp) (.inr rfl)
  | fetched stage => exact hu.quiet (by simp) (.inr rfl)
  | built stage good =>
    refine ⟨?_, by simp, hu.task⟩
    intro files chunks todo check hs
    cases hs
    exact ⟨[], rfl, by simp⟩
  | known stage known => exact hu.turn stage (checked_of_lookUp known)
  | unknown stage unknown =>
    refine ⟨?_, by simp, hu.task⟩
    intro files chunks todo check hs
    cases hs
    exact hu.done stage
  | planned stage good =>
    refine ⟨?_, ?_, hu.task⟩
    · intro files chunks todo check hs
      cases hs
      exact hu.done stage
    · intro files chunks file todo segments hashed hs
      cases hs
      exact hashing_nothing good
  | hashed stage good =>
    rw [stage] at hbuilt
    obtain ⟨done, hfiles, hdone⟩ := hu.done stage
    refine ⟨?_, ?_, hu.task⟩
    · intro files chunks todo check hs
      cases hs
      exact ⟨done, hfiles, hdone⟩
    · intro files chunks file todo segments hashed hs
      cases hs
      obtain ⟨data, hread, hnext⟩ :=
        (hu.hashing stage).next hoffsets hrows hd (hbuilt.stored file (by simp [hfiles]))
      rw [good] at hread
      cases hread
      exact hnext
  | compared stage good =>
    rw [stage] at hbuilt
    obtain ⟨done, hfiles, _⟩ := hu.done stage
    have hwhole := (hu.hashing stage).whole hd (hbuilt.stored _ (by simp [hfiles]))
    rw [hwhole] at good
    exact hu.turn stage (checked_of_compareSha good)
  | register stage =>
    obtain ⟨done, rfl, hdone⟩ := hu.done stage
    refine ⟨by simp, by simp, ?_⟩
    intro files chunks ht
    cases ht
    simpa using hdone
  | inserted task stage => exact hu.quiet (by simp [ShardUpload.return_]) (.inl rfl)
  | insertedGone task gone => exact ⟨hu.done, hu.hashing, by simp⟩
  | failedGone task gone => exact ⟨hu.done, hu.hashing, by simp⟩
  | dropped idle ended => exact hu.quiet (by simp) (.inr rfl)

end Moves

variable {D : Deployment} {s s' : Server}

/-- A file's row is new only when it comes from the task of a shard upload. -/
theorem step_file {a : Server.Act} (hs : Server.step D s a = some s') {fileHash : String}
    {row : FileRow} (hrow : s'.state.index.files.get? fileHash = some row) :
    s.state.index.files.get? fileHash = some row ∨
      (s.state.index.files.get? fileHash = none ∧ ∃ i files chunks,
        (s.shardUploads i).task = some (files, chunks) ∧
          ∃ file ∈ files, file.fileHash = fileHash ∧ Index.fileRow file = row) := by
  have hput : ∀ {i files chunks}, (s.shardUploads i).task = some (files, chunks) →
      (s.state.index.putFiles files chunks).1.files.get? fileHash = some row →
      s.state.index.files.get? fileHash = some row ∨
        (s.state.index.files.get? fileHash = none ∧ ∃ i files chunks,
          (s.shardUploads i).task = some (files, chunks) ∧
            ∃ file ∈ files, file.fileHash = fileHash ∧ Index.fileRow file = row) := by
    intro i files chunks htask hget
    rcases Index.putFiles_get?.mp hget with hold | ⟨hfree, before, file, after, rfl, hhash, hfile, _⟩
    · exact .inl hold
    · exact .inr ⟨hfree, i, _, chunks, htask, file, by simp, hhash, hfile⟩
  cases step_moves hs with
  | @xorb i act g u turn =>
    have hfiles : g.index.files = s.state.index.files := by
      cases Xorbs.xorbStep_moves turn with
      | inserted task stage => exact Index.putXorb_files _ _ _ _
      | insertedGone task gone => exact Index.putXorb_files _ _ _ _
      | _ => rfl
    exact .inl (hfiles ▸ hrow)
  | @shard i act g u turn =>
    cases shardStep_moves turn with
    | inserted task stage => exact hput task hrow
    | insertedGone task gone => exact hput task hrow
    | _ => exact .inl hrow
  | crash => exact .inl hrow

/-- Every recorded oid is the SHA-256 of its file's content. -/
def OidsVerified (U : Upstream) (state : AppState) : Prop :=
  ∀ fileHash row oid, state.index.files.get? fileHash = some row → row.sha256 = some oid →
    U.sha256Hex (contentOf U state row.record) = oid

theorem OidsVerified.step (hd : Described D.upstream s.state) (hd' : Described D.upstream s'.state)
    (hrows : Rows D.upstream s.state.index) (hk : Keeps s.state s'.state)
    (h : OidsVerified D.upstream s.state)
    (hchecked : ∀ i, ShardChecked D.upstream s.state (s.shardUploads i))
    (hsourced : ∀ i, ShardSourced D.upstream s.state.index (s.shardUploads i)) {a : Server.Act}
    (hs : Server.step D s a = some s') : OidsVerified D.upstream s'.state := by
  intro fileHash row oid hrow hoid
  rcases step_file hs hrow with hold | ⟨hfree, i, files, chunks, htask, file, hfile, rfl, rfl⟩
  · obtain ⟨_, _, hstored⟩ := hrows.files hold
    rw [hk.contentOf hd hd' hstored]
    exact h fileHash row oid hold hoid
  · have hstored := (hsourced i).task htask
    rcases (hchecked i).task htask file hfile with hempty | hknown | hsha
    · simp [Index.fileRow, hempty] at hoid
    · simp [Index.getFile, hfree] at hknown
    · have hsame : oid = file.sha256 := by
        unfold Index.fileRow at hoid
        split at hoid
        · cases hoid
        · cases hoid
          rfl
      change D.upstream.sha256Hex (contentOf D.upstream s'.state file) = oid
      rw [hk.contentOf hd hd' (hstored.stored file hfile), hsha, hsame]

theorem ShardChecked.step (hoffsets : D.upstream.CumulativeOffsets)
    (hd : Described D.upstream s.state) (hd' : Described D.upstream s'.state)
    (hrows : Rows D.upstream s.state.index) (hk : Keeps s.state s'.state)
    (hchecked : ∀ i, ShardChecked D.upstream s.state (s.shardUploads i))
    (hsourced : ∀ i, ShardSourced D.upstream s.state.index (s.shardUploads i)) {a : Server.Act}
    (hs : Server.step D s a = some s') (j : Nat) :
    ShardChecked D.upstream s'.state (s'.shardUploads j) := by
  have hother := (hchecked j).keeps (hsourced j) hk hd hd'
  cases step_moves hs with
  | xorb turn => exact hother
  | @shard i act g u turn =>
    have hm := shardStep_moves turn
    rcases eq_or_ne j i with rfl | hj
    · have hmoved := moves_checked hoffsets hrows hd hm (hsourced j) (hchecked j)
      have hmoved' := hmoved.keeps (moves_shardSourced hm (hsourced j)) hk hd hd'
      simpa using hmoved'
    · simpa [hj] using hother
  | crash => exact none_shardChecked

/-- Oids are verified because every shard upload checks its own. -/
theorem reachable_checked (hdecode : D.upstream.FramesDecode) (hhex : D.upstream.HexRoundTrip)
    (h : (machine D).Reachable NoDrop s) : OidsVerified D.upstream s.state ∧
      ∀ i, ShardChecked D.upstream s.state (s.shardUploads i) := by
  refine h.invariant (I := fun s => OidsVerified D.upstream s.state ∧
    ∀ i, ShardChecked D.upstream s.state (s.shardUploads i)) ?_ ?_
  · intro s hsame
    subst hsame
    refine ⟨?_, fun i => none_shardChecked⟩
    intro fileHash row oid hrow
    cases hrow
  · intro s a t hreach hi guard hstep
    have hd := reachable_described hdecode hhex hreach
    have hd' := reachable_described hdecode hhex (hreach.next a guard hstep)
    have hrows := reachable_rows hreach
    have hk := step_keeps hhex hreach hstep
    have hsourced := reachable_shards hreach
    exact ⟨hi.1.step hd hd' hrows hk hi.2 hsourced hstep,
      ShardChecked.step hdecode.cumulativeOffsets hd hd' hrows hk hi.2 hsourced hstep⟩

theorem reachable_verified (hdecode : D.upstream.FramesDecode) (hhex : D.upstream.HexRoundTrip)
    (h : (machine D).Reachable NoDrop s) : OidsVerified D.upstream s.state :=
  (reachable_checked hdecode hhex h).1

end Xetcas.Proofs.Verified
