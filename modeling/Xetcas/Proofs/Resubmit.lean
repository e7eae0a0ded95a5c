import Xetcas.Proofs.Verified

namespace Xetcas.Proofs.Resubmit
open Lib Server Routes Routes.Shards Registration Content Frozen Verified
variable {U : Upstream} {state state' : AppState} {body : Bytes}

section Build
variable {xorbs xorbs' : Records} {now : UInt64}

def stamp (now : UInt64) (file : FileRecord) : FileRecord := { file with createdAt := now }

/-- These xorbs are known to the second map as they are to the first. -/
def Covers (names : List String) (xorbs xorbs' : Records) : Prop :=
  ∀ hash ∈ names, ∀ record, xorbs hash = some record → xorbs' hash = some record

/-- The check of a term looks at the term's own xorb alone. -/
theorem checkTerm_covered {verification : Bytes} {term : FileTermRecord} {i : Nat}
    {chunks : List (MerkleHash × UInt64)}
    (hcovers : ∀ record, xorbs term.xorbHash = some record → xorbs' term.xorbHash = some record)
    (h : checkTerm U xorbs verification term i = .ok chunks) :
    checkTerm U xorbs' verification term i = .ok chunks := by
  cases hrecord : xorbs term.xorbHash with
  | none => simp [checkTerm, hrecord] at h
  | some record =>
    unfold checkTerm at h ⊢
    rw [hrecord] at h
    rw [hcovers record hrecord]
    exact h

theorem buildRecord_covered {file : ShardFile} {built : FileRecord × List ChunkIndexEntry}
    (hcovers : Covers (file.terms.map FileTermRecord.xorbHash) xorbs xorbs') (now' : UInt64)
    (h : buildRecord U xorbs now file = .ok built) :
    ∃ built', buildRecord U xorbs' now' file = .ok built' ∧ built'.1 = stamp now' built.1 := by
  unfold buildRecord at h ⊢
  obtain ⟨hverification, h⟩ := guard_eq_ok.mp h
  obtain ⟨chunks, hterms, h⟩ := bind_eq_ok.mp h
  obtain ⟨hhash, h⟩ := guard_eq_ok.mp h
  obtain ⟨hvalid, h⟩ := check_eq_ok.mp h
  cases h
  have hterms' : file.terms.zipIdx.mapM
      (fun t => checkTerm U xorbs' file.verification t.1 t.2) = .ok chunks := by
    apply mapM_eq_ok.mpr
    refine forall₂_imp_mem ?_ (mapM_eq_ok.mp hterms)
    intro t ht cs hcs
    exact checkTerm_covered (hcovers _ (List.mem_map_of_mem (List.fst_mem_of_mem_zipIdx ht))) hcs
  exact ⟨_, guard_eq_ok.mpr ⟨hverification, bind_eq_ok.mpr ⟨chunks, hterms',
    guard_eq_ok.mpr ⟨hhash, check_eq_ok.mpr ⟨hvalid, rfl⟩⟩⟩⟩, rfl⟩

theorem buildAll_covered {shardFiles : List ShardFile}
    {built : List (FileRecord × List ChunkIndexEntry)} (now' : UInt64)
    (hcovers : ∀ file ∈ shardFiles, Covers (file.terms.map FileTermRecord.xorbHash) xorbs xorbs')
    (h : List.Forall₂ (fun file b => buildRecord U xorbs now file = .ok b) shardFiles built) :
    ∃ built', shardFiles.mapM (buildRecord U xorbs' now') = .ok built' ∧
      built'.map Prod.fst = (built.map Prod.fst).map (stamp now') := by
  induction h with
  | nil => exact ⟨[], rfl, rfl⟩
  | @cons file b rest bs hb _ ih =>
    obtain ⟨b', hb', hstamp⟩ := buildRecord_covered (hcovers file (by simp)) now' hb
    obtain ⟨bs', hbs', hstamps⟩ := ih (fun other hother => hcovers other (by simp [hother]))
    refine ⟨b' :: bs', ?_, by rw [List.map_cons, hstamp, hstamps]; rfl⟩
    simp [hb', hbs', bind, Except.bind, pure, Except.pure]

/-- What was accepted once is accepted whenever its xorbs are known. -/
theorem buildRecords_covered {data : ShardData} {files : List FileRecord}
    {chunks : List ChunkIndexEntry} (hcovers : Covers (referenced data) xorbs xorbs')
    (now' : UInt64) (h : buildRecords U xorbs now data = .ok (files, chunks)) :
    ∃ chunks', buildRecords U xorbs' now' data = .ok (files.map (stamp now'), chunks') := by
  obtain ⟨built, hbuilt, he⟩ := bind_eq_ok.mp h
  cases he
  have hnamed : ∀ file ∈ data.files,
      Covers (file.terms.map FileTermRecord.xorbHash) xorbs xorbs' := by
    intro file hfile hash hhash
    apply hcovers
    obtain ⟨term, hterm, rfl⟩ := List.mem_map.mp hhash
    simp only [referenced, List.mem_dedup, List.mem_insertionSort, List.mem_append,
      List.mem_flatMap]
    exact .inl ⟨file, hfile, List.mem_map_of_mem hterm⟩
  obtain ⟨built', hbuilt', hstamps⟩ := buildAll_covered now' hnamed (mapM_eq_ok.mp hbuilt)
  exact ⟨_, bind_eq_ok.mpr ⟨built', hbuilt', by rw [hstamps]⟩⟩

end Build

section Accepted
variable {data : ShardData} {xorbs : Records} {files : List FileRecord} {file : FileRecord}

/-- These files were made of a body, from records of this index. -/
structure Derives (U : Upstream) (index : Index) (body : Bytes) (data : ShardData)
    (xorbs : Records) (files : List FileRecord) : Prop where
  full : body.isEmpty = false
  decodes : decodeShard U body = .ok data
  read : Read index xorbs
  builds : ∃ now chunks, buildRecords U xorbs now data = .ok (files, chunks)

theorem Derives.grows {index index' : Index} (h : Derives U index body data xorbs files)
    (hg : index.Grows index') : Derives U index' body data xorbs files :=
  ⟨h.full, h.decodes, h.read.grows hg, h.builds⟩

theorem Derives.stored {index : Index} (h : Derives U index body data xorbs files) :
    ∀ file ∈ files, FileStored U index file := by
  obtain ⟨now, chunks, hbuild⟩ := h.builds
  exact Built.stored ⟨body, data, xorbs, now, h.decodes, h.read, hbuild⟩

/-- A file's turn in `verify_sha256` ends well: it is skipped, or its content
has the oid. -/
def Vouched (U : Upstream) (state : AppState) (file : FileRecord) : Prop :=
  lookUp state.index file = true ∨ U.sha256Hex (contentOf U state file) = file.sha256

theorem lookUp_grows {index index' : Index} (hg : index.Grows index')
    (h : lookUp index file = true) : lookUp index' file = true := by
  unfold lookUp at h ⊢
  rw [Bool.or_eq_true] at h ⊢
  refine h.imp_right ?_
  intro hknown
  obtain ⟨known, hget, hsame⟩ := (Option.any_eq_true _ _).mp hknown
  obtain ⟨row, hrow, rfl⟩ := Option.map_eq_some_iff.mp hget
  rw [Index.getFile, hg.files _ _ hrow]
  exact hsame

theorem Vouched.keeps (h : Vouched U state file) (hk : Keeps state state') (hd : Described U state)
    (hd' : Described U state') (hfile : FileStored U state.index file) : Vouched U state' file := by
  refine h.imp (lookUp_grows hk.index) ?_
  intro hsha
  rw [hk.contentOf hd hd' hfile, hsha]

/-- A shard that has been accepted: its files are registered, and their oids
are what they were accepted with. -/
structure Grounds (U : Upstream) (state : AppState) (body : Bytes) (data : ShardData)
    (xorbs : Records) (files : List FileRecord) : Prop where
  derives : Derives U state.index body data xorbs files
  vouched : ∀ file ∈ files, Vouched U state file
  registered : ∀ file ∈ files, (state.index.files.get? file.fileHash).isSome = true

theorem Grounds.keeps (h : Grounds U state body data xorbs files) (hk : Keeps state state')
    (hd : Described U state) (hd' : Described U state') :
    Grounds U state' body data xorbs files := by
  refine ⟨h.derives.grows hk.index, ?_, ?_⟩
  · intro file hfile
    exact (h.vouched file hfile).keeps hk hd hd' (h.derives.stored file hfile)
  · intro file hfile
    obtain ⟨row, hrow⟩ := Option.isSome_iff_exists.mp (h.registered file hfile)
    exact Option.isSome_iff_exists.mpr ⟨row, hk.index.files _ _ hrow⟩

def Accepted (U : Upstream) (state : AppState) (body : Bytes) : Prop :=
  ∃ data xorbs files, Grounds U state body data xorbs files

end Accepted

/-- What an upload that was sent this body has in hand. -/
structure Carries (U : Upstream) (state : AppState) (body : Bytes) (u : ShardUpload) : Prop where
  decoding : ∀ {b}, u.stage = .decoding b → b = body ∧ body.isEmpty = false
  fetching : ∀ {data todo found}, u.stage = .fetching data todo found →
    body.isEmpty = false ∧ decodeShard U body = .ok data
  verifying : ∀ {files chunks todo check}, u.stage = .verifying files chunks todo check →
    ∃ done data xorbs, files = done ++ todo ∧ Derives U state.index body data xorbs files ∧
      ∀ file ∈ done, Vouched U state file
  task : ∀ {files chunks}, u.task = some (files, chunks) → ∃ data xorbs,
    Derives U state.index body data xorbs files ∧ ∀ file ∈ files, Vouched U state file
  answer : ∀ {r}, u.answer = some (.ok r) → Accepted U state body

section First
variable {g g' : AppState} {u u' : ShardUpload} {act : ShardAct}

theorem none_carries : Carries U state body ShardUpload.none :=
  ⟨by simp [ShardUpload.none], by simp [ShardUpload.none], by simp [ShardUpload.none],
    by simp [ShardUpload.none], by simp [ShardUpload.none]⟩

theorem Carries.keeps (h : Carries U state body u) (hk : Keeps state state')
    (hd : Described U state) (hd' : Described U state') : Carries U state' body u := by
  refine ⟨h.decoding, h.fetching, ?_, ?_, ?_⟩
  · intro files chunks todo check hstage
    obtain ⟨done, data, xorbs, rfl, hderives, hdone⟩ := h.verifying hstage
    refine ⟨done, data, xorbs, rfl, hderives.grows hk.index, ?_⟩
    intro file hfile
    exact (hdone file hfile).keeps hk hd hd' (hderives.stored file (by simp [hfile]))
  · intro files chunks htask
    obtain ⟨data, xorbs, hderives, hvouched⟩ := h.task htask
    refine ⟨data, xorbs, hderives.grows hk.index, ?_⟩
    intro file hfile
    exact (hvouched file hfile).keeps hk hd hd' (hderives.stored file hfile)
  · intro r hanswer
    obtain ⟨data, xorbs, files, hgrounds⟩ := h.answer hanswer
    exact ⟨data, xorbs, files, hgrounds.keeps hk hd hd'⟩

/-- A stage with nothing in hand. -/
theorem Carries.quiet (h : Carries U state body u)
    (hstage : u'.stage = .inserting ∨ u'.stage = .ended ∨ u'.stage = u.stage)
    (htask : u'.task = none ∨ u'.task = u.task)
    (hanswer : u'.answer = u.answer ∨ ∃ e, u'.answer = some (.error e)) :
    Carries U state body u' := by
  have htask' : ∀ {files chunks},
      u'.task = some (files, chunks) → u.task = some (files, chunks) := by
    intro files chunks hsome
    rcases htask with hnone | hsame
    · rw [hnone] at hsome
      cases hsome
    · exact hsame ▸ hsome
  have hanswer' : ∀ {r}, u'.answer = some (.ok r) → u.answer = some (.ok r) := by
    intro r hok
    rcases hanswer with hsame | ⟨e, herror⟩
    · exact hsame ▸ hok
    · rw [herror] at hok
      cases hok
  rcases hstage with hstage | hstage | hstage
  · exact ⟨by simp [hstage], by simp [hstage], by simp [hstage], fun ht => h.task (htask' ht),
      fun ha => h.answer (hanswer' ha)⟩
  · exact ⟨by simp [hstage], by simp [hstage], by simp [hstage], fun ht => h.task (htask' ht),
      fun ha => h.answer (hanswer' ha)⟩
  · exact ⟨fun hs => h.decoding (hstage ▸ hs), fun hs => h.fetching (hstage ▸ hs),
      fun hs => h.verifying (hstage ▸ hs), fun ht => h.task (htask' ht),
      fun ha => h.answer (hanswer' ha)⟩

/-- A file is checked: it is one of those that are done. -/
theorem Carries.turn (h : Carries U state body u) {file : FileRecord} {files todo : List FileRecord}
    {chunks : List ChunkIndexEntry} {check : ShaCheck}
    (hstage : u.stage = .verifying files chunks (file :: todo) check)
    (hfile : Vouched U state file) :
    Carries U state body { u with stage := .verifying files chunks todo .lookup } := by
  obtain ⟨done, data, xorbs, hfiles, hderives, hdone⟩ := h.verifying hstage
  obtain ⟨done', hfiles', hdone'⟩ := done_turn hfiles hdone hfile
  refine ⟨by simp, by simp, ?_, h.task, h.answer⟩
  intro files' chunks' todo' check' hs
  cases hs
  exact ⟨done', data, xorbs, hfiles', hderives, hdone'⟩

/-- The check of a file goes on. -/
theorem Carries.check (h : Carries U state body u) {files todo : List FileRecord}
    {chunks : List ChunkIndexEntry} {check : ShaCheck}
    (hstage : u.stage = .verifying files chunks todo check) (check' : ShaCheck) :
    Carries U state body { u with stage := .verifying files chunks todo check' } := by
  refine ⟨by simp, by simp, ?_, h.task, h.answer⟩
  intro files' chunks' todo' check'' hs
  cases hs
  exact h.verifying hstage

/-- A registered file has a row. -/
theorem putFiles_registered {index : Index} {files : List FileRecord} {file : FileRecord}
    (chunks : List ChunkIndexEntry) (hfile : file ∈ files) :
    ((index.putFiles files chunks).1.files.get? file.fileHash).isSome = true := by
  obtain ⟨row, hrow⟩ := Table.insertAll_mem index.files
    (List.mem_map_of_mem (f := fun f => (f.fileHash, Index.fileRow f)) hfile)
  exact Option.isSome_iff_exists.mpr ⟨row, hrow⟩

theorem moves_carries (hd : Described U g) (hd' : Described U g') (hk : Keeps g g')
    (hsourced : ShardSourced U g.index u) (hchecked : ShardChecked U g u)
    (hu : Carries U g body u) (hbody : ∀ authorization b, act = .request authorization b → b = body)
    (h : ShardMoves U g u act g' u') : Carries U g' body u' := by
  have hkept := hu.keeps hk hd hd'
  have hbuilt := hsourced.stage
  cases h with
  | refused freed =>
    refine hu.quiet (.inr (.inl rfl)) ?_ (.inr ⟨_, rfl⟩)
    rcases freed with rfl | ⟨rfl, _⟩
    · exact .inl rfl
    · exact .inr rfl
  | received idle allowed full =>
    cases hbody _ _ rfl
    refine ⟨?_, by simp, by simp, hu.task, hu.answer⟩
    intro b hs
    cases hs
    exact ⟨rfl, full⟩
  | decoded stage good =>
    obtain ⟨rfl, hfull⟩ := hu.decoding stage
    refine ⟨by simp, ?_, by simp, hu.task, hu.answer⟩
    intro data todo found hs
    cases hs
    exact ⟨hfull, good⟩
  | fetched stage =>
    refine ⟨by simp, ?_, by simp, hu.task, hu.answer⟩
    intro data todo found hs
    cases hs
    exact hu.fetching stage
  | @built data found now files chunks stage good =>
    rw [stage] at hbuilt
    obtain ⟨hfull, hdecodes⟩ := hu.fetching stage
    refine ⟨by simp, by simp, ?_, hu.task, hu.answer⟩
    intro files' chunks' todo check hs
    cases hs
    exact ⟨[], data, _, rfl, ⟨hfull, hdecodes, hbuilt.2, now, chunks, good⟩, by simp⟩
  | known stage known => exact hu.turn stage (.inl known)
  | unknown stage unknown => exact hu.check stage _
  | planned stage good => exact hu.check stage _
  | hashed stage good => exact hu.check stage _
  | compared stage good =>
    rw [stage] at hbuilt
    obtain ⟨done, _, _, hfiles, hderives, _⟩ := hu.verifying stage
    rw [(hchecked.hashing stage).whole hd (hderives.stored _ (by simp [hfiles]))] at good
    exact hu.turn stage (.inr (not_not.mp (guard_eq_ok.mp good).1))
  | register stage =>
    obtain ⟨done, data, xorbs, hfiles, hderives, hdone⟩ := hu.verifying stage
    rw [List.append_nil] at hfiles
    refine ⟨by simp, by simp, by simp, ?_, hu.answer⟩
    intro files' chunks' htask
    cases htask
    exact ⟨data, xorbs, hderives, by rwa [hfiles]⟩
  | @inserted files chunks task stage =>
    obtain ⟨data, xorbs, hderives, hvouched⟩ := hkept.task task
    refine ⟨by simp [ShardUpload.return_], by simp [ShardUpload.return_],
      by simp [ShardUpload.return_], by simp [ShardUpload.return_], ?_⟩
    intro r _
    exact ⟨data, xorbs, files, hderives, hvouched,
      fun file hfile => putFiles_registered chunks hfile⟩
  | insertedGone task gone => exact hkept.quiet (.inr (.inr rfl)) (.inl rfl) (.inl rfl)
  | failedGone task gone => exact hu.quiet (.inr (.inr rfl)) (.inl rfl) (.inl rfl)
  | dropped idle ended => exact hu.quiet (.inr (.inl rfl)) (.inr rfl) (.inl rfl)

end First

variable {D : Deployment} {s s' t : Server}

/-- Upload `i` is sent this body, if any. -/
def Submits (body : Bytes) (i : Nat) (s : Server) (a : Server.Act) : Prop :=
  NoDrop s a ∧ ∀ authorization b, a = .shard i (.request authorization b) → b = body

/-- A shard whose upload is answered 200 is accepted. -/
theorem answered_accepted (hdecode : D.upstream.FramesDecode) (hhex : D.upstream.HexRoundTrip)
    (h : (machine D).Reachable NoDrop s) {i : Nat} (hstart : s.shardUploads i = .none)
    (hrun : (machine D).Run (Submits body i) s t) {r : UploadShardResponse}
    (hanswer : (t.shardUploads i).answer = some (.ok r)) : Accepted D.upstream t.state body := by
  have hcarries := hrun.keeps (I := fun t => (machine D).Reachable NoDrop t ∧
    Carries D.upstream t.state body (t.shardUploads i)) ⟨h, by rw [hstart]; exact none_carries⟩ (by
      intro u a v hu ha hstep
      have hd := reachable_described hdecode hhex hu.1
      have hnext := hu.1.next a ha.1 hstep
      have hd' := reachable_described hdecode hhex hnext
      have hk := step_keeps hhex hu.1 hstep
      refine ⟨hnext, ?_⟩
      have hother := hu.2.keeps hk hd hd'
      cases step_moves hstep with
      | xorb turn => exact hother
      | crash => exact none_carries
      | @shard j act g w turn =>
        rcases eq_or_ne j i with rfl | hj
        · simpa using moves_carries hd hd' hk (reachable_shards hu.1 j)
            ((reachable_checked hdecode hhex hu.1).2 j) hu.2
            (fun authorization b he => ha.2 authorization b (by rw [he])) (shardStep_moves turn)
        · simpa [Ne.symm hj] using hother)
  exact hcarries.2.answer hanswer

/-- And stays so. -/
theorem accepted_stays (hdecode : D.upstream.FramesDecode) (hhex : D.upstream.HexRoundTrip)
    (h : (machine D).Reachable NoDrop s) (hrun : (machine D).Run NoDrop s t)
    (haccepted : Accepted D.upstream s.state body) : Accepted D.upstream t.state body := by
  obtain ⟨data, xorbs, files, hgrounds⟩ := haccepted
  exact ⟨data, xorbs, files, hgrounds.keeps (run_keeps hhex h hrun)
    (reachable_described hdecode hhex h) (reachable_described hdecode hhex (h.extend hrun))⟩

end Xetcas.Proofs.Resubmit
