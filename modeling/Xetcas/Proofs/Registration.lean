import Xetcas.Proofs.Agreement

namespace Xetcas.Proofs.Registration
open Lib Server Routes Routes.Shards Provenance Agreement
variable {U : Upstream} {index index' : Index}

/-- The records were read from this index, or an earlier state of it. -/
def Read (index : Index) (xorbs : Records) : Prop :=
  ∀ hash record, xorbs hash = some record → index.getXorb hash = some record

theorem Read.grows {xorbs : Records} (h : Read index xorbs) (hg : index.Grows index') :
    Read index' xorbs :=
  fun hash record hr => hg.xorbs hash record (h hash record hr)

/-- A term whose xorb is stored, with the chunks it stands for. -/
structure TermStored (index : Index) (term : FileTermRecord)
    (chunks : List (MerkleHash × UInt64)) (record : XorbRecord) : Prop where
  stored : index.getXorb term.xorbHash = some record
  nonempty : term.chunkIndexStart < term.chunkIndexEnd
  inside : term.chunkIndexEnd ≤ (XorbMeta.fromRecord record).numChunks
  declares : (XorbMeta.fromRecord record).unpackedLen term.chunkIndexStart.toNat
    term.chunkIndexEnd.toNat = .ok term.unpackedSegmentBytes.toUInt64
  chunks : (List.range' term.chunkIndexStart.toNat
    (term.chunkIndexEnd.toNat - term.chunkIndexStart.toNat)).mapM (chunkAt record) = .ok chunks

theorem checkTerm_stored {xorbs : Records} {verification : Bytes} {term : FileTermRecord} {i : Nat}
    {chunks : List (MerkleHash × UInt64)} (hread : Read index xorbs)
    (h : checkTerm U xorbs verification term i = .ok chunks) :
    ∃ record, xorbs term.xorbHash = some record ∧ TermStored index term chunks record := by
  unfold checkTerm at h
  split at h
  · cases h
  · rename_i record hrecord
    obtain ⟨hbounds, h⟩ := guard_eq_ok.mp h
    obtain ⟨expected, hexpected, h⟩ := bind_eq_ok.mp h
    obtain ⟨hbytes, h⟩ := guard_eq_ok.mp h
    obtain ⟨chunks', hchunks, h⟩ := bind_eq_ok.mp h
    have he : chunks' = chunks := by
      split at h
      · cases h
        rfl
      · obtain ⟨_, h⟩ := check_eq_ok.mp h
        cases h
        rfl
    subst he
    rw [not_or, UInt32.not_le, UInt32.not_lt] at hbounds
    rw [not_not.mp hbytes] at hexpected
    exact ⟨record, hrecord, hread _ _ hrecord, hbounds.1, hbounds.2, orBadRequest_ok.mp hexpected,
      hchunks⟩

/-- A file whose terms are stored and hash to its name. -/
structure FileStored (U : Upstream) (index : Index) (record : FileRecord) : Prop where
  terms : ∃ chunks : List (List (MerkleHash × UInt64)),
    List.Forall₂ (fun term chunks => ∃ xorb, TermStored index term chunks xorb) record.terms chunks ∧
      U.hex (U.fileHash chunks.flatten) = record.fileHash
  length : record.fileLength = (record.terms.map (fun t => t.unpackedSegmentBytes.toUInt64)).sum
  valid : validateFileRecord record = .ok ()
  few : record.terms.length < 2 ^ 32

theorem TermStored.grows {term : FileTermRecord} {chunks : List (MerkleHash × UInt64)}
    {record : XorbRecord} (h : TermStored index term chunks record) (hg : index.Grows index') :
    TermStored index' term chunks record :=
  ⟨hg.xorbs _ _ h.stored, h.nonempty, h.inside, h.declares, h.chunks⟩

theorem FileStored.grows {record : FileRecord} (h : FileStored U index record)
    (hg : index.Grows index') : FileStored U index' record := by
  obtain ⟨chunks, hterms, hhash⟩ := h.terms
  refine ⟨⟨chunks, hterms.imp ?_, hhash⟩, h.length, h.valid, h.few⟩
  intro term chunks hparts
  obtain ⟨xorb, hstored⟩ := hparts
  exact ⟨xorb, hstored.grows hg⟩

section Build
variable {xorbs : Records} {now : UInt64}

/-- What `build_record` makes of a file. -/
structure BuiltFrom (U : Upstream) (index : Index) (xorbs : Records) (file : ShardFile)
    (record : FileRecord) (first : List ChunkIndexEntry) : Prop where
  stored : FileStored U index record
  sha256 : record.sha256 = file.sha256
  fileHash : record.fileHash = file.fileHash
  known : ∀ term ∈ record.terms, ∃ xorb, xorbs term.xorbHash = some xorb
  first : first = firstChunk U xorbs record.terms

theorem buildRecord_built {file : ShardFile} {record : FileRecord} {first : List ChunkIndexEntry}
    (hread : Read index xorbs) (hfew : file.terms.length < 2 ^ 32)
    (h : buildRecord U xorbs now file = .ok (record, first)) :
    BuiltFrom U index xorbs file record first := by
  unfold buildRecord at h
  obtain ⟨_, h⟩ := guard_eq_ok.mp h
  obtain ⟨termChunks, hterms, h⟩ := bind_eq_ok.mp h
  obtain ⟨hhash, h⟩ := guard_eq_ok.mp h
  obtain ⟨hvalid, h⟩ := check_eq_ok.mp h
  cases h
  have hchecked : List.Forall₂ (fun term chunks => ∃ xorb, xorbs term.xorbHash = some xorb ∧
      TermStored index term chunks xorb) (file.terms.zipIdx.map Prod.fst) termChunks :=
    List.forall₂_map_left_iff.mpr
      ((mapM_eq_ok.mp hterms).imp (fun _ _ hc => checkTerm_stored hread hc))
  rw [List.zipIdx_map_fst] at hchecked
  refine ⟨⟨⟨termChunks, hchecked.imp ?_, not_not.mp hhash⟩, rfl, checkRequest_ok.mp hvalid, hfew⟩,
    rfl, rfl, ?_, rfl⟩
  · intro term chunks hparts
    obtain ⟨xorb, _, hstored⟩ := hparts
    exact ⟨xorb, hstored⟩
  · intro term hterm
    obtain ⟨_, _, xorb, hxorb, _⟩ := partner hchecked hterm
    exact ⟨xorb, hxorb⟩

theorem buildRecords_built {data : ShardData} {files : List FileRecord}
    {chunks : List ChunkIndexEntry} (hread : Read index xorbs)
    (hfew : ∀ file ∈ data.files, file.terms.length < 2 ^ 32)
    (h : buildRecords U xorbs now data = .ok (files, chunks)) :
    ∃ built : List (FileRecord × List ChunkIndexEntry), files = built.map Prod.fst ∧
      chunks = validatedChunkMappings U data.flaggedChunks xorbs ++ built.flatMap Prod.snd ∧
      List.Forall₂ (fun file b => BuiltFrom U index xorbs file b.1 b.2) data.files built := by
  obtain ⟨built, hbuilt, he⟩ := bind_eq_ok.mp h
  cases he
  refine ⟨built, rfl, rfl, ?_⟩
  apply List.forall₂_iff_zip.mpr
  have hall := mapM_eq_ok.mp hbuilt
  refine ⟨hall.length_eq, ?_⟩
  intro file b hmem
  exact buildRecord_built hread (hfew file (List.of_mem_zip hmem).1) (List.forall₂_zip hall hmem)

/-- Every file of a decoded shard has fewer terms than a `u32` counts. -/
theorem decodeShard_few {body : Bytes} {data : ShardData} (h : decodeShard U body = .ok data) :
    ∀ file ∈ data.files, file.terms.length < 2 ^ 32 := by
  obtain ⟨shard, _, h⟩ := bind_eq_ok.mp h
  obtain ⟨files, _, h⟩ := bind_eq_ok.mp h
  obtain ⟨xorbs, _, h⟩ := bind_eq_ok.mp h
  cases h
  intro file hfile
  obtain ⟨view, _, rfl⟩ := List.mem_map.mp hfile
  simpa [fileOf] using view.numEntries

end Build

/-- The files and mappings of some shard, built from records of this index. -/
def Built (U : Upstream) (index : Index) (files : List FileRecord)
    (chunks : List ChunkIndexEntry) : Prop :=
  ∃ body data xorbs now, decodeShard U body = .ok data ∧ Read index xorbs ∧
    buildRecords U xorbs now data = .ok (files, chunks)

theorem Built.grows {files : List FileRecord} {chunks : List ChunkIndexEntry}
    (h : Built U index files chunks) (hg : index.Grows index') : Built U index' files chunks := by
  obtain ⟨body, data, xorbs, now, hdecode, hread, hbuild⟩ := h
  exact ⟨body, data, xorbs, now, hdecode, hread.grows hg, hbuild⟩

theorem Built.stored {files : List FileRecord} {chunks : List ChunkIndexEntry}
    (h : Built U index files chunks) : ∀ file ∈ files, FileStored U index file := by
  obtain ⟨body, data, xorbs, now, hdecode, hread, hbuild⟩ := h
  obtain ⟨built, rfl, _, hbuilt⟩ := buildRecords_built hread (decodeShard_few hdecode) hbuild
  intro file hfile
  obtain ⟨b, hb, rfl⟩ := List.mem_map.mp hfile
  obtain ⟨_, _, hfrom⟩ := partner_of hbuilt hb
  exact hfrom.stored

def StageBuilt (U : Upstream) (index : Index) : ShardStage → Prop
  | .fetching data _ found =>
    (∃ body, decodeShard U body = .ok data) ∧ Read index (fun hash => rowOf hash found)
  | .verifying files chunks _ _ => Built U index files chunks
  | _ => True

/-- What a shard upload holds was built from records of the index. -/
structure ShardSourced (U : Upstream) (index : Index) (u : ShardUpload) : Prop where
  stage : StageBuilt U index u.stage
  task : ∀ {files chunks}, u.task = some (files, chunks) → Built U index files chunks

section Shard
variable {g g' : AppState} {u u' : ShardUpload} {act : ShardAct}

theorem none_shardSourced : ShardSourced U index ShardUpload.none :=
  ⟨trivial, by simp [ShardUpload.none]⟩

theorem ShardSourced.grows (h : ShardSourced U index u) (hg : index.Grows index') :
    ShardSourced U index' u := by
  refine ⟨?_, fun ht => (h.task ht).grows hg⟩
  have hstage := h.stage
  cases hs : u.stage with
  | fetching data todo found =>
    rw [hs] at hstage
    exact ⟨hstage.1, hstage.2.grows hg⟩
  | verifying files chunks todo check =>
    rw [hs] at hstage
    exact hstage.grows hg
  | _ => trivial

theorem moves_shardSourced (h : ShardMoves U g u act g' u') (hu : ShardSourced U g.index u) :
    ShardSourced U g.index u' := by
  have hstage := hu.stage
  cases h with
  | refused freed =>
    refine ⟨trivial, ?_⟩
    rcases freed with rfl | ⟨rfl, _⟩
    · simp [ShardUpload.return_]
    · exact hu.task
  | received idle allowed full => exact ⟨trivial, hu.task⟩
  | decoded stage good => exact ⟨⟨⟨_, good⟩, by simp [Read, rowOf]⟩, hu.task⟩
  | @fetched data hash todo found stage =>
    rw [stage] at hstage
    refine ⟨⟨hstage.1, ?_⟩, hu.task⟩
    intro hash' record hrow
    simp only [rowOf_append, Option.or_eq_some_iff] at hrow
    rcases hrow with hold | ⟨_, hnew⟩
    · exact hstage.2 hash' record hold
    · obtain ⟨record', hrecord, he⟩ := List.mem_map.mp (rowOf_mem hnew)
      cases he
      simpa using hrecord
  | built stage good =>
    rw [stage] at hstage
    obtain ⟨⟨body, hdecode⟩, hread⟩ := hstage
    exact ⟨⟨body, _, _, _, hdecode, hread, good⟩, hu.task⟩
  | known stage known =>
    rw [stage] at hstage
    exact ⟨hstage, hu.task⟩
  | unknown stage unknown =>
    rw [stage] at hstage
    exact ⟨hstage, hu.task⟩
  | planned stage good =>
    rw [stage] at hstage
    exact ⟨hstage, hu.task⟩
  | hashed stage good =>
    rw [stage] at hstage
    exact ⟨hstage, hu.task⟩
  | compared stage good =>
    rw [stage] at hstage
    exact ⟨hstage, hu.task⟩
  | register stage =>
    rw [stage] at hstage
    refine ⟨trivial, ?_⟩
    intro files chunks htask
    cases htask
    exact hstage
  | inserted task stage => exact ⟨trivial, by simp [ShardUpload.return_]⟩
  | insertedGone task gone => exact ⟨hstage, by simp⟩
  | failedGone task gone => exact ⟨hstage, by simp⟩
  | dropped idle ended => exact ⟨trivial, hu.task⟩

end Shard

/-- Every row goes back to a verified upload. -/
structure Rows (U : Upstream) (index : Index) : Prop where
  xorbs : ∀ {hash record}, index.getXorb hash = some record →
    ∃ name up, Prepared U name up ∧ record = up.record
  files : ∀ {hash row}, index.files.get? hash = some row →
    row = Index.fileRow row.record ∧ row.record.fileHash = hash ∧ FileStored U index row.record

theorem fresh_rows : Rows U Index.fresh :=
  ⟨by simp [Index.fresh, Index.getXorb], by simp [Index.fresh]⟩

theorem Rows.putXorb (h : Rows U index) {name : String} {up : Xorbs.Upload}
    (hup : Prepared U name up) (disk : Nat) :
    Rows U (index.putXorb up.record up.dedupChunks disk).1 := by
  refine ⟨?_, ?_⟩
  · intro hash record hrow
    rcases Index.putXorb_row hrow with hold | ⟨_, rfl, _⟩
    · exact h.xorbs hold
    · exact ⟨name, up, hup, rfl⟩
  · intro hash' row hrow
    rw [Index.putXorb_files] at hrow
    obtain ⟨hrecord, hhash, hstored⟩ := h.files hrow
    exact ⟨hrecord, hhash, hstored.grows (Index.putXorb_grows _ _ _ _)⟩

theorem Rows.putFiles (h : Rows U index) {files : List FileRecord} {chunks : List ChunkIndexEntry}
    (hbuilt : Built U index files chunks) : Rows U (index.putFiles files chunks).1 := by
  have hg := Index.putFiles_grows index files chunks
  refine ⟨h.xorbs, ?_⟩
  intro hash row hrow
  rcases Index.putFiles_get?.mp hrow with hold | ⟨_, before, file, after, rfl, rfl, rfl, _⟩
  · obtain ⟨hrecord, hhash, hstored⟩ := h.files hold
    exact ⟨hrecord, hhash, hstored.grows hg⟩
  · exact ⟨rfl, rfl, (hbuilt.stored file (by simp)).grows hg⟩

variable {D : Deployment} {s s' : Server} {ok : Server → Server.Act → Prop}

theorem reachable_shards (h : (machine D).Reachable ok s) (i : Nat) :
    ShardSourced D.upstream s.state.index (s.shardUploads i) := by
  refine h.invariant
    (I := fun s => ∀ i, ShardSourced D.upstream s.state.index (s.shardUploads i)) ?_ ?_ i
  · intro s hsame i
    subst hsame
    exact none_shardSourced
  · intro s a t _ hi _ hstep j
    have hg := step_grows hstep
    cases step_moves hstep with
    | xorb turn => exact (hi j).grows hg
    | @shard i act g u turn =>
      rcases eq_or_ne j i with rfl | hj
      · simpa using (moves_shardSourced (shardStep_moves turn) (hi j)).grows hg
      · simpa [hj] using (hi j).grows hg
    | crash => exact none_shardSourced

/-- How a step changes the index: a put of a prepared upload, a registration of
what was built, or not at all. -/
theorem step_index (h : (machine D).Reachable ok s) {a : Server.Act}
    (hs : Server.step D s a = some s') : s'.state.index = s.state.index ∨
      (∃ hash up disk, Prepared D.upstream hash up ∧
        s'.state.index = (s.state.index.putXorb up.record up.dedupChunks disk).1) ∨
      ∃ files chunks, Built D.upstream s.state.index files chunks ∧
        s'.state.index = (s.state.index.putFiles files chunks).1 := by
  cases step_moves hs with
  | @xorb i act g u turn =>
    have htask := ((reachable_traced h).sourced i).task
    cases Xorbs.xorbStep_moves turn with
    | inserted task stage =>
      rw [task] at htask
      obtain ⟨up, hup, rfl, rfl, rfl⟩ := htask
      exact .inr (.inl ⟨_, up, _, hup, rfl⟩)
    | insertedGone task gone =>
      rw [task] at htask
      obtain ⟨up, hup, rfl, rfl, rfl⟩ := htask
      exact .inr (.inl ⟨_, up, _, hup, rfl⟩)
    | _ => exact .inl rfl
  | @shard i act g u turn =>
    have hsourced := reachable_shards h i
    cases shardStep_moves turn with
    | inserted task stage => exact .inr (.inr ⟨_, _, hsourced.task task, rfl⟩)
    | insertedGone task gone => exact .inr (.inr ⟨_, _, hsourced.task task, rfl⟩)
    | _ => exact .inl rfl
  | crash => exact .inl rfl

/-- The invariant rule for what depends on the index alone. -/
theorem index_invariant {I : Index → Prop} (h : (machine D).Reachable ok s) (hfresh : I .fresh)
    (hxorb : ∀ index hash up disk, I index → Prepared D.upstream hash up →
      I (index.putXorb up.record up.dedupChunks disk).1)
    (hfiles : ∀ index files chunks, I index → Built D.upstream index files chunks →
      I (index.putFiles files chunks).1) : I s.state.index := by
  refine h.invariant (I := fun s => I s.state.index) ?_ ?_
  · intro s hsame
    subst hsame
    exact hfresh
  · intro s a t hreach hi _ hstep
    rcases step_index hreach hstep with heq | ⟨hash, up, disk, hup, heq⟩ | ⟨files, chunks, hbuilt, heq⟩
    · rw [heq]
      exact hi
    · rw [heq]
      exact hxorb _ _ _ _ hi hup
    · rw [heq]
      exact hfiles _ _ _ hi hbuilt

theorem reachable_rows (h : (machine D).Reachable ok s) : Rows D.upstream s.state.index :=
  index_invariant h fresh_rows (fun _ _ _ disk hi hup => hi.putXorb hup disk)
    (fun _ _ _ hi hbuilt => hi.putFiles hbuilt)

end Xetcas.Proofs.Registration
