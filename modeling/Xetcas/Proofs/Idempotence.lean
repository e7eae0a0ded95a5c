import Mathlib.Data.Prod.Lex
import Xetcas.Proofs.Resubmit
import Xetcas.Proofs.Reupload

namespace Xetcas.Proofs.Idempotence
open Lib Server Routes Routes.Shards Agreement Registration Reconstructable Content Frozen Verified
open Resubmit Reupload
variable {U : Upstream} {state state' : AppState} {body : Bytes} {data : ShardData}
  {xorbs : Records} {files : List FileRecord}

/-- Where an upload of an accepted body can be, with what in hand: it finds the
xorbs again, and every file it has to check has the right content. -/
def Repeats (U : Upstream) (state : AppState) (body : Bytes) (data : ShardData) (xorbs : Records)
    (files : List FileRecord) (u : ShardUpload) : Prop :=
  match u.stage with
  | .idle => u.task = none ∧ u.answer = none
  | .decoding b => b = body ∧ u.task = none ∧ u.answer = none
  | .fetching data' todo found => data' = data ∧ u.task = none ∧ u.answer = none ∧
    ∀ hash ∈ referenced data, ∀ record, xorbs hash = some record →
      hash ∈ todo ∨ rowOf hash found = some record
  | .verifying files' _ todo check => u.task = none ∧ u.answer = none ∧
    (∃ now, files' = files.map (stamp now)) ∧ todo ⊆ files' ∧
    (check ≠ .lookup → ∃ file rest, todo = file :: rest ∧
      U.sha256Hex (contentOf U state file) = file.sha256)
  | .inserting => u.answer = none ∧ ∃ now chunks, u.task = some (files.map (stamp now), chunks)
  | .ended => u.task = none ∧ u.answer = some (.ok ⟨RESULT_EXISTS⟩)

section Stamp

theorem stamped_stored {index : Index} {now : UInt64} (h : Derives U index body data xorbs files) :
    ∀ file ∈ files.map (stamp now), FileStored U index file := by
  intro file hfile
  obtain ⟨file', hfile', rfl⟩ := List.mem_map.mp hfile
  have hstored := h.stored file' hfile'
  exact ⟨hstored.terms, hstored.length, hstored.valid, hstored.few⟩

theorem stamped_vouched {now : UInt64} (h : Grounds U state body data xorbs files) :
    ∀ file ∈ files.map (stamp now), Vouched U state file := by
  intro file hfile
  obtain ⟨file', hfile', rfl⟩ := List.mem_map.mp hfile
  exact h.vouched file' hfile'

/-- Files that all have rows are not registered again. -/
theorem putFiles_taken (h : Grounds U state body data xorbs files) (now : UInt64)
    (chunks : List ChunkIndexEntry) :
    (state.index.putFiles (files.map (stamp now)) chunks).1.files = state.index.files ∧
      (state.index.putFiles (files.map (stamp now)) chunks).2 = 0 := by
  have htaken : state.index.files.insertAll
      ((files.map (stamp now)).map (fun f => (f.fileHash, Index.fileRow f))) =
        state.index.files := by
    apply Table.insertAll_taken
    intro row hrow
    obtain ⟨file, hfile, rfl⟩ := List.mem_map.mp hrow
    obtain ⟨file', hfile', rfl⟩ := List.mem_map.mp hfile
    exact Option.isSome_iff_ne_none.mp (h.registered file' hfile')
  unfold Index.putFiles
  simp only [htaken, Nat.sub_self, and_self]

end Stamp

section Upload
variable {g g' : AppState} {u u' : ShardUpload} {act : ShardAct}

theorem Repeats.keeps (h : Repeats U state body data xorbs files u) (hk : Keeps state state')
    (hd : Described U state) (hd' : Described U state')
    (hderives : Derives U state.index body data xorbs files) :
    Repeats U state' body data xorbs files u := by
  unfold Repeats at h ⊢
  split at h
  · exact h
  · exact h
  · exact h
  · obtain ⟨htask, hanswer, ⟨now, rfl⟩, htodo, hcheck⟩ := h
    refine ⟨htask, hanswer, ⟨now, rfl⟩, htodo, ?_⟩
    intro hne
    obtain ⟨file, rest, rfl, hsha⟩ := hcheck hne
    refine ⟨file, rest, rfl, ?_⟩
    rw [hk.contentOf hd hd' (stamped_stored hderives file (htodo (by simp))), hsha]
  · exact h
  · exact h

theorem Repeats.answer (h : Repeats U state body data xorbs files u)
    {answer : AppResult UploadShardResponse} (hanswer : u.answer = some answer) :
    answer = .ok ⟨RESULT_EXISTS⟩ := by
  have hnone : u.answer = none ∨ u.answer = some (.ok ⟨RESULT_EXISTS⟩) := by
    unfold Repeats at h
    split at h
    · exact .inl h.2
    · exact .inl h.2.2
    · exact .inl h.2.2.1
    · exact .inl h.2.1
    · exact .inl h.1
    · exact .inr h.2
  rcases hnone with hnone | hexists
  · rw [hnone] at hanswer
    cases hanswer
  · rw [hexists] at hanswer
    cases hanswer
    rfl

theorem Repeats.task (h : Repeats U state body data xorbs files u)
    {p : List FileRecord × List ChunkIndexEntry} (htask : u.task = some p) :
    u.stage = .inserting ∧ ∃ now, p.1 = files.map (stamp now) := by
  unfold Repeats at h
  split at h
  · rw [h.1] at htask
    cases htask
  · rw [h.2.1] at htask
    cases htask
  · rw [h.2.1] at htask
    cases htask
  · rw [h.1] at htask
    cases htask
  · rename_i stage
    obtain ⟨_, now, chunks, hsome⟩ := h
    rw [hsome] at htask
    cases htask
    exact ⟨stage, now, rfl⟩
  · rw [h.1] at htask
    cases htask

/-- A step that registers no file and changes no row. -/
structure Harmless (g g' : AppState) : Prop where
  xorbs : g'.index.xorbs = g.index.xorbs
  files : g'.index.files = g.index.files
  chunks : g.index.chunks.Within g'.index.chunks
  diskBytes : g'.index.diskBytes = g.index.diskBytes
  objects : g'.objects = g.objects

theorem Harmless.refl (g : AppState) : Harmless g g := ⟨rfl, rfl, .refl _, rfl, rfl⟩

/-- A handler's step that runs into no failure and sends, if anything, this
body. -/
structure Smooth (config : Config) (body : Bytes) (act : ShardAct) : Prop where
  stays : act ≠ .drop
  reads : ∀ message, act ≠ .failRead message
  tasks : ∀ message, act ≠ .failTask message
  sends : ∀ authorization b, act = .request authorization b →
    b = body ∧ AppState.authorize config authorization = .ok ()

/-- What the shard's xorbs were when it was accepted, they are when they are
fetched again. -/
theorem fetched_found {found : List (String × XorbRecord)} {todo : List String} {hash : String}
    (hread : Read g.index xorbs) (hfound : Read g.index (fun hash => rowOf hash found))
    (h : ∀ h' ∈ referenced data, ∀ record, xorbs h' = some record →
      h' ∈ hash :: todo ∨ rowOf h' found = some record) :
    ∀ h' ∈ referenced data, ∀ record, xorbs h' = some record → h' ∈ todo ∨
      rowOf h' (found ++ (g.index.getXorb hash).toList.map (fun record => (hash, record))) =
        some record := by
  intro h' hreferenced record hrecord
  rw [rowOf_append]
  rcases h h' hreferenced record hrecord with hmem | hold
  · rcases List.mem_cons.mp hmem with rfl | htodo
    · right
      have hrow := hread h' record hrecord
      cases hrowOf : rowOf h' found with
      | some other =>
        have hsame := hfound h' other hrowOf
        rw [hrow] at hsame
        cases hsame
        rfl
      | none => simp [hrow, rowOf]
    · exact .inl htodo
  · exact .inr (by rw [hold]; rfl)

theorem compareSha_ok {file : FileRecord} {content : Bytes}
    (h : U.sha256Hex content = file.sha256) : compareSha U file content = .ok () :=
  guard_eq_ok.mpr ⟨not_not.mpr h, rfl⟩

/-- What is known of the state that an upload of an accepted body runs in. -/
structure Ready (U : Upstream) (g : AppState) (u : ShardUpload) (body : Bytes) (data : ShardData)
    (xorbs : Records) (files : List FileRecord) : Prop where
  offsets : U.CumulativeOffsets
  rows : Rows U g.index
  described : Described U g
  sourced : ShardSourced U g.index u
  checked : ShardChecked U g u
  grounds : Grounds U g body data xorbs files

section Steps
variable {authorization : Option String} {b : Bytes} {now : UInt64}

theorem request_repeats (hg : Ready U g u body data xorbs files)
    (hu : Repeats U g body data xorbs files u)
    (hact : Smooth g.config body (.request authorization b))
    (h : shardStep U g u (.request authorization b) = some (g', u')) :
    Repeats U g body data xorbs files u' ∧ Harmless g g' := by
  obtain ⟨rfl, hallowed⟩ := hact.sends _ _ rfl
  simp only [shardStep] at h
  split at h
  · rename_i stage
    simp only [Repeats, stage] at hu
    simp only [hallowed, hg.grounds.derives.full, Bool.false_eq_true, if_false] at h
    cases h
    exact ⟨⟨rfl, hu⟩, .refl g⟩
  · cases h

theorem decoded_repeats (hg : Ready U g u body data xorbs files)
    (hu : Repeats U g body data xorbs files u)
    (h : shardStep U g u .decoded = some (g', u')) :
    Repeats U g body data xorbs files u' ∧ Harmless g g' := by
  simp only [shardStep] at h
  split at h
  · rename_i stage
    simp only [Repeats, stage] at hu
    obtain ⟨rfl, htask, hanswer⟩ := hu
    simp only [hg.grounds.derives.decodes] at h
    cases h
    exact ⟨⟨rfl, htask, hanswer, fun _ hmem _ _ => .inl hmem⟩, .refl g⟩
  · cases h

/-- A fetch finds what it found when the body was accepted. -/
theorem fetched_repeats (hg : Ready U g u body data xorbs files)
    (hu : Repeats U g body data xorbs files u)
    (h : shardStep U g u .fetched = some (g', u')) :
    Repeats U g body data xorbs files u' ∧ Harmless g g' := by
  simp only [shardStep] at h
  split at h
  · rename_i data' hash todo found stage
    simp only [Repeats, stage] at hu
    obtain ⟨rfl, htask, hanswer, hfound⟩ := hu
    have hread := hg.sourced.stage
    rw [stage] at hread
    have hnext := fetched_found hg.grounds.derives.read hread.2 hfound
    split at h
    · rename_i hrow
      cases h
      rw [hrow] at hnext
      exact ⟨⟨rfl, htask, hanswer, hnext⟩, .refl g⟩
    · rename_i hrow
      cases h
      rw [hrow] at hnext
      exact ⟨⟨rfl, htask, hanswer, by simpa using hnext⟩, .refl g⟩
  · cases h

/-- The same files are built, with another time stamp. -/
theorem built_repeats (hg : Ready U g u body data xorbs files)
    (hu : Repeats U g body data xorbs files u)
    (h : shardStep U g u (.built now) = some (g', u')) :
    Repeats U g body data xorbs files u' ∧ Harmless g g' := by
  simp only [shardStep] at h
  split at h
  · rename_i data' found stage
    simp only [Repeats, stage] at hu
    obtain ⟨rfl, htask, hanswer, hfound⟩ := hu
    obtain ⟨_, _, hbuilt⟩ := hg.grounds.derives.builds
    have hcovers : Covers (referenced data') xorbs (fun hash => rowOf hash found) := by
      intro hash hreferenced record hrecord
      rcases hfound hash hreferenced record hrecord with hnil | hrow
      · exact absurd hnil (by simp)
      · exact hrow
    obtain ⟨chunks, hagain⟩ := buildRecords_covered hcovers now hbuilt
    rw [hagain] at h
    cases h
    refine ⟨⟨htask, hanswer, ⟨now, rfl⟩, ?_, fun hne => absurd rfl hne⟩, .refl g⟩
    exact List.Subset.refl _
  · cases h

/-- A file without a row yet has the oid it was accepted with. -/
theorem looked_repeats (hg : Ready U g u body data xorbs files)
    (hu : Repeats U g body data xorbs files u)
    (h : shardStep U g u .looked = some (g', u')) :
    Repeats U g body data xorbs files u' ∧ Harmless g g' := by
  simp only [shardStep] at h
  split at h
  · rename_i files' chunks file todo stage
    simp only [Repeats, stage] at hu
    obtain ⟨htask, hanswer, ⟨now, rfl⟩, htodo, _⟩ := hu
    split at h
    · cases h
      refine ⟨⟨htask, hanswer, ⟨now, rfl⟩, ?_, fun hne => absurd rfl hne⟩, .refl g⟩
      exact (List.cons_subset.mp htodo).2
    · rename_i hunknown
      cases h
      refine ⟨⟨htask, hanswer, ⟨now, rfl⟩, htodo, ?_⟩, .refl g⟩
      intro _
      rcases stamped_vouched hg.grounds file (htodo (by simp)) with hknown | hsha
      · exact absurd hknown hunknown
      · exact ⟨file, todo, rfl, hsha⟩
  · cases h

theorem planned_repeats (hg : Ready U g u body data xorbs files)
    (hu : Repeats U g body data xorbs files u)
    (h : shardStep U g u .planned = some (g', u')) :
    Repeats U g body data xorbs files u' ∧ Harmless g g' := by
  simp only [shardStep] at h
  split at h
  · rename_i files' chunks file todo stage
    simp only [Repeats, stage] at hu
    obtain ⟨htask, hanswer, ⟨now, rfl⟩, htodo, hsha⟩ := hu
    have hstored := stamped_stored hg.grounds.derives file (htodo (by simp))
    obtain ⟨segments, hplan⟩ := planSegments_stored hg.offsets hg.rows hg.described hstored
    rw [hplan] at h
    cases h
    exact ⟨⟨htask, hanswer, ⟨now, rfl⟩, htodo, fun _ => hsha (by simp)⟩, .refl g⟩
  · cases h

theorem hashed_repeats (hg : Ready U g u body data xorbs files)
    (hu : Repeats U g body data xorbs files u)
    (h : shardStep U g u .hashed = some (g', u')) :
    Repeats U g body data xorbs files u' ∧ Harmless g g' := by
  simp only [shardStep] at h
  split at h
  · rename_i files' chunks todo segment segments hashed stage
    simp only [Repeats, stage] at hu
    obtain ⟨htask, hanswer, ⟨now, rfl⟩, htodo, hsha⟩ := hu
    obtain ⟨file, rest, rfl, _⟩ := hsha (by simp)
    have hstored := stamped_stored hg.grounds.derives file (htodo (by simp))
    obtain ⟨read, hread, _⟩ := Hashing.next hg.offsets hg.rows hg.described hstored
      (hg.checked.hashing stage)
    rw [hread] at h
    cases h
    exact ⟨⟨htask, hanswer, ⟨now, rfl⟩, htodo, fun _ => hsha (by simp)⟩, .refl g⟩
  · cases h

theorem compared_repeats (hg : Ready U g u body data xorbs files)
    (hu : Repeats U g body data xorbs files u)
    (h : shardStep U g u .compared = some (g', u')) :
    Repeats U g body data xorbs files u' ∧ Harmless g g' := by
  simp only [shardStep] at h
  split at h
  · rename_i files' chunks file todo hashed stage
    simp only [Repeats, stage] at hu
    obtain ⟨htask, hanswer, ⟨now, rfl⟩, htodo, hsha⟩ := hu
    obtain ⟨_, _, he, hsame⟩ := hsha (by simp)
    cases he
    have hstored := stamped_stored hg.grounds.derives file (htodo (by simp))
    rw [(hg.checked.hashing stage).whole hg.described hstored, compareSha_ok hsame] at h
    cases h
    refine ⟨⟨htask, hanswer, ⟨now, rfl⟩, ?_, fun hne => absurd rfl hne⟩, .refl g⟩
    exact (List.cons_subset.mp htodo).2
  · cases h

theorem register_repeats (hu : Repeats U g body data xorbs files u)
    (h : shardStep U g u .register = some (g', u')) :
    Repeats U g body data xorbs files u' ∧ Harmless g g' := by
  simp only [shardStep] at h
  split at h
  · rename_i files' chunks check stage
    simp only [Repeats, stage] at hu
    obtain ⟨_, hanswer, ⟨now, rfl⟩, _⟩ := hu
    cases h
    exact ⟨⟨hanswer, now, chunks, rfl⟩, .refl g⟩
  · cases h

/-- Every file has its row: the transaction adds none. -/
theorem inserted_repeats (hg : Ready U g u body data xorbs files)
    (hu : Repeats U g body data xorbs files u)
    (h : shardStep U g u .inserted = some (g', u')) :
    Repeats U g body data xorbs files u' ∧ Harmless g g' := by
  simp only [shardStep] at h
  split at h
  · rename_i files' chunks task
    obtain ⟨stage, now, rfl⟩ := hu.task task
    obtain ⟨hfiles, hnew⟩ := putFiles_taken hg.grounds now chunks
    simp only [stage, hnew] at h
    cases h
    exact ⟨⟨rfl, rfl⟩, rfl, hfiles, (Index.putFiles_grows _ _ _).chunks, rfl, rfl⟩
  · cases h

end Steps

/-- An upload of an accepted body passes every check again, and registers
nothing. -/
theorem step_repeats (hg : Ready U g u body data xorbs files)
    (hu : Repeats U g body data xorbs files u) (hact : Smooth g.config body act)
    (h : shardStep U g u act = some (g', u')) :
    Repeats U g body data xorbs files u' ∧ Harmless g g' := by
  cases act with
  | request authorization b => exact request_repeats hg hu hact h
  | decoded => exact decoded_repeats hg hu h
  | fetched => exact fetched_repeats hg hu h
  | built now => exact built_repeats hg hu h
  | looked => exact looked_repeats hg hu h
  | planned => exact planned_repeats hg hu h
  | hashed => exact hashed_repeats hg hu h
  | compared => exact compared_repeats hg hu h
  | register => exact register_repeats hu h
  | inserted => exact inserted_repeats hg hu h
  | failRead message => exact absurd rfl (hact.reads message)
  | failTask message => exact absurd rfl (hact.tasks message)
  | drop => exact absurd rfl hact.stays

/-- What an upload has before it: the phase, the list it goes through, the
file's check and the segments to hash. -/
def work (stage : ShardStage) : ℕ ×ₗ ℕ ×ₗ ℕ ×ₗ ℕ :=
  match stage with
  | .idle => toLex (5, toLex (0, toLex (0, 0)))
  | .decoding _ => toLex (4, toLex (0, toLex (0, 0)))
  | .fetching _ todo _ => toLex (3, toLex (todo.length, toLex (0, 0)))
  | .verifying _ _ todo .lookup => toLex (2, toLex (todo.length, toLex (2, 0)))
  | .verifying _ _ todo .planning => toLex (2, toLex (todo.length, toLex (1, 0)))
  | .verifying _ _ todo (.hashing segments _) =>
    toLex (2, toLex (todo.length, toLex (0, segments.length)))
  | .inserting => toLex (1, toLex (0, toLex (0, 0)))
  | .ended => toLex (0, toLex (0, toLex (0, 0)))

theorem work_ended {stage : ShardStage} (h : stage ≠ .ended) : work .ended < work stage := by
  cases stage with
  | ended => exact absurd rfl h
  | verifying _ _ _ check => cases check <;> simp [work, Prod.Lex.toLex_lt_toLex]
  | _ => simp [work, Prod.Lex.toLex_lt_toLex]

theorem not_idle_of_work {stage stage' : ShardStage} (h : work stage < work stage') :
    stage ≠ .idle := by
  rintro rfl
  cases stage' with
  | verifying _ _ _ check => cases check <;> simp [work, Prod.Lex.toLex_lt_toLex] at h
  | _ => simp [work, Prod.Lex.toLex_lt_toLex] at h

/-- The steps of a handler that has its request and runs into no failure. -/
def goesOn : ShardAct → Bool
  | .request .. | .failRead _ | .failTask _ | .drop => false
  | _ => true

/-- A handler that was sent its request and has not returned can go on. -/
theorem shardStep_enabled (U : Upstream) (g : AppState) (hidle : u.stage ≠ .idle)
    (hended : u.stage ≠ .ended) (htask : u.stage = .inserting → u.task ≠ none) :
    ∃ act, goesOn act = true ∧ (shardStep U g u act).isSome = true := by
  cases stage : u.stage with
  | idle => exact absurd stage hidle
  | ended => exact absurd stage hended
  | decoding b =>
    refine ⟨.decoded, rfl, ?_⟩
    cases hdata : decodeShard U b <;> simp [shardStep, stage, hdata]
  | fetching data todo found =>
    cases todo with
    | nil =>
      refine ⟨.built 0, rfl, ?_⟩
      cases hbuilt : buildRecords U (fun hash => rowOf hash found) 0 data <;>
        simp [shardStep, stage, hbuilt]
    | cons hash todo =>
      refine ⟨.fetched, rfl, ?_⟩
      cases hrow : g.index.getXorb hash <;> simp [shardStep, stage, hrow]
  | verifying files chunks todo check =>
    cases todo with
    | nil => exact ⟨.register, rfl, by simp [shardStep, stage]⟩
    | cons file todo =>
      cases check with
      | lookup =>
        refine ⟨.looked, rfl, ?_⟩
        cases hknown : lookUp g.index file <;> simp [shardStep, stage, hknown]
      | planning =>
        refine ⟨.planned, rfl, ?_⟩
        cases hplan : Filestream.planSegments g.index file <;> simp [shardStep, stage, hplan]
      | hashing segments hashed =>
        cases segments with
        | nil =>
          refine ⟨.compared, rfl, ?_⟩
          cases hsame : compareSha U file hashed <;> simp [shardStep, stage, hsame]
        | cons segment segments =>
          refine ⟨.hashed, rfl, ?_⟩
          rcases hread : decodeSegment U g.objects segment with ⟨_, _ | e⟩
          · simp [shardStep, stage, hread]
          · simp [shardStep, stage, hread]
  | inserting =>
    obtain ⟨p, hp⟩ := Option.ne_none_iff_exists'.mp (htask stage)
    exact ⟨.inserted, rfl, by simp [shardStep, stage, hp]⟩

/-- Every such step leaves less to do. -/
theorem shardStep_works (hended : u.stage ≠ .ended)
    (htask : u.stage ≠ .inserting → u.task = none) (hact : goesOn act = true)
    (h : shardStep U g u act = some (g', u')) :
    work u'.stage < work u.stage := by
  cases shardStep_moves h with
  | refused freed => exact work_ended hended
  | received idle allowed full => cases hact
  | decoded stage good => simp [work, stage, Prod.Lex.toLex_lt_toLex]
  | fetched stage => simp [work, stage, Prod.Lex.toLex_lt_toLex]
  | built stage good => simp [work, stage, Prod.Lex.toLex_lt_toLex]
  | known stage known => simp [work, stage, Prod.Lex.toLex_lt_toLex]
  | unknown stage unknown => simp [work, stage, Prod.Lex.toLex_lt_toLex]
  | planned stage good => simp [work, stage, Prod.Lex.toLex_lt_toLex]
  | hashed stage good => simp [work, stage, Prod.Lex.toLex_lt_toLex]
  | compared stage good => simp [work, stage, Prod.Lex.toLex_lt_toLex]
  | register stage =>
    rename_i check
    cases check <;> simp [work, stage, Prod.Lex.toLex_lt_toLex]
  | inserted task stage => exact work_ended hended
  | insertedGone task gone =>
    rw [htask gone] at task
    cases task
  | failedGone task gone => exact absurd (htask gone) task
  | dropped idle ended => cases hact

theorem goesOn_smooth {config : Config} (h : goesOn act = true) : Smooth config body act := by
  cases act with
  | request | failRead | failTask | drop => cases h
  | _ => exact ⟨by simp, by simp, by simp, by simp⟩

end Upload

variable {D : Deployment} {s s' t : Server} {j : Nat}

/-- No step of upload `j` runs into a failure, and its request sends this body. -/
def Resubmits (body : Bytes) (j : Nat) (s : Server) (a : Server.Act) : Prop :=
  NoDrop s a ∧ ∀ act, a = .shard j act → Smooth s.state.config body act

/-- Upload `j` registers no file and changes no row with this step. -/
def LeavesFiles (D : Deployment) (j : Nat) (s : Server) (a : Server.Act) : Prop :=
  ∀ act s', a = .shard j act → Server.step D s a = some s' → Harmless s.state s'.state

/-- Upload `j` is sent a body that was accepted before. -/
structure Repeating (D : Deployment) (body : Bytes) (data : ShardData) (xorbs : Records)
    (files : List FileRecord) (j : Nat) (s : Server) : Prop where
  reachable : (machine D).Reachable NoDrop s
  grounds : Grounds D.upstream s.state body data xorbs files
  repeats : Repeats D.upstream s.state body data xorbs files (s.shardUploads j)

theorem step_repeating (hdecode : D.upstream.FramesDecode) (hhex : D.upstream.HexRoundTrip)
    (h : Repeating D body data xorbs files j s) {a : Server.Act} (ha : Resubmits body j s a)
    (hstep : Server.step D s a = some s') :
    LeavesFiles D j s a ∧ Repeating D body data xorbs files j s' := by
  have hnext := h.reachable.next a ha.1 hstep
  have hk := step_keeps hhex h.reachable hstep
  have hd := reachable_described hdecode hhex h.reachable
  have hd' := reachable_described hdecode hhex hnext
  have hgrounds := h.grounds.keeps hk hd hd'
  have hother := h.repeats.keeps hk hd hd' h.grounds.derives
  cases step_moves hstep with
  | xorb turn => exact ⟨(fun _ _ he => nomatch he), hnext, hgrounds, hother⟩
  | crash => exact ⟨(fun _ _ he => nomatch he), hnext, hgrounds, rfl, rfl⟩
  | @shard i act g u turn =>
    rcases eq_or_ne i j with rfl | hi
    · have hready : Ready D.upstream s.state (s.shardUploads i) body data xorbs files :=
        ⟨hdecode.cumulativeOffsets, reachable_rows h.reachable, hd, reachable_shards h.reachable i,
          (reachable_checked hdecode hhex h.reachable).2 i, h.grounds⟩
      obtain ⟨hrepeats, hharmless⟩ := step_repeats hready h.repeats (ha.2 act rfl) turn
      refine ⟨?_, hnext, hgrounds, ?_⟩
      · intro act' s'' _ hs''
        cases Option.some.inj (hs''.symm.trans hstep)
        exact hharmless
      · simpa using hrepeats.keeps hk hd hd' h.grounds.derives
    · refine ⟨?_, hnext, hgrounds, by simpa [Ne.symm hi] using hother⟩
      intro act' s'' he _
      cases he
      exact absurd rfl hi

theorem Repeats.ended (h : Repeats U state body data xorbs files u) (hended : u.stage = .ended) :
    u.answer = some (.ok ⟨RESULT_EXISTS⟩) := by
  rw [Repeats, hended] at h
  exact h.2

theorem Repeats.inserting (h : Repeats U state body data xorbs files u)
    (hinserting : u.stage = .inserting) : u.task ≠ none := by
  rw [Repeats, hinserting] at h
  obtain ⟨_, now, chunks, htask⟩ := h
  simp [htask]

/-- What comes of sending an accepted shard again: no step of the upload
registers a file or changes a row, and if it returns it is answered so. -/
structure Resubmitted (D : Deployment) (body : Bytes) (j : Nat) (s t : Server) : Prop where
  leaves : (machine D).Run (fun s a => Resubmits body j s a ∧ LeavesFiles D j s a) s t
  answers : ∀ answer, (t.shardUploads j).answer = some answer → answer = .ok ⟨RESULT_EXISTS⟩
  ends : (t.shardUploads j).stage = .ended →
    (t.shardUploads j).answer = some (.ok ⟨RESULT_EXISTS⟩)

theorem resubmitted (hdecode : D.upstream.FramesDecode) (hhex : D.upstream.HexRoundTrip)
    (h : (machine D).Reachable NoDrop s) (haccepted : Accepted D.upstream s.state body)
    (hstart : s.shardUploads j = .none) (hrun : (machine D).Run (Resubmits body j) s t) :
    Resubmitted D body j s t := by
  obtain ⟨data, xorbs, files, hgrounds⟩ := haccepted
  have hboth : (machine D).Run (fun s a => Resubmits body j s a ∧ LeavesFiles D j s a) s t ∧
      Repeating D body data xorbs files j t := by
    refine hrun.records (I := Repeating D body data xorbs files j) ⟨h, hgrounds, ?_⟩ ?_
    · rw [hstart]
      exact ⟨rfl, rfl⟩
    · intro s a t hi ha hstep
      obtain ⟨hleaves, hnext⟩ := step_repeating hdecode hhex hi ha hstep
      exact ⟨⟨ha, hleaves⟩, hnext⟩
  exact ⟨hboth.1, fun answer hanswer => hboth.2.repeats.answer hanswer, hboth.2.repeats.ended⟩

/-- Until it has returned, the handler has a step that brings it closer. -/
theorem repeating_advances (hdecode : D.upstream.FramesDecode) (hhex : D.upstream.HexRoundTrip)
    (h : Repeating D body data xorbs files j s) (hidle : (s.shardUploads j).stage ≠ .idle)
    (hended : (s.shardUploads j).stage ≠ .ended) :
    ∃ a s', Resubmits body j s a ∧ Server.step D s a = some s' ∧
      (Repeating D body data xorbs files j s' ∧ (s'.shardUploads j).stage ≠ .idle) ∧
      work (s'.shardUploads j).stage < work (s.shardUploads j).stage := by
  obtain ⟨act, hact, henabled⟩ :=
    shardStep_enabled D.upstream s.state hidle hended h.repeats.inserting
  obtain ⟨⟨g, u⟩, hturn⟩ := Option.isSome_iff_exists.mp henabled
  have htask : (s.shardUploads j).stage ≠ .inserting → (s.shardUploads j).task = none := by
    intro hstage
    cases htask : (s.shardUploads j).task with
    | none => rfl
    | some p => exact absurd (h.repeats.task htask).1 hstage
  have hwork := shardStep_works hended htask hact hturn
  have hsmooth : Smooth s.state.config body act := goesOn_smooth hact
  have hresubmits : Resubmits body j s (.shard j act) := by
    refine ⟨?_, ?_⟩
    · cases act with
      | drop => cases hact
      | _ => rfl
    · intro act' he
      cases he
      exact hsmooth
  have hstep : Server.step D s (.shard j act) =
      some { s with state := g, shardUploads := Function.update s.shardUploads j u } := by
    simp [Server.step, hturn]
  have hnext := (step_repeating hdecode hhex h hresubmits hstep).2
  refine ⟨_, _, hresubmits, hstep, ⟨hnext, ?_⟩, ?_⟩
  · simpa using not_idle_of_work hwork
  · simpa using hwork

/-- The answer can be had in any state: a handler waits for no other. -/
theorem resubmit_answered (hdecode : D.upstream.FramesDecode) (hhex : D.upstream.HexRoundTrip)
    (h : (machine D).Reachable NoDrop s) (haccepted : Accepted D.upstream s.state body)
    (hstart : s.shardUploads j = .none) {authorization : Option String}
    (hallowed : AppState.authorize s.state.config authorization = .ok ()) :
    ∃ t, (machine D).Run (Resubmits body j) s t ∧
      (t.shardUploads j).answer = some (.ok ⟨RESULT_EXISTS⟩) := by
  obtain ⟨data, xorbs, files, hgrounds⟩ := haccepted
  have hfirst : Repeating D body data xorbs files j s := by
    refine ⟨h, hgrounds, ?_⟩
    rw [hstart]
    exact ⟨rfl, rfl⟩
  have hrequest : Server.step D s (.shard j (.request authorization body)) = some { s with
      shardUploads := Function.update s.shardUploads j
        { ShardUpload.none with stage := .decoding body } } := by
    simp [Server.step, shardStep, hstart, ShardUpload.none, hallowed, hgrounds.derives.full]
  have hsubmits : Resubmits body j s (.shard j (.request authorization body)) := by
    refine ⟨rfl, ?_⟩
    intro act he
    cases he
    refine ⟨by simp, by simp, by simp, ?_⟩
    intro _ _ he
    cases he
    exact ⟨rfl, hallowed⟩
  have hsent := (step_repeating hdecode hhex hfirst hsubmits hrequest).2
  obtain ⟨t, hrun, hlast, hended⟩ := Machine.Run.finishes (M := machine D)
    (I := fun s => Repeating D body data xorbs files j s ∧ (s.shardUploads j).stage ≠ .idle)
    (G := fun s => (s.shardUploads j).stage = .ended) (fun s => work (s.shardUploads j).stage)
    (fun s hi hended => repeating_advances hdecode hhex hi.1 hi.2 hended) ⟨hsent, by simp⟩
  exact ⟨t, (Machine.Run.single _ hsubmits hrequest).trans hrun, hlast.1.repeats.ended hended⟩

/-- The steps that send the letter compressed as upload 1. -/
def resendsLetter (s : Server) : Server.Act → Bool
  | .xorb 1 (.request authorization key body) =>
    key.hash = Formats.letterHex && body = Formats.packedBody &&
      Xorbs.admitUpload sampleServer.upstream s.state.config authorization key =
        .ok Formats.letterHash
  | .xorb 1 (.failRead _) | .xorb 1 (.failTask _) => false
  | a => !isDrop a

theorem packed_readable :
    Readable sampleServer.upstream Formats.packedBody Formats.letterHash := by
  have hprepared : (Xorbs.prepare sampleServer.upstream Formats.packedBody
      Formats.letterHash 1).isOk = true := by decide +kernel
  refine ⟨rfl, by decide, 1, ?_⟩
  cases hup : Xorbs.prepare sampleServer.upstream Formats.packedBody Formats.letterHash 1 with
  | error e =>
    rw [hup] at hprepared
    cases hprepared
  | ok up => exact ⟨up, rfl⟩

theorem resendsLetter_resends {s : Server} {a : Server.Act} (h : resendsLetter s a = true) :
    Resends sampleServer Formats.letterHex 1 s a := by
  unfold resendsLetter at h
  split at h
  · rename_i authorization key body
    simp only [Bool.and_eq_true, decide_eq_true_eq] at h
    obtain ⟨⟨hhash, rfl⟩, hkey⟩ := h
    refine ⟨rfl, ?_⟩
    intro act he
    cases he
    refine ⟨by simp, by simp, by simp, ?_⟩
    intro _ _ _ he
    cases he
    exact ⟨hhash, _, hkey, packed_readable⟩
  · cases h
  · cases h
  · rename_i hrequest hread htask
    refine ⟨by simpa using h, ?_⟩
    rintro act rfl
    refine ⟨?_, ?_, ?_, ?_⟩
    · rintro rfl
      cases h
    · rintro message rfl
      exact hread message rfl
    · rintro message rfl
      exact htask message rfl
    · rintro authorization key body rfl
      exact absurd rfl (hrequest authorization key body)

/-- The steps that send the letter's shard, if any, as shard upload 0. -/
def submitsLetter (_ : Server) : Server.Act → Bool
  | .shard 0 (.request _ b) => b = Formats.letterShard (some Formats.letterMetadata)
  | a => !isDrop a

theorem submitsLetter_submits {s : Server} {a : Server.Act} (h : submitsLetter s a = true) :
    Submits (Formats.letterShard (some Formats.letterMetadata)) 0 s a := by
  unfold submitsLetter at h
  split at h
  · refine ⟨rfl, ?_⟩
    intro _ _ he
    cases he
    exact of_decide_eq_true h
  · rename_i hrequest
    refine ⟨by simpa [NoDrop] using h, ?_⟩
    rintro authorization b rfl
    exact absurd rfl (hrequest authorization b)

/-- From the one to the other, upload 0 is answered that it inserted the letter. -/
def insertsLetter (s s' : Server) : Bool :=
  (s'.xorbUploads 0).hash = Formats.letterHex ∧
    (s.xorbUploads 0).answer ≠ some (.ok ⟨true⟩) ∧ (s'.xorbUploads 0).answer = some (.ok ⟨true⟩)

/-- The letter is stored and registered, and nobody has sent it as upload 1. -/
def letterAccepted (s : Server) : Bool :=
  (s.state.index.getXorb Formats.letterHex).isSome &&
    (match (s.shardUploads 0).answer with
    | some (.ok _) => true
    | _ => false) &&
    (match s.xorbUploads 1 with
    | ⟨hash, .idle, .none, false, .none⟩ => hash.isEmpty
    | _ => false)

theorem letterAccepted_spec {s : Server} (h : letterAccepted s = true) :
    (∃ record, s.state.index.getXorb Formats.letterHex = some record) ∧
      (∃ r, (s.shardUploads 0).answer = some (.ok r)) ∧ s.xorbUploads 1 = .none := by
  unfold letterAccepted at h
  rw [Bool.and_eq_true, Bool.and_eq_true] at h
  obtain ⟨⟨hrow, hanswer⟩, hidle⟩ := h
  refine ⟨Option.isSome_iff_exists.mp hrow, ?_, ?_⟩
  · split at hanswer
    · rename_i r hr
      exact ⟨r, hr⟩
    · cases hanswer
  · split at hidle
    · rename_i hx
      rw [hx, String.isEmpty_iff.mp hidle]
      rfl
    · cases hidle

/-- Upload 1 is answered, and nobody has sent a shard as upload 1. -/
def letterAnswered (s : Server) : Bool :=
  (s.xorbUploads 1).answer = some (.ok ⟨false⟩) &&
    (AppState.authorize s.state.config none = .ok () &&
    (match s.shardUploads 1 with
    | ⟨.idle, .none, .none⟩ => true
    | _ => false))

theorem letterAnswered_spec {s : Server} (h : letterAnswered s = true) :
    (s.xorbUploads 1).answer = some (.ok ⟨false⟩) ∧
      AppState.authorize s.state.config none = .ok () ∧ s.shardUploads 1 = .none := by
  unfold letterAnswered at h
  rw [Bool.and_eq_true, Bool.and_eq_true, decide_eq_true_eq, decide_eq_true_eq] at h
  obtain ⟨hanswer, hallowed, hidle⟩ := h
  refine ⟨hanswer, hallowed, ?_⟩
  split at hidle
  · rename_i hs
    exact hs
  · cases hidle

/-- Uploads are idempotent, after any history and with any others under way.
A stored xorb that is sent again, in whatever layout, changes nothing and is
answered that nothing was inserted; of all uploads of a hash at most one is
answered that it was. An accepted shard that is sent again is accepted, and
registers nothing. -/
theorem uploads_idempotent (hdecode : D.upstream.FramesDecode) (hhex : D.upstream.HexRoundTrip) :
    (∀ {s t : Server} {hash : String} {record : XorbRecord} {i : Nat},
      (machine D).Reachable NoDrop s → s.state.index.getXorb hash = some record →
      s.xorbUploads i = .none → (machine D).Run (Resends D hash i) s t →
        Resent D hash i s t ∧ t.state.index.getXorb hash = some record ∧
          t.state.objects (pathFor hash) = s.state.objects (pathFor hash)) ∧
    (∀ {s s' t t' : Server} {hash : String} {a b : Server.Act},
      (machine D).Reachable Machine.anyStep s → Server.step D s a = some s' →
      Inserts hash s a s' → (machine D).Run Machine.anyStep s' t →
      Server.step D t b = some t' → ¬Inserts hash t b t') ∧
    (∀ {s₀ s₁ s : Server} {body : Bytes} {i j : Nat} {r : UploadShardResponse},
      (machine D).Reachable NoDrop s₀ → s₀.shardUploads i = .none →
      (machine D).Run (Submits body i) s₀ s₁ → (s₁.shardUploads i).answer = some (.ok r) →
      (machine D).Run NoDrop s₁ s → s.shardUploads j = .none →
        (∀ {t : Server}, (machine D).Run (Resubmits body j) s t → Resubmitted D body j s t) ∧
        ∀ authorization, AppState.authorize s.state.config authorization = .ok () →
          ∃ t, (machine D).Run (Resubmits body j) s t ∧
            (t.shardUploads j).answer = some (.ok ⟨RESULT_EXISTS⟩)) := by
  refine ⟨?_, ?_, ?_⟩
  · intro s t hash record i h hrow hstart hrun
    have hk := run_keeps hhex h (hrun.weaken (fun _ _ ha => ha.1))
    have hsome : (s.state.index.getXorb hash).isSome = true := by simp [hrow]
    exact ⟨resent_unchanged hsome hstart hrun, hk.index.xorbs _ _ hrow, hk.objects hrow⟩
  · intro s s' t t' hash a b h hstep hins hrun hstep'
    exact inserts_once hhex h hstep trivial hins hrun hstep'
  · intro s₀ s₁ s body i j r h₀ hstart₀ hrun₀ hanswer hrun hstart
    have h₁ := h₀.extend (hrun₀.weaken (fun _ _ ha => ha.1))
    have haccepted := accepted_stays hdecode hhex h₁ hrun
      (answered_accepted hdecode hhex h₀ hstart₀ hrun₀ hanswer)
    have h := h₁.extend hrun
    exact ⟨fun hagain => resubmitted hdecode hhex h haccepted hstart hagain,
      fun _ hallowed => resubmit_answered hdecode hhex h haccepted hstart hallowed⟩

theorem letter_sent_again : ∃ p p' s t u,
    Inserts Formats.letterHex p (.xorb 0 .inserted) p' ∧
    (∀ b t', Server.step sampleServer t b = some t' → ¬Inserts Formats.letterHex t b t') ∧
    Resent sampleServer Formats.letterHex 1 s t ∧
    (t.xorbUploads 1).answer = some (.ok ⟨false⟩) ∧
    (machine sampleServer).Run
      (Resubmits (Formats.letterShard (some Formats.letterMetadata)) 1) t u ∧
    (u.shardUploads 1).answer = some (.ok ⟨RESULT_EXISTS⟩) := by
  let start := boot sampleServer .fresh (fun _ => none)
  have hall : ((machine sampleServer).exec submitsLetter start (sendLetter 0 Formats.plainBody ++
      checkLetter 0 ++ [.xorb 0 .renamed, .xorb 0 .written])).bind (fun p =>
    (Server.step sampleServer p (.xorb 0 .inserted)).bind (fun p' =>
      ((machine sampleServer).exec submitsLetter p' (endUpload 0 ++
          registerLetter 0 (some Formats.letterMetadata) ++ [.shard 0 .inserted])).bind (fun s =>
        ((machine sampleServer).exec resendsLetter s
            (sendLetter 1 Formats.packedBody ++ checkLetter 1 ++ endUpload 1)).map (fun t =>
          insertsLetter p p' && letterAccepted s && letterAnswered t)))) =
      some true := by decide +kernel
  obtain ⟨p, hp, hrest⟩ := Option.bind_eq_some_iff.mp hall
  obtain ⟨p', hp', hrest⟩ := Option.bind_eq_some_iff.mp hrest
  obtain ⟨s, hs, hrest⟩ := Option.bind_eq_some_iff.mp hrest
  obtain ⟨t, ht, hends⟩ := Option.map_eq_some_iff.mp hrest
  rw [Bool.and_eq_true, Bool.and_eq_true] at hends
  obtain ⟨⟨hinserted, haccepted⟩, hanswered⟩ := hends
  obtain ⟨⟨record, hrow⟩, ⟨r, hr⟩, hidle⟩ := letterAccepted_spec haccepted
  obtain ⟨hanswer, hallowed, hfree⟩ := letterAnswered_spec hanswered
  have hstep : (machine sampleServer).step p (.xorb 0 .inserted) = some p' := hp'
  have hstored := Machine.exec_run (fun _ _ => submitsLetter_submits) _ hp
  have hregistered := Machine.exec_run (fun _ _ => submitsLetter_submits) _ hs
  have hsubmits :=
    hstored.trans ((Machine.Run.single _ (submitsLetter_submits rfl) hstep).trans hregistered)
  have hresends := Machine.exec_run (fun _ _ => resendsLetter_resends) _ ht
  have hstart : (machine sampleServer).Reachable NoDrop start := .start rfl
  have hreach := hstart.extend (hsubmits.weaken (fun _ _ ha => ha.1))
  have hlater := hresends.weaken (fun _ _ ha => ha.1)
  have hinserts : Inserts Formats.letterHex p (.xorb 0 .inserted) p' :=
    ⟨0, _, rfl, of_decide_eq_true hinserted⟩
  obtain ⟨hresent, honce, hresubmitted⟩ := uploads_idempotent (D := sampleServer)
    (Formats.documented_framesDecode _) (Formats.documented_hexRoundTrip _)
  obtain ⟨u, hrun, hexists⟩ :=
    (hresubmitted hstart rfl hsubmits hr hlater hfree).2 none hallowed
  refine ⟨p, p', s, t, u, hinserts, ?_, (hresent hreach hrow hidle hresends).1, hanswer, hrun,
    hexists⟩
  intro b t' hb
  have hfirst : (machine sampleServer).Reachable Machine.anyStep p := ⟨start, rfl, hstored.free⟩
  exact honce hfirst hp' hinserts (hregistered.free.trans hresends.free) hb

end Xetcas.Proofs.Idempotence
