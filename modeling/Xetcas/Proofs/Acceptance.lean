import Xetcas.Proofs.Truthful

namespace Xetcas.Proofs.Acceptance
open Lib Server Routes Routes.Shards Registration Truthful
variable {U : Upstream} {D : Deployment} {s t : Server}

section Build
variable {xorbs : Records} {now : UInt64} {data : ShardData}

/-- One record per file, in order; the flags that are borne out, and the first
chunk of each file that has one. -/
structure Registers (U : Upstream) (xorbs : Records) (data : ShardData) (files : List FileRecord)
    (mappings : List ChunkIndexEntry) : Prop where
  built : ∃ built : List (FileRecord × List ChunkIndexEntry), files = built.map Prod.fst ∧
    mappings = data.flaggedChunks.filter (corroborated U xorbs) ++ built.flatMap Prod.snd ∧
    List.Forall₂ (fun file b => ∃ chunks, TruthfulFile U xorbs file chunks ∧
      RecordOf file chunks b.1 ∧ FirstChunk U file chunks b.2) data.files built
  flags : ∀ e, corroborated U xorbs e = true ↔ Corroborated U xorbs e

theorem buildRecords_registers (hheld : Held xorbs) (hdecoded : ∀ file ∈ data.files, Decoded file)
    {files : List FileRecord} {mappings : List ChunkIndexEntry}
    (h : buildRecords U xorbs now data = .ok (files, mappings)) :
    Registers U xorbs data files mappings := by
  obtain ⟨built, hbuilt, he⟩ := bind_eq_ok.mp h
  cases he
  refine ⟨⟨built, rfl, rfl, ?_⟩, fun _ => corroborated_iff⟩
  apply forall₂_imp_mem ?_ (mapM_eq_ok.mp hbuilt)
  intro file hfile b hb
  exact buildRecord_ok hheld (hdecoded file hfile) hb

theorem buildRecords_iff (hhex : U.HexForm) (hheld : Held xorbs)
    (hdecoded : ∀ file ∈ data.files, Decoded file) :
    (∃ out, buildRecords U xorbs now data = .ok out) ↔
      ∀ file ∈ data.files, ∃ chunks, TruthfulFile U xorbs file chunks := by
  constructor
  · intro h file hfile
    obtain ⟨⟨files, mappings⟩, hout⟩ := h
    obtain ⟨built, _, _, hall⟩ := (buildRecords_registers hheld hdecoded hout).built
    obtain ⟨_, _, chunks, htruthful, _⟩ := partner hall hfile
    exact ⟨chunks, htruthful⟩
  · intro h
    have hbuilds : ∀ file ∈ data.files, ∃ b, buildRecord U xorbs now file = .ok b ∧ True := by
      intro file hfile
      obtain ⟨chunks, htruthful⟩ := h file hfile
      obtain ⟨b, hb⟩ := htruthful.builds hhex hheld (hdecoded file hfile)
      exact ⟨b, hb, trivial⟩
    obtain ⟨built, hbuilt, _⟩ := mapM_exists hbuilds
    exact ⟨_, bind_eq_ok.mpr ⟨built, hbuilt, rfl⟩⟩

end Build

section Upload
variable {g g' : AppState} {u u' : ShardUpload} {act : ShardAct} {e : AppError}

/-- `build_records` or `verify_sha256` fails at this step, with this error. -/
inductive CheckFails (U : Upstream) (g : AppState) (u : ShardUpload) : ShardAct → AppError → Prop
  | building {data found now e} (stage : u.stage = .fetching data [] found)
      (bad : buildRecords U (fun hash => rowOf hash found) now data = .error e) :
      CheckFails U g u (.built now) e
  | planning {files chunks file todo e}
      (stage : u.stage = .verifying files chunks (file :: todo) .planning)
      (bad : Filestream.planSegments g.index file = .error e) : CheckFails U g u .planned e
  | hashing {files chunks todo segment segments hashed data text}
      (stage : u.stage = .verifying files chunks todo (.hashing (segment :: segments) hashed))
      (bad : decodeSegment U g.objects segment = (data, some text)) :
      CheckFails U g u .hashed (.internal s!"hashing file content: {text}")
  | comparing {files chunks file todo hashed e}
      (stage : u.stage = .verifying files chunks (file :: todo) (.hashing [] hashed))
      (bad : compareSha U file hashed = .error e) : CheckFails U g u .compared e

theorem CheckFails.refused (h : CheckFails U g u act e) :
    shardStep U g u act = some (g, u.return_ (.error e)) := by
  cases h with
  | building stage bad => simp only [shardStep, stage, bad]
  | planning stage bad => simp only [shardStep, stage, bad]
  | hashing stage bad => simp only [shardStep, stage, bad]
  | comparing stage bad => simp only [shardStep, stage, bad]

/-- Where an upload can be with its transaction and its answer. -/
structure Orderly (u : ShardUpload) : Prop where
  task : u.task ≠ none → u.stage = .inserting ∨ u.stage = .ended ∧ u.answer = none
  answer : u.answer ≠ none → u.stage = .ended

theorem none_orderly : Orderly ShardUpload.none :=
  ⟨fun h => absurd rfl h, fun h => absurd rfl h⟩

/-- An upload that has ended only has its transaction left to end. -/
theorem ended_step (h : shardStep U g u act = some (g', u')) (hended : u.stage = .ended) :
    u.task ≠ none ∧ u' = { u with task := none } := by
  cases act with
  | inserted =>
    cases htask : u.task with
    | none => simp [shardStep, htask] at h
    | some files =>
      simp only [shardStep, htask, hended, Option.some.injEq, Prod.mk.injEq] at h
      rw [hended]
      exact ⟨by simp, h.2.symm⟩
  | failTask message =>
    cases htask : u.task with
    | none => simp [shardStep, htask] at h
    | some files =>
      simp only [shardStep, htask, hended, Option.some.injEq, Prod.mk.injEq] at h
      rw [hended]
      exact ⟨by simp, h.2.symm⟩
  | _ => simp [shardStep, hended] at h

theorem Orderly.idle (h : Orderly u) (hinserting : u.stage ≠ .inserting) (hended : u.stage ≠ .ended) :
    u.task = none ∧ u.answer = none := by
  refine ⟨?_, ?_⟩
  · by_contra htask
    rcases h.task htask with hstage | ⟨hstage, _⟩
    · exact hinserting hstage
    · exact hended hstage
  · by_contra hanswer
    exact hended (h.answer hanswer)

theorem answer_ok (n : Nat) : ∃ r, answer n = .ok r := by
  unfold answer
  split
  · exact ⟨⟨RESULT_EXISTS⟩, rfl⟩
  · exact ⟨⟨RESULT_SYNC_PERFORMED⟩, rfl⟩

/-- Between two awaits an upload holds nothing but its stage. -/
theorem Orderly.advance (h : Orderly u) (hinserting : u.stage ≠ .inserting)
    (hended : u.stage ≠ .ended) (stage : ShardStage) : Orderly { u with stage := stage } := by
  obtain ⟨htask, hanswer⟩ := h.idle hinserting hended
  exact ⟨fun hsome => absurd htask hsome, fun hsome => absurd hanswer hsome⟩

/-- Only the insert changes the index, and then no error is answered. -/
theorem step_orderly (hu : Orderly u) (h : shardStep U g u act = some (g', u')) :
    Orderly u' ∧ g'.index = g.index ∨
      u'.stage = .ended ∧ u'.task = none ∧ ∀ e, u'.answer ≠ some (.error e) := by
  by_cases hended : u.stage = .ended
  · obtain ⟨htask, rfl⟩ := ended_step h hended
    rcases hu.task htask with hstage | ⟨_, hanswer⟩
    · rw [hended] at hstage
      cases hstage
    · exact .inr ⟨hended, rfl, by simp [hanswer]⟩
  · cases shardStep_moves h with
    | refused freed =>
      refine .inl ⟨⟨?_, fun _ => rfl⟩, rfl⟩
      intro htask
      rcases freed with rfl | ⟨rfl, hstage⟩
      · exact absurd rfl htask
      · exact absurd (hu.idle hstage hended).1 htask
    | received stage allowed full => exact .inl ⟨hu.advance (by simp [stage]) hended _, rfl⟩
    | decoded stage good => exact .inl ⟨hu.advance (by simp [stage]) hended _, rfl⟩
    | fetched stage => exact .inl ⟨hu.advance (by simp [stage]) hended _, rfl⟩
    | built stage good => exact .inl ⟨hu.advance (by simp [stage]) hended _, rfl⟩
    | known stage known => exact .inl ⟨hu.advance (by simp [stage]) hended _, rfl⟩
    | unknown stage unknown => exact .inl ⟨hu.advance (by simp [stage]) hended _, rfl⟩
    | planned stage good => exact .inl ⟨hu.advance (by simp [stage]) hended _, rfl⟩
    | hashed stage good => exact .inl ⟨hu.advance (by simp [stage]) hended _, rfl⟩
    | compared stage good => exact .inl ⟨hu.advance (by simp [stage]) hended _, rfl⟩
    | register stage =>
      obtain ⟨_, hanswer⟩ := hu.idle (by simp [stage]) hended
      exact .inl ⟨⟨fun _ => .inl rfl, fun hsome => absurd hanswer hsome⟩, rfl⟩
    | @inserted files chunks task stage =>
      obtain ⟨r, hr⟩ := answer_ok (g.index.putFiles files chunks).2
      exact .inr ⟨rfl, rfl, by simp [ShardUpload.return_, hr]⟩
    | insertedGone task gone =>
      rw [(hu.idle gone hended).1] at task
      cases task
    | failedGone task gone => exact absurd (hu.idle gone hended).1 task
    | dropped idle ended =>
      have hanswer : u.answer = none := by
        by_contra hsome
        exact hended (hu.answer hsome)
      exact .inl ⟨⟨fun _ => .inr ⟨rfl, hanswer⟩, fun hsome => absurd hanswer hsome⟩, rfl⟩

end Upload

/-- A step that is not upload `i`'s, or changes no table. -/
def LeavesIndex (D : Deployment) (i : Nat) (s : Server) (a : Server.Act) : Prop :=
  ∀ act s', a = .shard i act → Server.step D s a = some s' → s'.state.index = s.state.index

/-- How far upload `i` is: it has changed nothing so far, or it is over and was
not refused. -/
def Refusable (D : Deployment) (ok : Server → Server.Act → Prop) (i : Nat) (s t : Server) : Prop :=
  Orderly (t.shardUploads i) ∧ (machine D).Run (fun s a => ok s a ∧ LeavesIndex D i s a) s t ∨
    (t.shardUploads i).stage = .ended ∧ (t.shardUploads i).task = none ∧
      ∀ e, (t.shardUploads i).answer ≠ some (.error e)

theorem step_refusable {ok : Server → Server.Act → Prop} {i : Nat} {t' : Server} {a : Server.Act}
    (h : Refusable D ok i s t) (hok : ok t a) (hcrash : a ≠ .crash)
    (hstep : (machine D).step t a = some t') : Refusable D ok i s t' := by
  have hother : (∀ act, a ≠ .shard i act) → t'.shardUploads i = t.shardUploads i →
      Refusable D ok i s t' := by
    intro hne hsame
    rw [Refusable, hsame]
    refine h.imp ?_ id
    intro hquiet
    exact ⟨hquiet.1, hquiet.2.tail a ⟨hok, fun act s' he => absurd he (hne act)⟩ hstep⟩
  cases step_moves hstep with
  | xorb turn => exact hother (by simp) rfl
  | crash => exact absurd rfl hcrash
  | @shard j act g u turn =>
    rcases eq_or_ne j i with rfl | hj
    · rcases h with ⟨horderly, hrun⟩ | ⟨hended, htask, _⟩
      · rcases step_orderly horderly turn with ⟨horderly', hindex⟩ | hover
        · refine .inl ⟨by simpa using horderly', hrun.tail _ ⟨hok, ?_⟩ hstep⟩
          intro act' s' _ hs'
          cases Option.some.inj (hs'.symm.trans hstep)
          exact hindex
        · exact .inr (by simpa using hover)
      · exact absurd htask (ended_step turn hended).1
    · exact hother (by simp [hj]) (Function.update_of_ne (Ne.symm hj) _ _)

/-- An upload that is answered with an error has changed no table on the way. -/
theorem refused_leaves_index {ok : Server → Server.Act → Prop} (hok : ∀ s a, ok s a → a ≠ .crash)
    {i : Nat} {e : AppError} (hstart : s.shardUploads i = .none) (h : (machine D).Run ok s t)
    (hanswer : (t.shardUploads i).answer = some (.error e)) :
    (machine D).Run (fun s a => ok s a ∧ LeavesIndex D i s a) s t := by
  have hquiet : Refusable D ok i s t := by
    refine h.keeps (I := Refusable D ok i s) (.inl ⟨?_, .refl⟩) ?_
    · rw [hstart]
      exact none_orderly
    · intro u a v hu ha hstep
      exact step_refusable hu ha (hok u a ha) hstep
  rcases hquiet with ⟨_, hrun⟩ | ⟨_, _, hover⟩
  · exact hrun
  · exact absurd hanswer (hover e)

/-- `build_records` accepts exactly the truthful shards, and a shard upload
that is refused changes no table. -/
theorem truthful_shards_accepted (hhex : D.upstream.HexForm) :
    (∀ body data xorbs now, decodeShard D.upstream body = .ok data → Held xorbs →
      ((∃ out, buildRecords D.upstream xorbs now data = .ok out) ↔
        ∀ file ∈ data.files, ∃ chunks, TruthfulFile D.upstream xorbs file chunks) ∧
      ∀ files mappings, buildRecords D.upstream xorbs now data = .ok (files, mappings) →
        Registers D.upstream xorbs data files mappings) ∧
    (∀ g u act e, CheckFails D.upstream g u act e →
      shardStep D.upstream g u act = some (g, u.return_ (.error e))) ∧
    ∀ (ok : Server → Server.Act → Prop) s t i e, (∀ s a, ok s a → a ≠ .crash) →
      s.shardUploads i = .none → (machine D).Run ok s t →
      (t.shardUploads i).answer = some (.error e) →
      (machine D).Run (fun s a => ok s a ∧ LeavesIndex D i s a) s t := by
  refine ⟨?_, fun _ _ _ _ hfails => hfails.refused, ?_⟩
  · intro body data xorbs now hdecode hheld
    have hdecoded := decodeShard_decoded hhex hdecode
    exact ⟨buildRecords_iff hhex hheld hdecoded,
      fun files mappings h => buildRecords_registers hheld hdecoded h⟩
  · intro ok s t i e hok hstart hrun hanswer
    exact refused_leaves_index hok hstart hrun hanswer

def letterHeld : Records := fun hash => if hash = Formats.letterHex then some letterRow else none

theorem letterHeld_held : Held letterHeld := by
  have hrow : ∀ {hash record}, letterHeld hash = some record →
      hash = Formats.letterHex ∧ record = letterRow := by
    intro hash record h
    rw [letterHeld] at h
    split at h
    · rename_i hhash
      cases h
      exact ⟨hhash, rfl⟩
    · cases h
  refine ⟨?_, ?_⟩
  · intro hash record h
    rw [(hrow h).1]
    exact Formats.hex_form _
  · intro hash record h
    rw [(hrow h).2]
    exact letterRow_consistent

/-- The letter's shard tells the truth where the letter is stored; a server
without it refuses the shard. -/
theorem letter_accepted_or_refused :
    (∃ data, decodeShard sampleServer.upstream (Formats.letterShard none) = .ok data ∧
      ∀ file ∈ data.files, ∃ chunks, TruthfulFile sampleServer.upstream letterHeld file chunks) ∧
    ∃ t, (machine sampleServer).Run (fun s a => isDrop a = false ∧ a ≠ .crash ∧
      LeavesIndex sampleServer 0 s a) (boot sampleServer .fresh (fun _ => none)) t ∧
      (t.shardUploads 0).answer.isSome = true := by
  obtain ⟨hbuilds, _, hrefused⟩ := truthful_shards_accepted
    (D := sampleServer) (Formats.documented_hexForm Formats.sample)
  refine ⟨?_, ?_⟩
  · have hdecoded : (decodeShard sampleServer.upstream (Formats.letterShard none) >>=
        fun data => buildRecords sampleServer.upstream letterHeld 2 data).toOption.isSome = true := by
      decide +kernel
    cases hout : (decodeShard sampleServer.upstream (Formats.letterShard none) >>=
        fun data => buildRecords sampleServer.upstream letterHeld 2 data) with
    | error e =>
      rw [hout] at hdecoded
      cases hdecoded
    | ok out =>
      obtain ⟨data, hdata, hbuilt⟩ := bind_eq_ok.mp hout
      exact ⟨data, hdata, (hbuilds _ data _ 2 hdata letterHeld_held).1.mp ⟨out, hbuilt⟩⟩
  · obtain ⟨t, hrun, hend⟩ := Machine.exec_reaches (machine sampleServer)
      (fun _ a => isDrop a = false ∧ a ≠ .crash)
      (fun _ a => !isDrop a && a matches .shard ..)
      (fun t => (t.shardUploads 0).answer.any (fun r => r.toOption.isNone))
      (by
        intro s a h
        cases a <;> simp_all) (boot sampleServer .fresh (fun _ => none))
      [.shard 0 (.request none (Formats.letterShard none)), .shard 0 .decoded, .shard 0 .fetched,
        .shard 0 (.built 2)] (by decide +kernel)
    obtain ⟨r, hanswer, hr⟩ := (Option.any_eq_true _ _).mp hend
    cases r with
    | ok r => cases hr
    | error e =>
      have hquiet := hrefused _ _ t 0 e (fun s a h => h.2) rfl hrun hanswer
      refine ⟨t, hquiet.weaken (fun s a h => ⟨h.1.1, h.1.2, h.2⟩), ?_⟩
      rw [hanswer]
      rfl

end Xetcas.Proofs.Acceptance
