import Xetcas.Proofs.Registration
import Xetcas.Routes.Chunks

namespace Xetcas.Proofs.Dedup
open Lib Server Routes Routes.Xorbs Routes.Shards Provenance Agreement Registration
variable {U : Upstream} {index : Index}

def Contains (U : Upstream) (index : Index) (xorbHash : String) (i : Nat) (chunkHash : String) :
    Prop :=
  ∃ record m, index.getXorb xorbHash = some record ∧ chunkHashAt record i = .ok m ∧
    U.hex m = chunkHash

theorem Contains.grows {index' : Index} {xorbHash chunkHash : String} {i : Nat}
    (h : Contains U index xorbHash i chunkHash) (hg : index.Grows index') :
    Contains U index' xorbHash i chunkHash := by
  obtain ⟨record, m, hrecord, hm, hhash⟩ := h
  exact ⟨record, m, hg.xorbs _ _ hrecord, hm, hhash⟩

/-- The dedup index is sound, and complete for the chunks that are probed. -/
structure DedupIndex (U : Upstream) (index : Index) : Prop where
  sound : ∀ {chunkHash row}, index.lookupChunk chunkHash = some row →
    Contains U index row.xorbHash row.chunkIndex.toNat chunkHash
  eligible : ∀ {hash record}, index.getXorb hash = some record → ∀ i < record.numChunks.toNat,
    ∃ m, chunkHashAt record i = .ok m ∧
      (U.hashIsGlobalDedupEligible m = true → (index.lookupChunk (U.hex m)).isSome)
  first : ∀ {hash row term rest}, index.files.get? hash = some row →
    row.record.terms = term :: rest → ∃ chunkHash,
      Contains U index term.xorbHash term.chunkIndexStart.toNat chunkHash ∧
        (index.lookupChunk chunkHash).isSome

section Eligible
variable {record : XorbRecord} {chunks : List (String × UInt32)}

/-- The chunks indexed with a xorb are the eligible ones, under their numbers. -/
theorem eligibleChunks_mem (h : eligibleChunks U record = .ok chunks) {c : String × UInt32} :
    c ∈ chunks ↔ ∃ i m, i < record.numChunks.toNat ∧ chunkHashAt record i = .ok m ∧
      U.hashIsGlobalDedupEligible m = true ∧ c = (U.hex m, UInt32.ofNat i) := by
  obtain ⟨hashes, hhashes, he⟩ := bind_eq_ok.mp h
  cases he
  have hall := mapM_eq_ok.mp (orBadRequest_ok.mp hhashes)
  have hlen := hall.length_eq
  rw [List.length_range] at hlen
  have hat : ∀ i (hi : i < hashes.length), chunkHashAt record i = .ok hashes[i] := by
    intro i hi
    have hget := hall.get (by simpa [hlen] using hi) hi
    simpa using hget
  simp only [List.mem_filterMap, Prod.exists, List.mk_mem_zipIdx_iff_getElem?]
  constructor
  · intro hparts
    obtain ⟨m, i, hm, hc⟩ := hparts
    obtain ⟨hi, rfl⟩ := List.getElem?_eq_some_iff.mp hm
    split at hc
    · rename_i heligible
      cases hc
      exact ⟨i, hashes[i], by omega, hat i hi, heligible, rfl⟩
    · cases hc
  · intro hparts
    obtain ⟨i, m, hi, hm, heligible, rfl⟩ := hparts
    have hi' : i < hashes.length := by omega
    have he := hat i hi'
    rw [hm] at he
    cases he
    exact ⟨hashes[i], i, by simp [hi'], by simp [heligible]⟩

/-- Every chunk of a valid record has its hash. -/
theorem chunkHashAt_valid (h : Valid record) {i : Nat} (hi : i < record.numChunks.toNat) :
    ∃ m, chunkHashAt record i = .ok m := by
  apply chunkHashAt_exists
  rw [h.hashes]
  unfold HASH_BYTES
  omega

end Eligible

section Shard
variable {xorbs : Records} {now : UInt64}

theorem corroborated_contains (hread : Read index xorbs) {e : ChunkIndexEntry}
    (h : corroborated U xorbs e = true) :
    Contains U index e.xorbHash e.index.toNat e.chunkHash := by
  unfold corroborated at h
  split at h
  · cases h
  · rename_i record hrecord
    split at h
    · rename_i m hm
      exact ⟨record, m, hread _ _ hrecord, hm, by simpa using h⟩
    · cases h

theorem firstChunk_contains (hread : Read index xorbs) {terms : List FileTermRecord}
    {e : ChunkIndexEntry} (h : e ∈ firstChunk U xorbs terms) :
    Contains U index e.xorbHash e.index.toNat e.chunkHash := by
  unfold firstChunk at h
  split at h
  · cases h
  · split at h
    · cases h
    · rename_i record hrecord
      split at h
      · rename_i m hm
        cases List.mem_singleton.mp h
        exact ⟨record, m, hread _ _ hrecord, hm, rfl⟩
      · cases h

/-- The first chunk of a stored term can be read from its record. -/
theorem termStored_first {term : FileTermRecord} {chunks : List (MerkleHash × UInt64)}
    {record : XorbRecord} (h : TermStored index term chunks record) :
    ∃ m, chunkHashAt record term.chunkIndexStart.toNat = .ok m := by
  have hlt : term.chunkIndexStart.toNat < term.chunkIndexEnd.toNat := h.nonempty
  obtain ⟨_, _, hchunk⟩ := partner (mapM_eq_ok.mp h.chunks)
    (x := term.chunkIndexStart.toNat) (by simp; omega)
  obtain ⟨m, hm, _⟩ := bind_eq_ok.mp hchunk
  exact ⟨m, orBadRequest_ok.mp hm⟩

theorem built_sound {files : List FileRecord} {chunks : List ChunkIndexEntry}
    (h : Built U index files chunks) :
    ∀ e ∈ chunks, Contains U index e.xorbHash e.index.toNat e.chunkHash := by
  obtain ⟨body, data, xorbs, now, hdecode, hread, hbuild⟩ := h
  obtain ⟨built, _, rfl, hbuilt⟩ := buildRecords_built hread (decodeShard_few hdecode) hbuild
  intro e he
  rcases List.mem_append.mp he with hflagged | hfirst
  · exact corroborated_contains hread (List.mem_filter.mp hflagged).2
  · obtain ⟨b, hb, he⟩ := List.mem_flatMap.mp hfirst
    obtain ⟨_, _, hfrom⟩ := partner_of hbuilt hb
    rw [hfrom.first] at he
    exact firstChunk_contains hread he

/-- A file brings the mapping of its first chunk along. -/
theorem built_first {files : List FileRecord} {chunks : List ChunkIndexEntry}
    (h : Built U index files chunks) {file : FileRecord} (hfile : file ∈ files)
    {term : FileTermRecord} {rest : List FileTermRecord} (hterms : file.terms = term :: rest) :
    ∃ chunkHash, Contains U index term.xorbHash term.chunkIndexStart.toNat chunkHash ∧
      ⟨chunkHash, term.xorbHash, term.chunkIndexStart⟩ ∈ chunks := by
  obtain ⟨body, data, xorbs, now, hdecode, hread, hbuild⟩ := h
  obtain ⟨built, rfl, rfl, hbuilt⟩ := buildRecords_built hread (decodeShard_few hdecode) hbuild
  obtain ⟨b, hb, rfl⟩ := List.mem_map.mp hfile
  obtain ⟨_, _, hfrom⟩ := partner_of hbuilt hb
  obtain ⟨record, hrecord⟩ := hfrom.known term (by simp [hterms])
  obtain ⟨termChunks, hstored, _⟩ := hfrom.stored.terms
  obtain ⟨_, _, record', hterm⟩ := partner hstored (x := term) (by simp [hterms])
  have hsame := hterm.stored
  rw [hread _ _ hrecord] at hsame
  cases hsame
  obtain ⟨m, hm⟩ := termStored_first hterm
  refine ⟨U.hex m, ⟨record, m, hterm.stored, hm, rfl⟩, ?_⟩
  apply List.mem_append_right
  refine List.mem_flatMap.mpr ⟨b, hb, ?_⟩
  simp [hfrom.first, hterms, firstChunk, hrecord, hm]

end Shard

theorem fresh_dedupIndex : DedupIndex U Index.fresh :=
  ⟨by simp [Index.fresh, Index.lookupChunk], by simp [Index.fresh, Index.getXorb],
    by simp [Index.fresh]⟩

/-- Keys of `chunks` stay keys. -/
theorem lookup_grows {index' : Index} (hg : index.Grows index') {chunkHash : String}
    (h : (index.lookupChunk chunkHash).isSome) : (index'.lookupChunk chunkHash).isSome := by
  obtain ⟨row, hrow⟩ := Option.isSome_iff_exists.mp h
  exact Option.isSome_iff_exists.mpr ⟨row, hg.chunks _ _ hrow⟩

/-- What `INSERT OR IGNORE` into `chunks` adds. -/
theorem insertChunks_some {t : Table String ChunkRow} {entries : List ChunkIndexEntry}
    {chunkHash : String} {row : ChunkRow}
    (h : (Index.insertChunks t entries).get? chunkHash = some row) :
    t.get? chunkHash = some row ∨ ⟨chunkHash, row.xorbHash, row.chunkIndex⟩ ∈ entries := by
  rcases Table.get?_insertAll_some h with hold | hnew
  · exact .inl hold
  · obtain ⟨e, he, heq⟩ := List.mem_map.mp hnew
    cases heq
    exact .inr he

theorem insertChunks_mem {t : Table String ChunkRow} {entries : List ChunkIndexEntry}
    {e : ChunkIndexEntry} (h : e ∈ entries) :
    ((Index.insertChunks t entries).get? e.chunkHash).isSome := by
  have hmem : (e.chunkHash, (⟨e.xorbHash, e.index⟩ : ChunkRow)) ∈
      entries.map (fun e => (e.chunkHash, ⟨e.xorbHash, e.index⟩)) := List.mem_map.mpr ⟨e, h, rfl⟩
  obtain ⟨row, hrow⟩ := Table.insertAll_mem t hmem
  exact Option.isSome_iff_exists.mpr ⟨row, hrow⟩

/-- A new xorb brings all its eligible chunks along. -/
theorem DedupIndex.putXorb (h : DedupIndex U index) {hash : String} {up : Xorbs.Upload}
    (hup : Prepared U hash up) (disk : Nat) :
    DedupIndex U (index.putXorb up.record up.dedupChunks disk).1 := by
  have hg := Index.putXorb_grows index up.record up.dedupChunks disk
  have hvalid := prepared_valid hup
  have hchunks := prepared_eligible hup
  have hfiles := Index.putXorb_files index up.record up.dedupChunks disk
  cases hfree : index.xorbs.get? up.record.xorbHash with
  | some old => simpa [Index.putXorb, hfree] using h
  | none =>
    have hnew : (index.putXorb up.record up.dedupChunks disk).1.getXorb up.record.xorbHash =
        some up.record := by
      simp [Index.putXorb, hfree, Index.getXorb, Table.get?_insertOrIgnore]
    have htable : (index.putXorb up.record up.dedupChunks disk).1.chunks =
        Index.insertChunks index.chunks
          (up.dedupChunks.map (fun c => ⟨c.1, up.record.xorbHash, c.2⟩)) := by
      simp [Index.putXorb, hfree]
    refine ⟨?_, ?_, ?_⟩
    · intro chunkHash hparts hrow
      obtain ⟨xorbHash, chunkIndex⟩ := hparts
      rw [Index.lookupChunk, htable] at hrow
      rcases insertChunks_some hrow with hold | hentry
      · exact (h.sound hold).grows hg
      · obtain ⟨c, hc, he⟩ := List.mem_map.mp hentry
        obtain ⟨i, m, hi, hm, _, rfl⟩ := (eligibleChunks_mem hchunks).mp hc
        have hsmall := hvalid.few
        have hnumber : (UInt32.ofNat i).toNat = i :=
          UInt32.toNat_ofNat_of_lt' (by unfold UInt32.size; omega)
        cases he
        refine ⟨up.record, m, hnew, ?_, rfl⟩
        change chunkHashAt up.record (UInt32.ofNat i).toNat = .ok m
        rw [hnumber]
        exact hm
    · intro hash' record hrow i hi
      rcases Index.putXorb_row hrow with hold | ⟨_, rfl, _⟩
      · obtain ⟨m, hm, helig⟩ := h.eligible hold i hi
        exact ⟨m, hm, fun he => lookup_grows hg (helig he)⟩
      · obtain ⟨m, hm⟩ := chunkHashAt_valid hvalid hi
        refine ⟨m, hm, ?_⟩
        intro heligible
        have hc := (eligibleChunks_mem hchunks).mpr ⟨i, m, hi, hm, heligible, rfl⟩
        rw [Index.lookupChunk, htable]
        exact insertChunks_mem (e := ⟨U.hex m, up.record.xorbHash, UInt32.ofNat i⟩)
          (List.mem_map.mpr ⟨_, hc, rfl⟩)
    · intro hash' row term rest hrow hterms
      rw [hfiles] at hrow
      obtain ⟨chunkHash, hcontains, hkey⟩ := h.first hrow hterms
      exact ⟨chunkHash, hcontains.grows hg, lookup_grows hg hkey⟩

/-- A shard's files bring the mappings of their first chunks along. -/
theorem DedupIndex.putFiles (h : DedupIndex U index) {files : List FileRecord}
    {chunks : List ChunkIndexEntry} (hbuilt : Built U index files chunks) :
    DedupIndex U (index.putFiles files chunks).1 := by
  have hg := Index.putFiles_grows index files chunks
  refine ⟨?_, ?_, ?_⟩
  · intro chunkHash row hrow
    rcases insertChunks_some hrow with hold | hentry
    · exact (h.sound hold).grows hg
    · exact (built_sound hbuilt _ hentry).grows hg
  · intro hash record hrow i hi
    obtain ⟨m, hm, helig⟩ := h.eligible hrow i hi
    exact ⟨m, hm, fun he => lookup_grows hg (helig he)⟩
  · intro hash row term rest hrow hterms
    rcases Index.putFiles_get?.mp hrow with hold | ⟨_, before, file, after, rfl, rfl, rfl, _⟩
    · obtain ⟨chunkHash, hcontains, hkey⟩ := h.first hold hterms
      exact ⟨chunkHash, hcontains.grows hg, lookup_grows hg hkey⟩
    · have hfile : file ∈ before ++ file :: after := by simp
      obtain ⟨chunkHash, hcontains, hmem⟩ := built_first hbuilt hfile hterms
      exact ⟨chunkHash, hcontains.grows hg, insertChunks_mem hmem⟩

variable {D : Deployment} {s : Server} {ok : Server → Server.Act → Prop}

theorem reachable_dedupIndex (h : (machine D).Reachable ok s) :
    DedupIndex D.upstream s.state.index :=
  index_invariant h fresh_dedupIndex (fun _ _ _ disk hi hup => hi.putXorb hup disk)
    (fun _ _ _ hi hbuilt => hi.putFiles hbuilt)

theorem reachable_keyed (h : (machine D).Reachable ok s) {hash : String} {record : XorbRecord}
    (hrow : s.state.index.getXorb hash = some record) : record.xorbHash = hash := by
  refine index_invariant (I := fun index => ∀ hash record, index.getXorb hash = some record →
    record.xorbHash = hash) h ?_ ?_ (fun _ _ _ hi _ => hi) hash record hrow
  · intro hash record hrow
    cases hrow
  · intro index name up disk hi _ hash record hrow
    rcases Index.putXorb_row hrow with hold | ⟨rfl, rfl, _⟩
    · exact hi hash record hold
    · rfl

section Answer
variable {record : XorbRecord} {block : MDBXorbInfo}

/-- What the crates make of a block. -/
def shardOf (U : Upstream) (block : MDBXorbInfo) (key : MerkleHash) : Except String Bytes := do
  let shard ← named "dedup shard build" (U.addXorbBlock block)
  let plain ← named "dedup shard serialize" (U.shardToBytes shard)
  named "dedup shard keying" (U.exportAsKeyedShard plain key)

/-- The block is the xorb's: its hash, and all its chunks in order. -/
structure BlockOf (U : Upstream) (record : XorbRecord) (block : MDBXorbInfo) : Prop where
  xorbHash : U.hex block.xorbHash = record.xorbHash
  numEntries : block.numEntries = record.numChunks
  chunks : List.Forall₂ (fun i entry => chunkHashAt record i = .ok entry.chunkHash)
    (List.range record.numChunks.toNat) block.chunks

theorem BlockOf.chunk (h : BlockOf U record block) {i : Nat} {m : MerkleHash}
    (hm : chunkHashAt record i = .ok m) (hi : i < record.numChunks.toNat) :
    (block.chunks[i]?).map XorbChunkEntry.chunkHash = some m := by
  have hlength := h.chunks.length_eq
  rw [List.length_range] at hlength
  have hi' : i < block.chunks.length := hlength ▸ hi
  have hget := h.chunks.get (i := i) (by simpa using hi) hi'
  simp only [List.get_eq_getElem, List.getElem_range, hm, Except.ok.injEq] at hget
  rw [List.getElem?_eq_getElem hi', Option.map_some, hget]

theorem dedupEntry_hash (h : Valid record) {i : Nat} (hi : i < record.numChunks.toNat) :
    ∃ entry, dedupEntry record i = .ok entry ∧ chunkHashAt record i = .ok entry.chunkHash := by
  obtain ⟨m, hm⟩ := chunkHashAt_valid h hi
  have hi' : i < record.unpackedChunkOffsets.length := by
    rw [h.unpacked]
    exact hi
  have hoffset : record.unpackedChunkOffsets[i]? = some record.unpackedChunkOffsets[i] :=
    List.getElem?_eq_getElem hi'
  simp only [dedupEntry, hm, hoffset, bind, Except.bind, Except.ok.injEq, exists_eq_left']

/-- What `build_keyed_dedup_shard` hands to the crates is the xorb's block. -/
theorem buildKeyedDedupShard_block (h : Valid record) {m : MerkleHash}
    (hm : U.fromHex record.xorbHash = .ok m) (hhex : U.hex m = record.xorbHash) :
    ∃ block, BlockOf U record block ∧ ∀ key,
      buildKeyedDedupShard U record record.framesLength key = shardOf U block key := by
  obtain ⟨entries, hentries, hall⟩ := mapM_exists (f := dedupEntry record)
    (fun i hi => dedupEntry_hash h (List.mem_range.mp hi))
  refine ⟨⟨m, record.numChunks, record.unpackedLength.toUInt32, record.framesLength.toUInt32,
    entries⟩, ⟨hhex, rfl, hall⟩, ?_⟩
  intro key
  simp only [buildKeyedDedupShard, shardOf, hm, hentries, named, bind, Except.bind]

/-- The number of a chunk that a record has a hash for. -/
theorem chunkHashAt_lt (h : Valid record) {i : Nat} {m : MerkleHash}
    (hm : chunkHashAt record i = .ok m) : i < record.numChunks.toNat := by
  unfold chunkHashAt at hm
  obtain ⟨hinside, _⟩ := guard_eq_ok.mp hm
  rw [h.hashes] at hinside
  unfold HASH_BYTES at hinside
  omega

/-- The answer is a shard of one xorb, a stored one, whose entry `i` is the
chunk; it is there if the crates can write it. -/
def Names (U : Upstream) (index : Index) (chunkHash : String) (key : MerkleHash)
    (answer : AppResult Bytes) : Prop :=
  ∃ xorbHash record block i m, index.getXorb xorbHash = some record ∧ BlockOf U record block ∧
    U.hex block.xorbHash = xorbHash ∧ chunkHashAt record i = .ok m ∧ U.hex m = chunkHash ∧
    (block.chunks[i]?).map XorbChunkEntry.chunkHash = some m ∧
    answer = orInternal (shardOf U block key) ∧
    ∀ shard plain keyed, U.addXorbBlock block = .ok shard → U.shardToBytes shard = .ok plain →
      U.exportAsKeyedShard plain key = .ok keyed → answer = .ok keyed

theorem shard_names (h : Valid record) {xorbHash chunkHash : String}
    (hstored : index.getXorb xorbHash = some record) (hkeyed : record.xorbHash = xorbHash)
    {x m : MerkleHash} (hx : U.fromHex xorbHash = .ok x) (hhex : U.hex x = xorbHash) {i : Nat}
    (hm : chunkHashAt record i = .ok m) (hhash : U.hex m = chunkHash) (key : MerkleHash) :
    Names U index chunkHash key
      (orInternal (buildKeyedDedupShard U record record.framesLength key)) := by
  subst hkeyed
  obtain ⟨block, hblock, hbuild⟩ := buildKeyedDedupShard_block h hx hhex
  refine ⟨_, record, block, i, m, hstored, hblock, hblock.xorbHash, hm, hhash,
    hblock.chunk hm (chunkHashAt_lt h hm), by rw [hbuild], ?_⟩
  intro shard plain keyed hshard hplain hkeyed
  rw [hbuild, shardOf, hshard]
  simp only [hplain, hkeyed, named, bind, Except.bind, orInternal]

end Answer

theorem reachable_row (hhex : D.upstream.HexRoundTrip) (h : (machine D).Reachable ok s)
    {hash : String} {record : XorbRecord} (hrow : s.state.index.getXorb hash = some record) :
    Valid record ∧ record.xorbHash = hash ∧
      ∃ x, D.upstream.fromHex hash = .ok x ∧ D.upstream.hex x = hash := by
  obtain ⟨name, up, hup, rfl⟩ := (reachable_rows h).xorbs hrow
  have hkeyed := reachable_keyed h hrow
  have hname : name = hash := (prepared_hash hhex hup).symm.trans hkeyed
  subst hname
  have hvalid := prepared_valid hup
  obtain ⟨_, x, _, haddressed, _⟩ := hup
  exact ⟨hvalid, hkeyed, x, haddressed.2, hhex _ _ haddressed.1 haddressed.2⟩

/-- A probe for a key of `chunks` is answered with a shard that names a stored
xorb which has the chunk. -/
theorem probe_answered (hhex : D.upstream.HexRoundTrip) (h : (machine D).Reachable ok s)
    {query : ChunkDedupQuery} (hkey : (s.state.index.lookupChunk query.hash).isSome)
    (key : MerkleHash) :
    Chunks.get D.upstream s.state query key ≠ .error .notFound ∧
      (validateChunkDedupQuery query = .ok () → Names D.upstream s.state.index query.hash key
        (Chunks.get D.upstream s.state query key)) := by
  obtain ⟨row, hrow⟩ := Option.isSome_iff_exists.mp hkey
  obtain ⟨record, m, hrecord, hm, hhash⟩ := (reachable_dedupIndex h).sound hrow
  have hget : validateChunkDedupQuery query = .ok () → Chunks.get D.upstream s.state query key =
      orInternal (buildKeyedDedupShard D.upstream record record.framesLength key) := by
    intro hvalid
    simp [Chunks.get, hvalid, checkRequest, hrow, hrecord, bind, Except.bind]
  refine ⟨?_, ?_⟩
  · intro hmissing
    cases hvalid : validateChunkDedupQuery query with
    | ok _ =>
      rw [hget hvalid] at hmissing
      obtain ⟨message, he⟩ := orInternal_error hmissing
      cases he
    | error e => simp [Chunks.get, hvalid, checkRequest, bind, Except.bind] at hmissing
  · intro hvalid
    obtain ⟨hgood, hkeyed, x, hx, hback⟩ := reachable_row hhex h hrecord
    rw [hget hvalid]
    exact shard_names hgood hrecord hkeyed hx hback hm hhash key

/-- In every reachable state the dedup index is sound and complete, and a probe
for one of its keys is answered with a shard that names a stored xorb which has
the chunk. -/
theorem dedup_index_exact (hhex : D.upstream.HexRoundTrip) (s : Server)
    (h : (machine D).Reachable Machine.anyStep s) :
    DedupIndex D.upstream s.state.index ∧
      ∀ query key, (s.state.index.lookupChunk query.hash).isSome →
        Chunks.get D.upstream s.state query key ≠ .error .notFound ∧
          (validateChunkDedupQuery query = .ok () →
            Names D.upstream s.state.index query.hash key
              (Chunks.get D.upstream s.state query key)) :=
  ⟨reachable_dedupIndex h, fun _ key hkey => probe_answered hhex h hkey key⟩

def wordProbe : ChunkDedupQuery := ⟨PREFIX_DEFAULT, Formats.hex (Formats.wordChunk 1)⟩

/-- The probe for the second chunk of the word is answered with the word. -/
theorem word_probed : ∃ s answer, (machine sampleServer).Reachable Machine.anyStep s ∧
    DedupIndex sampleServer.upstream s.state.index ∧
    Chunks.get sampleServer.upstream s.state wordProbe Formats.probeKey = .ok answer ∧
    (Formats.readShard answer).map MDBXorbInfo.xorbHash = some Formats.wordHash ∧
    Names sampleServer.upstream s.state.index wordProbe.hash Formats.probeKey (.ok answer) := by
  obtain ⟨s, hreach, hp⟩ := word_registered (fun s =>
    (s.state.index.lookupChunk wordProbe.hash).isSome &&
      (Chunks.get sampleServer.upstream s.state wordProbe Formats.probeKey).toOption.any
        (fun answer => (Formats.readShard answer).map MDBXorbInfo.xorbHash ==
          some Formats.wordHash)) (by decide +kernel)
  obtain ⟨hkey, hanswer⟩ := (Bool.and_eq_true _ _).mp hp
  obtain ⟨answer, hget, hread⟩ := toOption_any hanswer
  obtain ⟨hindex, hprobe⟩ := dedup_index_exact (D := sampleServer)
    (Formats.documented_hexRoundTrip _) s hreach.free
  have hnames := (hprobe wordProbe Formats.probeKey hkey).2 (by decide +kernel)
  refine ⟨s, answer, hreach.free, hindex, hget, beq_iff_eq.mp hread, ?_⟩
  rw [← hget]
  exact hnames

end Xetcas.Proofs.Dedup
