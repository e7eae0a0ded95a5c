import Xetcas.Proofs.Reconstructable

namespace Xetcas.Proofs.Truthful
open Lib Routes Routes.Shards Registration Reconstructable
variable {U : Upstream} {xorbs : Records} {record : XorbRecord}

/-- As many offsets and hashes as chunks, and the offsets are cumulative. -/
structure Consistent (record : XorbRecord) : Prop where
  unpacked : record.unpackedChunkOffsets.length = record.numChunks.toNat
  hashes : record.chunkHashes.length = HASH_BYTES * record.numChunks.toNat
  cumulative : record.unpackedChunkOffsets.Pairwise (· ≤ ·)

def packedHash (hashes : Bytes) (i : Nat) : Bytes := (hashes.drop (i * HASH_BYTES)).take HASH_BYTES

/-- Chunk `i` as the record has it: its hash and its length. -/
structure StoredChunk (record : XorbRecord) (i : Nat) (chunk : MerkleHash × UInt64) : Prop where
  hash : chunk.1.bytes = packedHash record.chunkHashes i
  length : chunk.2.toNat = (XorbMeta.fromRecord record).size i

def StoredRun (record : XorbRecord) (a b : Nat) (chunks : List (MerkleHash × UInt64)) : Prop :=
  List.Forall₂ (StoredChunk record) (List.range' a (b - a)) chunks

def lengths (chunks : List (MerkleHash × UInt64)) : List Nat := chunks.map (fun c => c.2.toNat)

/-- Term `i` tells the truth about a stored xorb: these are its chunks. -/
structure TruthfulTerm (U : Upstream) (xorbs : Records) (verification : Bytes)
    (term : FileTermRecord) (i : Nat) (chunks : List (MerkleHash × UInt64)) : Prop where
  stored : ∃ record, xorbs term.xorbHash = some record ∧
    term.chunkIndexEnd ≤ record.numChunks ∧
    StoredRun record term.chunkIndexStart.toNat term.chunkIndexEnd.toNat chunks
  nonempty : term.chunkIndexStart < term.chunkIndexEnd
  declares : term.unpackedSegmentBytes.toNat = (lengths chunks).sum
  verified : verification = [] ∨
    (U.rangeHashFromChunks (chunks.map Prod.fst)).bytes = packedHash verification i

/-- The records at hand are stored ones. -/
structure Held (xorbs : Records) : Prop where
  keys : ∀ {hash record}, xorbs hash = some record → isHashHex hash = true
  consistent : ∀ {hash record}, xorbs hash = some record → Consistent record

/-- A file that tells the truth: its terms do, and it is named for its chunks. -/
structure TruthfulFile (U : Upstream) (xorbs : Records) (file : ShardFile)
    (chunks : List (List (MerkleHash × UInt64))) : Prop where
  verification : file.verification = [] ∨
    file.verification.length = HASH_BYTES * file.terms.length
  terms : List.Forall₂ (fun t cs => TruthfulTerm U xorbs file.verification t.1 t.2 cs)
    file.terms.zipIdx chunks
  named : U.hex (U.fileHash chunks.flatten) = file.fileHash

section Chunk

theorem chunkHashAt_ok {i : Nat} {m : MerkleHash} :
    chunkHashAt record i = .ok m ↔ m.bytes = packedHash record.chunkHashes i := by
  have hslice : (record.chunkHashes.take (i * HASH_BYTES + HASH_BYTES)).drop (i * HASH_BYTES) =
      packedHash record.chunkHashes i := by
    rw [packedHash, List.drop_take, Nat.add_sub_cancel_left]
  unfold chunkHashAt
  simp only [guard_eq_ok, hslice, MerkleHash.fromSlice]
  constructor
  · intro h
    obtain ⟨_, h⟩ := h
    split at h
    · rename_i hash hsize
      cases h
      split at hsize
      · cases hsize
        rfl
      · cases hsize
    · cases h
  · intro h
    have hsize : (packedHash record.chunkHashes i).length = HASH_BYTES := by
      rw [← h]
      exact m.size
    have hlen := hsize
    rw [packedHash, List.length_take, List.length_drop] at hlen
    have hpos : 0 < HASH_BYTES := by decide
    refine ⟨by omega, ?_⟩
    rw [dif_pos hsize]
    simp only [Except.ok.injEq]
    cases m
    simp only at h
    simp only [h]

/-- Every chunk has its hash. -/
theorem Consistent.chunkHash (h : Consistent record) {i : Nat} (hi : i < record.numChunks.toNat) :
    ∃ m, chunkHashAt record i = .ok m ∧ m.bytes = packedHash record.chunkHashes i := by
  have hwithin : i * HASH_BYTES + HASH_BYTES ≤ record.chunkHashes.length := by
    rw [h.hashes]
    unfold HASH_BYTES
    omega
  obtain ⟨m, hm⟩ := chunkHashAt_exists hwithin
  exact ⟨m, hm, chunkHashAt_ok.mp hm⟩

theorem Consistent.offsets (h : Consistent record) :
    (XorbMeta.fromRecord record).unpacked.Pairwise (· ≤ ·) := h.cumulative

theorem Consistent.numChunks (h : Consistent record) :
    (XorbMeta.fromRecord record).numChunks = record.numChunks := by
  rw [XorbMeta.numChunks, XorbMeta.fromRecord, h.unpacked, UInt32.ofNat_toNat]

theorem chunkAt_ok (h : Consistent record) {i : Nat} (hi : i < record.numChunks.toNat)
    {chunk : MerkleHash × UInt64} : chunkAt record i = .ok chunk ↔ StoredChunk record i chunk := by
  obtain ⟨n, hlen, hval⟩ := XorbMeta.chunkLen_eq h.offsets (i := i)
    (by rw [XorbMeta.fromRecord, h.unpacked]; exact hi)
  obtain ⟨m, len⟩ := chunk
  simp only [chunkAt, bind_eq_ok, orBadRequest_ok, hlen, Except.ok.injEq, Prod.mk.injEq]
  constructor
  · intro hparts
    obtain ⟨m', hm, n', rfl, rfl, rfl⟩ := hparts
    exact ⟨chunkHashAt_ok.mp hm, by rw [← hval, UInt32.toNat_toUInt64]⟩
  · intro hstored
    refine ⟨m, chunkHashAt_ok.mpr hstored.hash, n, rfl, rfl, ?_⟩
    rw [← UInt64.toNat_inj, UInt32.toNat_toUInt64, hval]
    exact hstored.length.symm

theorem run_ok (h : Consistent record) {a b : Nat} (hb : b ≤ record.numChunks.toNat)
    {chunks : List (MerkleHash × UInt64)} :
    (List.range' a (b - a)).mapM (chunkAt record) = .ok chunks ↔ StoredRun record a b chunks := by
  rw [mapM_eq_ok]
  apply forall₂_congr_mem
  intro i hi chunk
  rw [List.mem_range'_1] at hi
  exact chunkAt_ok h (by omega)

/-- The lengths of a run add up to the distance between its ends. -/
theorem StoredRun.sum {a b : Nat} {chunks : List (MerkleHash × UInt64)}
    (hrun : StoredRun record a b chunks) (h : Consistent record) (hab : a ≤ b)
    (hb : b ≤ record.numChunks.toNat) : (lengths chunks).sum =
      (XorbMeta.fromRecord record).contentStart b - (XorbMeta.fromRecord record).contentStart a := by
  have hlens := map_eq_of_forall₂ (f := (XorbMeta.fromRecord record).size)
    (g := fun c : MerkleHash × UInt64 => c.2.toNat) (fun _ _ hc => hc.length.symm) hrun
  have hsum := XorbMeta.sum_sizes h.offsets (a := a)
    (n := b - a) (by rw [XorbMeta.fromRecord, h.unpacked]; omega)
  rw [lengths, ← hlens, hsum, Nat.add_sub_cancel' hab]

end Chunk

section Term
variable {verification : Bytes} {term : FileTermRecord} {i : Nat}
  {chunks : List (MerkleHash × UInt64)}

theorem checkRangeHash_ok {xorbHash : String} :
    checkRangeHash U chunks verification i xorbHash = .ok () ↔
      (U.rangeHashFromChunks (chunks.map Prod.fst)).bytes = packedHash verification i := by
  simp only [checkRangeHash, guard_eq_ok, not_not, and_true, packedHash, List.drop_take,
    Nat.add_sub_cancel_left]

/-- The check of a term passes exactly when it is truthful. -/
theorem checkTerm_ok
    (hconsistent : ∀ {record}, xorbs term.xorbHash = some record → Consistent record) :
    checkTerm U xorbs verification term i = .ok chunks ↔
      TruthfulTerm U xorbs verification term i chunks := by
  unfold checkTerm
  cases hrecord : xorbs term.xorbHash with
  | none =>
    simp only [reduceCtorEq, false_iff]
    intro h
    obtain ⟨record, hsome, _⟩ := h.stored
    rw [hrecord] at hsome
    cases hsome
  | some record =>
    have hc := hconsistent hrecord
    have hnum := hc.numChunks
    simp only [guard_eq_ok, bind_eq_ok, orBadRequest_ok, hnum]
    constructor
    · intro h
      obtain ⟨hbounds, expected, hexpected, hbytes, run, hrun, hverified⟩ := h
      rw [not_or, UInt32.not_le, UInt32.not_lt] at hbounds
      have hlt : term.chunkIndexStart.toNat < term.chunkIndexEnd.toNat := hbounds.1
      have hle : term.chunkIndexEnd.toNat ≤ record.numChunks.toNat := hbounds.2
      have hstored := (run_ok hc hle).mp hrun
      obtain ⟨n, hn, hval⟩ := XorbMeta.unpackedLen_eq hc.offsets hlt.le (by rw [hnum]; exact hle)
      rw [hn] at hexpected
      cases hexpected
      rw [not_not] at hbytes
      have hsum := hstored.sum hc hlt.le hle
      rw [← hval, hbytes, UInt32.toNat_toUInt64] at hsum
      have hboth : run = chunks ∧ (verification = [] ∨
          (U.rangeHashFromChunks (run.map Prod.fst)).bytes = packedHash verification i) := by
        split at hverified
        · rename_i hnone
          cases hverified
          exact ⟨rfl, .inl (List.isEmpty_iff.mp hnone)⟩
        · obtain ⟨hcheck, he⟩ := check_eq_ok.mp hverified
          cases he
          exact ⟨rfl, .inr (checkRangeHash_ok.mp hcheck)⟩
      obtain ⟨rfl, hproof⟩ := hboth
      exact ⟨⟨record, hrecord, hbounds.2, hstored⟩, hbounds.1, hsum.symm, hproof⟩
    · intro h
      obtain ⟨record', hsome, hle, hstored⟩ := h.stored
      rw [hrecord] at hsome
      cases hsome
      have hlt : term.chunkIndexStart.toNat < term.chunkIndexEnd.toNat := h.nonempty
      have hle' : term.chunkIndexEnd.toNat ≤ record.numChunks.toNat := hle
      obtain ⟨n, hn, hval⟩ := XorbMeta.unpackedLen_eq hc.offsets hlt.le (by rw [hnum]; exact hle')
      have hsum := hstored.sum hc hlt.le hle'
      refine ⟨?_, n, hn, ?_, chunks, (run_ok hc hle').mpr hstored, ?_⟩
      · rw [not_or, UInt32.not_le, UInt32.not_lt]
        exact ⟨h.nonempty, hle⟩
      · rw [not_not, ← UInt64.toNat_inj, UInt32.toNat_toUInt64, h.declares, hval, hsum]
      · split
        · rfl
        · rename_i hsome
          refine check_eq_ok.mpr ⟨checkRangeHash_ok.mpr ?_, rfl⟩
          rcases h.verified with hnone | hverified
          · rw [hnone] at hsome
            simp at hsome
          · exact hverified

end Term

section File
variable {file : ShardFile} {now : UInt64} {chunks : List (List (MerkleHash × UInt64))}

/-- What `decode_shard` guarantees of a file. -/
structure Decoded (file : ShardFile) : Prop where
  sha256 : (file.sha256.isEmpty || isHashHex file.sha256) = true
  few : file.terms.length < 2 ^ 32

structure RecordOf (file : ShardFile) (chunks : List (List (MerkleHash × UInt64)))
    (record : FileRecord) : Prop where
  fileHash : record.fileHash = file.fileHash
  sha256 : record.sha256 = file.sha256
  terms : record.terms = file.terms
  verification : record.verificationRangeHashes = file.verification
  length : record.fileLength.toNat = (lengths chunks.flatten).sum
  valid : validateFileRecord record = .ok ()

structure FirstChunk (U : Upstream) (file : ShardFile) (chunks : List (List (MerkleHash × UInt64)))
    (entries : List ChunkIndexEntry) : Prop where
  empty : file.terms = [] → entries = []
  first : ∀ term rest, file.terms = term :: rest → ∃ chunk later,
    chunks.flatten = chunk :: later ∧
      entries = [⟨U.hex chunk.1, term.xorbHash, term.chunkIndexStart⟩]

theorem decodeShard_decoded (hhex : U.HexForm) {body : Bytes} {data : ShardData}
    (h : decodeShard U body = .ok data) : ∀ file ∈ data.files, Decoded file := by
  have hfew := decodeShard_few h
  obtain ⟨shard, _, h⟩ := bind_eq_ok.mp h
  obtain ⟨files, _, h⟩ := bind_eq_ok.mp h
  obtain ⟨xorbs, _, h⟩ := bind_eq_ok.mp h
  cases h
  intro file hfile
  refine ⟨?_, hfew file hfile⟩
  obtain ⟨view, _, rfl⟩ := List.mem_map.mp hfile
  unfold fileOf
  cases view.metadataExt with
  | none => rfl
  | some m =>
    rw [Bool.or_eq_true]
    exact .inr (hhex m)

/-- The checks of all terms, as one. -/
theorem checkTerms_ok (hheld : Held xorbs) {terms : List FileTermRecord} {verification : Bytes} :
    terms.zipIdx.mapM (fun t => checkTerm U xorbs verification t.1 t.2) = .ok chunks ↔
      List.Forall₂ (fun t cs => TruthfulTerm U xorbs verification t.1 t.2 cs) terms.zipIdx chunks := by
  rw [mapM_eq_ok]
  apply forall₂_congr_mem
  intro t _ cs
  exact checkTerm_ok hheld.consistent

/-- The declared bytes are those of the chunks. -/
theorem TruthfulFile.declares (h : TruthfulFile U xorbs file chunks) :
    (file.terms.map (fun term => term.unpackedSegmentBytes.toNat)).sum =
      (lengths chunks.flatten).sum := by
  have hlens := map_eq_of_forall₂
    (f := fun t : FileTermRecord × Nat => t.1.unpackedSegmentBytes.toNat)
    (g := fun cs => (lengths cs).sum) (fun _ _ ht => ht.declares) h.terms
  have hterms : file.terms.zipIdx.map (fun t => t.1.unpackedSegmentBytes.toNat) =
      file.terms.map (fun term => term.unpackedSegmentBytes.toNat) := by
    conv_rhs => rw [← List.zipIdx_map_fst 0 file.terms, List.map_map]
    rfl
  rw [← hterms, hlens]
  simp only [lengths, List.map_flatten, List.sum_flatten, List.map_map]
  rfl

theorem TruthfulFile.term (h : TruthfulFile U xorbs file chunks) {term : FileTermRecord}
    (hterm : term ∈ file.terms) : ∃ i cs, TruthfulTerm U xorbs file.verification term i cs := by
  obtain ⟨i, hi, rfl⟩ := List.mem_iff_getElem.mp hterm
  have hmem : (file.terms[i], i) ∈ file.terms.zipIdx :=
    List.mem_zipIdx_iff_getElem?.mpr (List.getElem?_eq_getElem hi)
  obtain ⟨cs, _, ht⟩ := partner h.terms hmem
  exact ⟨i, cs, ht⟩

/-- A truthful file makes a valid record. -/
theorem TruthfulFile.valid (h : TruthfulFile U xorbs file chunks) (hhex : U.HexForm)
    (hheld : Held xorbs) (hdecoded : Decoded file) :
    validateFileRecord ⟨file.fileHash,
      (file.terms.map (fun term => term.unpackedSegmentBytes.toUInt64)).sum, file.sha256,
      file.terms, file.verification, now⟩ = .ok () := by
  unfold validateFileRecord
  simp only [check_eq_ok, requireHashHex_ok, require_ok, beq_iff_eq, and_true]
  refine ⟨?_, hdecoded.sha256, forM_eq_ok.mpr ?_, ?_⟩
  · rw [← h.named]
    exact hhex _
  · intro term hterm
    obtain ⟨i, cs, ht⟩ := h.term hterm
    obtain ⟨record, hrecord, _, _⟩ := ht.stored
    unfold validateFileTermRecord
    simp only [check_eq_ok, requireHashHex_ok, require_ok, decide_eq_true_eq]
    exact ⟨hheld.keys hrecord, UInt32.le_of_lt ht.nonempty⟩
  · rw [Bool.or_eq_true, beq_iff_eq]
    exact h.verification.imp List.isEmpty_iff.mpr id

/-- The first chunk of a file is that of its first term. -/
theorem TruthfulFile.firstChunk (h : TruthfulFile U xorbs file chunks) :
    FirstChunk U file chunks (firstChunk U xorbs file.terms) := by
  have hall := h.terms
  refine ⟨?_, ?_⟩
  · intro hnone
    rw [hnone]
    rfl
  · intro term rest hterms
    rw [hterms, List.zipIdx_cons] at hall
    cases hall with
    | @cons _ cs _ later hterm _ =>
      obtain ⟨record, hrecord, _, hrun⟩ := hterm.stored
      have hlt : term.chunkIndexStart.toNat < term.chunkIndexEnd.toNat := hterm.nonempty
      obtain ⟨n, hn⟩ := Nat.exists_eq_succ_of_ne_zero (Nat.sub_pos_of_lt hlt).ne'
      rw [StoredRun, hn, List.range'_succ] at hrun
      cases hrun with
      | @cons _ chunk _ cs' hchunk _ =>
        refine ⟨chunk, cs' ++ later.flatten, rfl, ?_⟩
        rw [hterms]
        simp only [Shards.firstChunk, hrecord, chunkHashAt_ok.mpr hchunk.hash]

theorem buildRecord_ok (hheld : Held xorbs) (hdecoded : Decoded file)
    {built : FileRecord × List ChunkIndexEntry} (h : buildRecord U xorbs now file = .ok built) :
    ∃ chunks, TruthfulFile U xorbs file chunks ∧ RecordOf file chunks built.1 ∧
      FirstChunk U file chunks built.2 := by
  unfold buildRecord at h
  obtain ⟨hverification, h⟩ := guard_eq_ok.mp h
  obtain ⟨chunks, hterms, h⟩ := bind_eq_ok.mp h
  obtain ⟨hhash, h⟩ := guard_eq_ok.mp h
  obtain ⟨hvalid, h⟩ := check_eq_ok.mp h
  cases h
  have htruthful : TruthfulFile U xorbs file chunks := by
    refine ⟨?_, (checkTerms_ok hheld).mp hterms, not_not.mp hhash⟩
    rw [not_and_or, not_not, Bool.not_eq_true', Bool.not_eq_false, List.isEmpty_iff,
      Nat.mul_comm] at hverification
    exact hverification
  have hsum := (toNat_sum (file.terms.map FileTermRecord.unpackedSegmentBytes)
    (by simpa using hdecoded.few)).1
  rw [List.map_map, List.map_map] at hsum
  exact ⟨chunks, htruthful, ⟨rfl, rfl, rfl, rfl, hsum.trans htruthful.declares,
    checkRequest_ok.mp hvalid⟩, htruthful.firstChunk⟩

theorem TruthfulFile.builds (h : TruthfulFile U xorbs file chunks) (hhex : U.HexForm)
    (hheld : Held xorbs) (hdecoded : Decoded file) :
    ∃ built, buildRecord U xorbs now file = .ok built := by
  refine ⟨(⟨file.fileHash, (file.terms.map (fun term => term.unpackedSegmentBytes.toUInt64)).sum,
    file.sha256, file.terms, file.verification, now⟩, Shards.firstChunk U xorbs file.terms), ?_⟩
  unfold buildRecord
  refine guard_eq_ok.mpr ⟨?_, bind_eq_ok.mpr ⟨chunks, (checkTerms_ok hheld).mpr h.terms, ?_⟩⟩
  · rw [not_and_or, not_not, Bool.not_eq_true', Bool.not_eq_false, List.isEmpty_iff, Nat.mul_comm]
    exact h.verification
  · exact guard_eq_ok.mpr ⟨not_not.mpr h.named,
      check_eq_ok.mpr ⟨checkRequest_ok.mpr (h.valid hhex hheld hdecoded), rfl⟩⟩

end File

section Shard

structure Corroborated (U : Upstream) (xorbs : Records) (e : ChunkIndexEntry) : Prop where
  stored : ∃ record m, xorbs e.xorbHash = some record ∧
    m.bytes = packedHash record.chunkHashes e.index.toNat ∧ U.hex m = e.chunkHash

theorem corroborated_iff {e : ChunkIndexEntry} :
    corroborated U xorbs e = true ↔ Corroborated U xorbs e := by
  unfold corroborated
  cases hrecord : xorbs e.xorbHash with
  | none =>
    simp only [Bool.false_eq_true, false_iff]
    intro h
    obtain ⟨record, m, hsome, _⟩ := h.stored
    rw [hrecord] at hsome
    cases hsome
  | some record =>
    cases hhash : chunkHashAt record e.index.toNat with
    | error text =>
      simp only [hhash, Bool.false_eq_true, false_iff]
      intro h
      obtain ⟨record', m, hsome, hbytes, _⟩ := h.stored
      rw [hrecord] at hsome
      cases hsome
      rw [chunkHashAt_ok.mpr hbytes] at hhash
      cases hhash
    | ok m =>
      simp only [hhash, decide_eq_true_eq]
      constructor
      · intro hhex
        exact ⟨record, m, hrecord, chunkHashAt_ok.mp hhash, hhex⟩
      · intro h
        obtain ⟨record', m', hsome, hbytes, hhex⟩ := h.stored
        rw [hrecord] at hsome
        cases hsome
        rw [chunkHashAt_ok.mpr hbytes] at hhash
        cases hhash
        exact hhex

end Shard

def letterRow : XorbRecord :=
  ⟨Formats.letterHex, 1, 9, 1, [9], [1], Formats.letterHash.bytes, 1⟩

theorem letterRow_consistent : Consistent letterRow := ⟨rfl, rfl, by simp [letterRow]⟩

end Xetcas.Proofs.Truthful
