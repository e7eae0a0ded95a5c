import Xetcas.Proofs.Truthful

namespace Xetcas.Proofs.ProbeAnswer
open Lib Routes.Shards Agreement Truthful
variable {U : Upstream} {record : XorbRecord}

theorem Valid.consistent (h : Valid record)
    (hoffsets : record.unpackedChunkOffsets.Pairwise (· ≤ ·)) : Consistent record :=
  ⟨h.unpacked, h.hashes, hoffsets⟩

/-- The last offset is the whole length, and needs no more than 32 bits. -/
theorem last_offset {offsets : List UInt32} {len : UInt64}
    (h : offsets.getLast?.map UInt32.toUInt64 = some len) :
    len.toNat = startOf (offsets.map UInt32.toNat) offsets.length ∧
      len.toUInt32.toNat = len.toNat := by
  obtain ⟨last, hlast, rfl⟩ := Option.map_eq_some_iff.mp h
  have hpos : offsets ≠ [] := by
    intro hnil
    rw [hnil] at hlast
    cases hlast
  have hlen := List.length_pos_of_ne_nil hpos
  have hget : offsets[offsets.length - 1] = last := by
    rw [List.getLast?_eq_some_getLast hpos] at hlast
    rw [← Option.some.inj hlast, List.getLast_eq_getElem]
  have hstart := startOf_succ (offsets.map UInt32.toNat) (i := offsets.length - 1) (by simpa using hlen)
  rw [Nat.sub_add_cancel hlen, List.getElem_map, hget] at hstart
  have hsmall := last.toNat_lt
  refine ⟨by rw [UInt32.toNat_toUInt64, hstart], ?_⟩
  rw [UInt64.toNat_toUInt32, UInt32.toNat_toUInt64]
  omega

section Entries

structure Entry (record : XorbRecord) (i : Nat) (entry : XorbChunkEntry) : Prop where
  hash : entry.chunkHash.bytes = packedHash record.chunkHashes i
  length : entry.unpackedSegmentBytes.toNat = (XorbMeta.fromRecord record).size i
  start : entry.chunkByteRangeStart.toNat = (XorbMeta.fromRecord record).contentStart i

/-- The start that a dedup entry is given is the offset that all else uses. -/
theorem offsetAt_getD {offsets : List UInt32} {i : Nat} {start : UInt32}
    (h : offsetAt offsets i = .ok start) :
    (if i = 0 then 0 else offsets.getD (i - 1) 0) = start := by
  unfold offsetAt at h
  split at h
  · rename_i hi
    cases h
    rw [if_pos hi]
  · rename_i hi
    rw [if_neg hi, List.getD_eq_getElem?_getD]
    split at h
    · rename_i offset hoffset
      cases h
      rw [hoffset]
      rfl
    · cases h

/-- The difference of two neighbouring offsets is the length of a chunk. -/
theorem dedupEntry_entry (h : Consistent record) {i : Nat} (hi : i < record.numChunks.toNat) :
    ∃ entry, dedupEntry record i = .ok entry ∧ Entry record i entry := by
  obtain ⟨m, hm, hbytes⟩ := h.chunkHash hi
  have hi' : i < record.unpackedChunkOffsets.length := by
    rw [h.unpacked]
    exact hi
  obtain ⟨len, hlen, hsize⟩ := XorbMeta.chunkLen_eq h.offsets hi'
  obtain ⟨start, hstart, hval⟩ := offsetAt_eq record.unpackedChunkOffsets hi'.le
  have hstop : record.unpackedChunkOffsets[i]? = some record.unpackedChunkOffsets[i] :=
    List.getElem?_eq_getElem hi'
  have hdiff : record.unpackedChunkOffsets[i] - start = len := by
    simpa [XorbMeta.chunkLen, XorbMeta.fromRecord, hstop, hstart, bind, Except.bind] using hlen
  refine ⟨⟨m, len, start⟩, ?_, hbytes, hsize, hval⟩
  simp only [dedupEntry, hm, hstop, offsetAt_getD hstart, hdiff, bind, Except.bind]

/-- One entry for each chunk. -/
theorem dedupEntries (h : Consistent record) : ∃ entries,
    (List.range record.numChunks.toNat).mapM (dedupEntry record) = .ok entries ∧
      List.Forall₂ (Entry record) (List.range record.numChunks.toNat) entries :=
  mapM_exists (fun _ hi => dedupEntry_entry h (List.mem_range.mp hi))

variable {entries : List XorbChunkEntry}

theorem entry_at (h : List.Forall₂ (Entry record) (List.range record.numChunks.toNat) entries)
    {i : Nat} (hi : i < entries.length) : Entry record i entries[i] := by
  have hlen := h.length_eq
  have hget := h.get (i := i) (by rw [hlen]; exact hi) hi
  simpa using hget

/-- A chunk starts where the one before it ends. -/
theorem entries_chain (h : Consistent record)
    (hall : List.Forall₂ (Entry record) (List.range record.numChunks.toNat) entries) {i : Nat}
    (hi : i + 1 < entries.length) : entries[i + 1].chunkByteRangeStart.toNat =
      entries[i].chunkByteRangeStart.toNat + entries[i].unpackedSegmentBytes.toNat := by
  have hlen := hall.length_eq
  rw [List.length_range] at hlen
  have hmono := XorbMeta.contentStart_mono h.offsets
    (Nat.le_add_right i 1) (by rw [XorbMeta.fromRecord, h.unpacked]; omega)
  rw [(entry_at hall hi).start, (entry_at hall (Nat.lt_of_succ_lt hi)).start,
    (entry_at hall (Nat.lt_of_succ_lt hi)).length, XorbMeta.size]
  omega

end Entries

section Run
variable {entries : List XorbChunkEntry} {a b : Nat}

/-- The chunks of a run of entries, as the shard check reads them. -/
def pairs (run : List XorbChunkEntry) : List (MerkleHash × UInt64) :=
  run.map (fun entry => (entry.chunkHash, entry.unpackedSegmentBytes.toUInt64))

def bytesOf (run : List XorbChunkEntry) : Nat :=
  (run.map (fun entry => entry.unpackedSegmentBytes.toNat)).sum

theorem lengths_pairs (run : List XorbChunkEntry) : (lengths (pairs run)).sum = bytesOf run := by
  rw [lengths, pairs, List.map_map]
  rfl

/-- A run of entries is a run of stored chunks. -/
theorem run_stored (hall : List.Forall₂ (Entry record) (List.range record.numChunks.toNat) entries)
    (hb : b ≤ record.numChunks.toNat) : StoredRun record a b (pairs (piecesIn entries a b)) := by
  have hrun := List.forall₂_drop a (List.forall₂_take b hall)
  rw [List.take_range, Nat.min_eq_left hb, List.range_eq_range', List.drop_range', Nat.zero_add,
    Nat.mul_one] at hrun
  apply List.forall₂_map_right_iff.mpr
  apply hrun.imp
  intro i entry hentry
  exact ⟨hentry.hash, by rw [UInt32.toNat_toUInt64, hentry.length]⟩

/-- The lengths of a run add up to the distance between its ends, which are
offsets of 32 bits. -/
theorem bytesOf_run (hvalid : Valid record) (h : Consistent record)
    (hall : List.Forall₂ (Entry record) (List.range record.numChunks.toNat) entries) (hab : a ≤ b)
    (hb : b ≤ record.numChunks.toNat) :
    bytesOf (piecesIn entries a b) = (XorbMeta.fromRecord record).contentStart b -
        (XorbMeta.fromRecord record).contentStart a ∧
      bytesOf (piecesIn entries a b) < 2 ^ 32 := by
  have hsum := (run_stored hall hb).sum h hab hb
  rw [lengths_pairs] at hsum
  obtain ⟨hlast, hsmall⟩ := last_offset hvalid.content
  have hmono := XorbMeta.contentStart_mono h.offsets
    (show b ≤ record.unpackedChunkOffsets.length by rw [h.unpacked]; exact hb) (le_refl _)
  have hwhole : (XorbMeta.fromRecord record).contentStart record.unpackedChunkOffsets.length =
      record.unpackedLength.toNat := hlast.symm
  rw [hwhole, ← hsmall] at hmono
  have hbound := record.unpackedLength.toUInt32.toNat_lt
  exact ⟨hsum, by omega⟩

theorem bytesOf_entries (hvalid : Valid record) (h : Consistent record)
    (hall : List.Forall₂ (Entry record) (List.range record.numChunks.toNat) entries) :
    bytesOf entries = record.unpackedLength.toNat := by
  have hlen := hall.length_eq
  rw [List.length_range] at hlen
  have hwhole := (bytesOf_run hvalid h hall (Nat.zero_le _) (le_refl _)).1
  rw [piecesIn, List.drop_zero, List.take_of_length_le hlen.ge, ← h.unpacked] at hwhole
  exact hwhole.trans (last_offset hvalid.content).1.symm

end Run

section Shard
variable {entries : List XorbChunkEntry}

/-- The block that a dedup shard is made of; none of its counts is cut off. -/
structure Lists (record : XorbRecord) (entries : List XorbChunkEntry) (block : MDBXorbInfo) :
    Prop where
  chunks : block.chunks = entries
  numEntries : block.numEntries.toNat = entries.length
  numBytesInXorb : block.numBytesInXorb.toNat = bytesOf entries
  numBytesOnDisk : block.numBytesOnDisk.toNat = record.framesLength.toNat

/-- `build_keyed_dedup_shard` hands its entries on in one block. -/
theorem shard_lists (hvalid : Valid record) (h : Consistent record)
    (hentries : (List.range record.numChunks.toNat).mapM (dedupEntry record) = .ok entries)
    (hall : List.Forall₂ (Entry record) (List.range record.numChunks.toNat) entries)
    (key : MerkleHash) {m : MerkleHash} (hm : U.fromHex record.xorbHash = .ok m) :
    ∃ block, block.xorbHash = m ∧ Lists record entries block ∧
      buildKeyedDedupShard U record record.framesLength key = (do
        let shard ← named "dedup shard build" (U.addXorbBlock block)
        let plain ← named "dedup shard serialize" (U.shardToBytes shard)
        named "dedup shard keying" (U.exportAsKeyedShard plain key)) := by
  have hlen := hall.length_eq
  rw [List.length_range] at hlen
  refine ⟨⟨m, record.numChunks, record.unpackedLength.toUInt32, record.framesLength.toUInt32,
    entries⟩, rfl, ⟨rfl, hlen, ?_, (last_offset hvalid.frames).2⟩, ?_⟩
  · rw [bytesOf_entries hvalid h hall]
    exact (last_offset hvalid.content).2
  · simp only [buildKeyedDedupShard, hm, hentries, named, bind, Except.bind]

/-- The term that a client makes of a run of entries. -/
def dedupTerm (record : XorbRecord) (entries : List XorbChunkEntry) (a b : UInt32) :
    FileTermRecord :=
  ⟨record.xorbHash, a, b, UInt32.ofNat (bytesOf (piecesIn entries a.toNat b.toNat))⟩

theorem dedupTerm_accepted (hvalid : Valid record) (h : Consistent record)
    (hall : List.Forall₂ (Entry record) (List.range record.numChunks.toNat) entries)
    {a b : UInt32} (hab : a < b) (hb : b ≤ record.numChunks) {xorbs : Records}
    (hrecord : xorbs record.xorbHash = some record) {verification : Bytes} {i : Nat}
    (hverification : verification = [] ∨ packedHash verification i = (U.rangeHashFromChunks
      ((piecesIn entries a.toNat b.toNat).map XorbChunkEntry.chunkHash)).bytes) :
    checkTerm U xorbs verification (dedupTerm record entries a b) i =
        .ok (pairs (piecesIn entries a.toNat b.toNat)) ∧
      validateFileTermRecord (dedupTerm record entries a b) = .ok () := by
  have hsmall := (bytesOf_run hvalid h hall (a := a.toNat) (UInt32.le_of_lt hab) hb).2
  refine ⟨(checkTerm_ok ?_).mpr ⟨⟨record, hrecord, hb, run_stored hall hb⟩, hab, ?_, ?_⟩, ?_⟩
  · intro record' hsome
    cases Option.some.inj (hrecord.symm.trans hsome)
    exact h
  · rw [lengths_pairs]
    exact UInt32.toNat_ofNat_of_lt' hsmall
  · apply hverification.imp id
    intro hclaimed
    rw [hclaimed, pairs, List.map_map]
    rfl
  · unfold validateFileTermRecord
    rw [check_eq_ok, requireHashHex_ok, require_ok, decide_eq_true_eq]
    exact ⟨hvalid.hash, UInt32.le_of_lt hab⟩

end Shard

/-- Whatever run of a probed xorb a client reuses, its term passes the checks
of the next shard. -/
theorem probe_answer_accepted (hvalid : validateXorbRecord record = .ok ())
    (hoffsets : record.unpackedChunkOffsets.Pairwise (· ≤ ·)) : ∃ entries,
    (∀ key m, U.fromHex record.xorbHash = .ok m → ∃ block, block.xorbHash = m ∧
      Lists record entries block ∧ buildKeyedDedupShard U record record.framesLength key = (do
        let shard ← named "dedup shard build" (U.addXorbBlock block)
        let plain ← named "dedup shard serialize" (U.shardToBytes shard)
        named "dedup shard keying" (U.exportAsKeyedShard plain key))) ∧
    entries.length = record.numChunks.toNat ∧
    (∀ i (_ : i < entries.length), chunkHashAt record i = .ok entries[i].chunkHash) ∧
    entries.head?.map XorbChunkEntry.chunkByteRangeStart = some 0 ∧
    (∀ i (_ : i + 1 < entries.length), entries[i + 1].chunkByteRangeStart.toNat =
      entries[i].chunkByteRangeStart.toNat + entries[i].unpackedSegmentBytes.toNat) ∧
    bytesOf entries = record.unpackedLength.toNat ∧
    ∀ a b : UInt32, a < b → b ≤ record.numChunks →
      bytesOf (piecesIn entries a.toNat b.toNat) < 2 ^ 32 ∧
      ∀ (xorbs : Records) verification i, xorbs record.xorbHash = some record →
        (verification = [] ∨ packedHash verification i = (U.rangeHashFromChunks
          ((piecesIn entries a.toNat b.toNat).map XorbChunkEntry.chunkHash)).bytes) →
        checkTerm U xorbs verification (dedupTerm record entries a b) i =
            .ok (pairs (piecesIn entries a.toNat b.toNat)) ∧
          validateFileTermRecord (dedupTerm record entries a b) = .ok () := by
  have hv := valid_of_validated hvalid
  have h := Valid.consistent hv hoffsets
  obtain ⟨entries, hentries, hall⟩ := dedupEntries h
  have hlen := hall.length_eq
  rw [List.length_range] at hlen
  refine ⟨entries, fun key m hm => shard_lists hv h hentries hall key hm, hlen.symm, ?_, ?_,
    fun i hi => entries_chain h hall hi, bytesOf_entries hv h hall, ?_⟩
  · intro i hi
    exact chunkHashAt_ok.mpr (entry_at hall hi).hash
  · have hpos : 0 < entries.length := hlen ▸ hv.nonempty
    rw [List.head?_eq_getElem?, List.getElem?_eq_getElem hpos, Option.map_some]
    apply congrArg some
    exact UInt32.toNat_inj.mp (entry_at hall hpos).start
  · intro a b hab hb
    refine ⟨(bytesOf_run hv h hall (UInt32.le_of_lt hab) hb).2, ?_⟩
    intro xorbs verification i hrecord hverification
    exact dedupTerm_accepted hv h hall hab hb hrecord hverification

def wordRow : XorbRecord :=
  ⟨Formats.hex Formats.wordHash, 3, 28, 4, [9, 19, 28], [1, 3, 4],
    Formats.wordHashes.flatMap MerkleHash.bytes, 1⟩

/-- The last two chunks of the word, reused with their range hash. -/
theorem word_reused : ∃ entries, entries.length = 3 ∧
    checkTerm (Formats.documented Formats.sample) (fun _ => some wordRow)
      Formats.wordRangeHash.bytes (dedupTerm wordRow entries 1 3) 0 =
        .ok (pairs (piecesIn entries 1 3)) := by
  obtain ⟨entries, _, hlen, hhashes, _, _, _, hruns⟩ := probe_answer_accepted
    (U := Formats.documented Formats.sample) (show validateXorbRecord wordRow = _ by decide +kernel)
    (by decide)
  obtain ⟨e₀, e₁, e₂, rfl⟩ := List.length_eq_three.mp hlen
  have h₁ : chunkHashAt wordRow 1 = .ok e₁.chunkHash := hhashes 1 (by simp)
  have h₂ : chunkHashAt wordRow 2 = .ok e₂.chunkHash := hhashes 2 (by simp)
  have hsecond : chunkHashAt wordRow 1 = .ok (Formats.wordChunk 1) := by decide +kernel
  have hthird : chunkHashAt wordRow 2 = .ok (Formats.wordChunk 2) := by decide +kernel
  obtain ⟨_, haccepted⟩ := hruns 1 3 (by decide) (by decide)
  have hverification : packedHash Formats.wordRangeHash.bytes 0 =
      ((Formats.documented Formats.sample).rangeHashFromChunks
        ((piecesIn [e₀, e₁, e₂] 1 3).map XorbChunkEntry.chunkHash)).bytes := by
    have hrun : (piecesIn [e₀, e₁, e₂] 1 3).map XorbChunkEntry.chunkHash =
        [e₁.chunkHash, e₂.chunkHash] := rfl
    rw [hrun, ← Except.ok.inj (hsecond.symm.trans h₁), ← Except.ok.inj (hthird.symm.trans h₂)]
    decide +kernel
  have hterm := (haccepted (fun _ => some wordRow) _ 0 rfl (.inr hverification)).1
  exact ⟨_, hlen, hterm⟩

end Xetcas.Proofs.ProbeAnswer
