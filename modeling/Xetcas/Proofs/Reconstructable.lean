import Xetcas.Proofs.Fetch
import Xetcas.Proofs.Registration
import Xetcas.Routes.Reconstructions

namespace Xetcas.Proofs.Reconstructable
open Lib Server Routes Routes.Reconstructions Provenance Agreement Registration Planner Fetch
variable {U : Upstream} {index : Index}

/-- The geometry of a stored xorb: no frame is empty. -/
structure Stored (record : XorbRecord) : Prop where
  geometry : (XorbMeta.fromRecord record).Geometry
  frames : ∀ {a b}, a < b → b ≤ (XorbMeta.fromRecord record).boundary.length →
    (XorbMeta.fromRecord record).frameStart a < (XorbMeta.fromRecord record).frameStart b

theorem prepared_stored (hoffsets : U.CumulativeOffsets) {hash : String} {up : Xorbs.Upload}
    (h : Prepared U hash up) : Stored up.record := by
  obtain ⟨body, info, expected, now, _, hparse, hrecord, hvalid, _⟩ := prepared_parts h
  obtain ⟨hframes, hunpacked⟩ := hoffsets body up.stored info expected hparse
  have hboundary : up.record.chunkBoundaryOffsets = info.chunkBoundaryOffsets := by rw [hrecord]; rfl
  have hstep : ∀ i < (up.record.chunkBoundaryOffsets.map UInt32.toNat).length,
      startOf (up.record.chunkBoundaryOffsets.map UInt32.toNat) i <
        startOf (up.record.chunkBoundaryOffsets.map UInt32.toNat) (i + 1) := by
    intro i hi
    rw [hboundary, List.length_map] at hi
    have hle := hframes i hi
    rw [hboundary]
    unfold XORB_CHUNK_HEADER_LENGTH at hle
    omega
  refine ⟨⟨?_, ?_, ?_⟩, ?_⟩
  · exact hvalid.boundary.trans hvalid.unpacked.symm
  · rw [hrecord]
    exact hunpacked
  · exact (List.pairwise_map.mp (pairwise_of_steps hstep)).imp (fun hlt => hlt)
  · intro a b hab hb
    exact startOf_steps hstep hab (by rw [List.length_map]; exact hb)

theorem row_stored (hoffsets : U.CumulativeOffsets) (h : Rows U index) {hash : String}
    {record : XorbRecord} (hrow : index.getXorb hash = some record) : Stored record := by
  obtain ⟨_, up, hup, rfl⟩ := h.xorbs hrow
  exact prepared_stored hoffsets hup

/-- A registered term fits the geometry that its file is reconstructed with. -/
theorem term_fits (hoffsets : U.CumulativeOffsets) (h : Rows U index) {file : FileRecord}
    {term : FileTermRecord} (hmem : term ∈ file.terms) {chunks : List (MerkleHash × UInt64)}
    {record : XorbRecord} (hterm : TermStored index term chunks record) :
    Fits (metasOf index file) term (XorbMeta.fromRecord record) := by
  have hg := (row_stored hoffsets h hterm.stored).geometry
  have hlt : term.chunkIndexStart.toNat < term.chunkIndexEnd.toNat := hterm.nonempty
  have hle : term.chunkIndexEnd.toNat ≤ (XorbMeta.fromRecord record).numChunks.toNat := hterm.inside
  refine ⟨?_, hg, hterm.nonempty, hterm.inside, ?_⟩
  · have hnamed : ∃ t ∈ file.terms, t.xorbHash = term.xorbHash := ⟨term, hmem, rfl⟩
    simp [metasOf, Index.getXorbs, hnamed, hterm.stored]
  · obtain ⟨n, hn, hval⟩ := hg.unpackedLen_eq hlt.le hle
    rw [hterm.declares] at hn
    cases hn
    rw [hg.sum_size hlt.le (hle.trans (XorbMeta.numChunks_le _)), ← hval, UInt32.toNat_toUInt64]

theorem file_fits (hoffsets : U.CumulativeOffsets) (h : Rows U index) {file : FileRecord}
    (hfile : FileStored U index file) :
    ∀ seg ∈ file.terms, ∃ xorb, Fits (metasOf index file) seg xorb := by
  obtain ⟨chunks, hterms, _⟩ := hfile.terms
  intro seg hseg
  obtain ⟨_, _, record, hterm⟩ := partner hterms hseg
  exact ⟨_, term_fits hoffsets h hseg hterm⟩

/-- A file is as long as its terms declare. -/
theorem file_length {file : FileRecord} (hfile : FileStored U index file) :
    file.fileLength.toNat = totalBytes file.terms := by
  have hsum := (toNat_sum (file.terms.map FileTermRecord.unpackedSegmentBytes)
    (by simpa using hfile.few)).1
  rw [hfile.length, totalBytes]
  simpa [List.map_map, Function.comp_def] using hsum

section Wire
variable {metas : Metas} {segments : List FileTermRecord} {plan : Plan} {base : String}

theorem wireTerm_valid {t : Term} (hhash : isHashHex t.xorb = true)
    (hle : t.chunkStart ≤ t.chunkEnd) (hfits : t.chunkEnd < 2 ^ 32) :
    validateCasReconstructionTerm (wireTerm t) = .ok () := by
  have hrange := (UInt32.ofNat_le_iff_le (hle.trans_lt hfits) hfits).mpr hle
  unfold validateCasReconstructionTerm validateIndexRange
  rw [check_eq_ok, bind_eq_ok, requireHashHex_ok]
  refine ⟨hhash, _, requirePresent_ok.mpr rfl, ?_⟩
  rw [require_ok, decide_eq_true_eq]
  exact hrange

/-- An end that becomes inclusive stays at or after the start, because no frame
is empty. -/
theorem wireRange_valid {xorb : XorbMeta} {hash : String} {r : FetchRange} (h : Aligned xorb r)
    (hframes : xorb.frameStart r.chunkStart < xorb.frameStart r.chunkEnd) :
    validateCasReconstructionFetchInfo (wireRange base hash r) = .ok () := by
  have hfits := h.inside.trans_lt xorb.numChunks.toNat_lt
  have hrange := (UInt32.ofNat_le_iff_le (h.lt.trans hfits) hfits).mpr h.lt.le
  have hend := xorb.frameStart_lt r.chunkEnd
  have hbytes : UInt64.ofNat r.byteStart ≤ saturatingSub (UInt64.ofNat r.byteEnd) 1 := by
    rw [UInt64.le_iff_toNat_le, toNat_saturatingSub, h.byteStart, h.byteEnd,
      UInt64.toNat_ofNat_of_lt' (by unfold UInt64.size; omega),
      UInt64.toNat_ofNat_of_lt' (by unfold UInt64.size; omega), UInt64.toNat_one]
    omega
  have hurl : (wireRange base hash r).url.isEmpty = false := by
    simp [wireRange, toString]
  unfold validateCasReconstructionFetchInfo validateIndexRange validateByteRange
  rw [check_eq_ok, bind_eq_ok, requireNonEmpty_ok]
  refine ⟨hurl, _, requirePresent_ok.mpr rfl, ?_⟩
  rw [check_eq_ok, bind_eq_ok, require_ok, decide_eq_true_eq]
  refine ⟨hrange, _, requirePresent_ok.mpr rfl, ?_⟩
  rw [require_ok, decide_eq_true_eq]
  exact hbytes

end Wire

/-- What a plan is made from is stored. -/
theorem metasOf_stored {file : FileRecord} {hash : String} {xorb : XorbMeta}
    (h : metasOf index file hash = some xorb) :
    ∃ record, index.getXorb hash = some record ∧ xorb = XorbMeta.fromRecord record := by
  unfold metasOf Index.getXorbs at h
  obtain ⟨record, hrecord, rfl⟩ := Option.map_eq_some_iff.mp h
  split at hrecord
  · exact ⟨record, hrecord, rfl⟩
  · cases hrecord

theorem file_hash {file : FileRecord} (h : validateFileRecord file = .ok ()) :
    isHashHex file.fileHash = true := by
  unfold validateFileRecord at h
  rw [check_eq_ok, requireHashHex_ok] at h
  exact h.1

theorem file_sha256 {file : FileRecord} (h : validateFileRecord file = .ok ()) :
    (file.sha256.isEmpty || isHashHex file.sha256) = true := by
  unfold validateFileRecord at h
  rw [check_eq_ok, check_eq_ok, require_ok] at h
  exact h.2.1

theorem term_hash {file : FileRecord} (h : validateFileRecord file = .ok ())
    {term : FileTermRecord} (hterm : term ∈ file.terms) : isHashHex term.xorbHash = true := by
  unfold validateFileRecord at h
  simp only [check_eq_ok] at h
  obtain ⟨_, _, hterms, _⟩ := h
  have hchecked := forM_eq_ok.mp hterms term hterm
  unfold validateFileTermRecord at hchecked
  rw [check_eq_ok, requireHashHex_ok] at hchecked
  exact hchecked.1

/-- Every check on the response to a stored file passes. -/
theorem wireResponse_valid (hoffsets : U.CumulativeOffsets) (hrows : Rows U index)
    {file : FileRecord} (hfile : FileStored U index file) {plan : Plan} {base : String}
    (h : Advertised (metasOf index file) file.terms plan) :
    validateQueryReconstructionResponse (wireResponse base plan) = .ok () := by
  have hname : ∀ {hash ranges}, plan.fetch.get? hash = some ranges → isHashHex hash = true := by
    intro hash ranges hget
    obtain ⟨seg, hseg, rfl, _⟩ := h.fetch hget
    exact term_hash hfile.valid hseg
  unfold validateQueryReconstructionResponse
  rw [check_eq_ok, check_eq_ok]
  refine ⟨forM_eq_ok.mpr ?_, requireHashHexKeys_ok.mpr ?_, forM_eq_ok.mpr ?_⟩
  · intro wire hwire
    obtain ⟨t, ht, rfl⟩ := List.mem_map.mp hwire
    obtain ⟨ranges, hget, hlt, r, hr, _, hend⟩ := h.terms t ht
    obtain ⟨_, _, _, xorb, _, _, haligned⟩ := h.fetch hget
    have hinside := (haligned r hr).inside
    have hsmall := xorb.numChunks.toNat_lt
    exact wireTerm_valid (hname hget) hlt.le (by omega)
  · intro row hrow
    obtain ⟨fetched, hfetched, rfl⟩ := List.mem_map.mp hrow
    exact hname (Table.mem_rows.mp hfetched)
  · intro row hrow
    obtain ⟨⟨hash, ranges⟩, hfetched, rfl⟩ := List.mem_map.mp hrow
    obtain ⟨_, _, _, xorb, hknown, hg, haligned⟩ := h.fetch (Table.mem_rows.mp hfetched)
    obtain ⟨record, hrecord, rfl⟩ := metasOf_stored hknown
    apply forM_eq_ok.mpr
    intro wire hwire
    obtain ⟨r, hr, rfl⟩ := List.mem_map.mp hwire
    have hr' := haligned r hr
    have hlen := (XorbMeta.fromRecord record).numChunks_le
    apply wireRange_valid hr'
    exact (row_stored hoffsets hrows hrecord).frames hr'.lt
      (hr'.inside.trans (hg.aligned ▸ hlen))

/-- The windows that a request can ask a file for. -/
def Requested (file : FileRecord) (range : Option (Nat × Nat)) : Prop :=
  range = none ∨ ∃ spec start stop, RangeSpec.resolve file.fileLength spec = some (start, stop) ∧
    range = some (start.toNat, stop.toNat)

theorem requested_plannable {file : FileRecord} {range : Option (Nat × Nat)}
    (h : Requested file range) : Plannable file.fileLength.toNat range := by
  rcases h with rfl | ⟨spec, start, stop, hresolve, rfl⟩
  · left
    intro start stop hnone
    cases hnone
  · rcases resolve_inside hresolve with ⟨hlt, hle⟩ | ⟨hempty, hstart⟩
    · left
      intro start' stop' he
      cases he
      exact ⟨hlt, hlt.trans_le hle⟩
    · exact .inr ⟨hempty, _, by rw [hstart]⟩

/-- A stored file is planned for, whatever window is asked for, and the answer
passes its checks. -/
theorem file_plans (hoffsets : U.CumulativeOffsets) (hrows : Rows U index) {file : FileRecord}
    (hfile : FileStored U index file) {range : Option (Nat × Nat)} (hrange : Requested file range) :
    ∃ plan, planReconstruction file range (metasOf index file) = .ok (some plan) ∧
      ∀ base, validateQueryReconstructionResponse (wireResponse base plan) = .ok () := by
  obtain ⟨plan, hplan, hadvertised⟩ := planReconstruction_advertised (file_length hfile)
    (file_fits hoffsets hrows hfile) (requested_plannable hrange)
  exact ⟨plan, hplan, fun base => wireResponse_valid hoffsets hrows hfile hadvertised⟩

section Get
variable {state : AppState} {fileHash : String} {row : FileRow}

theorem stored_request (hrows : Rows U state.index)
    (hrow : state.index.files.get? fileHash = some row) :
    validateQueryReconstructionRequest ⟨fileHash, none⟩ = .ok () ∧
      state.index.getFile fileHash = some row.record := by
  obtain ⟨_, hhash, hfile⟩ := hrows.files hrow
  refine ⟨?_, ?_⟩
  · unfold validateQueryReconstructionRequest
    rw [check_eq_ok, requireHashHex_ok, ← hhash]
    exact ⟨file_hash hfile.valid, rfl⟩
  · rw [Index.getFile, hrow]
    rfl

/-- A window that is planned for is answered with its plan. -/
theorem get_planned (hrows : Rows U state.index)
    (hrow : state.index.files.get? fileHash = some row) {value : Xorbs.HeaderValue}
    {spec : RangeSpec} {start stop : UInt64} {plan : Plan}
    (hparse : value.bind parseRangeHeader = some spec)
    (hresolve : spec.resolve row.record.fileLength = some (start, stop))
    (hplan : planReconstruction row.record (some (start.toNat, stop.toNat))
      (metasOf state.index row.record) = .ok (some plan))
    (hvalid : ∀ base, validateQueryReconstructionResponse (wireResponse base plan) = .ok ()) :
    Reconstructions.get state fileHash (some value) =
      .ok (wireResponse state.config.publicBase plan) := by
  obtain ⟨hrequest, hget⟩ := stored_request hrows hrow
  simp [Reconstructions.get, hrequest, hget, hparse, hresolve, hplan, hvalid, checkRequest,
    checkResponse, orInternal, bind, Except.bind]

/-- Answers to requests for a stored file: a response, or 416. -/
theorem file_answered (hoffsets : U.CumulativeOffsets) (hrows : Rows U state.index)
    (hrow : state.index.files.get? fileHash = some row) {range : Option Xorbs.HeaderValue}
    (haccepted : ∀ value, range = some value → (value.bind parseRangeHeader).isSome) :
    (∃ response, Reconstructions.get state fileHash range = .ok response ∧
        validateQueryReconstructionResponse response = .ok ()) ∨
      Reconstructions.get state fileHash range = .error .rangeNotSatisfiable := by
  obtain ⟨_, _, hfile⟩ := hrows.files hrow
  obtain ⟨hrequest, hget⟩ := stored_request hrows hrow
  cases range with
  | none =>
    obtain ⟨plan, hplan, hvalid⟩ := file_plans hoffsets hrows hfile (.inl rfl)
    refine .inl ⟨wireResponse state.config.publicBase plan, ?_, hvalid _⟩
    simp [Reconstructions.get, hrequest, hget, hplan, hvalid, checkRequest, checkResponse,
      orInternal, bind, Except.bind]
  | some value =>
    obtain ⟨spec, hspec⟩ := Option.isSome_iff_exists.mp (haccepted value rfl)
    cases hresolve : spec.resolve row.record.fileLength with
    | none =>
      right
      simp [Reconstructions.get, hrequest, hget, hspec, hresolve, checkRequest, bind, Except.bind]
    | some window =>
      obtain ⟨start, stop⟩ := window
      obtain ⟨plan, hplan, hvalid⟩ := file_plans hoffsets hrows hfile
        (.inr ⟨spec, start, stop, hresolve, rfl⟩)
      exact .inl ⟨_, get_planned hrows hrow hspec hresolve hplan hvalid, hvalid _⟩

end Get

variable {D : Deployment} {s : Server}

/-- A registered file can always be reconstructed: its xorbs are there, every
window that a request can ask for is planned, and the answer is a valid
response or 416. -/
theorem registered_file_reconstructs (hoffsets : D.upstream.CumulativeOffsets)
    (h : (machine D).Reachable Machine.anyStep s) (fileHash : String) (row : FileRow)
    (hrow : s.state.index.files.get? fileHash = some row) :
    (∀ term ∈ row.record.terms, (s.state.index.getXorb term.xorbHash).isSome) ∧
      (∀ range, Requested row.record range → ∃ plan,
        planReconstruction row.record range (metasOf s.state.index row.record) = .ok (some plan)) ∧
      ∀ range : Option Xorbs.HeaderValue,
        (∀ value, range = some value → (value.bind parseRangeHeader).isSome) →
        (∃ response, Reconstructions.get s.state fileHash range = .ok response ∧
          validateQueryReconstructionResponse response = .ok ()) ∨
        Reconstructions.get s.state fileHash range = .error .rangeNotSatisfiable := by
  have hrows := reachable_rows h
  obtain ⟨_, _, hfile⟩ := hrows.files hrow
  refine ⟨?_, ?_, fun range haccepted => file_answered hoffsets hrows hrow haccepted⟩
  · intro term hterm
    obtain ⟨chunks, hterms, _⟩ := hfile.terms
    obtain ⟨_, _, record, hstored⟩ := partner hterms hterm
    exact Option.isSome_iff_exists.mpr ⟨record, hstored.stored⟩
  · intro range hrange
    obtain ⟨plan, hplan, _⟩ := file_plans hoffsets hrows hfile hrange
    exact ⟨plan, hplan⟩

/-- Two bytes of the file CDEA are asked for, and planned. -/
theorem word_reconstructs : ∃ s, (machine sampleServer).Reachable Machine.anyStep s ∧
    ∃ response, Reconstructions.get s.state (Formats.hex Formats.wordFileHash)
        (some (some "bytes=1-2")) = .ok response ∧
      validateQueryReconstructionResponse response = .ok () := by
  obtain ⟨s, hreach, hp⟩ := word_registered (fun s =>
    (s.state.index.files.get? (Formats.hex Formats.wordFileHash)).isSome &&
    (Reconstructions.get s.state (Formats.hex Formats.wordFileHash)
      (some (some "bytes=1-2"))).toOption.isSome) (by decide +kernel)
  obtain ⟨hregistered, hanswer⟩ := Bool.and_eq_true_iff.mp hp
  obtain ⟨row, hrow⟩ := Option.isSome_iff_exists.mp hregistered
  obtain ⟨_, _, hanswered⟩ := registered_file_reconstructs
    (Formats.documented_framesDecode _).cumulativeOffsets hreach.free _ row hrow
  have haccepted : ∀ value, some (some "bytes=1-2") = some value →
      (value.bind parseRangeHeader).isSome := by
    intro value hvalue
    cases hvalue
    decide +kernel
  obtain hfound | hrefused := hanswered (some (some "bytes=1-2")) haccepted
  · exact ⟨s, hreach.free, hfound⟩
  · rw [hrefused] at hanswer
    cases hanswer

end Xetcas.Proofs.Reconstructable
