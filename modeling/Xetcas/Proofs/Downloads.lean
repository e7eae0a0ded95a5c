import Xetcas.Proofs.Content

namespace Xetcas.Proofs.Downloads
open Lib Server Routes Routes.Reconstructions Agreement Registration Planner Fetch Reconstructable
  Content

def answered : AppResult α → Except String α
  | .ok a => .ok a
  | .error e => .error e.toText

def found (missing : String) : Option α → Except String α
  | some a => .ok a
  | none => .error missing

def rangeHeader (start stop : Nat) : Option Xorbs.HeaderValue :=
  some (some s!"bytes={start}-{stop}")

def decodeChunks (U : Upstream) : Nat → Bytes → Except String (List Bytes)
  | _, [] => .ok []
  | 0, _ :: _ => .error "more frames than bytes"
  | left + 1, bytes => do
    let (content, rest) ← U.deserializeChunk bytes
    let more ← decodeChunks U left rest
    .ok (content :: more)

def containsRange (range : IndexRange) (entry : CasReconstructionFetchInfo) : Bool :=
  entry.range.any (fun r => r.start ≤ range.start && range.stop ≤ r.stop)

/-- Fetch the entry that contains a term, and keep the term's chunks. -/
def fetchTerm (U : Upstream) (state : AppState) (response : QueryReconstructionResponse)
    (term : CasReconstructionTerm) : Except String Bytes := do
  let range ← found "a term without a range" term.range
  let info ← found "a xorb without fetch info" (response.fetchInfo.get? term.hash)
  let entry ← found "a term in no entry" (info.entries.find? (containsRange range))
  let chunks ← found "an entry without a range" entry.range
  let bytes ← found "an entry without a byte range" entry.urlRange
  let answer ← answered
    (Xorbs.data state term.hash (rangeHeader bytes.start.toNat bytes.stop.toNat))
  let decoded ← decodeChunks U answer.body.length answer.body
  -- the first frame is chunk `chunks.start`
  .ok (piecesIn decoded (range.start.toNat - chunks.start.toNat)
    (range.stop.toNat - chunks.start.toNat)).flatten

/-- Bytes `start` to `stop` of a file. -/
def downloadRange (U : Upstream) (state : AppState) (fileHash : String) (start stop : Nat) :
    Except String Bytes := do
  let response ← answered (Reconstructions.get state fileHash (rangeHeader start (stop - 1)))
  let parts ← response.terms.mapM (fetchTerm U state response)
  .ok ((parts.flatten.drop response.offsetIntoFirstRange.toNat).take (stop - start))

theorem rangeHeader_parsed (start stop : UInt64) :
    ∃ value, rangeHeader start.toNat stop.toNat = some value ∧
      value.bind parseRangeHeader = some (.fromTo start stop) := by
  refine ⟨some s!"bytes={start.toNat}-{stop.toNat}", rfl, ?_⟩
  rw [Option.bind_some]
  exact parse_format start stop

section Entry
variable {U : Upstream} {state : AppState}

theorem decodeChunks_frames {frames chunks : List Bytes} (h : List.Forall₂ U.IsFrame frames chunks)
    {left : Nat} (hleft : frames.flatten.length ≤ left) :
    decodeChunks U left frames.flatten = .ok chunks := by
  induction h generalizing left with
  | nil => cases left <;> rfl
  | @cons frame content frames chunks hframe _ ih =>
    have hheader := hframe.1
    unfold XORB_CHUNK_HEADER_LENGTH at hheader
    rw [List.flatten_cons, List.length_append] at hleft
    cases left with
    | zero => omega
    | succ left =>
      cases frame with
      | nil => simp at hheader
      | cons byte frame =>
        have hread := hframe.2 frames.flatten
        have hfits : frames.flatten.length ≤ left := by omega
        have hrest := ih hfits
        rw [List.flatten_cons]
        simp only [List.cons_append] at hread ⊢
        simp only [decodeChunks, hread, hrest, bind, Except.bind]

theorem data_read {hash : String} {record : XorbRecord} {object : Bytes}
    {value : Xorbs.HeaderValue} {spec : RangeSpec} {start stop : UInt64}
    (hrow : state.index.getXorb hash = some record)
    (hobject : state.objects (pathFor hash) = some object)
    (hparse : value.bind parseRangeHeader = some spec)
    (hresolve : spec.resolve record.framesLength = some (start, stop)) :
    ∃ answer, Xorbs.data state hash (some value) = .ok answer ∧
      answer.body = (object.drop start.toNat).take (stop - start).toNat := by
  unfold Xorbs.data
  simp only [hrow, hobject, hparse, hresolve, bind, Except.bind, Except.ok.injEq, exists_eq_left']

/-- The data route answers a range of whole frames with exactly these. -/
theorem data_frames {hash : String} {record : XorbRecord} {object : Bytes}
    {frames chunks : List Bytes} (hrow : state.index.getXorb hash = some record)
    (hobject : state.objects (pathFor hash) = some object)
    (h : Describes U object record frames chunks) {a b : Nat} (hb : b ≤ frames.length)
    {start stop : UInt64} (hstart : start.toNat = (XorbMeta.fromRecord record).frameStart a)
    (hstop : stop.toNat + 1 = (XorbMeta.fromRecord record).frameStart b)
    (hlt : (XorbMeta.fromRecord record).frameStart a < (XorbMeta.fromRecord record).frameStart b)
    (hab : a ≤ b) :
    ∃ answer, Xorbs.data state hash (rangeHeader start.toNat stop.toNat) = .ok answer ∧
      answer.body = (piecesIn frames a b).flatten := by
  have hinside := h.frameStart_le hb
  obtain ⟨bound, hresolve, hbound⟩ := resolve_fromTo record.framesLength start stop (by omega)
    (by omega)
  have hlen : (bound - start).toNat = (XorbMeta.fromRecord record).frameStart b -
      (XorbMeta.fromRecord record).frameStart a := by
    rw [UInt64.toNat_sub_of_le _ _ (by rw [UInt64.le_iff_toNat_le]; omega)]
    omega
  obtain ⟨value, hvalue, hparse⟩ := rangeHeader_parsed start stop
  obtain ⟨answer, hanswer, hbody⟩ := data_read hrow hobject hparse hresolve
  refine ⟨answer, by rw [hvalue, hanswer], ?_⟩
  rw [hbody, ← h.cut_frames hab hb, List.drop_take, hlen, hstart]

/-- An advertised entry that contains a range of chunks gives these chunks. -/
theorem entry_read (hoffsets : U.CumulativeOffsets) (hrows : Rows U state.index)
    (hd : Described U state) {file : FileRecord} {hash : String} {xorb : XorbMeta}
    (hknown : metasOf state.index file hash = some xorb) {r : FetchRange} (hr : Aligned xorb r) :
    ∃ answer decoded,
      Xorbs.data state hash (rangeHeader (UInt64.ofNat r.byteStart).toNat
        (saturatingSub (UInt64.ofNat r.byteEnd) 1).toNat) = .ok answer ∧
      decodeChunks U answer.body.length answer.body = .ok decoded ∧
      decoded = piecesIn (storedChunks U state hash) r.chunkStart r.chunkEnd := by
  obtain ⟨record, hrecord, rfl⟩ := metasOf_stored hknown
  obtain ⟨object, frames, hobject, h⟩ := stored_describes hd hrecord
  have hstored := row_stored hoffsets hrows hrecord
  have hlengths := h.lengths
  have hnum := (XorbMeta.fromRecord record).numChunks_le
  have hin := hr.inside
  have hfits : r.chunkEnd ≤ frames.length := by
    simp only [XorbMeta.fromRecord] at hin hnum
    omega
  have hlt := hstored.frames hr.lt (by simpa [XorbMeta.fromRecord, hlengths.1] using hfits)
  have hstart : (UInt64.ofNat r.byteStart).toNat =
      (XorbMeta.fromRecord record).frameStart r.chunkStart := by
    have hsmall := (XorbMeta.fromRecord record).frameStart_lt r.chunkStart
    rw [hr.byteStart, UInt64.toNat_ofNat_of_lt' (by unfold UInt64.size; omega)]
  have hstop : (saturatingSub (UInt64.ofNat r.byteEnd) 1).toNat + 1 =
      (XorbMeta.fromRecord record).frameStart r.chunkEnd := by
    have hsmall := (XorbMeta.fromRecord record).frameStart_lt r.chunkEnd
    rw [toNat_saturatingSub, hr.byteEnd, UInt64.toNat_ofNat_of_lt' (by unfold UInt64.size; omega),
      UInt64.toNat_one]
    omega
  obtain ⟨answer, hanswer, hbody⟩ := data_frames hrecord hobject h hfits hstart hstop hlt hr.lt.le
  refine ⟨answer, _, hanswer, ?_, rfl⟩
  rw [hbody]
  exact decodeChunks_frames (forall₂_piecesIn h.decodes _ _) (le_refl _)

/-- Whichever entry contains a planned term, the client gets the term's bytes. -/
theorem fetchTerm_reads (hoffsets : U.CumulativeOffsets) (hrows : Rows U state.index)
    (hd : Described U state) {file : FileRecord} {plan : Plan} {base : String}
    (h : Advertised (metasOf state.index file) file.terms plan) {t : Term} (ht : t ∈ plan.terms) :
    fetchTerm U state (wireResponse base plan) (wireTerm t) =
      .ok (chunkRun (storedChunk U state t.xorb) t.chunkStart t.chunkEnd) := by
  obtain ⟨ranges, hranges, hlt, r, hr, hcovers⟩ := h.terms t ht
  obtain ⟨_, _, _, xorb, hknown, _, haligned⟩ := h.fetch hranges
  have hsmall : ∀ r ∈ ranges, r.chunkStart < UInt32.size ∧ r.chunkEnd < UInt32.size := by
    intro r hr
    have hr' := haligned r hr
    have hin := hr'.inside.trans_lt xorb.numChunks.toNat_lt
    exact ⟨hr'.lt.trans hin, hin⟩
  have hinfo : (wireResponse base plan).fetchInfo.get? t.xorb =
      some ⟨ranges.map (wireRange base t.xorb)⟩ := by
    change (plan.fetch.map _).get? t.xorb = _
    rw [Table.get?_map, hranges]
    rfl
  have hhi : t.chunkEnd < UInt32.size := hcovers.2.trans_lt (hsmall r hr).2
  have hlo : t.chunkStart < UInt32.size := hlt.trans hhi
  have hsome : ((ranges.map (wireRange base t.xorb)).find? (containsRange
      ⟨UInt32.ofNat t.chunkStart, UInt32.ofNat t.chunkEnd⟩)).isSome := by
    obtain ⟨hstart, hend⟩ := hsmall r hr
    apply List.find?_isSome.mpr
    refine ⟨_, List.mem_map_of_mem hr, ?_⟩
    have hlower := (UInt32.ofNat_le_iff_le hstart hlo).mpr hcovers.1
    have hupper := (UInt32.ofNat_le_iff_le hhi hend).mpr hcovers.2
    simp [containsRange, wireRange, hlower, hupper]
  obtain ⟨entry, hentry⟩ := Option.isSome_iff_exists.mp hsome
  obtain ⟨r', hr', rfl⟩ := List.mem_map.mp (List.mem_of_find?_eq_some hentry)
  have hpred := List.find?_some hentry
  obtain ⟨hstart, hend⟩ := hsmall r' hr'
  simp only [containsRange, wireRange, Option.any_some, Bool.and_eq_true, decide_eq_true_eq] at hpred
  rw [UInt32.ofNat_le_iff_le hstart hlo, UInt32.ofNat_le_iff_le hhi hend] at hpred
  obtain ⟨answer, decoded, hanswer, hdecoded, rfl⟩ :=
    entry_read hoffsets hrows hd hknown (haligned r' hr')
  have hfits : t.chunkEnd ≤ (storedChunks U state t.xorb).length :=
    (hcovers.2.trans (haligned r hr).inside).trans (numChunks_stored hd hknown)
  have hrun : chunkRun (storedChunk U state t.xorb) t.chunkStart t.chunkEnd =
      (piecesIn (storedChunks U state t.xorb) t.chunkStart t.chunkEnd).flatten :=
    chunkRun_pieces hfits
  rw [hrun, ← piecesIn_piecesIn hpred.1 hlt.le hpred.2]
  simp only [fetchTerm, hinfo, wireTerm, wireRange, found, hentry, hanswer, answered, hdecoded, bind,
    Except.bind, UInt32.toNat_ofNat_of_lt' hstart, UInt32.toNat_ofNat_of_lt' hlo,
    UInt32.toNat_ofNat_of_lt' hhi]

/-- The bytes of all the terms of a plan. -/
theorem fetchTerms_read (hoffsets : U.CumulativeOffsets) (hrows : Rows U state.index)
    (hd : Described U state) {file : FileRecord} {plan : Plan}
    (h : Advertised (metasOf state.index file) file.terms plan) (base : String) :
    ∃ parts, (wireResponse base plan).terms.mapM (fetchTerm U state (wireResponse base plan)) =
        .ok parts ∧ parts.flatten = planContent (storedChunk U state) plan.terms := by
  refine ⟨plan.terms.map (fun t => chunkRun (storedChunk U state t.xorb) t.chunkStart t.chunkEnd),
    ?_, ?_⟩
  · change (plan.terms.map wireTerm).mapM _ = _
    rw [List.mapM_map]
    apply mapM_eq_map
    intro t ht
    exact fetchTerm_reads hoffsets hrows hd h ht
  · rw [planContent, List.flatMap_def]

end Entry

/-- The client gets the bytes of the file that it asks for. -/
theorem downloadRange_content {U : Upstream} {state : AppState} (hoffsets : U.CumulativeOffsets)
    (hrows : Rows U state.index) (hd : Described U state) {fileHash : String} {row : FileRow}
    (hrow : state.index.files.get? fileHash = some row) {start stop : Nat} (hlt : start < stop)
    (hle : stop ≤ row.record.fileLength.toNat) :
    downloadRange U state fileHash start stop =
      .ok (((contentOf U state row.record).drop start).take (stop - start)) := by
  obtain ⟨_, _, hfile⟩ := hrows.files hrow
  have hsize := row.record.fileLength.toNat_lt
  have hstart : (UInt64.ofNat start).toNat = start :=
    UInt64.toNat_ofNat_of_lt' (by unfold UInt64.size; omega)
  have hlast : (UInt64.ofNat (stop - 1)).toNat = stop - 1 :=
    UInt64.toNat_ofNat_of_lt' (by unfold UInt64.size; omega)
  obtain ⟨value, hvalue, hparse⟩ :=
    rangeHeader_parsed (UInt64.ofNat start) (UInt64.ofNat (stop - 1))
  obtain ⟨bound, hresolve, hbound⟩ := resolve_fromTo row.record.fileLength (UInt64.ofNat start)
    (UInt64.ofNat (stop - 1)) (by omega) (by omega)
  have hstop : bound.toNat = stop := by omega
  have hrequested : Requested row.record (some (start, stop)) :=
    .inr ⟨_, _, _, hresolve, by rw [hstart, hstop]⟩
  have hwindow : window row.record.fileLength.toNat (some (start, stop)) = .ok (start, stop) := by
    simp only [window]
    rw [if_neg (by omega), Nat.min_eq_left hle]
  have hfits := file_fits hoffsets hrows hfile
  obtain ⟨plan, hplan, hvalid⟩ := file_plans hoffsets hrows hfile hrequested
  obtain ⟨plan', hplan', hadvertised⟩ := planReconstruction_advertised (file_length hfile) hfits
    (requested_plannable hrequested)
  obtain ⟨plan'', hplan'', hoffset, _, hcontent⟩ := planned_content (stored_holds hd) hwindow hlt
    (hle.trans_eq (file_length hfile)) hfits
  cases Except.ok.inj (hplan.symm.trans hplan')
  cases Except.ok.inj (hplan.symm.trans hplan'')
  have hget := get_planned hrows hrow hparse hresolve (by rw [hstart, hstop]; exact hplan) hvalid
  rw [← hvalue, hstart, hlast] at hget
  obtain ⟨parts, hparts, hflatten⟩ :=
    fetchTerms_read hoffsets hrows hd hadvertised state.config.publicBase
  have hdropped : (wireResponse state.config.publicBase plan).offsetIntoFirstRange.toNat =
      plan.offsetIntoFirstRange :=
    UInt64.toNat_ofNat_of_lt' (by unfold UInt64.size; omega)
  simp only [downloadRange, hget, answered, hparts, hflatten, hdropped, hcontent, bind, Except.bind]
  rfl

variable {D : Deployment} {s : Server}

/-- Both ways to download a file give the same bytes, and as many as announced. -/
theorem download_paths_agree (hdecode : D.upstream.FramesDecode)
    (hhex : D.upstream.HexRoundTrip) (h : (machine D).Reachable NoDrop s) (fileHash : String)
    (row : FileRow) (hrow : s.state.index.files.get? fileHash = some row) :
    ∃ chunks, streamFile D.upstream s.state row.record = .ok (chunks, none) ∧
      chunks.flatten.length = row.record.fileLength.toNat ∧
      (∀ oid, isHashHex oid = true → s.state.index.fileBySha256 oid = some row.record →
        Lfs.download D.upstream s.state oid = .ok ⟨row.record.fileLength, chunks, none⟩) ∧
      ∀ start stop, start < stop → stop ≤ row.record.fileLength.toNat →
        downloadRange D.upstream s.state fileHash start stop =
          .ok ((chunks.flatten.drop start).take (stop - start)) := by
  have hoffsets := hdecode.cumulativeOffsets
  have hrows := reachable_rows h
  have hd := reachable_described hdecode hhex h
  obtain ⟨_, _, hfile⟩ := hrows.files hrow
  have hstream := streamFile_chunks hoffsets hrows hd hfile
  have hcontent := contentOf_chunks hd hfile
  refine ⟨fileChunks D.upstream s.state row.record, hstream, ?_, ?_, ?_⟩
  · rw [← hcontent]
    exact length_contentOf hoffsets hrows hd hfile
  · intro oid hoid hlinked
    exact download_streams hoid hlinked hstream
  · intro start stop hlt hle
    rw [← hcontent]
    exact downloadRange_content hoffsets hrows hd hrow hlt hle

/-- The file CDEA, whole and from its second byte. -/
theorem word_downloaded : ∃ s, (machine sampleServer).Reachable NoDrop s ∧
    ∃ row chunks, s.state.index.files.get? (Formats.hex Formats.wordFileHash) = some row ∧
      streamFile sampleServer.upstream s.state row.record = .ok (chunks, none) ∧
      chunks.length = 3 ∧ chunks.flatten.length = 4 ∧
      Lfs.download sampleServer.upstream s.state Formats.wordOid = .ok ⟨4, chunks, none⟩ ∧
      downloadRange sampleServer.upstream s.state (Formats.hex Formats.wordFileHash) 1 4 =
        .ok ((chunks.flatten.drop 1).take 3) := by
  obtain ⟨s, hreach, hp⟩ := word_registered (fun s =>
    (s.state.index.files.get? (Formats.hex Formats.wordFileHash)).any (fun row =>
      row.record.fileLength == 4 &&
      s.state.index.fileBySha256 Formats.wordOid == some row.record &&
      (streamFile sampleServer.upstream s.state row.record).toOption.any (fun out =>
        out.1.length == 3))) (by decide +kernel)
  obtain ⟨row, hrow, hp⟩ := (Option.any_eq_true _ _).mp hp
  obtain ⟨hboth, hp⟩ := Bool.and_eq_true_iff.mp hp
  obtain ⟨hlength, hlinked⟩ := Bool.and_eq_true_iff.mp hboth
  obtain ⟨out, hout, hthree⟩ := toOption_any hp
  obtain ⟨chunks, hstream, htotal, hdownload, hranges⟩ := download_paths_agree
    (Formats.documented_framesDecode _) (Formats.documented_hexRoundTrip _) hreach _ row hrow
  cases Except.ok.inj (hout.symm.trans hstream)
  have hfour : row.record.fileLength.toNat = 4 := by rw [eq_of_beq hlength]; rfl
  refine ⟨s, hreach, row, chunks, hrow, hstream, eq_of_beq hthree, htotal.trans hfour, ?_,
    hranges 1 4 (by decide) hfour.ge⟩
  rw [← eq_of_beq hlength]
  exact hdownload _ (by decide +kernel) (eq_of_beq hlinked)

end Xetcas.Proofs.Downloads
