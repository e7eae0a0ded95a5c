import Xetcas.Proofs.Layout
import Xetcas.Proofs.Reconstructable
import Xetcas.Routes.Lfs

namespace Xetcas.Proofs.Content
open Lib Server Routes Routes.Reconstructions Agreement Layout Registration Planner Reconstructable
variable {U : Upstream} {state : AppState}

/-- Every row of `xorbs` describes its object. -/
def Described (U : Upstream) (state : AppState) : Prop :=
  ∀ hash record, state.index.getXorb hash = some record →
    ∃ object, state.objects (pathFor hash) = some object ∧ Agrees U object record

def storedChunks (U : Upstream) (state : AppState) (hash : String) : List Bytes :=
  match state.index.getXorb hash, state.objects (pathFor hash) with
  | some record, some object => (decodeFrames U record.chunkBoundaryOffsets.length object).1
  | _, _ => []

def storedChunk (U : Upstream) (state : AppState) (hash : String) (i : Nat) : Bytes :=
  (storedChunks U state hash).getD i []

theorem stored_describes (hd : Described U state) {hash : String} {record : XorbRecord}
    (hrow : state.index.getXorb hash = some record) :
    ∃ object frames, state.objects (pathFor hash) = some object ∧
      Describes U object record frames (storedChunks U state hash) := by
  obtain ⟨object, hobject, frames, chunks, h⟩ := hd hash record hrow
  have hread := h.reads (Nat.zero_le frames.length) (le_refl _)
  rw [h.frameStart_eq, startOf_zero, List.drop_zero, Nat.sub_zero] at hread
  have hchunks : storedChunks U state hash = chunks := by
    unfold storedChunks
    rw [hrow, hobject]
    simp only [h.lengths.1, hread]
    simp [piecesIn, h.decodes.length_eq]
  refine ⟨object, frames, hobject, ?_⟩
  rw [hchunks]
  exact h

/-- A run of pieces, by their numbers. -/
theorem piecesIn_map {pieces : List Bytes} {a b : Nat} (hb : b ≤ pieces.length) :
    piecesIn pieces a b = (List.Ico a b).map (fun i => pieces.getD i []) := by
  apply List.ext_getElem
  · simp [piecesIn, hb]
  · intro i hi hi'
    have hlt : a + i < pieces.length := by
      simp only [piecesIn, List.length_drop, List.length_take] at hi
      omega
    simp [piecesIn, List.Ico, hlt]

theorem chunkRun_pieces {pieces : List Bytes} {a b : Nat} (hb : b ≤ pieces.length) :
    chunkRun (fun i => pieces.getD i []) a b = (piecesIn pieces a b).flatten := by
  rw [chunkRun, piecesIn_map hb, List.flatMap_def]

section File
variable {file : FileRecord}

def termChunks (U : Upstream) (state : AppState) (term : FileTermRecord) : List Bytes :=
  piecesIn (storedChunks U state term.xorbHash) term.chunkIndexStart.toNat
    term.chunkIndexEnd.toNat

def fileChunks (U : Upstream) (state : AppState) (file : FileRecord) : List Bytes :=
  (file.terms.map (termChunks U state)).flatten

def contentOf (U : Upstream) (state : AppState) (file : FileRecord) : Bytes :=
  fileContent (storedChunk U state) file.terms

theorem stored_holds (hd : Described U state) :
    Holds (metasOf state.index file) (storedChunk U state) := by
  intro hash xorb hknown i hi
  obtain ⟨record, hrecord, rfl⟩ := metasOf_stored hknown
  obtain ⟨object, frames, _, h⟩ := stored_describes hd hrecord
  have hlen := h.lengths.2.1
  exact (h.size_eq (hlen ▸ hi)).symm

theorem numChunks_stored (hd : Described U state) {hash : String} {xorb : XorbMeta}
    (hknown : metasOf state.index file hash = some xorb) :
    xorb.numChunks.toNat ≤ (storedChunks U state hash).length := by
  obtain ⟨record, hrecord, rfl⟩ := metasOf_stored hknown
  obtain ⟨object, frames, _, h⟩ := stored_describes hd hrecord
  have hlen := (XorbMeta.fromRecord record).numChunks_le
  rw [← h.lengths.2.1]
  exact hlen

/-- A term of a stored file, with its object. -/
theorem term_described (hd : Described U state) (hfile : FileStored U state.index file)
    {term : FileTermRecord} (hterm : term ∈ file.terms) : ∃ record object frames,
      state.index.getXorb term.xorbHash = some record ∧
      state.objects (pathFor term.xorbHash) = some object ∧
      Describes U object record frames (storedChunks U state term.xorbHash) ∧
      term.chunkIndexStart.toNat < term.chunkIndexEnd.toNat ∧
      term.chunkIndexEnd.toNat ≤ (XorbMeta.fromRecord record).numChunks.toNat ∧
      term.chunkIndexEnd.toNat ≤ (storedChunks U state term.xorbHash).length := by
  obtain ⟨chunks, hterms, _⟩ := hfile.terms
  obtain ⟨_, _, record, hstored⟩ := partner hterms hterm
  obtain ⟨object, frames, hobject, h⟩ := stored_describes hd hstored.stored
  have hinside : term.chunkIndexEnd.toNat ≤ (XorbMeta.fromRecord record).numChunks.toNat :=
    hstored.inside
  have hfits := hinside.trans (XorbMeta.fromRecord record).numChunks_le
  exact ⟨record, object, frames, hstored.stored, hobject, h, hstored.nonempty, hinside,
    h.lengths.2.1 ▸ hfits⟩

theorem contentOf_chunks (hd : Described U state) (hfile : FileStored U state.index file) :
    contentOf U state file = (fileChunks U state file).flatten := by
  have hterm : ∀ term ∈ file.terms, chunkRun (storedChunk U state term.xorbHash)
      term.chunkIndexStart.toNat term.chunkIndexEnd.toNat =
        (termChunks U state term).flatten := by
    intro term hterm
    obtain ⟨_, _, _, _, _, _, _, _, hfits⟩ := term_described hd hfile hterm
    exact chunkRun_pieces hfits
  unfold contentOf fileContent
  rw [List.flatMap_congr hterm, List.flatMap_def, fileChunks, List.flatten_flatten, List.map_map]
  rfl

/-- The segment of a term reads the term's chunks. -/
theorem planSegment_reads (hoffsets : U.CumulativeOffsets) (hrows : Rows U state.index)
    (hd : Described U state) (hfile : FileStored U state.index file) {term : FileTermRecord}
    (hterm : term ∈ file.terms) : ∃ segment,
      Filestream.planSegment (state.index.getXorbs (file.terms.map FileTermRecord.xorbHash)) term =
        .ok segment ∧
      decodeSegment U state.objects segment = (termChunks U state term, none) := by
  obtain ⟨record, object, frames, hrecord, hobject, h, hlt, hle, hfits⟩ :=
    term_described hd hfile hterm
  obtain ⟨lo, hi, hoffset, hlo, _⟩ :=
    (row_stored hoffsets hrows hrecord).geometry.byteOffset_eq hlt hle
  have hnamed : state.index.getXorbs (file.terms.map FileTermRecord.xorbHash) term.xorbHash =
      some record := by
    rw [Index.getXorbs, if_pos (List.mem_map_of_mem hterm), hrecord]
  have hcount : (term.chunkIndexEnd - term.chunkIndexStart).toNat =
      term.chunkIndexEnd.toNat - term.chunkIndexStart.toNat :=
    UInt32.toNat_sub_of_le _ _ hlt.le
  refine ⟨⟨pathFor term.xorbHash, lo.toNat,
    (term.chunkIndexEnd - term.chunkIndexStart).toNat⟩, ?_, ?_⟩
  · simp [Filestream.planSegment, hnamed, hoffset, orInternal, bind, Except.bind]
  · simp only [decodeSegment, hobject, hcount, hlo]
    exact h.reads hlt.le (h.lengths.2.2 ▸ hfits)

/-- Segments that are read without error are sent one after the other. -/
theorem emitSegments_reads {segments : List Segment} {chunks : List (List Bytes)}
    (h : List.Forall₂ (fun segment read => decodeSegment U state.objects segment = (read, none))
      segments chunks) : emitSegments U state.objects segments = (chunks.flatten, none) := by
  induction h with
  | nil => rfl
  | cons hread _ ih => simp only [emitSegments, hread, ih, List.flatten_cons]

/-- `stream_file` sends the chunks of a stored file, without error. -/
theorem streamFile_chunks (hoffsets : U.CumulativeOffsets) (hrows : Rows U state.index)
    (hd : Described U state) (hfile : FileStored U state.index file) :
    streamFile U state file = .ok (fileChunks U state file, none) := by
  obtain ⟨segments, hplan, hreads⟩ := mapM_exists
    (fun term hterm => planSegment_reads hoffsets hrows hd hfile hterm)
  have hemit := emitSegments_reads (List.forall₂_map_right_iff.mpr hreads.flip)
  simp [streamFile, Filestream.planSegments, hplan, hemit, fileChunks, bind, Except.bind]

theorem length_contentOf (hoffsets : U.CumulativeOffsets) (hrows : Rows U state.index)
    (hd : Described U state) (hfile : FileStored U state.index file) :
    (contentOf U state file).length = file.fileLength.toNat := by
  rw [file_length hfile]
  exact length_fileContent (stored_holds hd) file.terms (file_fits hoffsets hrows hfile)

/-- An LFS download sends what `stream_file` does, under the file's length. -/
theorem download_streams {oid : String} (hoid : isHashHex oid = true)
    (hlinked : state.index.fileBySha256 oid = some file) {chunks : List Bytes}
    (hstream : streamFile U state file = .ok (chunks, none)) :
    Lfs.download U state oid = .ok ⟨file.fileLength, chunks, none⟩ := by
  have hrequest : validateLfsObjectSpec ⟨oid, 0⟩ = .ok () := requireHashHex_ok.mpr hoid
  simp [Lfs.download, hrequest, checkRequest, hlinked, hstream, bind, Except.bind]

end File

variable {D : Deployment} {s : Server}

/-- While handlers run until they return, rows describe their objects. -/
theorem reachable_described (hdecode : D.upstream.FramesDecode) (hhex : D.upstream.HexRoundTrip)
    (h : (machine D).Reachable NoDrop s) : Described D.upstream s.state := by
  intro hash record hrow
  exact (reachable_agreeing hdecode hhex (reachable_layoutsAgree h)).settled (.inl hrow)

end Xetcas.Proofs.Content
