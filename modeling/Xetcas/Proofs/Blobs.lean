import Xetcas.Contracts.Records
import Xetcas.Database

namespace Xetcas.Proofs.Blobs
open Lib

inductive Op where
  /-- A process starts. -/
  | reopen
  | putXorb (record : XorbRecord) (dedupChunks : List (String × UInt32)) (diskBytes : Nat)
  | getXorb (hash : String)
  | getXorbs (hashes : List String)
  | getFile (fileHash : String)
  | fileBySha256 (sha256 : String)
  | putFiles (files : List FileRecord) (chunks : List ChunkIndexEntry)
  | lookupChunk (chunkHash : String)
  | stats
  | counts

inductive Answer where
  | reopened
  | inserted (new : Bool)
  | xorb (record : Option XorbRecord)
  | xorbs (records : String → Option XorbRecord)
  | file (record : Option FileRecord)
  | registered (new : Nat)
  | chunk (row : Option ChunkRow)
  | stats (stats : Index.IndexStats)
  | counts (xorbs files : Nat)

def onIndex (index : Index) : Op → Index × Answer
  | .reopen => (index, .reopened)
  | .putXorb record dedupChunks diskBytes =>
    let r := index.putXorb record dedupChunks diskBytes
    (r.1, .inserted r.2)
  | .getXorb hash => (index, .xorb (index.getXorb hash))
  | .getXorbs hashes => (index, .xorbs (index.getXorbs hashes))
  | .getFile fileHash => (index, .file (index.getFile fileHash))
  | .fileBySha256 sha256 => (index, .file (index.fileBySha256 sha256))
  | .putFiles files chunks =>
    let r := index.putFiles files chunks
    (r.1, .registered r.2)
  | .lookupChunk chunkHash => (index, .chunk (index.lookupChunk chunkHash))
  | .stats => (index, .stats index.stats)
  | .counts => (index, .counts index.stats.xorbs index.stats.files)

def onDatabase (codecs : Codecs) (db : Database) : Op → Database × AppResult Answer
  | .reopen => (db.openIndex, .ok .reopened)
  | .putXorb record dedupChunks diskBytes =>
    let r := Database.putXorb codecs db record dedupChunks diskBytes
    (r.1, .ok (.inserted r.2))
  | .getXorb hash => (db, (Database.getXorb codecs db hash).map .xorb)
  | .getXorbs hashes => (db, (Database.getXorbs codecs db hashes).map (fun t => .xorbs t.get?))
  | .getFile fileHash => (db, (Database.getFile codecs db fileHash).map .file)
  | .fileBySha256 sha256 => (db, (Database.fileBySha256 codecs db sha256).map .file)
  | .putFiles files chunks =>
    let r := Database.putFiles codecs db files chunks
    (r.1, .ok (.registered r.2))
  | .lookupChunk chunkHash => (db, (Database.lookupChunk db chunkHash).map .chunk)
  | .stats => (db, (Database.stats db).map .stats)
  | .counts => (db, (Database.counts db).map (fun c => .counts c.1 c.2))

def run {S A : Type} (perform : S → Op → S × A) : S → List Op → S × List A
  | s, [] => (s, [])
  | s, op :: ops =>
    let r := perform s op
    let rest := run perform r.1 ops
    (rest.1, r.2 :: rest.2)

/-- What is read is what was written, as long as it has a length at all. -/
structure RoundTrips (codecs : Codecs) : Prop where
  xorb : ∀ record, (codecs.xorb.encode record).length < 2 ^ 64 →
    codecs.xorb.decode (codecs.xorb.encode record) = .ok record
  file : ∀ record, (codecs.file.encode record).length < 2 ^ 64 →
    codecs.file.decode (codecs.file.encode record) = .ok record

/-- The records of an operation can be stored. -/
def Storable (codecs : Codecs) : Op → Prop
  | .putXorb record _ _ => (codecs.xorb.encode record).length < 2 ^ 64
  | .putFiles files _ => ∀ file ∈ files, (codecs.file.encode file).length < 2 ^ 64
  | _ => True

variable {codecs : Codecs} {index : Index}

def blobOf (codecs : Codecs) (row : FileRow) : FileBlob :=
  ⟨row.sha256, codecs.file.encode row.record⟩

/-- The database in which an index stands. -/
def stored (codecs : Codecs) (index : Index) : Database where
  schemaMeta := some SCHEMA_VERSION
  xorbs := index.xorbs.map (fun _ record => codecs.xorb.encode record)
  files := index.files.map (fun _ row => blobOf codecs row)
  chunks := index.chunks
  storeStats := some index.diskBytes

structure Readable (codecs : Codecs) (index : Index) : Prop where
  xorbs : ∀ hash record, index.xorbs.get? hash = some record →
    codecs.xorb.decode (codecs.xorb.encode record) = .ok record
  files : ∀ fileHash row, index.files.get? fileHash = some row →
    codecs.file.decode (codecs.file.encode row.record) = .ok row.record

theorem decodeBlob_encode {R : Type} {codec : Codec R} {record : R}
    (h : codec.decode (codec.encode record) = .ok record) :
    Database.decodeBlob codec (codec.encode record) = .ok record := by
  simp only [Database.decodeBlob, h]

theorem getXorb_stored (h : Readable codecs index) (hash : String) :
    Database.getXorb codecs (stored codecs index) hash = .ok (index.getXorb hash) := by
  rw [Database.getXorb, stored, Table.get?_map, Index.getXorb]
  cases hrow : index.xorbs.get? hash with
  | none => rfl
  | some record =>
    rw [Option.map_some, Database.decodeOptional, decodeBlob_encode (h.xorbs hash record hrow)]
    rfl

/-- The map of `get_xorbs` has what was asked for so far and is there. -/
theorem getXorbs_loop (h : Readable codecs index) (hashes : List String) {before : List String}
    {out : Table String XorbRecord} (hout : out.get? = index.getXorbs before) :
    ∃ t, hashes.foldlM (Database.collectXorb codecs (stored codecs index)) out = .ok t ∧
      t.get? = index.getXorbs (before ++ hashes) := by
  induction hashes generalizing before out with
  | nil => exact ⟨out, rfl, by simpa using hout⟩
  | cons hash hashes ih =>
    have hround : ∃ out', Database.collectXorb codecs (stored codecs index) out hash = .ok out' ∧
        out'.get? = index.getXorbs (before ++ [hash]) := by
      rw [Database.collectXorb, getXorb_stored h]
      cases hrow : index.getXorb hash with
      | none =>
        refine ⟨out, rfl, ?_⟩
        rw [hout]
        funext key
        by_cases he : key = hash
        · simp [Index.getXorbs, he, hrow]
        · simp [Index.getXorbs, he]
      | some record =>
        refine ⟨out.upsert hash (fun _ => record), rfl, ?_⟩
        funext key
        rw [Table.get?_upsert, hout]
        by_cases he : key = hash
        · simp [Index.getXorbs, he, hrow]
        · simp [Index.getXorbs, he]
    obtain ⟨out', hcollect, hout'⟩ := hround
    obtain ⟨t, ht, hget⟩ := ih hout'
    refine ⟨t, ?_, by simpa using hget⟩
    rw [List.foldlM_cons, hcollect]
    exact ht

theorem getFile_stored (h : Readable codecs index) (fileHash : String) :
    Database.getFile codecs (stored codecs index) fileHash = .ok (index.getFile fileHash) := by
  rw [Database.getFile, stored, Table.get?_map, Index.getFile]
  cases hrow : index.files.get? fileHash with
  | none => rfl
  | some row =>
    rw [Option.map_some, Option.map_some, blobOf, Database.decodeOptional,
      decodeBlob_encode (h.files fileHash row hrow)]
    rfl

/-- The smallest key is found, whatever stands under it. -/
theorem firstByKey_map {ρ σ : Type} (f : ρ → σ) (rows : List (String × ρ)) :
    Index.firstByKey (rows.map (fun row => (row.1, f row.2))) =
      (Index.firstByKey rows).map (fun row => (row.1, f row.2)) := by
  induction rows with
  | nil => rfl
  | cons row rows ih =>
    rw [List.map_cons, Index.firstByKey, ih, Index.firstByKey]
    cases Index.firstByKey rows with
    | none => rfl
    | some best =>
      simp only [Option.map_some]
      split <;> rfl

theorem fileBySha256_stored (h : Readable codecs index) (sha256 : String) :
    Database.fileBySha256 codecs (stored codecs index) sha256 =
      .ok (index.fileBySha256 sha256) := by
  have hrows : (stored codecs index).files.rows.filter (fun row => row.2.sha256 = some sha256) =
      (index.files.rows.filter (fun row => row.2.sha256 = some sha256)).map
        (fun row => (row.1, blobOf codecs row.2)) := by
    rw [stored, Table.rows_map, List.filter_map]
    rfl
  rw [Database.fileBySha256, hrows, firstByKey_map (blobOf codecs), Index.fileBySha256,
    Option.map_map]
  cases hfirst : Index.firstByKey
      (index.files.rows.filter (fun row => row.2.sha256 = some sha256)) with
  | none => rfl
  | some row =>
    have hrow := Table.mem_rows.mp (List.mem_filter.mp (Index.firstByKey_mem hfirst)).1
    simp only [Option.map_some, Function.comp_apply, blobOf, Database.decodeOptional,
      decodeBlob_encode (h.files _ _ hrow)]
    rfl

theorem putXorb_stored (record : XorbRecord) (dedupChunks : List (String × UInt32))
    (diskBytes : Nat) :
    Database.putXorb codecs (stored codecs index) record dedupChunks diskBytes =
      (stored codecs (index.putXorb record dedupChunks diskBytes).1,
        (index.putXorb record dedupChunks diskBytes).2) := by
  have hkey : (stored codecs index).xorbs.get? record.xorbHash = none ↔
      index.xorbs.get? record.xorbHash = none := by
    rw [stored, Table.get?_map, Option.map_eq_none_iff]
  by_cases hnew : index.xorbs.get? record.xorbHash = none
  · rw [Database.putXorb, if_pos (hkey.mpr hnew), Index.putXorb, if_pos hnew]
    simp only [stored, Table.map_insertOrIgnore, Option.map_some]
  · rw [Database.putXorb, if_neg (fun hn => hnew (hkey.mp hn)), Index.putXorb, if_neg hnew]

theorem putFiles_stored (files : List FileRecord) (chunks : List ChunkIndexEntry) :
    Database.putFiles codecs (stored codecs index) files chunks =
      (stored codecs (index.putFiles files chunks).1, (index.putFiles files chunks).2) := by
  have hfiles : (index.files.map (fun _ row => blobOf codecs row)).insertAll
        (files.map (fun f => (f.fileHash, Database.fileBlob codecs f))) =
      (index.files.insertAll (files.map (fun f => (f.fileHash, Index.fileRow f)))).map
        (fun _ row => blobOf codecs row) := by
    rw [Table.map_insertAll, List.map_map]
    rfl
  simp only [Database.putFiles, stored, hfiles, Index.putFiles, Table.rows_map, List.length_map]

theorem Readable.putXorb (h : Readable codecs index) {record : XorbRecord}
    (hrecord : codecs.xorb.decode (codecs.xorb.encode record) = .ok record)
    (dedupChunks : List (String × UInt32)) (diskBytes : Nat) :
    Readable codecs (index.putXorb record dedupChunks diskBytes).1 := by
  refine ⟨?_, ?_⟩
  · intro hash record' hrow
    rcases Index.putXorb_row hrow with hold | ⟨_, rfl, _⟩
    · exact h.xorbs hash record' hold
    · exact hrecord
  · intro fileHash row hrow
    rw [Index.putXorb_files] at hrow
    exact h.files fileHash row hrow

theorem Readable.putFiles (h : Readable codecs index) {files : List FileRecord}
    (hfiles : ∀ file ∈ files, codecs.file.decode (codecs.file.encode file) = .ok file)
    (chunks : List ChunkIndexEntry) : Readable codecs (index.putFiles files chunks).1 := by
  refine ⟨h.xorbs, ?_⟩
  intro fileHash row hrow
  rcases Index.putFiles_get?.mp hrow with hold | ⟨_, before, file, after, hlist, _, rfl, _⟩
  · exact h.files fileHash row hold
  · exact hfiles file (by simp [hlist])

/-- An operation on blobs is the operation on records. -/
theorem onDatabase_stored (hcodecs : RoundTrips codecs) (h : Readable codecs index) {op : Op}
    (hop : Storable codecs op) :
    onDatabase codecs (stored codecs index) op =
        (stored codecs (onIndex index op).1, .ok (onIndex index op).2) ∧
      Readable codecs (onIndex index op).1 := by
  cases op with
  | reopen => exact ⟨rfl, h⟩
  | putXorb record dedupChunks diskBytes =>
    refine ⟨?_, h.putXorb (hcodecs.xorb record hop) dedupChunks diskBytes⟩
    simp only [onDatabase, putXorb_stored, onIndex]
  | getXorb hash =>
    refine ⟨?_, h⟩
    simp only [onDatabase, getXorb_stored h, onIndex]
    rfl
  | getXorbs hashes =>
    refine ⟨?_, h⟩
    have hnothing : (Table.empty : Table String XorbRecord).get? = index.getXorbs [] := by
      funext key
      simp [Index.getXorbs]
    obtain ⟨t, ht, hget⟩ := getXorbs_loop h hashes hnothing
    rw [List.nil_append] at hget
    simp only [onDatabase, Database.getXorbs, ht, onIndex, ← hget]
    rfl
  | getFile fileHash =>
    refine ⟨?_, h⟩
    simp only [onDatabase, getFile_stored h, onIndex]
    rfl
  | fileBySha256 sha256 =>
    refine ⟨?_, h⟩
    simp only [onDatabase, fileBySha256_stored h, onIndex]
    rfl
  | putFiles files chunks =>
    refine ⟨?_, h.putFiles (fun file hfile => hcodecs.file file (hop file hfile)) chunks⟩
    simp only [onDatabase, putFiles_stored, onIndex]
  | lookupChunk chunkHash => exact ⟨rfl, h⟩
  | stats =>
    refine ⟨?_, h⟩
    simp [onDatabase, Database.stats, onIndex, Index.stats, stored, Except.map]
  | counts =>
    refine ⟨?_, h⟩
    simp [onDatabase, Database.counts, Database.stats, onIndex, Index.stats, stored, bind,
      Except.bind, Except.map]

theorem run_stored (hcodecs : RoundTrips codecs) (h : Readable codecs index) {ops : List Op}
    (hops : ∀ op ∈ ops, Storable codecs op) :
    run (onDatabase codecs) (stored codecs index) ops =
      (stored codecs (run onIndex index ops).1, (run onIndex index ops).2.map .ok) := by
  induction ops generalizing index with
  | nil => rfl
  | cons op ops ih =>
    rw [List.forall_mem_cons] at hops
    obtain ⟨hstep, hreadable⟩ := onDatabase_stored hcodecs h hops.1
    simp only [run, hstep, ih hreadable hops.2, List.map_cons]

theorem fresh_readable : Readable codecs .fresh := by
  refine ⟨?_, ?_⟩
  · intro hash record hrow
    cases hrow
  · intro fileHash row hrow
    cases hrow

/-- However an index is used and how often it is reopened: no blob of it is
ever unreadable, and every answer is the one that `Index` gives. -/
theorem blobs_transparent (hcodecs : RoundTrips codecs) {ops : List Op}
    (hops : ∀ op ∈ ops, Storable codecs op) :
    run (onDatabase codecs) Database.absent.openIndex ops =
      (stored codecs (run onIndex .fresh ops).1, (run onIndex .fresh ops).2.map .ok) :=
  run_stored hcodecs fresh_readable hops

def protobuf {R : Type} (layout : Wire.Layout R) : Codec R where
  encode := layout.encode
  decode blob :=
    match layout.decode Wire.RECURSION_LIMIT blob with
    | some record => .ok record
    | none => .error "failed to decode Protobuf message"

def derived : Codecs := ⟨protobuf XorbRecord.layout, protobuf FileRecord.layout⟩

example : FileTermRecord.layout.encode ⟨"ab", 1, 300, 0⟩ =
    [0x0a, 2, 0x61, 0x62, 0x10, 1, 0x18, 0xac, 2] := by decide

/-- A group that the message does not know is skipped. -/
example : FileTermRecord.layout.decode Wire.RECURSION_LIMIT [0x7b, 0x08, 1, 0x7c, 0x10, 1] =
    some ⟨"", 1, 0, 0⟩ := by decide

theorem derived_roundTrips : RoundTrips derived := by
  refine ⟨?_, ?_⟩
  · intro record hsize
    simp only [derived, protobuf, Wire.Layout.decode_encode hsize]
  · intro record hsize
    simp only [derived, protobuf, Wire.Layout.decode_encode hsize]

/-- A xorb is stored, a file of it registered, and both are read after a restart. -/
theorem reopened_records_read : ∃ xorb file index,
    run (onDatabase derived) Database.absent.openIndex
        [.putXorb xorb [] 9, .putFiles [file] [], .reopen, .getXorb "ab", .fileBySha256 "cd"] =
      (stored derived index, [.ok (.inserted true), .ok (.registered 1), .ok .reopened,
        .ok (.xorb (some xorb)), .ok (.file (some file))]) := by
  let xorb : XorbRecord := ⟨"ab", 1, 9, 300, [9], [300], [0, 1], 5⟩
  let file : FileRecord := ⟨"ef", 300, "cd", [⟨"ab", 0, 1, 300⟩], [], 5⟩
  have hsize : ∀ op ∈ [Op.putXorb xorb [] 9, .putFiles [file] [], .reopen, .getXorb "ab",
      .fileBySha256 "cd"], Storable derived op := by
    have hxorb : (derived.xorb.encode xorb).length < 2 ^ 64 := by decide
    have hfile : (derived.file.encode file).length < 2 ^ 64 := by decide
    intro op hop
    simp only [List.mem_cons, List.not_mem_nil, or_false] at hop
    rcases hop with rfl | rfl | rfl | rfl | rfl
    · exact hxorb
    · exact List.forall_mem_singleton.mpr hfile
    all_goals trivial
  exact ⟨xorb, file, _, (blobs_transparent derived_roundTrips hsize).trans rfl⟩

end Xetcas.Proofs.Blobs
