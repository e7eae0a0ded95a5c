import Xetcas.Contracts.Messages

namespace Xetcas
open Lib

structure FileRow where
  sha256 : Option String
  record : FileRecord
  deriving DecidableEq, Repr

structure ChunkRow where
  xorbHash : String
  chunkIndex : UInt32
  deriving DecidableEq, Repr

/-- (chunk hash, owning xorb hash, index within that xorb). -/
structure ChunkIndexEntry where
  chunkHash : String
  xorbHash : String
  index : UInt32
  deriving DecidableEq, Repr

/-- The SQLite index: its three tables and the counter of `store_stats`. Blobs
are kept decoded. -/
structure Index where
  xorbs : Table String XorbRecord
  files : Table String FileRow
  chunks : Table String ChunkRow
  diskBytes : Nat
  deriving DecidableEq

namespace Index

/-- The schema, freshly applied. -/
def fresh : Index := ⟨.empty, .empty, .empty, 0⟩

/-- `INSERT OR IGNORE INTO chunks` for each entry. -/
def insertChunks (t : Table String ChunkRow) (entries : List ChunkIndexEntry) :
    Table String ChunkRow :=
  t.insertAll (entries.map (fun e => (e.chunkHash, ⟨e.xorbHash, e.index⟩)))

/-- The row of `put_files`: no `sha256` is stored as `NULL`. -/
def fileRow (file : FileRecord) : FileRow :=
  ⟨if file.sha256.isEmpty then none else some file.sha256, file⟩

def putXorb (index : Index) (record : XorbRecord) (dedupChunks : List (String × UInt32))
    (diskBytes : Nat) : Index × Bool :=
  if index.xorbs.get? record.xorbHash = none then
    ({ index with
      xorbs := index.xorbs.insertOrIgnore record.xorbHash record
      chunks := insertChunks index.chunks
        (dedupChunks.map (fun c => ⟨c.1, record.xorbHash, c.2⟩))
      diskBytes := index.diskBytes + diskBytes }, true)
  else (index, false)

def getXorb (index : Index) (hash : String) : Option XorbRecord := index.xorbs.get? hash

def getXorbs (index : Index) (hashes : List String) (hash : String) : Option XorbRecord :=
  if hash ∈ hashes then index.getXorb hash else none

def getFile (index : Index) (fileHash : String) : Option FileRecord :=
  (index.files.get? fileHash).map FileRow.record

/-- `ORDER BY file_hash LIMIT 1`: of two rows the one with the smaller key. -/
def firstByKey {ρ : Type} : List (String × ρ) → Option (String × ρ)
  | [] => none
  | row :: rows =>
    match firstByKey rows with
    | none => some row
    | some best => if best.1 < row.1 then some best else some row

def fileBySha256 (index : Index) (sha256 : String) : Option FileRecord :=
  (firstByKey (index.files.rows.filter (fun row => row.2.sha256 = some sha256))).map
    (fun row => row.2.record)

def putFiles (index : Index) (files : List FileRecord) (chunks : List ChunkIndexEntry) :
    Index × Nat :=
  let files' := index.files.insertAll (files.map (fun f => (f.fileHash, fileRow f)))
  ({ index with files := files', chunks := insertChunks index.chunks chunks },
    files'.rows.length - index.files.rows.length)

def lookupChunk (index : Index) (chunkHash : String) : Option ChunkRow :=
  index.chunks.get? chunkHash

/-- The index's own view of what the server holds. -/
structure IndexStats where
  xorbs : Nat
  files : Nat
  storedBytes : Nat
  deriving DecidableEq, Repr

def stats (index : Index) : IndexStats :=
  ⟨index.xorbs.rows.length, index.files.rows.length, index.diskBytes⟩

/-- No row of the first index is changed or missing in the second. -/
structure Grows (before after : Index) : Prop where
  xorbs : before.xorbs.Within after.xorbs
  files : before.files.Within after.files
  chunks : before.chunks.Within after.chunks

theorem Grows.refl (index : Index) : index.Grows index := ⟨.refl _, .refl _, .refl _⟩

theorem Grows.trans {a b c : Index} (h : a.Grows b) (g : b.Grows c) : a.Grows c :=
  ⟨h.xorbs.trans g.xorbs, h.files.trans g.files, h.chunks.trans g.chunks⟩

theorem putXorb_grows (index : Index) (record : XorbRecord) (dedup : List (String × UInt32))
    (diskBytes : Nat) : index.Grows (index.putXorb record dedup diskBytes).1 := by
  unfold putXorb
  split
  · exact ⟨Table.within_insertOrIgnore _ _ _, .refl _, Table.within_insertAll _ _⟩
  · exact .refl index

theorem putFiles_grows (index : Index) (files : List FileRecord) (chunks : List ChunkIndexEntry) :
    index.Grows (index.putFiles files chunks).1 :=
  ⟨.refl _, Table.within_insertAll _ _, Table.within_insertAll _ _⟩

/-- Either the row was there, or the transaction has written it. -/
theorem putXorb_row {index : Index} {record rec' : XorbRecord} {dedup : List (String × UInt32)}
    {diskBytes : Nat} {hash : String}
    (h : (index.putXorb record dedup diskBytes).1.getXorb hash = some rec') :
    index.getXorb hash = some rec' ∨
      (hash = record.xorbHash ∧ rec' = record ∧ index.getXorb hash = none) := by
  unfold putXorb at h
  split at h
  · rename_i hnew
    rcases Table.get?_insertOrIgnore_some h with hold | ⟨rfl, rfl, hnone⟩
    · exact .inl hold
    · exact .inr ⟨rfl, rfl, hnone⟩
  · exact .inl h

/-- The rows of `put_files`: a row stays, and a free hash gets the first file
that has it. -/
theorem putFiles_get? {index : Index} {files : List FileRecord} {chunks : List ChunkIndexEntry}
    {fileHash : String} {row : FileRow} :
    (index.putFiles files chunks).1.files.get? fileHash = some row ↔
      index.files.get? fileHash = some row ∨ (index.files.get? fileHash = none ∧
        ∃ before file after, files = before ++ file :: after ∧ file.fileHash = fileHash ∧
          fileRow file = row ∧ ∀ other ∈ before, other.fileHash ≠ fileHash) := by
  have hget : (index.putFiles files chunks).1.files.get? fileHash =
      (index.files.get? fileHash).or
        (rowOf fileHash (files.map (fun f => (f.fileHash, fileRow f)))) :=
    Table.get?_insertAll _ _ _
  rw [hget, Option.or_eq_some_iff, rowOf_eq_some]
  refine or_congr_right (and_congr_right ?_)
  intro _
  constructor
  · intro hparts
    obtain ⟨before, after, hfiles, hfirst⟩ := hparts
    obtain ⟨before', rest, rfl, rfl, hrest⟩ := List.map_eq_append_iff.mp hfiles
    obtain ⟨file, after', rfl, hfile, rfl⟩ := List.map_eq_cons_iff.mp hrest
    cases hfile
    refine ⟨before', file, after', rfl, rfl, rfl, ?_⟩
    intro other hother he
    exact hfirst (by simpa using ⟨other, hother, he⟩)
  · intro hparts
    obtain ⟨before, file, after, rfl, rfl, rfl, hfirst⟩ := hparts
    refine ⟨before.map (fun f => (f.fileHash, fileRow f)),
      after.map (fun f => (f.fileHash, fileRow f)), by simp, ?_⟩
    simpa using hfirst

@[simp] theorem putXorb_files (index : Index) (record : XorbRecord)
    (dedup : List (String × UInt32)) (diskBytes : Nat) :
    (index.putXorb record dedup diskBytes).1.files = index.files := by
  unfold putXorb
  split <;> rfl

theorem firstByKey_mem {rows : List (String × FileRow)} {row : String × FileRow}
    (h : firstByKey rows = some row) : row ∈ rows := by
  induction rows generalizing row with
  | nil => simp [firstByKey] at h
  | cons first rows ih =>
    simp only [firstByKey] at h
    split at h
    · cases h
      simp
    · rename_i best hbest
      split at h
      · cases h
        exact List.mem_cons_of_mem _ (ih hbest)
      · cases h
        simp

theorem firstByKey_eq_none {rows : List (String × FileRow)} :
    firstByKey rows = none ↔ rows = [] := by
  cases rows with
  | nil => simp [firstByKey]
  | cons row rows =>
    simp only [firstByKey, reduceCtorEq, iff_false]
    split
    · simp
    · split <;> simp

/-- What `file_by_sha256` returns stands in a row with that oid. -/
theorem fileBySha256_some {index : Index} {sha256 : String} {record : FileRecord}
    (h : index.fileBySha256 sha256 = some record) :
    ∃ fileHash row, index.files.get? fileHash = some row ∧ row.sha256 = some sha256 ∧
      row.record = record := by
  obtain ⟨row, hrow, rfl⟩ := Option.map_eq_some_iff.mp h
  have hmem := List.mem_filter.mp (firstByKey_mem hrow)
  exact ⟨row.1, row.2, Table.mem_rows.mp hmem.1, by simpa using hmem.2, rfl⟩

/-- There is a record as soon as some row has the oid. -/
theorem fileBySha256_isSome {index : Index} {sha256 : String} :
    (index.fileBySha256 sha256).isSome ↔
      ∃ fileHash row, index.files.get? fileHash = some row ∧ row.sha256 = some sha256 := by
  constructor
  · intro h
    obtain ⟨record, hrecord⟩ := Option.isSome_iff_exists.mp h
    obtain ⟨fileHash, row, hrow, hsha, _⟩ := fileBySha256_some hrecord
    exact ⟨fileHash, row, hrow, hsha⟩
  · intro h
    obtain ⟨fileHash, row, hrow, hsha⟩ := h
    rw [fileBySha256, Option.isSome_map, Option.isSome_iff_ne_none]
    intro hnone
    have hempty := firstByKey_eq_none.mp hnone
    have hmem : (fileHash, row) ∈ index.files.rows.filter (fun row => row.2.sha256 = some sha256) :=
      List.mem_filter.mpr ⟨Table.mem_rows.mpr hrow, by simpa using hsha⟩
    rw [hempty] at hmem
    cases hmem

end Index

end Xetcas
