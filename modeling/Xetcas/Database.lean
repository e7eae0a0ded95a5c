import Xetcas.Error
import Xetcas.Index

namespace Xetcas
open Lib

/-- How records become blobs, and blobs records again. -/
structure Codec (R : Type) where
  encode : R → Bytes
  decode : Bytes → Except String R

structure Codecs where
  xorb : Codec XorbRecord
  file : Codec FileRecord

structure FileBlob where
  sha256 : Option String
  record : Bytes
  deriving DecidableEq

/-- What is in the file of the index. A file that is not there yet has no
tables, which is the same as empty ones. -/
structure Database where
  schemaMeta : Option Int
  xorbs : Table String Bytes
  files : Table String FileBlob
  chunks : Table String ChunkRow
  storeStats : Option Nat

def SCHEMA_VERSION : Int := 1

namespace Database

def absent : Database := ⟨none, .empty, .empty, .empty, none⟩

/-- `Index::open`: the schema is applied, and what is there stays. -/
def openIndex (db : Database) : Database := { db with
  schemaMeta := some (db.schemaMeta.getD SCHEMA_VERSION), storeStats := some (db.storeStats.getD 0) }

def decodeBlob {R : Type} (codec : Codec R) (blob : Bytes) : AppResult R :=
  match codec.decode blob with
  | .ok record => .ok record
  | .error e => .error (.index s!"Conversion error from type Blob at index: 0, {e}")

/-- `blob.map(decode).transpose()`. -/
def decodeOptional {R : Type} (codec : Codec R) : Option Bytes → AppResult (Option R)
  | none => .ok none
  | some blob => (decodeBlob codec blob).map some

variable (codecs : Codecs)

def putXorb (db : Database) (record : XorbRecord) (dedupChunks : List (String × UInt32))
    (diskBytes : Nat) : Database × Bool :=
  if db.xorbs.get? record.xorbHash = none then
    ({ db with
      xorbs := db.xorbs.insertOrIgnore record.xorbHash (codecs.xorb.encode record)
      chunks := Index.insertChunks db.chunks
        (dedupChunks.map (fun c => ⟨c.1, record.xorbHash, c.2⟩))
      storeStats := db.storeStats.map (· + diskBytes) }, true)
  else (db, false)

def getXorb (db : Database) (hash : String) : AppResult (Option XorbRecord) :=
  decodeOptional codecs.xorb (db.xorbs.get? hash)

/-- One round of the loop of `get_xorbs`. -/
def collectXorb (db : Database) (out : Table String XorbRecord) (hash : String) :
    AppResult (Table String XorbRecord) := do
  match ← getXorb codecs db hash with
  | none => .ok out
  | some record => .ok (out.upsert hash (fun _ => record))

def getXorbs (db : Database) (hashes : List String) : AppResult (Table String XorbRecord) :=
  hashes.foldlM (collectXorb codecs db) .empty

def getFile (db : Database) (fileHash : String) : AppResult (Option FileRecord) :=
  decodeOptional codecs.file ((db.files.get? fileHash).map FileBlob.record)

def fileBySha256 (db : Database) (sha256 : String) : AppResult (Option FileRecord) :=
  decodeOptional codecs.file
    ((Index.firstByKey (db.files.rows.filter (fun row => row.2.sha256 = some sha256))).map
      (fun row => row.2.record))

/-- The row of `put_files`: no `sha256` is stored as `NULL`. -/
def fileBlob (file : FileRecord) : FileBlob :=
  ⟨if file.sha256.isEmpty then none else some file.sha256, codecs.file.encode file⟩

def putFiles (db : Database) (files : List FileRecord) (chunks : List ChunkIndexEntry) :
    Database × Nat :=
  let files' := db.files.insertAll (files.map (fun f => (f.fileHash, fileBlob codecs f)))
  ({ db with files := files', chunks := Index.insertChunks db.chunks chunks },
    files'.rows.length - db.files.rows.length)

def lookupChunk (db : Database) (chunkHash : String) : AppResult (Option ChunkRow) :=
  .ok (db.chunks.get? chunkHash)

def stats (db : Database) : AppResult Index.IndexStats :=
  match db.storeStats with
  | none => .error (.index "Query returned no rows")
  | some diskBytes => .ok ⟨db.xorbs.rows.length, db.files.rows.length, diskBytes⟩

def counts (db : Database) : AppResult (Nat × Nat) := do
  let stats ← db.stats
  .ok (stats.xorbs, stats.files)

end Database

end Xetcas
