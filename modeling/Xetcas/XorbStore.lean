import Xetcas.Contracts.Messages
import Xetcas.Lib.DurableTree
import Xetcas.Lib.Listing
import Xetcas.Lib.Transition

namespace Xetcas
open Lib

def slice (s : String) (start stop : Nat) : String :=
  String.ofList ((s.toList.take stop).drop start)

/-- `XorbStore::path_for`, relative to the store's root. -/
def pathFor (hashHex : String) : Path :=
  [slice hashHex 0 2, slice hashHex 2 4, hashHex]

/-- Two hashes never share a final name. -/
theorem pathFor_injective : Function.Injective pathFor := by
  intro hash hash' h
  simp only [pathFor, List.cons.injEq, and_true] at h
  exact h.2.2

/-- `walk_size`, over what `read_dir` lists. -/
def walkSize : Listing String Bytes → Nat
  | .nil => 0
  | .file _ data rest => data.length + walkSize rest
  | .dir _ inner rest => walkSize inner + walkSize rest

/-- The directory below the store's root. Files that are being written are
elsewhere, in the staging directory. -/
structure ObjectTree where
  entries : Listing String Bytes
  distinct : entries.Distinct

namespace ObjectTree

def storedBytes (tree : ObjectTree) : Nat := walkSize tree.entries

/-- The files of the tree are these objects. -/
def Holds (tree : ObjectTree) (objects : Path → Option Bytes) : Prop :=
  ∀ path object, (path, object) ∈ tree.entries.files ↔ objects path = some object

end ObjectTree

/-- One turn of the loop of `missing_ancestors`: push a missing directory and
go on with its parent, or stop and reverse. The root always exists. -/
def probe (present : Path → Bool) (cursor : Path) (missing : List Path) :
    (Path × List Path) ⊕ List Path :=
  if present cursor then .inr missing.reverse
  else match cursor with
    | [] => .inr (missing ++ [cursor]).reverse
    | _ => .inl (cursor.dropLast, missing ++ [cursor])

def ancestors (dir : Path) : List Path :=
  dir.inits.filter (fun p => !p.isEmpty)

/-- Where a `write_atomic` call is: each constructor is the file-system call it
makes next. -/
inductive WritePhase where
  | idle
  /-- `create_dir_all(&tmp_dir)`, outside the object tree. -/
  | staging
  | probing (cursor : Path) (missing : List Path)
  | making (todo : List Path) (fresh : List Path)
  | syncing (fresh : List Path)
  | creating
  | writing
  | flushing
  | renaming
  | syncingLeaf
  | returned (ok : Bool)
  deriving DecidableEq, Repr

/-- A `write_atomic` call and the data its temp file holds. -/
structure WriteCall where
  hashHex : String
  bytes : Bytes
  phase : WritePhase
  temp : Inode Bytes

/-- The object tree, the calls in flight, and what has been promised: which
hashes were ever acknowledged, with which bytes they were submitted, and which
have a row in `xorbs`. -/
structure Disk where
  tree : DurableTree Bytes
  calls : Nat → WriteCall
  submitted : String → List Bytes
  acked : String → Bool
  rows : String → Bool

namespace Disk

def noCall : WriteCall := ⟨"", [], .idle, ⟨[], false⟩⟩

def fresh : Disk where
  tree := .bare
  calls := fun _ => noCall
  submitted := fun _ => []
  acked := fun _ => false
  rows := fun _ => false

inductive Act where
  | call (i : Nat) (hashHex : String) (bytes : Bytes)
  /-- The next file-system call of `i` succeeds. -/
  | advance (i : Nat)
  /-- It fails, and the call returns the error. -/
  | fail (i : Nat)
  /-- The upload handler whose `write_atomic` returned `Ok` commits its row. -/
  | insertRow (i : Nat)
  /-- The process dies; the tree stays as it is. -/
  | crash
  | powerLoss (keep : Path → Bool)

def setPhase (d : Disk) (i : Nat) (p : WritePhase) : Disk :=
  { d with calls := Function.update d.calls i { d.calls i with phase := p } }

def setTemp (d : Disk) (i : Nat) (node : Inode Bytes) (p : WritePhase) : Disk :=
  { d with calls := Function.update d.calls i { d.calls i with phase := p, temp := node } }

def parent (d : Disk) (i : Nat) : Path := (pathFor (d.calls i).hashHex).dropLast

/-- The body of the closure of `write_atomic`, one file-system call at a time. -/
def advance (d : Disk) (i : Nat) : Option Disk :=
  match (d.calls i).phase with
  | .idle | .returned _ => none
  | .staging => some (d.setPhase i (.probing (d.parent i) []))
  | .probing cursor missing =>
    match probe d.tree.dirs cursor missing with
    | .inl (cursor, missing) => some (d.setPhase i (.probing cursor missing))
    | .inr fresh => some (d.setPhase i (.making (ancestors (d.parent i)) fresh))
  | .making [] fresh => some (d.setPhase i (.syncing fresh))
  | .making (dir :: todo) fresh =>
    some ({ d with tree := d.tree.mkdir dir }.setPhase i (.making todo fresh))
  | .syncing [] => some (d.setPhase i .creating)
  | .syncing (dir :: fresh) =>
    some ({ d with tree := d.tree.syncDir dir.dropLast }.setPhase i (.syncing fresh))
  | .creating => some (d.setTemp i ⟨[], false⟩ .writing)
  | .writing => some (d.setTemp i ⟨(d.calls i).bytes, false⟩ .flushing)
  | .flushing => some (d.setTemp i { (d.calls i).temp with whole := true } .renaming)
  | .renaming =>
    some ({ d with tree := d.tree.place (pathFor (d.calls i).hashHex) (d.calls i).temp }.setPhase i
      .syncingLeaf)
  | .syncingLeaf =>
    some ({ d with
      tree := d.tree.syncDir (d.parent i)
      acked := Function.update d.acked (d.calls i).hashHex true }.setPhase i (.returned true))

def step (d : Disk) : Act → Option Disk
  | .call i hashHex bytes =>
    if (d.calls i).phase = .idle then
      some { d with
        calls := Function.update d.calls i ⟨hashHex, bytes, .staging, ⟨[], false⟩⟩
        submitted := Function.update d.submitted hashHex (bytes :: d.submitted hashHex) }
    else none
  | .advance i => d.advance i
  | .fail i =>
    match (d.calls i).phase with
    | .idle | .returned _ => none
    | _ => some (d.setPhase i (.returned false))
  | .insertRow i =>
    if (d.calls i).phase = .returned true then
      some { d with rows := Function.update d.rows (d.calls i).hashHex true }
    else none
  | .crash => some { d with calls := fun _ => noCall }
  | .powerLoss keep =>
    some { d with tree := d.tree.powerLoss [] keep, calls := fun _ => noCall }

def machine : Machine Disk Act where
  start := fun d => d = fresh
  step := step

end Disk
end Xetcas
