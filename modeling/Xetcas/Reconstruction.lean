import Mathlib.Data.List.Sort
import Xetcas.Contracts.Messages
import Xetcas.Lib.Cumulative
import Xetcas.Lib.Except

namespace Xetcas
open Lib

/-- Per-xorb chunk geometry: entry `k` of each list is where chunk `k` ends, in
the stored object and in the content. -/
structure XorbMeta where
  boundary : List UInt32
  unpacked : List UInt32
  deriving DecidableEq, Repr

/-- What indexing past the end of a slice panics with. -/
def indexPanic (len index : Nat) : String :=
  s!"index out of bounds: the len is {len} but the index is {index}"

/-- `if i == 0 { 0 } else { offsets[i - 1] }`, the cumulative offset where
chunk `i` begins. -/
def offsetAt (offsets : List UInt32) (i : Nat) : Except String UInt32 :=
  if i = 0 then .ok 0
  else match offsets[i - 1]? with
    | some offset => .ok offset
    | none => .error (indexPanic offsets.length (i - 1))

namespace XorbMeta

def fromRecord (record : XorbRecord) : XorbMeta :=
  ⟨record.chunkBoundaryOffsets, record.unpackedChunkOffsets⟩

def numChunks (xorb : XorbMeta) : UInt32 := UInt32.ofNat xorb.unpacked.length

def chunkLen (xorb : XorbMeta) (index : Nat) : Except String UInt32 := do
  match xorb.unpacked[index]? with
  | none => .error s!"chunk index {index} out of range"
  | some stop =>
    let start ← offsetAt xorb.unpacked index
    .ok (stop - start)

def unpackedLen (xorb : XorbMeta) (start stop : Nat) : Except String UInt64 := do
  if xorb.numChunks.toNat < stop ∨ stop < start then
    .error s!"chunk range {start} to {stop} out of range"
  else
    let hi ← offsetAt xorb.unpacked stop
    let lo ← offsetAt xorb.unpacked start
    .ok (hi.toUInt64 - lo.toUInt64)

def byteOffset (xorb : XorbMeta) (start stop : Nat) : Except String (UInt64 × UInt64) := do
  if xorb.numChunks.toNat < stop ∨ stop ≤ start then
    .error s!"chunk range {start} to {stop} out of range"
  else
    let lo ← offsetAt xorb.boundary start
    let hi ← offsetAt xorb.boundary stop
    .ok (lo.toUInt64, hi.toUInt64)

end XorbMeta

/-- An ordered term of a plan. The counts of a plan are `Nat`: the code has
them in `u32` and `u64`, and nothing it computes leaves those ranges. -/
structure Term where
  xorb : String
  chunkStart : Nat
  chunkEnd : Nat
  unpackedLength : Nat
  deriving DecidableEq, Repr

/-- A merged fetch range; the byte range is half open. -/
structure FetchRange where
  chunkStart : Nat
  chunkEnd : Nat
  byteStart : Nat
  byteEnd : Nat
  deriving DecidableEq, Repr

structure Plan where
  offsetIntoFirstRange : Nat
  terms : List Term
  fetch : Table String (List FetchRange)
  deriving DecidableEq

def Plan.empty : Plan := ⟨0, [], .empty⟩

abbrev Metas := String → Option XorbMeta

/-- The window of the file a plan is for, or an answer known at once. -/
def window (total : Nat) : Option (Nat × Nat) → Except (Option Plan) (Nat × Nat)
  | some (start, stop) =>
    if total ≤ start then
      if total = 0 ∧ start = 0 then .error (some .empty) else .error none
    else .ok (start, min stop total)
  | none => if total = 0 then .error (some .empty) else .ok (0, total)

/-- Skip whole segments that end before the range starts: what is left of the
segments, and the bytes before it. -/
def skipSegments (rangeStart : Nat) :
    List FileTermRecord → Nat → Except String (List FileTermRecord × Nat)
  | [], _ => .error "range extends past the file's terms"
  | seg :: rest, cumulative =>
    if rangeStart < cumulative + seg.unpackedSegmentBytes.toNat then
      .ok (seg :: rest, cumulative)
    else skipSegments rangeStart rest (cumulative + seg.unpackedSegmentBytes.toNat)

structure Leading where
  cumulative : Nat
  firstChunkByteStart : Nat
  unpacked : Nat
  chunkStart : Nat
  deriving DecidableEq, Repr

/-- Trim leading whole chunks that fall entirely before the range. The count is
`chunk_end - chunk_start`, the chunks still in the segment. -/
def trimLeading (xorb : XorbMeta) (rangeStart : Nat) : Nat → Leading → Except String Leading
  | 0, w => .ok w
  | left + 1, w => do
    let next := (← xorb.chunkLen w.chunkStart).toNat
    if rangeStart < w.cumulative + next then .ok w
    else if w.unpacked < next then .error "segment shorter than its chunks"
    else
      trimLeading xorb rangeStart left
        ⟨w.cumulative + next, w.firstChunkByteStart + next, w.unpacked - next, w.chunkStart + 1⟩

/-- Trim trailing whole chunks that fall entirely past the range: the end of
the chunks kept and their bytes. -/
def trimTrailing (xorb : XorbMeta) (rangeEnd cumulative : Nat) :
    Nat → Nat → Nat → Except String (Nat × Nat)
  | 0, chunkEnd, unpacked => .ok (chunkEnd, unpacked)
  | left + 1, chunkEnd, unpacked => do
    let last := (← xorb.chunkLen (chunkEnd - 1)).toNat
    if unpacked < last then .error "segment shorter than its chunks"
    else if cumulative + (unpacked - last) < rangeEnd then .ok (chunkEnd, unpacked)
    else trimTrailing xorb rangeEnd cumulative left (chunkEnd - 1) (unpacked - last)

/-- The leading trim, made only before the range starts. -/
def dropLeading (xorb : XorbMeta) (rangeStart chunkEnd : Nat) (w : Leading) :
    Except String Leading :=
  if w.cumulative < rangeStart then trimLeading xorb rangeStart (chunkEnd - w.chunkStart) w
  else .ok w

/-- The trailing trim, made only when the segment runs past the range. -/
def dropTrailing (xorb : XorbMeta) (rangeEnd chunkEnd : Nat) (w : Leading) :
    Except String (Nat × Nat) :=
  if rangeEnd < w.cumulative + w.unpacked then
    trimTrailing xorb rangeEnd w.cumulative (chunkEnd - w.chunkStart) chunkEnd w.unpacked
  else .ok (chunkEnd, w.unpacked)

structure Progress where
  cumulative : Nat
  firstChunkByteStart : Nat
  terms : List Term
  perXorb : Table String (List FetchRange)

def findMeta (metas : Metas) (hash : String) : Except String XorbMeta :=
  match metas hash with
  | some xorb => .ok xorb
  | none => .error s!"unknown xorb {hash}"

def planSegment (metas : Metas) (rangeStart rangeEnd : Nat) (seg : FileTermRecord)
    (p : Progress) : Except String Progress := do
  let xorb ← findMeta metas seg.xorbHash
  let w ← dropLeading xorb rangeStart seg.chunkIndexEnd.toNat
    ⟨p.cumulative, p.firstChunkByteStart, seg.unpackedSegmentBytes.toNat,
      seg.chunkIndexStart.toNat⟩
  let (chunkEnd, unpacked) ← dropTrailing xorb rangeEnd seg.chunkIndexEnd.toNat w
  let (byteStart, byteEnd) ← xorb.byteOffset w.chunkStart chunkEnd
  .ok {
    cumulative := w.cumulative + unpacked
    firstChunkByteStart := w.firstChunkByteStart
    terms := p.terms ++ [⟨seg.xorbHash, w.chunkStart, chunkEnd, unpacked⟩]
    perXorb := p.perXorb.upsert seg.xorbHash (fun ranges =>
      ranges.getD [] ++ [⟨w.chunkStart, chunkEnd, byteStart.toNat, byteEnd.toNat⟩]) }

def planSegments (metas : Metas) (rangeStart rangeEnd : Nat) :
    List FileTermRecord → Progress → Except String Progress
  | [], p => .ok p
  | seg :: rest, p =>
    if p.cumulative < rangeEnd then do
      planSegments metas rangeStart rangeEnd rest (← planSegment metas rangeStart rangeEnd seg p)
    else .ok p

/-- Merge the ranges that begin no later than the current one ends. -/
def mergeFrom (cur : FetchRange) : List FetchRange → List FetchRange
  | [] => [cur]
  | next :: rest =>
    if next.chunkStart ≤ cur.chunkEnd then
      mergeFrom { cur with
        chunkEnd := max cur.chunkEnd next.chunkEnd
        byteEnd := max cur.byteEnd next.byteEnd } rest
    else cur :: mergeFrom next rest

/-- Sort by chunk start, then merge adjacent or overlapping ranges. -/
def mergeRanges (ranges : List FetchRange) : List FetchRange :=
  match ranges.insertionSort (fun a b => a.chunkStart ≤ b.chunkStart) with
  | [] => []
  | cur :: rest => mergeFrom cur rest

/-- `plan_reconstruction`. `none` is a range at or past the end of the file. -/
def planReconstruction (file : FileRecord) (range : Option (Nat × Nat)) (metas : Metas) :
    Except String (Option Plan) :=
  match window file.fileLength.toNat range with
  | .error answer => .ok answer
  | .ok (rangeStart, rangeEnd) => do
    let (segments, first) ← skipSegments rangeStart file.terms 0
    let p ← planSegments metas rangeStart rangeEnd segments ⟨first, first, [], .empty⟩
    .ok (some {
      offsetIntoFirstRange := rangeStart - p.firstChunkByteStart
      terms := p.terms
      fetch := p.perXorb.map (fun _ => mergeRanges) })

end Xetcas
