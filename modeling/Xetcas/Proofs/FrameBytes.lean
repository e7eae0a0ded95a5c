import Xetcas.Proofs.Downloads

namespace Xetcas.Proofs.FrameBytes
open Lib Routes Downloads
variable {total start stop : UInt64} {spec : RangeSpec} {object : Bytes}

def selects (total : Nat) : RangeSpec → Nat → Bool
  | .fromTo s e, i => s.toNat ≤ i && i ≤ e.toNat
  | .from_ s, i => s.toNat ≤ i
  | .suffix n, i => total - n.toNat ≤ i

/-- The selected offsets of an object, in order. -/
def selected (total : Nat) (spec : RangeSpec) : List Nat :=
  (List.range total).filter (selects total spec)

theorem mem_selected {total i : Nat} :
    i ∈ selected total spec ↔ i < total ∧ selects total spec i = true := by
  rw [selected, List.mem_filter, List.mem_range]

/-- What resolves to nothing selects nothing. -/
theorem resolve_none_selects (h : spec.resolve total = none) {i : Nat} (hi : i < total.toNat) :
    selects total.toNat spec i = false := by
  cases spec with
  | fromTo s e =>
    simp only [RangeSpec.resolve, ite_eq_left_iff, reduceCtorEq, imp_false, not_not,
      UInt64.le_iff_toNat_le, UInt64.lt_iff_toNat_lt] at h
    simp only [selects, Bool.and_eq_false_iff, decide_eq_false_iff_not]
    omega
  | from_ s =>
    simp only [RangeSpec.resolve, ite_eq_left_iff, reduceCtorEq, imp_false, not_not,
      UInt64.le_iff_toNat_le] at h
    simp only [selects, decide_eq_false_iff_not]
    omega
  | suffix n =>
    simp only [RangeSpec.resolve, ite_eq_left_iff, reduceCtorEq, imp_false, not_not] at h
    subst h
    simp only [selects, UInt64.toNat_zero, decide_eq_false_iff_not]
    omega

/-- The resolved interval is what the range selects. -/
theorem resolve_selects (h : spec.resolve total = some (start, stop)) {i : Nat}
    (hi : i < total.toNat) :
    selects total.toNat spec i = true ↔ start.toNat ≤ i ∧ i < stop.toNat := by
  cases spec with
  | fromTo s e =>
    obtain ⟨_, he⟩ := Option.ite_none_left_eq_some.mp h
    cases he
    rw [toNat_min, toNat_saturatingAdd]
    simp only [selects, Bool.and_eq_true, decide_eq_true_eq, UInt64.toNat_one]
    have hsize := total.toNat_lt
    unfold UInt64.size
    omega
  | from_ s =>
    obtain ⟨_, he⟩ := Option.ite_none_left_eq_some.mp h
    cases he
    simp only [selects, decide_eq_true_eq]
    omega
  | suffix n =>
    obtain ⟨_, he⟩ := Option.ite_none_left_eq_some.mp h
    cases he
    rw [toNat_saturatingSub]
    simp only [selects, decide_eq_true_eq]
    omega

/-- Filtering the numbers below `n` by an interval leaves the interval. -/
theorem filter_range_interval {p : Nat → Bool} {lo hi n : Nat} (hlo : lo ≤ hi) (hhi : hi ≤ n)
    (hp : ∀ i < n, p i = true ↔ lo ≤ i ∧ i < hi) :
    (List.range n).filter p = List.range' lo (hi - lo) := by
  have hsplit : List.range n =
      List.range' 0 lo ++ (List.range' lo (hi - lo) ++ List.range' hi (n - hi)) := by
    have hinner := List.range'_append_1 (s := lo) (m := hi - lo) (n := n - hi)
    have houter := List.range'_append_1 (s := 0) (m := lo) (n := hi - lo + (n - hi))
    rw [show lo + (hi - lo) = hi by omega] at hinner
    rw [Nat.zero_add] at houter
    rw [hinner, houter, List.range_eq_range']
    congr 1
    omega
  have hbefore : (List.range' 0 lo).filter p = [] := by
    apply List.filter_eq_nil_iff.mpr
    intro i hi'
    rw [List.mem_range'_1] at hi'
    rw [hp i (by omega)]
    omega
  have hinside : (List.range' lo (hi - lo)).filter p = List.range' lo (hi - lo) := by
    apply List.filter_eq_self.mpr
    intro i hi'
    rw [List.mem_range'_1] at hi'
    exact (hp i (by omega)).mpr (by omega)
  have hafter : (List.range' hi (n - hi)).filter p = [] := by
    apply List.filter_eq_nil_iff.mpr
    intro i hi'
    rw [List.mem_range'_1] at hi'
    rw [hp i (by omega)]
    omega
  rw [hsplit, List.filter_append, List.filter_append, hbefore, hinside, hafter]
  simp

theorem resolve_selected (hpos : 0 < total.toNat) (h : spec.resolve total = some (start, stop)) :
    start.toNat < stop.toNat ∧ stop.toNat ≤ total.toNat ∧
      selected total.toNat spec = List.range' start.toNat (stop.toNat - start.toNat) := by
  have hinside := resolve_inside h
  refine ⟨by omega, by omega, ?_⟩
  apply filter_range_interval (by omega) (by omega)
  intro i hi
  exact resolve_selects h hi

/-- The bytes at these offsets of an object. -/
def BytesAt (object : Bytes) (offsets : List Nat) (bytes : Bytes) : Prop :=
  List.Forall₂ (fun i byte => object[i]? = some byte) offsets bytes

theorem bytesAt_range (object : Bytes) : ∀ start len, start + len ≤ object.length →
    BytesAt object (List.range' start len) ((object.drop start).take len) := by
  intro start len
  induction len generalizing start with
  | zero =>
    intro _
    rw [List.take_zero]
    exact .nil
  | succ len ih =>
    intro hle
    have hlt : start < object.length := by omega
    rw [List.range'_succ, List.drop_eq_getElem_cons hlt, List.take_succ_cons]
    exact .cons (List.getElem?_eq_getElem hlt) (ih (start + 1) (by omega))

/-- An answer with the bytes at these offsets, which names the first and the
last of them. -/
structure Serves (object : Bytes) (total : Nat) (offsets : List Nat)
    (answer : Xorbs.DataResponse) : Prop where
  status : answer.status = 206
  body : BytesAt object offsets answer.body
  contentLength : answer.contentLength = offsets.length
  contentRange : ∃ first ∈ offsets, ∃ last ∈ offsets, (∀ i ∈ offsets, first ≤ i ∧ i ≤ last) ∧
    answer.contentRange = some s!"bytes {first}-{last}/{total}"

variable {state : AppState} {hash : String} {record : XorbRecord}

/-- The answer to a range that resolves. -/
theorem data_answer (hrow : state.index.getXorb hash = some record)
    (hobject : state.objects (pathFor hash) = some object) {value : Xorbs.HeaderValue}
    (hparse : value.bind parseRangeHeader = some spec)
    (hresolve : spec.resolve record.framesLength = some (start, stop)) :
    Xorbs.data state hash (some value) = .ok {
      status := 206
      contentLength := (stop - start).toNat
      contentRange := some
        s!"bytes {start.toNat}-{(saturatingSub stop 1).toNat}/{record.framesLength.toNat}"
      body := (object.drop start.toNat).take (stop - start).toNat } := by
  unfold Xorbs.data
  simp only [hrow, hobject, hparse, hresolve, bind, Except.bind, ↓reduceIte]

theorem data_serves (hrow : state.index.getXorb hash = some record)
    (hobject : state.objects (pathFor hash) = some object)
    (hpos : 0 < record.framesLength.toNat) (hlen : record.framesLength.toNat ≤ object.length)
    {value : Xorbs.HeaderValue} (hparse : value.bind parseRangeHeader = some spec)
    (hresolve : spec.resolve record.framesLength = some (start, stop)) :
    ∃ answer, Xorbs.data state hash (some value) = .ok answer ∧
      Serves object record.framesLength.toNat
        (List.range' start.toNat (stop.toNat - start.toNat)) answer := by
  obtain ⟨hlt, hle, _⟩ := resolve_selected hpos hresolve
  have hlength : (stop - start).toNat = stop.toNat - start.toNat :=
    UInt64.toNat_sub_of_le _ _ (by rw [UInt64.le_iff_toNat_le]; omega)
  have hlast : (saturatingSub stop 1).toNat = stop.toNat - 1 := by
    rw [toNat_saturatingSub, UInt64.toNat_one]
  refine ⟨_, data_answer hrow hobject hparse hresolve, rfl, ?_, ?_, start.toNat, ?_,
    stop.toNat - 1, ?_, ?_, ?_⟩
  · rw [hlength]
    exact bytesAt_range object _ _ (by omega)
  · rw [List.length_range']
    exact hlength
  · rw [List.mem_range'_1]
    omega
  · rw [List.mem_range'_1]
    omega
  · intro i hi
    rw [List.mem_range'_1] at hi
    omega
  · rw [hlast]

/-- A request without a range gets the frames, and no byte after them. -/
theorem data_whole (hrow : state.index.getXorb hash = some record)
    (hobject : state.objects (pathFor hash) = some object)
    (hlen : record.framesLength.toNat ≤ object.length) :
    ∃ answer, Xorbs.data state hash none = .ok answer ∧ answer.status = 200 ∧
      BytesAt object (List.range record.framesLength.toNat) answer.body := by
  refine ⟨⟨200, (record.framesLength - 0).toNat, none,
    (object.drop (0 : UInt64).toNat).take (record.framesLength - 0).toNat⟩, ?_, rfl, ?_⟩
  · unfold Xorbs.data
    simp only [hrow, hobject, bind, Except.bind]
    rfl
  · rw [List.range_eq_range', UInt64.sub_zero]
    exact bytesAt_range object 0 _ (by omega)

/-- The byte range that a plan advertises comes back as these bytes. -/
theorem data_advertised (hrow : state.index.getXorb hash = some record)
    (hobject : state.objects (pathFor hash) = some object) (base : String) {r : FetchRange}
    (hlt : r.byteStart < r.byteEnd) (hle : r.byteEnd ≤ record.framesLength.toNat) :
    ∃ bytes answer, (Reconstructions.wireRange base hash r).urlRange = some bytes ∧
      Xorbs.data state hash (rangeHeader bytes.start.toNat bytes.stop.toNat) = .ok answer ∧
      answer.status = 206 ∧ answer.contentLength = r.byteEnd - r.byteStart ∧
      answer.body = (object.drop r.byteStart).take (r.byteEnd - r.byteStart) := by
  have hsize := record.framesLength.toNat_lt
  have hstart : (UInt64.ofNat r.byteStart).toNat = r.byteStart :=
    UInt64.toNat_ofNat_of_lt' (by unfold UInt64.size; omega)
  have hend : (UInt64.ofNat r.byteEnd).toNat = r.byteEnd :=
    UInt64.toNat_ofNat_of_lt' (by unfold UInt64.size; omega)
  have hlast : (saturatingSub (UInt64.ofNat r.byteEnd) 1).toNat = r.byteEnd - 1 := by
    rw [toNat_saturatingSub, hend, UInt64.toNat_one]
  obtain ⟨bound, hresolve, hbound⟩ := resolve_fromTo record.framesLength (UInt64.ofNat r.byteStart)
    (saturatingSub (UInt64.ofNat r.byteEnd) 1) (by omega) (by omega)
  have hlength : (bound - UInt64.ofNat r.byteStart).toNat = r.byteEnd - r.byteStart := by
    rw [UInt64.toNat_sub_of_le _ _ (by rw [UInt64.le_iff_toNat_le]; omega)]
    omega
  obtain ⟨value, hvalue, hparse⟩ := rangeHeader_parsed (UInt64.ofNat r.byteStart)
    (saturatingSub (UInt64.ofNat r.byteEnd) 1)
  have hanswer := data_answer hrow hobject hparse hresolve
  rw [hlength, hstart] at hanswer
  exact ⟨_, _, rfl, hvalue ▸ hanswer, rfl, rfl, rfl⟩

/-- The data route serves the frame bytes that the range selects, and says that
nothing is there only when it selects none. -/
theorem data_route_exact (state : AppState) (hash : String) (record : XorbRecord) (object : Bytes)
    (hrow : state.index.getXorb hash = some record)
    (hobject : state.objects (pathFor hash) = some object)
    (hpos : 1 ≤ record.framesLength.toNat) (hlen : record.framesLength.toNat ≤ object.length) :
    (∀ text spec, parseRangeHeader text = some spec →
      (selected record.framesLength.toNat spec = [] →
        Xorbs.data state hash (some (some text)) = .error .rangeNotSatisfiable) ∧
      (selected record.framesLength.toNat spec ≠ [] →
        ∃ answer, Xorbs.data state hash (some (some text)) = .ok answer ∧
          Serves object record.framesLength.toNat (selected record.framesLength.toNat spec)
            answer)) ∧
    (∃ answer, Xorbs.data state hash none = .ok answer ∧ answer.status = 200 ∧
      BytesAt object (List.range record.framesLength.toNat) answer.body) ∧
    ∀ base (r : FetchRange), r.byteStart < r.byteEnd → r.byteEnd ≤ record.framesLength.toNat →
      ∃ bytes answer, (Reconstructions.wireRange base hash r).urlRange = some bytes ∧
        Xorbs.data state hash (rangeHeader bytes.start.toNat bytes.stop.toNat) = .ok answer ∧
        answer.status = 206 ∧ answer.contentLength = r.byteEnd - r.byteStart ∧
        answer.body = (object.drop r.byteStart).take (r.byteEnd - r.byteStart) := by
  refine ⟨?_, data_whole hrow hobject hlen, ?_⟩
  · intro text spec hparse
    have hvalue : Option.bind (some text) parseRangeHeader = some spec := hparse
    cases hresolve : spec.resolve record.framesLength with
    | none =>
      constructor
      · intro _
        unfold Xorbs.data
        simp only [hrow, hvalue, hresolve, bind, Except.bind]
      · intro hsome
        obtain ⟨i, hi⟩ := List.exists_mem_of_ne_nil _ hsome
        obtain ⟨hlt, hselects⟩ := mem_selected.mp hi
        rw [resolve_none_selects hresolve hlt] at hselects
        cases hselects
    | some window =>
      obtain ⟨start, stop⟩ := window
      obtain ⟨hlt, _, hselected⟩ := resolve_selected hpos hresolve
      constructor
      · intro hnone
        have hlength := congrArg List.length (hselected.symm.trans hnone)
        rw [List.length_range', List.length_nil] at hlength
        omega
      · intro _
        rw [hselected]
        exact data_serves hrow hobject hpos hlen hvalue hresolve
  · intro base r hlt hle
    exact data_advertised hrow hobject base hlt hle

/-- Ten frame bytes and a footer of two. -/
def footedObject : Bytes := [0, 1, 2, 3, 4, 5, 6, 7, 8, 9, 88, 88]

def footedRecord : XorbRecord := ⟨"x", 1, 10, 2, [10], [2], [], 0⟩

def footedState : AppState :=
  .new ⟨"", none⟩ (Index.fresh.putXorb footedRecord [] 12).1
    (fun path => if path = pathFor "x" then some footedObject else none) 1

/-- A range that goes on into the footer ends with the frames. -/
theorem footer_not_served : ∃ answer,
    Xorbs.data footedState "x" (some (some "bytes=8-18446744073709551615")) = .ok answer ∧
      Serves footedObject 10 [8, 9] answer := by
  have hobject : footedState.objects (pathFor "x") = some footedObject := by
    simp [footedState, AppState.new]
  have hroute := data_route_exact footedState "x" footedRecord footedObject rfl hobject
    (by decide) (by decide)
  exact (hroute.1 _ _ (parse_format 8 18446744073709551615)).2 (by decide)

end Xetcas.Proofs.FrameBytes
