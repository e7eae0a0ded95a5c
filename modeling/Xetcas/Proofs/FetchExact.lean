import Xetcas.Proofs.Reconstructable

namespace Xetcas.Proofs.FetchExact
open Lib Registration Planner Fetch Reconstructable Routes.Reconstructions

def Has (ranges : List FetchRange) (i : Nat) : Prop :=
  ∃ r ∈ ranges, r.chunkStart ≤ i ∧ i < r.chunkEnd

/-- Neither overlapping nor adjacent, and in order. -/
def Separated (ranges : List FetchRange) : Prop :=
  ranges.Pairwise (fun a b => a.chunkEnd < b.chunkStart)

section Merge
variable {cur : FetchRange} {rest ranges : List FetchRange} {i : Nat}

theorem has_cons : Has (cur :: rest) i ↔
    cur.chunkStart ≤ i ∧ i < cur.chunkEnd ∨ Has rest i := by
  simp [Has]

/-- Nothing merged begins before the first range. -/
theorem mergeFrom_starts
    (hsorted : (cur :: rest).Pairwise (fun a b => a.chunkStart ≤ b.chunkStart)) :
    ∀ m ∈ mergeFrom cur rest, cur.chunkStart ≤ m.chunkStart := by
  induction rest generalizing cur with
  | nil =>
    intro m hm
    cases List.mem_singleton.mp hm
    exact le_refl _
  | cons next rest ih =>
    obtain ⟨hcur, htail⟩ := List.pairwise_cons.mp hsorted
    intro m hm
    unfold mergeFrom at hm
    split at hm
    · have hrest := (List.pairwise_cons.mp htail).2
      exact @ih { cur with
        chunkEnd := max cur.chunkEnd next.chunkEnd
        byteEnd := max cur.byteEnd next.byteEnd }
        (List.pairwise_cons.mpr ⟨fun x hx => hcur x (by simp [hx]), hrest⟩) m hm
    · rcases List.mem_cons.mp hm with rfl | hm
      · exact le_refl _
      · exact (hcur next (by simp)).trans (ih htail m hm)

theorem mergeFrom_separated
    (hsorted : (cur :: rest).Pairwise (fun a b => a.chunkStart ≤ b.chunkStart)) :
    Separated (mergeFrom cur rest) := by
  induction rest generalizing cur with
  | nil => exact List.pairwise_singleton _ _
  | cons next rest ih =>
    obtain ⟨hcur, htail⟩ := List.pairwise_cons.mp hsorted
    unfold mergeFrom
    split
    · apply ih
      exact List.pairwise_cons.mpr
        ⟨fun x hx => hcur x (by simp [hx]), (List.pairwise_cons.mp htail).2⟩
    · rename_i hgap
      refine List.pairwise_cons.mpr ⟨?_, ih htail⟩
      intro m hm
      have hstart := mergeFrom_starts htail m hm
      omega

/-- Merging keeps the chunks: a range that begins inside the current one only
lengthens it. -/
theorem mergeFrom_has
    (hsorted : (cur :: rest).Pairwise (fun a b => a.chunkStart ≤ b.chunkStart)) :
    Has (mergeFrom cur rest) i ↔ Has (cur :: rest) i := by
  induction rest generalizing cur with
  | nil => rfl
  | cons next rest ih =>
    obtain ⟨hcur, htail⟩ := List.pairwise_cons.mp hsorted
    have hnext := hcur next (by simp)
    unfold mergeFrom
    split
    · rename_i hinside
      have hmerged := @ih { cur with
        chunkEnd := max cur.chunkEnd next.chunkEnd
        byteEnd := max cur.byteEnd next.byteEnd } (List.pairwise_cons.mpr
          ⟨fun x hx => hcur x (by simp [hx]), (List.pairwise_cons.mp htail).2⟩)
      rw [hmerged, has_cons, has_cons, has_cons, ← or_assoc]
      refine or_congr_left ?_
      simp only
      omega
    · rw [has_cons, ih htail, ← has_cons]

theorem has_sorted :
    Has (ranges.insertionSort (fun a b => a.chunkStart ≤ b.chunkStart)) i ↔ Has ranges i := by
  simp only [Has, List.mem_insertionSort]

theorem mergeRanges_has : Has (mergeRanges ranges) i ↔ Has ranges i := by
  have hsorted := sorted_byStart ranges
  rw [← @has_sorted ranges]
  unfold mergeRanges
  split
  · rename_i hnone
    rw [hnone]
  · rename_i cur rest hsome
    rw [hsome] at hsorted ⊢
    exact mergeFrom_has hsorted

theorem mergeRanges_separated : Separated (mergeRanges ranges) := by
  have hsorted := sorted_byStart ranges
  unfold mergeRanges
  split
  · exact .nil
  · rename_i cur rest hsome
    rw [hsome] at hsorted
    exact mergeFrom_separated hsorted

/-- Separated ranges share no chunk. -/
theorem Separated.same {a b : FetchRange} (h : Separated ranges) (ha : a ∈ ranges)
    (hb : b ∈ ranges) (hai : a.chunkStart ≤ i ∧ i < a.chunkEnd)
    (hbi : b.chunkStart ≤ i ∧ i < b.chunkEnd) : a = b := by
  induction ranges with
  | nil => cases ha
  | cons first ranges ih =>
    obtain ⟨hfirst, hrest⟩ := List.pairwise_cons.mp h
    rcases List.mem_cons.mp ha with rfl | hlater
    · rcases List.mem_cons.mp hb with rfl | hlater
      · rfl
      · have hgap := hfirst b hlater
        omega
    · rcases List.mem_cons.mp hb with rfl | hlater'
      · have hgap := hfirst a hlater
        omega
      · exact ih hrest hlater hlater'

end Merge

section Loop
variable {metas : Metas} {xorb : XorbMeta} {rangeStart rangeEnd : Nat} {p p' : Progress}

/-- No range is collected but for a term of its xorb. -/
def Sourced (p : Progress) : Prop :=
  ∀ hash ranges, p.perXorb.get? hash = some ranges → ranges ≠ [] ∧
    ∀ r ∈ ranges, ∃ t ∈ p.terms, t.xorb = hash ∧ t.chunkStart = r.chunkStart ∧
      t.chunkEnd = r.chunkEnd

theorem sourced_nothing (n m : Nat) : Sourced ⟨n, m, [], .empty⟩ := by
  simp [Sourced]

theorem Sourced.cut {seg : FileTermRecord} {a b : Nat} (h : Sourced p)
    (c : Cut xorb seg rangeStart rangeEnd p p' a b) : Sourced p' := by
  have hnew : (⟨seg.xorbHash, a, b, xorb.contentStart b - xorb.contentStart a⟩ : Term) ∈
      p'.terms := by
    rw [c.terms]
    simp
  have hold : ∀ t ∈ p.terms, t ∈ p'.terms := by
    intro t ht
    rw [c.terms]
    exact List.mem_append_left _ ht
  intro hash ranges hr
  rw [c.ranges, Table.get?_upsert] at hr
  split at hr
  · rename_i he
    cases hr
    refine ⟨by simp, ?_⟩
    intro r hr
    rcases List.mem_append.mp hr with hr | hr
    · cases hranges : p.perXorb.get? seg.xorbHash with
      | none => simp [hranges] at hr
      | some ranges =>
        obtain ⟨t, ht, hsame⟩ := (h _ _ hranges).2 r (by simpa [hranges] using hr)
        rw [he]
        exact ⟨t, hold t ht, hsame⟩
    · cases List.mem_singleton.mp hr
      exact ⟨_, hnew, he.symm, rfl, rfl⟩
  · obtain ⟨hsome, hterms⟩ := h _ _ hr
    refine ⟨hsome, ?_⟩
    intro r hr
    obtain ⟨t, ht, hsame⟩ := hterms r hr
    exact ⟨t, hold t ht, hsame⟩

/-- The chunks that the terms name of a xorb. -/
def Named (terms : List Term) (hash : String) (i : Nat) : Prop :=
  ∃ t ∈ terms, t.xorb = hash ∧ t.chunkStart ≤ i ∧ i < t.chunkEnd

/-- What is advertised for a xorb: separated entries with the chunks of its
terms, each term in one of them, and the bytes of each entry's chunks. -/
structure Exact (metas : Metas) (terms : List Term) (hash : String)
    (entries : List FetchRange) : Prop where
  nonempty : ∀ r ∈ entries, r.chunkStart < r.chunkEnd
  sorted : entries.Pairwise (fun a b => a.chunkStart < b.chunkStart)
  separated : Separated entries
  once : ∀ t ∈ terms, t.xorb = hash →
    ∃! r, r ∈ entries ∧ r.chunkStart ≤ t.chunkStart ∧ t.chunkEnd ≤ r.chunkEnd
  chunks : ∀ i, Has entries i ↔ Named terms hash i
  bytes : ∃ xorb, metas hash = some xorb ∧ ∀ r ∈ entries, ∃ lo hi last,
    xorb.byteOffset r.chunkStart r.chunkEnd = .ok (lo, hi) ∧ lo.toNat = r.byteStart ∧
      hi.toNat = r.byteEnd ∧ xorb.boundary.getLast? = some last ∧
      r.byteStart < r.byteEnd ∧ r.byteEnd ≤ last.toNat

/-- Frame ends increase, from the start of the object on. -/
def FramesGrow (xorb : XorbMeta) : Prop :=
  ∀ i < xorb.boundary.length, xorb.frameStart i < xorb.frameStart (i + 1)

/-- The last frame ends where the offsets end. -/
theorem frameStart_last (g : xorb.Geometry) {b : Nat} (hpos : 0 < b)
    (hb : b ≤ xorb.numChunks.toNat) :
    ∃ last, xorb.boundary.getLast? = some last ∧ xorb.frameStart b ≤ last.toNat := by
  have hlen : b ≤ xorb.boundary.length := by
    rw [g.aligned]
    exact hb.trans xorb.numChunks_le
  have hlast : xorb.boundary.length - 1 < xorb.boundary.length := by omega
  refine ⟨xorb.boundary[xorb.boundary.length - 1], ?_, ?_⟩
  · rw [List.getLast?_eq_getElem?, List.getElem?_eq_getElem hlast]
  · have hmono := g.frameStart_mono hlen (le_refl _)
    have hend : xorb.frameStart (xorb.boundary.length - 1 + 1) =
        xorb.boundary[xorb.boundary.length - 1].toNat := by
      unfold XorbMeta.frameStart
      rw [startOf_succ _ (by simpa using hlast)]
      simp
    rw [Nat.sub_add_cancel (by omega)] at hend
    omega

theorem FramesGrow.lt (h : FramesGrow xorb) {a b : Nat} (hab : a < b)
    (hb : b ≤ xorb.boundary.length) : xorb.frameStart a < xorb.frameStart b := by
  apply startOf_steps _ hab (by rwa [List.length_map])
  intro i hi
  rw [List.length_map] at hi
  exact h i hi

theorem Fetched.exact {done : List FileTermRecord} (h : Fetched metas done p) (hs : Sourced p)
    (hgrow : ∀ seg ∈ done, ∀ xorb, metas seg.xorbHash = some xorb → FramesGrow xorb)
    (start : Nat) :
    (∀ hash, ((planOf start p).fetch.get? hash).isSome = true ↔
        ∃ t ∈ (planOf start p).terms, t.xorb = hash) ∧
      ∀ hash entries, (planOf start p).fetch.get? hash = some entries →
        Exact metas (planOf start p).terms hash entries := by
  have hadvertised := h.advertised start
  have hget : ∀ hash, (planOf start p).fetch.get? hash = (p.perXorb.get? hash).map mergeRanges :=
    fun hash => Table.get?_map _
  refine ⟨?_, ?_⟩
  · intro hash
    constructor
    · intro hsome
      rw [hget, Option.isSome_map, Option.isSome_iff_exists] at hsome
      obtain ⟨ranges, hranges⟩ := hsome
      obtain ⟨hne, hterms⟩ := hs hash ranges hranges
      obtain ⟨r, hr⟩ := List.exists_mem_of_ne_nil ranges hne
      obtain ⟨t, ht, hname, _⟩ := hterms r hr
      exact ⟨t, ht, hname⟩
    · intro hnamed
      obtain ⟨t, ht, rfl⟩ := hnamed
      obtain ⟨ranges, hranges, _⟩ := hadvertised.terms t ht
      rw [hranges]
      rfl
  · intro hash entries hentries
    obtain ⟨seg, hseg, rfl, xorb, hknown, hg, haligned⟩ := hadvertised.fetch hentries
    rw [hget] at hentries
    obtain ⟨ranges, hranges, rfl⟩ := Option.map_eq_some_iff.mp hentries
    have hseparated : Separated (mergeRanges ranges) := mergeRanges_separated
    refine ⟨fun r hr => (haligned r hr).lt, ?_, hseparated, ?_, ?_, xorb, hknown, ?_⟩
    · apply List.Pairwise.imp_of_mem _ hseparated
      intro a b ha _ hgap
      exact (haligned a ha).lt.trans hgap
    · intro t ht hname
      obtain ⟨entries, hentries, hlt, r, hr, hcovers⟩ := hadvertised.terms t ht
      rw [hname, hget, hranges] at hentries
      cases hentries
      refine ⟨r, ⟨hr, hcovers⟩, ?_⟩
      intro other hother
      exact hseparated.same hother.1 hr ⟨hother.2.1, by omega⟩ ⟨hcovers.1, by omega⟩
    · intro i
      rw [mergeRanges_has]
      constructor
      · intro hi
        obtain ⟨r, hr, hin⟩ := hi
        obtain ⟨t, ht, hname, hstart, hend⟩ := (hs _ ranges hranges).2 r hr
        exact ⟨t, ht, hname, by omega, by omega⟩
      · intro hi
        obtain ⟨t, ht, hname, hin⟩ := hi
        obtain ⟨collected, hcollected, r, hr, hstart, hend⟩ := h.terms t ht
        rw [hname, hranges] at hcollected
        cases hcollected
        exact ⟨r, hr, by omega, by omega⟩
    · intro r hr
      have ha := haligned r hr
      obtain ⟨lo, hi, hoffset, hlo, hhi⟩ := hg.byteOffset_eq ha.lt ha.inside
      obtain ⟨last, hlast, hle⟩ := frameStart_last hg (Nat.zero_lt_of_lt ha.lt) ha.inside
      have hlen : r.chunkEnd ≤ xorb.boundary.length := by
        rw [hg.aligned]
        exact ha.inside.trans xorb.numChunks_le
      have hlt := (hgrow seg hseg xorb hknown).lt ha.lt hlen
      exact ⟨lo, hi, last, hoffset, by rw [hlo, ha.byteStart], by rw [hhi, ha.byteEnd], hlast,
        by rw [ha.byteStart, ha.byteEnd]; exact hlt, by rw [ha.byteEnd]; exact hle⟩

/-- What a plan advertises is exact and unambiguous. -/
theorem advertised_exact (file : FileRecord) (range : Option (Nat × Nat)) (metas : Metas)
    (hlength : file.fileLength.toNat = totalBytes file.terms)
    (hfits : ∀ seg ∈ file.terms, ∃ xorb, Fits metas seg xorb)
    (hgrow : ∀ seg ∈ file.terms, ∀ xorb, metas seg.xorbHash = some xorb → FramesGrow xorb)
    (hrange : Satisfiable file.fileLength.toNat range) :
    ∃ plan, planReconstruction file range metas = .ok (some plan) ∧
      (∀ hash, (plan.fetch.get? hash).isSome = true ↔ ∃ t ∈ plan.terms, t.xorb = hash) ∧
      ∀ hash entries, plan.fetch.get? hash = some entries →
        Exact metas plan.terms hash entries := by
  rcases window_eq hrange with ⟨hwindow, hlt, hle⟩ | ⟨hzero, rfl⟩
  · generalize requested file.fileLength.toNat range = r at hwindow hlt hle
    obtain ⟨rangeStart, rangeEnd⟩ := r
    simp only at hlt hle
    obtain ⟨p, hplan, hfetched, hsourced⟩ := planReconstruction_rule
      (I := fun done p => Fetched metas done p ∧ Sourced p) hwindow hlt (by omega) hfits
      (fun skipped seg rest _ _ => ⟨fetched_nothing _ _, sourced_nothing _ _⟩)
      (fun done seg xorb p p' a b h hfit _ _ c => ⟨h.1.cut hfit c.toCut, h.2.cut c.toCut⟩)
      (fun done rest p h _ => ⟨h.1.past, h.2⟩)
    exact ⟨_, hplan, Fetched.exact hfetched hsourced hgrow rangeStart⟩
  · exact ⟨.empty, by simp [planReconstruction, window, hzero], by simp [Plan.empty],
      by simp [Plan.empty]⟩

theorem twoXorbs_grow {hash : String} (hm : twoXorbs hash = some xorb) : FramesGrow xorb := by
  unfold twoXorbs at hm
  split at hm
  · cases hm
    unfold FramesGrow
    decide
  · split at hm
    · cases hm
      unfold FramesGrow
      decide
    · cases hm

/-- Three terms in two xorbs, the first xorb named twice. -/
theorem across_xorbs_advertised :
    ∃ plan, planReconstruction acrossXorbs none twoXorbs = .ok (some plan) ∧
      (∀ hash, (plan.fetch.get? hash).isSome = true ↔ ∃ t ∈ plan.terms, t.xorb = hash) ∧
      ∀ hash entries, plan.fetch.get? hash = some entries →
        Exact twoXorbs plan.terms hash entries :=
  advertised_exact acrossXorbs none twoXorbs (by decide) acrossXorbs_fits
    (fun _ _ _ hknown => twoXorbs_grow hknown) (by
      intro start stop he
      cases he)

end Loop

end Xetcas.Proofs.FetchExact
