import Xetcas.Proofs.Planner

namespace Xetcas.Proofs.Fetch
open Lib Planner

/-- A fetch range: chunks in bounds, and the bytes of exactly their frames. -/
structure Aligned (xorb : XorbMeta) (r : FetchRange) : Prop where
  lt : r.chunkStart < r.chunkEnd
  inside : r.chunkEnd ≤ xorb.numChunks.toNat
  byteStart : r.byteStart = xorb.frameStart r.chunkStart
  byteEnd : r.byteEnd = xorb.frameStart r.chunkEnd

section Merge
variable {xorb : XorbMeta} {cur : FetchRange} {rest : List FetchRange}

theorem frameStart_max (g : xorb.Geometry) {a b : Nat} (ha : a ≤ xorb.numChunks.toNat)
    (hb : b ≤ xorb.numChunks.toNat) :
    max (xorb.frameStart a) (xorb.frameStart b) = xorb.frameStart (max a b) := by
  have hlen : xorb.numChunks.toNat ≤ xorb.boundary.length := by
    rw [g.aligned]
    exact xorb.numChunks_le
  rcases Nat.le_total a b with h | h
  · rw [Nat.max_eq_right h, Nat.max_eq_right (g.frameStart_mono h (hb.trans hlen))]
  · rw [Nat.max_eq_left h, Nat.max_eq_left (g.frameStart_mono h (ha.trans hlen))]

/-- Merging keeps byte and chunk ranges together. -/
theorem mergeFrom_aligned (g : xorb.Geometry) (hcur : Aligned xorb cur)
    (hrest : ∀ r ∈ rest, Aligned xorb r) : ∀ r ∈ mergeFrom cur rest, Aligned xorb r := by
  induction rest generalizing cur with
  | nil =>
    intro r hr
    cases List.mem_singleton.mp hr
    exact hcur
  | cons next rest ih =>
    have hnext := hrest next (by simp)
    have hrest' : ∀ r ∈ rest, Aligned xorb r := fun r hr => hrest r (by simp [hr])
    unfold mergeFrom
    split
    · refine ih ⟨?_, ?_, hcur.byteStart, ?_⟩ hrest'
      · exact hcur.lt.trans_le (Nat.le_max_left _ _)
      · exact Nat.max_le.mpr ⟨hcur.inside, hnext.inside⟩
      · rw [hcur.byteEnd, hnext.byteEnd, frameStart_max g hcur.inside hnext.inside]
    · intro r hr
      rcases List.mem_cons.mp hr with rfl | hr
      · exact hcur
      · exact ih hnext hrest' r hr

/-- Every range given is inside one of the merged ones. -/
theorem mergeFrom_covers (hsorted : (cur :: rest).Pairwise (fun a b => a.chunkStart ≤ b.chunkStart)) :
    ∀ r ∈ cur :: rest, ∃ m ∈ mergeFrom cur rest,
      m.chunkStart ≤ r.chunkStart ∧ r.chunkEnd ≤ m.chunkEnd := by
  induction rest generalizing cur with
  | nil =>
    intro r hr
    exact ⟨cur, by simp [mergeFrom], by cases List.mem_singleton.mp hr; simp⟩
  | cons next rest ih =>
    obtain ⟨hcur, htail⟩ := List.pairwise_cons.mp hsorted
    intro r hr
    unfold mergeFrom
    split
    · obtain ⟨hnext, hrest⟩ := List.pairwise_cons.mp htail
      have hsorted' : ({ cur with
          chunkEnd := max cur.chunkEnd next.chunkEnd
          byteEnd := max cur.byteEnd next.byteEnd } :: rest).Pairwise
            (fun a b => a.chunkStart ≤ b.chunkStart) :=
        List.pairwise_cons.mpr ⟨fun x hx => hcur x (by simp [hx]), hrest⟩
      have hmerged := ih hsorted'
      have hfirst := hmerged _ (List.mem_cons_self)
      simp only at hfirst
      obtain ⟨m, hm, hstart, hend⟩ := hfirst
      rcases List.mem_cons.mp hr with rfl | hr
      · exact ⟨m, hm, hstart, (Nat.le_max_left _ _).trans hend⟩
      · rcases List.mem_cons.mp hr with rfl | hr
        · exact ⟨m, hm, hstart.trans (hcur r (by simp)), (Nat.le_max_right _ _).trans hend⟩
        · exact hmerged r (by simp [hr])
    · rcases List.mem_cons.mp hr with rfl | hr
      · exact ⟨r, by simp, le_refl _, le_refl _⟩
      · obtain ⟨m, hm, hcovers⟩ := ih htail r hr
        exact ⟨m, by simp [hm], hcovers⟩

theorem mergeRanges_aligned (g : xorb.Geometry) {ranges : List FetchRange}
    (h : ∀ r ∈ ranges, Aligned xorb r) : ∀ r ∈ mergeRanges ranges, Aligned xorb r := by
  have hmem : ∀ r ∈ ranges.insertionSort (fun a b => a.chunkStart ≤ b.chunkStart),
      Aligned xorb r := fun r hr => h r ((List.mem_insertionSort _).mp hr)
  unfold mergeRanges
  split
  · simp
  · rename_i cur rest hsort
    rw [hsort] at hmem
    exact mergeFrom_aligned g (hmem cur (by simp)) (fun r hr => hmem r (by simp [hr]))

theorem sorted_byStart (ranges : List FetchRange) :
    (ranges.insertionSort (fun a b => a.chunkStart ≤ b.chunkStart)).Pairwise
      (fun a b => a.chunkStart ≤ b.chunkStart) := by
  have htotal : Std.Total (fun a b : FetchRange => a.chunkStart ≤ b.chunkStart) :=
    ⟨fun a b => Nat.le_total a.chunkStart b.chunkStart⟩
  have htrans : IsTrans FetchRange (fun a b => a.chunkStart ≤ b.chunkStart) :=
    ⟨fun _ _ _ h g => Nat.le_trans h g⟩
  exact List.pairwise_insertionSort _ ranges

theorem mergeRanges_covers {ranges : List FetchRange} {r : FetchRange} (hr : r ∈ ranges) :
    ∃ m ∈ mergeRanges ranges, m.chunkStart ≤ r.chunkStart ∧ r.chunkEnd ≤ m.chunkEnd := by
  have hsorted := sorted_byStart ranges
  have hmem := (List.mem_insertionSort (fun a b : FetchRange => a.chunkStart ≤ b.chunkStart)).mpr hr
  unfold mergeRanges
  split
  · rename_i hsort
    rw [hsort] at hmem
    cases hmem
  · rename_i cur rest hsort
    rw [hsort] at hmem hsorted
    exact mergeFrom_covers hsorted r hmem

end Merge

section Loop
variable {metas : Metas} {rangeStart rangeEnd : Nat} {done rest : List FileTermRecord}
  {p p' : Progress}

/-- The ranges collected for a xorb belong to it. -/
def Collected (metas : Metas) (done : List FileTermRecord) (hash : String)
    (ranges : List FetchRange) : Prop :=
  ∃ seg ∈ done, seg.xorbHash = hash ∧ ∃ xorb, metas hash = some xorb ∧ xorb.Geometry ∧
    ∀ r ∈ ranges, Aligned xorb r

/-- The invariant of the main loop: every term has its range collected, under
its xorb. -/
structure Fetched (metas : Metas) (done : List FileTermRecord) (p : Progress) : Prop where
  ranges : ∀ {hash ranges}, p.perXorb.get? hash = some ranges → Collected metas done hash ranges
  terms : ∀ t ∈ p.terms, ∃ ranges, p.perXorb.get? t.xorb = some ranges ∧
    ∃ r ∈ ranges, r.chunkStart = t.chunkStart ∧ r.chunkEnd = t.chunkEnd

theorem Collected.more {hash : String} {ranges : List FetchRange}
    (h : Collected metas done hash ranges) : Collected metas (done ++ rest) hash ranges := by
  obtain ⟨seg, hseg, hrest⟩ := h
  exact ⟨seg, List.mem_append_left _ hseg, hrest⟩

theorem Fetched.past (h : Fetched metas done p) : Fetched metas (done ++ rest) p :=
  ⟨fun hr => (h.ranges hr).more, h.terms⟩

theorem Fetched.cut {seg : FileTermRecord} {xorb : XorbMeta} {a b : Nat}
    (h : Fetched metas done p) (hfit : Fits metas seg xorb)
    (c : Cut xorb seg rangeStart rangeEnd p p' a b) : Fetched metas (done ++ [seg]) p' := by
  have hnew : Aligned xorb ⟨a, b, xorb.frameStart a, xorb.frameStart b⟩ :=
    ⟨c.lt, c.le_stop.trans hfit.le, rfl, rfl⟩
  have hget : ∀ hash, p'.perXorb.get? hash = if hash = seg.xorbHash then
      some ((p.perXorb.get? seg.xorbHash).getD [] ++ [⟨a, b, xorb.frameStart a, xorb.frameStart b⟩])
      else p.perXorb.get? hash := by
    intro hash
    rw [c.ranges, Table.get?_upsert]
  have hold : ∀ r ∈ (p.perXorb.get? seg.xorbHash).getD [], Aligned xorb r := by
    intro r hr
    cases hranges : p.perXorb.get? seg.xorbHash with
    | none => simp [hranges] at hr
    | some ranges =>
      obtain ⟨_, _, _, xorb', hknown, _, haligned⟩ := h.ranges hranges
      rw [hfit.known] at hknown
      cases hknown
      exact haligned r (by simpa [hranges] using hr)
  refine ⟨?_, ?_⟩
  · intro hash ranges hr
    rw [hget] at hr
    split at hr
    · rename_i he
      cases hr
      refine ⟨seg, by simp, he.symm, xorb, by rw [he, hfit.known], hfit.geometry, ?_⟩
      intro r hr
      rcases List.mem_append.mp hr with hr | hr
      · exact hold r hr
      · cases List.mem_singleton.mp hr
        exact hnew
    · exact (h.ranges hr).more
  · intro t ht
    rw [c.terms] at ht
    rcases List.mem_append.mp ht with ht | ht
    · obtain ⟨ranges, hranges, r, hr, hsame⟩ := h.terms t ht
      rw [hget]
      split
      · rename_i he
        refine ⟨_, rfl, r, ?_, hsame⟩
        rw [← he, hranges]
        exact List.mem_append_left _ hr
      · exact ⟨ranges, hranges, r, hr, hsame⟩
    · cases List.mem_singleton.mp ht
      exact ⟨_, by rw [hget, if_pos rfl], ⟨a, b, xorb.frameStart a, xorb.frameStart b⟩, by simp,
        rfl, rfl⟩

theorem fetched_nothing (n m : Nat) : Fetched metas done ⟨n, m, [], .empty⟩ :=
  ⟨by simp, by simp⟩

/-- What a plan advertises: ranges that belong to their xorbs, and for every
term one that contains it. -/
structure Advertised (metas : Metas) (segments : List FileTermRecord) (plan : Plan) : Prop where
  fetch : ∀ {hash ranges}, plan.fetch.get? hash = some ranges →
    Collected metas segments hash ranges
  terms : ∀ t ∈ plan.terms, ∃ ranges, plan.fetch.get? t.xorb = some ranges ∧
    t.chunkStart < t.chunkEnd ∧
    ∃ r ∈ ranges, r.chunkStart ≤ t.chunkStart ∧ t.chunkEnd ≤ r.chunkEnd

theorem Fetched.advertised (h : Fetched metas done p) (start : Nat) :
    Advertised metas done (planOf start p) := by
  have hget : ∀ hash, (planOf start p).fetch.get? hash = (p.perXorb.get? hash).map mergeRanges :=
    fun hash => Table.get?_map _
  refine ⟨?_, ?_⟩
  · intro hash ranges hr
    rw [hget] at hr
    obtain ⟨collected, hcollected, rfl⟩ := Option.map_eq_some_iff.mp hr
    obtain ⟨seg, hseg, hname, xorb, hknown, hg, haligned⟩ := h.ranges hcollected
    exact ⟨seg, hseg, hname, xorb, hknown, hg, mergeRanges_aligned hg haligned⟩
  · intro t ht
    obtain ⟨collected, hcollected, r, hr, hstart, hend⟩ := h.terms t ht
    obtain ⟨_, _, _, xorb, _, _, haligned⟩ := h.ranges hcollected
    have hlt := (haligned r hr).lt
    obtain ⟨m, hm, hcovers⟩ := mergeRanges_covers hr
    rw [hstart, hend] at hcovers hlt
    exact ⟨mergeRanges collected, by rw [hget, hcollected]; rfl, hlt, m, hm, hcovers⟩

/-- The requests that are planned for: a window that begins inside the file, or
the front of an empty file. -/
def Plannable (total : Nat) (range : Option (Nat × Nat)) : Prop :=
  Satisfiable total range ∨ total = 0 ∧ ∃ stop, range = some (0, stop)

/-- Every such request gets a plan. -/
theorem planReconstruction_advertised {file : FileRecord} {range : Option (Nat × Nat)}
    (hlength : file.fileLength.toNat = totalBytes file.terms)
    (hfits : ∀ seg ∈ file.terms, ∃ xorb, Fits metas seg xorb)
    (hrange : Plannable file.fileLength.toNat range) :
    ∃ plan, planReconstruction file range metas = .ok (some plan) ∧
      Advertised metas file.terms plan := by
  have hempty : Advertised metas file.terms .empty := ⟨by simp [Plan.empty], by simp [Plan.empty]⟩
  rcases hrange with hsat | ⟨hzero, stop, rfl⟩
  · rcases window_eq hsat with ⟨hwindow, hlt, hle⟩ | ⟨hzero, rfl⟩
    · generalize requested file.fileLength.toNat range = r at hwindow hlt hle
      obtain ⟨rangeStart, rangeEnd⟩ := r
      simp only at hlt hle
      obtain ⟨p, hplan, hfetched⟩ := planReconstruction_rule (I := Fetched metas) hwindow hlt
        (by omega) hfits (fun skipped seg rest _ _ => fetched_nothing _ _)
        (fun done seg xorb p p' a b h hfit _ _ c => h.cut hfit c.toCut) (fun done rest p h _ => h.past)
      exact ⟨_, hplan, hfetched.advertised rangeStart⟩
    · exact ⟨.empty, by simp [planReconstruction, window, hzero], hempty⟩
  · exact ⟨.empty, by simp [planReconstruction, window, hzero], hempty⟩

end Loop

end Xetcas.Proofs.Fetch
