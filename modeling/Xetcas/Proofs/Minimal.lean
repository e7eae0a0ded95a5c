import Xetcas.Proofs.Planner

namespace Xetcas.Proofs.Minimal
open Lib Planner
variable {metas : Metas} {xorb : XorbMeta} {hash : String} {a b rangeStart rangeEnd : Nat}

def chunkIds (hash : String) (a b : Nat) : List (String × Nat) :=
  (List.Ico a b).map (fun i => (hash, i))

def fileChunkIds (terms : List FileTermRecord) : List (String × Nat) :=
  terms.flatMap (fun t => chunkIds t.xorbHash t.chunkIndexStart.toNat t.chunkIndexEnd.toNat)

def listedChunkIds (terms : List Term) : List (String × Nat) :=
  terms.flatMap (fun t => chunkIds t.xorb t.chunkStart t.chunkEnd)

def sizeIn (metas : Metas) (id : String × Nat) : Nat :=
  (metas id.1).elim 0 (fun xorb => xorb.size id.2)

def sizes (metas : Metas) (ids : List (String × Nat)) : List Nat := ids.map (sizeIn metas)

def NonemptyChunks (metas : Metas) (terms : List FileTermRecord) : Prop :=
  ∀ id ∈ fileChunkIds terms, 0 < sizeIn metas id

theorem mem_chunkIds {id : String × Nat} :
    id ∈ chunkIds hash a b ↔ id.1 = hash ∧ a ≤ id.2 ∧ id.2 < b := by
  obtain ⟨name, i⟩ := id
  simp only [chunkIds, List.mem_map, List.Ico.mem, Prod.mk.injEq]
  constructor
  · intro h
    obtain ⟨j, hj, rfl, rfl⟩ := h
    exact ⟨rfl, hj⟩
  · intro h
    obtain ⟨rfl, hi⟩ := h
    exact ⟨i, hi, rfl, rfl⟩

theorem chunkIds_append {c : Nat} (hab : a ≤ b) (hbc : b ≤ c) :
    chunkIds hash a b ++ chunkIds hash b c = chunkIds hash a c := by
  rw [chunkIds, chunkIds, ← List.map_append, List.Ico.append_consecutive hab hbc, chunkIds]

@[simp] theorem chunkIds_self (hash : String) (a : Nat) : chunkIds hash a a = [] := by
  simp [chunkIds]

theorem chunkIds_first (hab : a < b) :
    chunkIds hash a b = (hash, a) :: chunkIds hash (a + 1) b := by
  rw [chunkIds, List.Ico.eq_cons hab, List.map_cons, chunkIds]

theorem chunkIds_last (hab : a < b) :
    chunkIds hash a b = chunkIds hash a (b - 1) ++ [(hash, b - 1)] := by
  rw [← chunkIds_append (b := b - 1) (by omega) (by omega), chunkIds_first (a := b - 1) (by omega),
    Nat.sub_add_cancel (by omega), chunkIds_self]

theorem sizeIn_known (hknown : metas hash = some xorb) (i : Nat) :
    sizeIn metas (hash, i) = xorb.size i := by
  simp only [sizeIn, hknown, Option.elim_some]

theorem sum_sizes (hknown : metas hash = some xorb) (g : xorb.Geometry) (hab : a ≤ b)
    (hb : b ≤ xorb.unpacked.length) :
    (sizes metas (chunkIds hash a b)).sum = xorb.contentStart b - xorb.contentStart a := by
  induction b, hab using Nat.le_induction with
  | base => simp [sizes]
  | succ b hab ih =>
    have h₁ := g.contentStart_mono hab (by omega)
    have h₂ := g.contentStart_mono (Nat.le_add_right b 1) hb
    have hsum := ih (by omega)
    have hsize := sizeIn_known hknown b
    rw [sizes] at hsum
    rw [chunkIds_last (by omega), sizes, List.map_append, List.sum_append, Nat.add_sub_cancel, hsum]
    simp only [List.map_cons, List.map_nil, List.sum_cons, List.sum_nil, hsize, XorbMeta.size]
    omega

/-- The invariant of the main loop: what is listed is a run of the file's
chunks, the first of them reaches into the range and so does the last. -/
structure Kept (metas : Metas) (rangeStart rangeEnd : Nat) (done : List FileTermRecord)
    (p : Progress) : Prop where
  split : ∃ before after, fileChunkIds done = before ++ listedChunkIds p.terms ++ after ∧
    (sizes metas before).sum = p.firstChunkByteStart ∧ (after = [] ∨ rangeEnd ≤ p.cumulative)
  cumulative : p.cumulative = p.firstChunkByteStart + (sizes metas (listedChunkIds p.terms)).sum
  first : p.firstChunkByteStart ≤ rangeStart
  head : ∀ id rest, listedChunkIds p.terms = id :: rest →
    rangeStart < p.firstChunkByteStart + sizeIn metas id
  last : ∀ front id, listedChunkIds p.terms = front ++ [id] →
    p.firstChunkByteStart + (sizes metas front).sum < rangeEnd
  terms : ∀ t ∈ p.terms, t.chunkStart < t.chunkEnd ∧ 0 < t.unpackedLength

section Cut
variable {done : List FileTermRecord} {seg : FileTermRecord} {p p' : Progress}

theorem listed_cut (c : Cut xorb seg rangeStart rangeEnd p p' a b) :
    listedChunkIds p'.terms = listedChunkIds p.terms ++ chunkIds seg.xorbHash a b := by
  simp [listedChunkIds, c.terms]

/-- Nothing is listed as long as there are leading chunks to drop. -/
theorem lead_cut (hfirst : p.cumulative < rangeStart → p.terms = [])
    (c : Cut xorb seg rangeStart rangeEnd p p' a b) :
    seg.chunkIndexStart.toNat = a ∨
      p.cumulative < rangeStart ∧ listedChunkIds p.terms = [] := by
  rcases c.lead with ha | ⟨hlt, _⟩
  · exact .inl ha.symm
  · exact .inr ⟨hlt, by rw [hfirst hlt]; rfl⟩

/-- The first chunk listed reaches into the range. -/
theorem Kept.head_cut (h : Kept metas rangeStart rangeEnd done p) (hfit : Fits metas seg xorb)
    (hfirst : p.cumulative < rangeStart → p.terms = []) (hpos : 0 < xorb.size a)
    (c : TightCut xorb seg rangeStart rangeEnd p p' a b) {id : String × Nat}
    {rest : List (String × Nat)} (hlisted : listedChunkIds p'.terms = id :: rest) :
    rangeStart < p'.firstChunkByteStart + sizeIn metas id := by
  have hlen := hfit.le_length
  have hstop := c.le_stop
  have hlt := c.lt
  have hm₁ := hfit.geometry.contentStart_mono c.start_le (by omega)
  have hm₂ := hfit.geometry.contentStart_mono (Nat.le_add_right a 1) (by omega)
  have hstart := c.first
  have hcum := h.cumulative
  rw [listed_cut c.toCut] at hlisted
  cases hold : listedChunkIds p.terms with
  | nil =>
    rw [hold, List.nil_append, chunkIds_first c.lt] at hlisted
    cases hlisted
    rw [sizeIn_known hfit.known]
    rw [hold, sizes, List.map_nil, List.sum_nil] at hcum
    unfold XorbMeta.size at hpos ⊢
    rcases Nat.lt_or_ge p.cumulative rangeStart with hbefore | hreached
    · have hkept := c.firstKept hbefore
      omega
    · omega
  | cons id' rest' =>
    rw [hold, List.cons_append] at hlisted
    cases hlisted
    have hhead := h.head _ _ hold
    rcases lead_cut hfirst c.toCut with ha | ⟨_, hnone⟩
    · rw [ha] at hstart
      omega
    · rw [hold] at hnone
      cases hnone

/-- The last chunk listed begins in the range. -/
theorem Kept.last_cut (h : Kept metas rangeStart rangeEnd done p) (hfit : Fits metas seg xorb)
    (hpos : 0 < xorb.size (b - 1)) (c : TightCut xorb seg rangeStart rangeEnd p p' a b)
    {front : List (String × Nat)} {id : String × Nat}
    (hlisted : listedChunkIds p'.terms = front ++ [id]) :
    p'.firstChunkByteStart + (sizes metas front).sum < rangeEnd := by
  have hlen := hfit.le_length
  have hstop := c.le_stop
  have hlt := c.lt
  have hm₁ := hfit.geometry.contentStart_mono c.start_le (by omega)
  have hm₂ := hfit.geometry.contentStart_mono (show a ≤ b - 1 by omega) (by omega)
  have hsum := sum_sizes hfit.known hfit.geometry (show a ≤ b - 1 by omega) (by omega)
  have hfirst := c.first
  have hcum := h.cumulative
  have hcum' := c.cumulative
  rw [listed_cut c.toCut, chunkIds_last c.lt, ← List.append_assoc] at hlisted
  obtain ⟨rfl, _⟩ := List.append_inj' hlisted rfl
  rw [sizes, List.map_append, List.sum_append, ← sizes, ← sizes, hsum]
  unfold XorbMeta.size at hpos
  rw [Nat.sub_add_cancel (by omega)] at hpos
  rcases c.lastKept with hall | htrim
  · omega
  · omega

theorem Kept.cut (h : Kept metas rangeStart rangeEnd done p) (hfit : Fits metas seg xorb)
    (hopen : p.cumulative < rangeEnd) (hfirst : p.cumulative < rangeStart → p.terms = [])
    (hpos : ∀ i, seg.chunkIndexStart.toNat ≤ i → i < seg.chunkIndexEnd.toNat → 0 < xorb.size i)
    (c : TightCut xorb seg rangeStart rangeEnd p p' a b) :
    Kept metas rangeStart rangeEnd (done ++ [seg]) p' := by
  obtain ⟨before, after, hsplit, hskip, htail⟩ := h.split
  have hempty : after = [] := by
    rcases htail with he | hpast
    · exact he
    · omega
  have hlen := hfit.le_length
  have hstart := c.start_le
  have hstop := c.le_stop
  have hlt := c.lt
  have hm₁ := hfit.geometry.contentStart_mono c.start_le (by omega)
  have hm₂ := hfit.geometry.contentStart_mono c.lt.le (by omega)
  have hlead := sum_sizes hfit.known hfit.geometry c.start_le (by omega)
  have hrun := sum_sizes hfit.known hfit.geometry c.lt.le (by omega)
  have hlisted := listed_cut c.toCut
  refine ⟨⟨before ++ chunkIds seg.xorbHash seg.chunkIndexStart.toNat a,
    chunkIds seg.xorbHash b seg.chunkIndexEnd.toNat, ?_, ?_, ?_⟩, ?_, ?_, ?_, ?_, ?_⟩
  · have hseg : fileChunkIds (done ++ [seg]) = fileChunkIds done ++
        chunkIds seg.xorbHash seg.chunkIndexStart.toNat seg.chunkIndexEnd.toNat := by
      simp [fileChunkIds]
    rw [hseg, hsplit, hempty, hlisted, ← chunkIds_append (hstart.trans hlt.le) hstop,
      ← chunkIds_append hstart hlt.le]
    rcases lead_cut hfirst c.toCut with ha | ⟨_, hnone⟩
    · simp [ha]
    · simp [hnone]
  · rw [sizes, List.map_append, List.sum_append, ← sizes, ← sizes, hskip, hlead, c.first]
  · rcases c.trail with hb | hend
    · exact .inl (by rw [hb, chunkIds_self])
    · exact .inr hend
  · rw [hlisted, sizes, List.map_append, List.sum_append, ← sizes, ← sizes, hrun, c.cumulative,
      c.first, h.cumulative]
    omega
  · rw [c.first]
    rcases c.lead with ha | ⟨hbefore, hcum⟩
    · simpa [ha] using h.first
    · have hplanned := h.cumulative
      rw [hfirst hbefore] at hplanned
      simp only [listedChunkIds, sizes, List.flatMap_nil, List.map_nil, List.sum_nil] at hplanned
      omega
  · intro id rest hcons
    exact h.head_cut hfit hfirst (hpos a hstart (by omega)) c hcons
  · intro front id hconcat
    exact h.last_cut hfit (hpos (b - 1) (by omega) (by omega)) c hconcat
  · intro t ht
    rw [c.terms] at ht
    rcases List.mem_append.mp ht with hold | hnew
    · exact h.terms t hold
    · cases List.mem_singleton.mp hnew
      have hsize := hpos a hstart (by omega)
      have hmono := hfit.geometry.contentStart_mono (show a + 1 ≤ b by omega) (by omega)
      unfold XorbMeta.size at hsize
      exact ⟨hlt, by simp only; omega⟩

end Cut

theorem Kept.past {done rest : List FileTermRecord} {p : Progress}
    (h : Kept metas rangeStart rangeEnd done p) (hpast : rangeEnd ≤ p.cumulative) :
    Kept metas rangeStart rangeEnd (done ++ rest) p := by
  obtain ⟨before, after, hsplit, hskip, _⟩ := h.split
  refine ⟨⟨before, after ++ fileChunkIds rest, ?_, hskip, .inr hpast⟩, h.cumulative, h.first,
    h.head, h.last, h.terms⟩
  have happend : fileChunkIds (done ++ rest) = fileChunkIds done ++ fileChunkIds rest := by
    simp [fileChunkIds]
  rw [happend, hsplit]
  simp

theorem sum_fileSizes {terms : List FileTermRecord}
    (hfits : ∀ seg ∈ terms, ∃ xorb, Fits metas seg xorb) :
    (sizes metas (fileChunkIds terms)).sum = totalBytes terms := by
  induction terms with
  | nil => rfl
  | cons seg rest ih =>
    obtain ⟨xorb, hfit⟩ := hfits seg (by simp)
    have hseg := sum_sizes hfit.known hfit.geometry hfit.lt.le hfit.le_length
    have hrest := ih (fun seg' hm => hfits seg' (by simp [hm]))
    simp only [sizes, fileChunkIds, totalBytes] at hseg hrest
    simp [sizes, fileChunkIds, totalBytes, hseg, hrest, hfit.bytes]

theorem kept_skipped {skipped : List FileTermRecord}
    (hfits : ∀ seg ∈ skipped, ∃ xorb, Fits metas seg xorb)
    (hle : totalBytes skipped ≤ rangeStart) :
    Kept metas rangeStart rangeEnd skipped ⟨totalBytes skipped, totalBytes skipped, [], .empty⟩ where
  split := ⟨fileChunkIds skipped, [], by simp [listedChunkIds], sum_fileSizes hfits, .inl rfl⟩
  cumulative := by simp [listedChunkIds, sizes]
  first := hle
  head := by simp [listedChunkIds]
  last := by simp [listedChunkIds]
  terms := by simp

/-- What is kept when the loop ends is what overlaps. -/
theorem Kept.overlaps {terms : List FileTermRecord} {p : Progress}
    (h : Kept metas rangeStart rangeEnd terms p) (hpos : NonemptyChunks metas terms)
    (hrange : rangeStart < rangeEnd) :
    ∃ lo hi, lo ≤ hi ∧ hi ≤ (fileChunkIds terms).length ∧
      listedChunkIds p.terms = piecesIn (fileChunkIds terms) lo hi ∧
      ∀ k < (fileChunkIds terms).length,
        (Overlaps (sizes metas (fileChunkIds terms)) rangeStart rangeEnd k ↔ lo ≤ k ∧ k < hi) := by
  obtain ⟨before, after, hsplit, hskip, htail⟩ := h.split
  have hlens : sizes metas (fileChunkIds terms) =
      sizes metas before ++ sizes metas (listedChunkIds p.terms) ++ sizes metas after := by
    rw [hsplit, sizes, List.map_append, List.map_append]
    rfl
  refine ⟨before.length, before.length + (listedChunkIds p.terms).length, by omega, ?_, ?_, ?_⟩
  · rw [hsplit]
    simp only [List.length_append]
    omega
  · rw [hsplit, piecesIn, ← List.length_append, List.take_left, List.drop_left]
  · intro k hk
    have hmiddle := overlaps_middle (sizes metas before) (sizes metas (listedChunkIds p.terms))
      (sizes metas after) (k := k) (s := rangeStart) (e := rangeEnd) ?_ hrange
      (by rw [hskip]; exact h.first) ?_ ?_ ?_ ?_
    · rw [← hlens] at hmiddle
      simpa [sizes] using hmiddle
    · intro len hlen
      obtain ⟨id, hid, rfl⟩ := List.mem_map.mp hlen
      exact hpos id (by simp [hsplit, hid])
    · intro len rest hcons
      obtain ⟨id, rest', hids, rfl, _⟩ := List.map_eq_cons_iff.mp hcons
      rw [hskip]
      exact h.head id rest' hids
    · intro front len hconcat
      obtain ⟨front', last, hids, rfl, hlast⟩ := List.map_eq_append_iff.mp hconcat
      obtain ⟨id, rfl, _⟩ := List.map_eq_singleton_iff.mp hlast
      rw [hskip]
      exact h.last front' id hids
    · rw [hskip, ← h.cumulative]
      exact htail.imp_left (fun he => by rw [he]; rfl)
    · rw [← hlens, sizes, List.length_map]
      exact hk

/-- A plan lists exactly the chunks that overlap the range. -/
theorem plan_minimal (file : FileRecord) (range : Option (Nat × Nat)) (metas : Metas)
    (hlength : file.fileLength.toNat = totalBytes file.terms)
    (hfits : ∀ seg ∈ file.terms, ∃ xorb, Fits metas seg xorb)
    (hpos : NonemptyChunks metas file.terms)
    (hrange : Satisfiable file.fileLength.toNat range) :
    ∃ plan, planReconstruction file range metas = .ok (some plan) ∧
      (∃ lo hi, lo ≤ hi ∧ hi ≤ (fileChunkIds file.terms).length ∧
        listedChunkIds plan.terms = piecesIn (fileChunkIds file.terms) lo hi ∧
        ∀ k < (fileChunkIds file.terms).length,
          (Overlaps (sizes metas (fileChunkIds file.terms))
            (requested file.fileLength.toNat range).1 (requested file.fileLength.toNat range).2 k ↔
              lo ≤ k ∧ k < hi)) ∧
      (∀ t rest, plan.terms = t :: rest →
        plan.offsetIntoFirstRange < sizeIn metas (t.xorb, t.chunkStart)) ∧
      ∀ t ∈ plan.terms, t.chunkStart < t.chunkEnd ∧ 0 < t.unpackedLength := by
  rcases window_eq hrange with ⟨hwindow, hlt, hle⟩ | ⟨hzero, rfl⟩
  · generalize requested file.fileLength.toNat range = r at hwindow hlt hle ⊢
    obtain ⟨rangeStart, rangeEnd⟩ := r
    simp only at hlt hle ⊢
    obtain ⟨p, hplan, hkept⟩ := planReconstruction_rule
      (I := fun done p => NonemptyChunks metas done → Kept metas rangeStart rangeEnd done p)
      hwindow hlt (by omega) hfits
      (fun skipped seg rest he hle _ => kept_skipped (fun s hm => hfits s (by simp [he, hm])) hle)
      (by
        intro done seg xorb p p' a b h hfit hopen hfirst c hpos
        refine (h (fun id hid => hpos id (by simp [fileChunkIds] at hid ⊢; exact .inl hid))).cut hfit
          hopen hfirst ?_ c
        intro i hi hi'
        rw [← sizeIn_known hfit.known]
        exact hpos (seg.xorbHash, i) (by simp [fileChunkIds, mem_chunkIds, hi, hi']))
      (fun done rest p h hpast hpos =>
        (h (fun id hid => hpos id (by simp [fileChunkIds] at hid ⊢; exact .inl hid))).past hpast)
    have hk := hkept hpos
    refine ⟨_, hplan, hk.overlaps hpos hlt, ?_, hk.terms⟩
    intro t rest hcons
    have hterms : p.terms = t :: rest := hcons
    have hlisted : listedChunkIds p.terms = (t.xorb, t.chunkStart) ::
        (chunkIds t.xorb (t.chunkStart + 1) t.chunkEnd ++ listedChunkIds rest) := by
      have hne := (hk.terms t (by simp [hterms])).1
      rw [hterms, listedChunkIds, List.flatMap_cons, chunkIds_first hne, List.cons_append]
      rfl
    have hhead := hk.head _ _ hlisted
    change rangeStart - p.firstChunkByteStart < _
    have hsome := hk.first
    omega
  · refine ⟨.empty, by simp [planReconstruction, window, hzero], ⟨0, 0, le_refl _, Nat.zero_le _,
      ?_, ?_⟩, by simp [Plan.empty], by simp [Plan.empty]⟩
    · simp [Plan.empty, listedChunkIds, piecesIn]
    · intro k _
      rw [overlaps_iff]
      simp only [requested, hzero]
      omega

/-- Two xorbs without empty chunks. -/
def denseXorbs : Metas := fun hash =>
  if hash = "x" then some ⟨[11, 19, 29], [2, 3, 5]⟩
  else if hash = "y" then some ⟨[12, 26], [4, 5]⟩
  else none

def denseFile : FileRecord where
  fileHash := "f"
  fileLength := 10
  sha256 := ""
  terms := [⟨"x", 1, 3, 3⟩, ⟨"y", 0, 2, 5⟩, ⟨"x", 0, 1, 2⟩]
  verificationRangeHashes := []
  createdAt := 0

theorem denseFile_fits : ∀ seg ∈ denseFile.terms, ∃ xorb, Fits denseXorbs seg xorb := by
  have hx : XorbMeta.Geometry ⟨[11, 19, 29], [2, 3, 5]⟩ := ⟨rfl, by decide, by decide⟩
  have hy : XorbMeta.Geometry ⟨[12, 26], [4, 5]⟩ := ⟨rfl, by decide, by decide⟩
  simp only [denseFile, List.forall_mem_cons]
  refine ⟨⟨_, rfl, hx, ?_, ?_, ?_⟩, ⟨_, rfl, hy, ?_, ?_, ?_⟩, ⟨_, rfl, hx, ?_, ?_, ?_⟩, by simp⟩
  all_goals decide

/-- A range that begins where a term does and ends inside the next chunk. -/
theorem dense_range_listed :
    ∃ plan, planReconstruction denseFile (some (3, 6)) denseXorbs = .ok (some plan) ∧
      (∃ lo hi, lo ≤ hi ∧ hi ≤ (fileChunkIds denseFile.terms).length ∧
        listedChunkIds plan.terms = piecesIn (fileChunkIds denseFile.terms) lo hi ∧
        ∀ k < (fileChunkIds denseFile.terms).length,
          (Overlaps (sizes denseXorbs (fileChunkIds denseFile.terms)) 3 6 k ↔ lo ≤ k ∧ k < hi)) ∧
      (∀ t rest, plan.terms = t :: rest →
        plan.offsetIntoFirstRange < sizeIn denseXorbs (t.xorb, t.chunkStart)) ∧
      ∀ t ∈ plan.terms, t.chunkStart < t.chunkEnd ∧ 0 < t.unpackedLength :=
  plan_minimal denseFile (some (3, 6)) denseXorbs (by decide) denseFile_fits
    (by unfold NonemptyChunks; decide) (by
    intro start stop he
    cases he
    decide)

end Xetcas.Proofs.Minimal
