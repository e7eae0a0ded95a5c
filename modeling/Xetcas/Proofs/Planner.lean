import Mathlib.Data.List.Intervals
import Xetcas.Proofs.Geometry

namespace Xetcas.Proofs.Planner
open Lib

/-- A term as registration leaves it: its xorb is known, its chunks are in
bounds and it declares exactly their bytes. -/
structure Fits (metas : Metas) (seg : FileTermRecord) (xorb : XorbMeta) : Prop where
  known : metas seg.xorbHash = some xorb
  geometry : xorb.Geometry
  nonempty : seg.chunkIndexStart < seg.chunkIndexEnd
  inside : seg.chunkIndexEnd ≤ xorb.numChunks
  declares : seg.unpackedSegmentBytes.toNat =
    ∑ i ∈ Finset.Ico seg.chunkIndexStart.toNat seg.chunkIndexEnd.toNat, xorb.size i

section Segment
variable {metas : Metas} {seg : FileTermRecord} {xorb : XorbMeta} {rangeStart rangeEnd : Nat}
  {p p' : Progress}

theorem Fits.lt (h : Fits metas seg xorb) :
    seg.chunkIndexStart.toNat < seg.chunkIndexEnd.toNat := h.nonempty

theorem Fits.le (h : Fits metas seg xorb) : seg.chunkIndexEnd.toNat ≤ xorb.numChunks.toNat :=
  h.inside

theorem Fits.le_length (h : Fits metas seg xorb) :
    seg.chunkIndexEnd.toNat ≤ xorb.unpacked.length :=
  Nat.le_trans h.le xorb.numChunks_le

theorem Fits.bytes (h : Fits metas seg xorb) : seg.unpackedSegmentBytes.toNat =
    xorb.contentStart seg.chunkIndexEnd.toNat - xorb.contentStart seg.chunkIndexStart.toNat := by
  rw [h.declares, h.geometry.sum_size h.lt.le h.le_length]

/-- The variables of the leading trim once the chunks before `a` are dropped. -/
def advance (xorb : XorbMeta) (stop : Nat) (w : Leading) (a : Nat) : Leading :=
  ⟨w.cumulative + (xorb.contentStart a - xorb.contentStart w.chunkStart),
    w.firstChunkByteStart + (xorb.contentStart a - xorb.contentStart w.chunkStart),
    xorb.contentStart stop - xorb.contentStart a, a⟩

/-- The leading trim stops at the chunk that the range starts in. -/
theorem trimLeading_spec (g : xorb.Geometry) {stop : Nat} (hstop : stop ≤ xorb.unpacked.length)
    (left : Nat) (w : Leading) (hleft : w.chunkStart + left = stop)
    (hsum : w.unpacked = xorb.contentStart stop - xorb.contentStart w.chunkStart)
    (hbefore : w.cumulative ≤ rangeStart) (hafter : rangeStart < w.cumulative + w.unpacked) :
    ∃ a, w.chunkStart ≤ a ∧ a < stop ∧
      w.cumulative + (xorb.contentStart a - xorb.contentStart w.chunkStart) ≤ rangeStart ∧
      rangeStart < w.cumulative + (xorb.contentStart (a + 1) - xorb.contentStart w.chunkStart) ∧
      trimLeading xorb rangeStart left w = .ok (advance xorb stop w a) := by
  induction left generalizing w with
  | zero =>
    have hempty : w.chunkStart = stop := hleft
    rw [hempty] at hsum
    omega
  | succ left ih =>
    obtain ⟨next, hnext, hsize⟩ := g.chunkLen_eq (i := w.chunkStart) (by omega)
    have hmono := g.contentStart_mono (Nat.le_add_right w.chunkStart 1) (by omega)
    have hrest := g.contentStart_mono (show w.chunkStart + 1 ≤ stop by omega) hstop
    have hval : next.toNat =
        xorb.contentStart (w.chunkStart + 1) - xorb.contentStart w.chunkStart := hsize
    simp only [trimLeading, hnext, bind, Except.bind]
    split
    · refine ⟨w.chunkStart, le_refl _, by omega, by omega, by omega, ?_⟩
      simp [advance, ← hsum]
    · have hfits : ¬w.unpacked < next.toNat := by omega
      rw [if_neg hfits]
      obtain ⟨a, hle, hlast, hcum, hover, hok⟩ := ih
        ⟨w.cumulative + next.toNat, w.firstChunkByteStart + next.toNat, w.unpacked - next.toNat,
          w.chunkStart + 1⟩ (by simp only; omega) (by simp only; omega) (by simp only; omega)
        (by simp only; omega)
      simp only at hle hcum hover
      have ha := g.contentStart_mono hle (by omega)
      have ha' := g.contentStart_mono (show w.chunkStart + 1 ≤ a + 1 by omega) (by omega)
      refine ⟨a, by omega, hlast, by omega, by omega, ?_⟩
      rw [hok]
      simp only [advance, Except.ok.injEq, Leading.mk.injEq, and_self, and_true]
      omega

theorem dropLeading_spec (g : xorb.Geometry) {stop : Nat} (hstop : stop ≤ xorb.unpacked.length)
    (w : Leading) (hlt : w.chunkStart < stop)
    (hsum : w.unpacked = xorb.contentStart stop - xorb.contentStart w.chunkStart)
    (hahead : w.cumulative < rangeStart → rangeStart < w.cumulative + w.unpacked) :
    ∃ a, w.chunkStart ≤ a ∧ a < stop ∧
      (a = w.chunkStart ∨ (w.cumulative < rangeStart ∧
        (advance xorb stop w a).cumulative ≤ rangeStart)) ∧
      (w.cumulative < rangeStart → rangeStart <
        w.cumulative + (xorb.contentStart (a + 1) - xorb.contentStart w.chunkStart)) ∧
      dropLeading xorb rangeStart stop w = .ok (advance xorb stop w a) := by
  unfold dropLeading
  split
  · rename_i hs
    obtain ⟨a, ha, hastop, hcum, hover, hok⟩ := trimLeading_spec g hstop (stop - w.chunkStart) w
      (by omega) hsum hs.le (hahead hs)
    exact ⟨a, ha, hastop, .inr ⟨hs, hcum⟩, fun _ => hover, hok⟩
  · rename_i hs
    refine ⟨w.chunkStart, le_refl _, hlt, .inl rfl, fun h => absurd h hs, ?_⟩
    simp [advance, ← hsum]

/-- The trailing trim stops at the chunk that the range ends in. -/
theorem trimTrailing_spec (g : xorb.Geometry) {start cumulative : Nat} (left stop unpacked : Nat)
    (hstop : stop ≤ xorb.unpacked.length) (hleft : start + left = stop)
    (hsum : unpacked = xorb.contentStart stop - xorb.contentStart start)
    (hbefore : cumulative < rangeEnd) (hafter : rangeEnd ≤ cumulative + unpacked) :
    ∃ b, start < b ∧ b ≤ stop ∧
      rangeEnd ≤ cumulative + (xorb.contentStart b - xorb.contentStart start) ∧
      cumulative + (xorb.contentStart (b - 1) - xorb.contentStart start) < rangeEnd ∧
      trimTrailing xorb rangeEnd cumulative left stop unpacked =
        .ok (b, xorb.contentStart b - xorb.contentStart start) := by
  induction left generalizing stop unpacked with
  | zero =>
    have hempty : start = stop := hleft
    rw [hempty] at hsum
    omega
  | succ left ih =>
    obtain ⟨last, hlast, hsize⟩ := g.chunkLen_eq (i := stop - 1) (by omega)
    have hval : last.toNat = xorb.contentStart stop - xorb.contentStart (stop - 1) := by
      rw [hsize, XorbMeta.size, Nat.sub_add_cancel (by omega)]
    have hmono := g.contentStart_mono (show stop - 1 ≤ stop by omega) hstop
    have hrest := g.contentStart_mono (show start ≤ stop - 1 by omega) (by omega)
    have hfits : ¬unpacked < last.toNat := by omega
    simp only [trimTrailing, hlast, hfits, bind, Except.bind, ↓reduceIte]
    split
    · refine ⟨stop, by omega, le_refl _, by omega, by omega, ?_⟩
      rw [hsum]
    · obtain ⟨b, hgt, hle, hend, hover, hok⟩ := ih (stop - 1) (unpacked - last.toNat) (by omega)
        (by omega) (by omega) (by omega)
      exact ⟨b, hgt, by omega, hend, hover, hok⟩

theorem dropTrailing_spec (g : xorb.Geometry) {stop : Nat} (hstop : stop ≤ xorb.unpacked.length)
    (w : Leading) (hlt : w.chunkStart < stop)
    (hsum : w.unpacked = xorb.contentStart stop - xorb.contentStart w.chunkStart)
    (hopen : w.cumulative < rangeEnd) :
    ∃ b, w.chunkStart < b ∧ b ≤ stop ∧
      (b = stop ∨ rangeEnd ≤
        w.cumulative + (xorb.contentStart b - xorb.contentStart w.chunkStart)) ∧
      (w.cumulative + (xorb.contentStart b - xorb.contentStart w.chunkStart) ≤ rangeEnd ∨
        w.cumulative + (xorb.contentStart (b - 1) - xorb.contentStart w.chunkStart) < rangeEnd) ∧
      dropTrailing xorb rangeEnd stop w =
        .ok (b, xorb.contentStart b - xorb.contentStart w.chunkStart) := by
  unfold dropTrailing
  split
  · rename_i ht
    obtain ⟨b, hab, hb, hend, hover, hok⟩ := trimTrailing_spec g
      (stop - w.chunkStart) stop w.unpacked hstop (by omega) hsum hopen ht.le
    exact ⟨b, hab, hb, .inr hend, .inr hover, hok⟩
  · refine ⟨stop, hlt, le_refl _, .inl rfl, .inl (by omega), ?_⟩
    rw [hsum]

/-- What one segment's turn of the loop adds: the chunks from `a` to `b`, the
leading ones dropped only before the range and the trailing ones only past it. -/
structure Cut (xorb : XorbMeta) (seg : FileTermRecord) (rangeStart rangeEnd : Nat)
    (p p' : Progress) (a b : Nat) : Prop where
  start_le : seg.chunkIndexStart.toNat ≤ a
  lt : a < b
  le_stop : b ≤ seg.chunkIndexEnd.toNat
  cumulative : p'.cumulative =
    p.cumulative + (xorb.contentStart b - xorb.contentStart seg.chunkIndexStart.toNat)
  first : p'.firstChunkByteStart =
    p.firstChunkByteStart + (xorb.contentStart a - xorb.contentStart seg.chunkIndexStart.toNat)
  terms : p'.terms = p.terms ++
    [⟨seg.xorbHash, a, b, xorb.contentStart b - xorb.contentStart a⟩]
  ranges : p'.perXorb = p.perXorb.upsert seg.xorbHash (fun ranges =>
    ranges.getD [] ++ [⟨a, b, xorb.frameStart a, xorb.frameStart b⟩])
  lead : a = seg.chunkIndexStart.toNat ∨ (p.cumulative < rangeStart ∧ p.cumulative +
    (xorb.contentStart a - xorb.contentStart seg.chunkIndexStart.toNat) ≤ rangeStart)
  trail : b = seg.chunkIndexEnd.toNat ∨ rangeEnd ≤ p'.cumulative

/-- A cut that keeps no chunk wholly before the range or past it: the first one
kept ends in the range when the segment begins before it, and the last one
begins in it. -/
structure TightCut (xorb : XorbMeta) (seg : FileTermRecord) (rangeStart rangeEnd : Nat)
    (p p' : Progress) (a b : Nat) : Prop extends Cut xorb seg rangeStart rangeEnd p p' a b where
  firstKept : p.cumulative < rangeStart → rangeStart <
    p.cumulative + (xorb.contentStart (a + 1) - xorb.contentStart seg.chunkIndexStart.toNat)
  lastKept : p'.cumulative ≤ rangeEnd ∨
    p.cumulative + (xorb.contentStart (b - 1) - xorb.contentStart seg.chunkIndexStart.toNat) <
      rangeEnd

theorem planSegment_spec (h : Fits metas seg xorb) (hrange : rangeStart < rangeEnd)
    (hopen : p.cumulative < rangeEnd)
    (hahead : p.cumulative < rangeStart →
      rangeStart < p.cumulative + seg.unpackedSegmentBytes.toNat) :
    ∃ p' a b, planSegment metas rangeStart rangeEnd seg p = .ok p' ∧
      TightCut xorb seg rangeStart rangeEnd p p' a b := by
  have hlen := h.le_length
  have hle := h.le
  obtain ⟨a, ha, hastop, hlead, hfirst, hdrop⟩ := dropLeading_spec h.geometry hlen
    ⟨p.cumulative, p.firstChunkByteStart, seg.unpackedSegmentBytes.toNat,
      seg.chunkIndexStart.toNat⟩ h.lt h.bytes hahead
  simp only at ha hlead hfirst
  generalize hw : advance xorb seg.chunkIndexEnd.toNat _ a = w at hlead hdrop
  have hcum : w.cumulative = p.cumulative +
      (xorb.contentStart a - xorb.contentStart seg.chunkIndexStart.toNat) := by rw [← hw]; rfl
  have hstart : w.chunkStart = a := by rw [← hw]; rfl
  have hwopen : w.cumulative < rangeEnd := by
    rcases hlead with rfl | ⟨_, hle⟩
    · simpa [hcum] using hopen
    · omega
  obtain ⟨b, hab, hb, htrail, hlast, hcut⟩ := dropTrailing_spec h.geometry hlen w (by omega)
    (by rw [← hw]; rfl) hwopen
  rw [hstart] at hab htrail hlast hcut
  obtain ⟨lo, hi, hoff, hlo, hhi⟩ := h.geometry.byteOffset_eq hab (by omega)
  have hcontent := h.geometry.contentStart_mono ha (by omega)
  have hcontent' := h.geometry.contentStart_mono hab.le (by omega)
  have hcontent'' := h.geometry.contentStart_mono (show a ≤ b - 1 by omega) (by omega)
  refine ⟨⟨w.cumulative + (xorb.contentStart b - xorb.contentStart a), w.firstChunkByteStart,
    p.terms ++ [⟨seg.xorbHash, a, b, xorb.contentStart b - xorb.contentStart a⟩],
    p.perXorb.upsert seg.xorbHash (fun ranges =>
      ranges.getD [] ++ [⟨a, b, xorb.frameStart a, xorb.frameStart b⟩])⟩, a, b, ?_, ?_⟩
  · simp [planSegment, findMeta, h.known, hdrop, hcut, hstart, hoff, hlo, hhi, bind, Except.bind]
  · exact {
      start_le := ha
      lt := hab
      le_stop := hb
      cumulative := by simp only [hcum]; omega
      first := by rw [← hw]; rfl
      terms := rfl
      ranges := rfl
      lead := by rwa [hcum] at hlead
      trail := htrail
      firstKept := hfirst
      lastKept := hlast.imp_right (by rw [hcum]; omega) }

/-- After a segment's turn the plan has reached the range. -/
theorem Cut.reaches {a b : Nat} (c : Cut xorb seg rangeStart rangeEnd p p' a b)
    (h : Fits metas seg xorb) (hrange : rangeStart < rangeEnd)
    (hahead : rangeStart ≤ p.cumulative ∨
      rangeStart < p.cumulative + seg.unpackedSegmentBytes.toNat) :
    rangeStart ≤ p'.cumulative := by
  rcases c.trail with hb | hend
  · have hcum := c.cumulative
    rw [hb, ← h.bytes] at hcum
    omega
  · omega

end Segment

section Loop
variable {metas : Metas} {rangeStart rangeEnd : Nat} {I : List FileTermRecord → Progress → Prop}

/-- Either the plan has reached the range, or nothing is planned yet and the
next segment reaches into it. -/
def Ahead (rangeStart : Nat) (segments : List FileTermRecord) (p : Progress) : Prop :=
  rangeStart ≤ p.cumulative ∨
    (p.terms = [] ∧ ∃ seg rest, segments = seg :: rest ∧
      rangeStart < p.cumulative + seg.unpackedSegmentBytes.toNat)

/-- The rule of the main loop: what a segment's turn preserves, and a segment
left out past the range, holds when it ends. -/
theorem planSegments_rule (hrange : rangeStart < rangeEnd)
    (hcut : ∀ done seg xorb p p' a b, I done p → Fits metas seg xorb →
      p.cumulative < rangeEnd → (p.cumulative < rangeStart → p.terms = []) →
      TightCut xorb seg rangeStart rangeEnd p p' a b → I (done ++ [seg]) p')
    (hpast : ∀ done rest p, I done p → rangeEnd ≤ p.cumulative → I (done ++ rest) p)
    (segments done : List FileTermRecord) (p : Progress)
    (hfits : ∀ seg ∈ segments, ∃ xorb, Fits metas seg xorb) (hi : I done p)
    (hahead : Ahead rangeStart segments p) :
    ∃ p', planSegments metas rangeStart rangeEnd segments p = .ok p' ∧ I (done ++ segments) p' := by
  induction segments generalizing done p with
  | nil =>
    refine ⟨p, rfl, ?_⟩
    rw [List.append_nil]
    exact hi
  | cons seg rest ih =>
    simp only [planSegments]
    split
    · rename_i hopen
      obtain ⟨xorb, hfit⟩ := hfits seg (by simp)
      have hnear : rangeStart ≤ p.cumulative ∨
          rangeStart < p.cumulative + seg.unpackedSegmentBytes.toNat := by
        rcases hahead with hreach | ⟨_, seg', rest', he, hlt⟩
        · exact .inl hreach
        · cases he
          exact .inr hlt
      have hfirst : p.cumulative < rangeStart → p.terms = [] := by
        intro hlt
        rcases hahead with hreach | ⟨hempty, _⟩
        · omega
        · exact hempty
      obtain ⟨p', a, b, hok, hcuts⟩ := planSegment_spec hfit hrange hopen (by omega)
      have hi' := hcut done seg xorb p p' a b hi hfit hopen hfirst hcuts
      obtain ⟨p'', hok', hi''⟩ := ih (done ++ [seg]) p'
        (fun seg' hm => hfits seg' (by simp [hm])) hi' (.inl (hcuts.reaches hfit hrange hnear))
      refine ⟨p'', ?_, by simpa using hi''⟩
      simp [hok, hok', bind, Except.bind]
    · exact ⟨p, rfl, hpast done (seg :: rest) p hi (by omega)⟩

def totalBytes (segments : List FileTermRecord) : Nat :=
  (segments.map (fun seg => seg.unpackedSegmentBytes.toNat)).sum

/-- The skipping loop stops at the segment that the range starts in. -/
theorem skipSegments_spec (segments : List FileTermRecord) (cumulative : Nat)
    (hbefore : cumulative ≤ rangeStart) (hafter : rangeStart < cumulative + totalBytes segments) :
    ∃ skipped seg rest, segments = skipped ++ seg :: rest ∧
      cumulative + totalBytes skipped ≤ rangeStart ∧
      rangeStart < cumulative + totalBytes skipped + seg.unpackedSegmentBytes.toNat ∧
      skipSegments rangeStart segments cumulative =
        .ok (seg :: rest, cumulative + totalBytes skipped) := by
  induction segments generalizing cumulative with
  | nil =>
    simp only [totalBytes, List.map_nil, List.sum_nil] at hafter
    omega
  | cons seg rest ih =>
    have htotal : totalBytes (seg :: rest) =
        seg.unpackedSegmentBytes.toNat + totalBytes rest := by simp [totalBytes]
    simp only [skipSegments]
    split
    · rename_i hlt
      exact ⟨[], seg, rest, rfl, by simpa [totalBytes] using hbefore,
        by simpa [totalBytes] using hlt, by simp [totalBytes]⟩
    · obtain ⟨skipped, seg', rest', he, hle, hlt, hok⟩ :=
        ih (cumulative + seg.unpackedSegmentBytes.toNat) (by omega) (by omega)
      have hskip : totalBytes (seg :: skipped) =
          seg.unpackedSegmentBytes.toNat + totalBytes skipped := by simp [totalBytes]
      refine ⟨seg :: skipped, seg', rest', by simp [he], by omega, by omega, ?_⟩
      rw [hok, hskip, Nat.add_assoc]

def planOf (rangeStart : Nat) (p : Progress) : Plan :=
  ⟨rangeStart - p.firstChunkByteStart, p.terms, p.perXorb.map (fun _ => mergeRanges)⟩

/-- The rule of `plan_reconstruction` for a window that begins inside the file:
there is a plan, and an invariant of the main loop holds where it ends. -/
theorem planReconstruction_rule {file : FileRecord} {range : Option (Nat × Nat)}
    (hwindow : window file.fileLength.toNat range = .ok (rangeStart, rangeEnd))
    (hrange : rangeStart < rangeEnd) (hinside : rangeStart < totalBytes file.terms)
    (hfits : ∀ seg ∈ file.terms, ∃ xorb, Fits metas seg xorb)
    (hstart : ∀ skipped seg rest, file.terms = skipped ++ seg :: rest →
      totalBytes skipped ≤ rangeStart →
      I skipped ⟨totalBytes skipped, totalBytes skipped, [], .empty⟩)
    (hcut : ∀ done seg xorb p p' a b, I done p → Fits metas seg xorb →
      p.cumulative < rangeEnd → (p.cumulative < rangeStart → p.terms = []) →
      TightCut xorb seg rangeStart rangeEnd p p' a b → I (done ++ [seg]) p')
    (hpast : ∀ done rest p, I done p → rangeEnd ≤ p.cumulative → I (done ++ rest) p) :
    ∃ p, planReconstruction file range metas = .ok (some (planOf rangeStart p)) ∧
      I file.terms p := by
  obtain ⟨skipped, seg, rest, he, hle, hlt, hskip⟩ :=
    skipSegments_spec file.terms 0 (Nat.zero_le rangeStart) (by omega)
  rw [Nat.zero_add] at hle hlt hskip
  obtain ⟨p, hok, hi⟩ := planSegments_rule hrange hcut hpast (seg :: rest) skipped
    ⟨totalBytes skipped, totalBytes skipped, [], .empty⟩
    (fun seg' hm => hfits seg' (by simp [he, hm])) (hstart skipped seg rest he hle)
    (.inr ⟨rfl, seg, rest, rfl, hlt⟩)
  refine ⟨p, ?_, by rwa [he]⟩
  simp [planReconstruction, hwindow, hskip, hok, planOf, bind, Except.bind]

end Loop

def chunkRun (chunk : Nat → Bytes) (a b : Nat) : Bytes := (List.Ico a b).flatMap chunk

def fileContent (chunk : String → Nat → Bytes) (terms : List FileTermRecord) : Bytes :=
  terms.flatMap (fun t =>
    chunkRun (chunk t.xorbHash) t.chunkIndexStart.toNat t.chunkIndexEnd.toNat)

def planContent (chunk : String → Nat → Bytes) (terms : List Term) : Bytes :=
  terms.flatMap (fun t => chunkRun (chunk t.xorb) t.chunkStart t.chunkEnd)

/-- Chunk contents of the lengths that the stored offsets give. -/
def Holds (metas : Metas) (chunk : String → Nat → Bytes) : Prop :=
  ∀ hash xorb, metas hash = some xorb →
    ∀ i < xorb.unpacked.length, (chunk hash i).length = xorb.size i

section Content
variable {metas : Metas} {chunk : String → Nat → Bytes} {rangeStart rangeEnd : Nat}

theorem chunkRun_append (chunk : Nat → Bytes) {a b c : Nat} (hab : a ≤ b) (hbc : b ≤ c) :
    chunkRun chunk a b ++ chunkRun chunk b c = chunkRun chunk a c := by
  rw [chunkRun, chunkRun, ← List.flatMap_append, List.Ico.append_consecutive hab hbc, chunkRun]

@[simp] theorem chunkRun_self (chunk : Nat → Bytes) (a : Nat) : chunkRun chunk a a = [] := by
  simp [chunkRun]

theorem length_chunkRun (hc : Holds metas chunk) {hash : String} {xorb : XorbMeta}
    (hm : metas hash = some xorb) (g : xorb.Geometry) {a b : Nat} (hab : a ≤ b)
    (hb : b ≤ xorb.unpacked.length) :
    (chunkRun (chunk hash) a b).length = xorb.contentStart b - xorb.contentStart a := by
  induction b, hab using Nat.le_induction with
  | base => simp
  | succ b hab ih =>
    have hlast : chunkRun (chunk hash) b (b + 1) = chunk hash b := by
      simp [chunkRun, List.Ico.succ_singleton]
    have h₁ := g.contentStart_mono hab (by omega)
    have h₂ := g.contentStart_mono (Nat.le_add_right b 1) hb
    rw [← chunkRun_append (chunk hash) hab (Nat.le_add_right b 1), List.length_append,
      ih (by omega), hlast, hc hash xorb hm b (by omega), XorbMeta.size]
    omega

theorem length_fileContent (hc : Holds metas chunk) (terms : List FileTermRecord)
    (hfits : ∀ seg ∈ terms, ∃ xorb, Fits metas seg xorb) :
    (fileContent chunk terms).length = totalBytes terms := by
  induction terms with
  | nil => rfl
  | cons seg rest ih =>
    obtain ⟨xorb, hfit⟩ := hfits seg (by simp)
    have hseg := length_chunkRun hc hfit.known hfit.geometry hfit.lt.le hfit.le_length
    have hrest := ih (fun seg' hm => hfits seg' (by simp [hm]))
    simp only [fileContent, totalBytes] at hrest
    simp [fileContent, totalBytes, hseg, hrest, hfit.bytes]

/-- The invariant of the main loop: the content of the segments done is what
was skipped, what is planned, and a tail left out only past the range. -/
structure Covered (chunk : String → Nat → Bytes) (rangeStart rangeEnd : Nat)
    (done : List FileTermRecord) (p : Progress) : Prop where
  split : ∃ skipped tail, fileContent chunk done = skipped ++ planContent chunk p.terms ++ tail ∧
    skipped.length = p.firstChunkByteStart ∧ (tail = [] ∨ rangeEnd ≤ p.cumulative)
  cumulative : p.cumulative = p.firstChunkByteStart + (planContent chunk p.terms).length
  first : p.firstChunkByteStart ≤ rangeStart
  exact : ∀ t ∈ p.terms,
    t.unpackedLength = (chunkRun (chunk t.xorb) t.chunkStart t.chunkEnd).length

theorem Covered.cut (hc : Holds metas chunk) {done : List FileTermRecord} {seg : FileTermRecord}
    {xorb : XorbMeta} {p p' : Progress} {a b : Nat} (h : Covered chunk rangeStart rangeEnd done p)
    (hfit : Fits metas seg xorb) (hopen : p.cumulative < rangeEnd)
    (hfirst : p.cumulative < rangeStart → p.terms = [])
    (c : Cut xorb seg rangeStart rangeEnd p p' a b) :
    Covered chunk rangeStart rangeEnd (done ++ [seg]) p' := by
  obtain ⟨skipped, tail, hsplit, hskip, htail⟩ := h.split
  have hempty : tail = [] := by
    rcases htail with he | hpast
    · exact he
    · omega
  have hlen := hfit.le_length
  have hle := c.le_stop
  have hlead := length_chunkRun hc hfit.known hfit.geometry c.start_le
    (by have := c.lt; omega)
  have hrun := length_chunkRun hc hfit.known hfit.geometry c.lt.le (by omega)
  have hplan : planContent chunk p'.terms =
      planContent chunk p.terms ++ chunkRun (chunk seg.xorbHash) a b := by
    simp [planContent, c.terms]
  have hm₁ := hfit.geometry.contentStart_mono c.start_le (by have := c.lt; omega)
  have hm₂ := hfit.geometry.contentStart_mono c.lt.le (by omega)
  -- a leading trim happens only while nothing is planned
  have hnone : chunkRun (chunk seg.xorbHash) seg.chunkIndexStart.toNat a = [] ∨
      planContent chunk p.terms = [] := by
    rcases c.lead with ha | ⟨hlt, _⟩
    · exact .inl (by rw [ha, chunkRun_self])
    · exact .inr (by rw [hfirst hlt]; rfl)
  refine ⟨⟨skipped ++ chunkRun (chunk seg.xorbHash) seg.chunkIndexStart.toNat a,
    chunkRun (chunk seg.xorbHash) b seg.chunkIndexEnd.toNat, ?_, ?_, ?_⟩, ?_, ?_, ?_⟩
  · have hseg : fileContent chunk (done ++ [seg]) = fileContent chunk done ++
        chunkRun (chunk seg.xorbHash) seg.chunkIndexStart.toNat seg.chunkIndexEnd.toNat := by
      simp [fileContent]
    rw [hseg, hsplit, hempty, hplan, ← chunkRun_append _ (c.start_le.trans c.lt.le) c.le_stop,
      ← chunkRun_append _ c.start_le c.lt.le]
    rcases hnone with he | he <;> simp [he]
  · rw [List.length_append, hskip, hlead, c.first]
  · rcases c.trail with hb | hend
    · exact .inl (by rw [hb, chunkRun_self])
    · exact .inr hend
  · rw [c.cumulative, c.first, hplan, List.length_append, hrun, h.cumulative]
    omega
  · rw [c.first]
    rcases c.lead with ha | ⟨hlt, hcum⟩
    · simpa [ha] using h.first
    · have hplanned := h.cumulative
      rw [hfirst hlt] at hplanned
      simp only [planContent, List.flatMap_nil, List.length_nil] at hplanned
      omega
  · intro t ht
    rw [c.terms] at ht
    rcases List.mem_append.mp ht with hold | hnew
    · exact h.exact t hold
    · cases List.mem_singleton.mp hnew
      exact hrun.symm

theorem Covered.past {done rest : List FileTermRecord} {p : Progress}
    (h : Covered chunk rangeStart rangeEnd done p) (hpast : rangeEnd ≤ p.cumulative) :
    Covered chunk rangeStart rangeEnd (done ++ rest) p := by
  obtain ⟨skipped, tail, hsplit, hskip, _⟩ := h.split
  refine ⟨⟨skipped, tail ++ fileContent chunk rest, ?_, hskip, .inr hpast⟩, h.cumulative,
    h.first, h.exact⟩
  have happend : fileContent chunk (done ++ rest) =
      fileContent chunk done ++ fileContent chunk rest := by simp [fileContent]
  rw [happend, hsplit]
  simp

/-- A window of a concatenation that lies inside its middle part. -/
theorem window_of_append {α : Type} (skipped middle tail : List α) {s e : Nat}
    (hs : skipped.length ≤ s) (he : e ≤ skipped.length + middle.length) :
    (middle.drop (s - skipped.length)).take (e - s) =
      ((skipped ++ middle ++ tail).drop s).take (e - s) := by
  rw [List.append_assoc, List.drop_append, List.drop_eq_nil_of_le hs, List.nil_append,
    List.drop_append, List.take_append]
  have hnone : e - s - (middle.drop (s - skipped.length)).length = 0 := by
    rw [List.length_drop]
    omega
  rw [hnone, List.take_zero, List.append_nil]

/-- The window a request asks for, cut at the end of the file. -/
def requested (total : Nat) : Option (Nat × Nat) → Nat × Nat
  | some (start, stop) => (start, min stop total)
  | none => (0, total)

def Satisfiable (total : Nat) (range : Option (Nat × Nat)) : Prop :=
  ∀ start stop, range = some (start, stop) → start < stop ∧ start < total

theorem window_eq {total : Nat} {range : Option (Nat × Nat)} (h : Satisfiable total range) :
    window total range = .ok (requested total range) ∧
        (requested total range).1 < (requested total range).2 ∧
        (requested total range).2 ≤ total ∨
      total = 0 ∧ range = none := by
  cases range with
  | none =>
    cases total with
    | zero => exact .inr ⟨rfl, rfl⟩
    | succ total => exact .inl ⟨rfl, Nat.succ_pos total, le_refl _⟩
  | some r =>
    obtain ⟨start, stop⟩ := r
    obtain ⟨hlt, htotal⟩ := h start stop rfl
    left
    refine ⟨?_, ?_, ?_⟩
    · simp only [window, requested]
      rw [if_neg (by omega)]
    · simp only [requested]
      omega
    · simp only [requested]
      omega

/-- A plan for a window inside the file stands for the bytes of the window. -/
theorem planned_content (hc : Holds metas chunk) {file : FileRecord} {range : Option (Nat × Nat)}
    (hwindow : window file.fileLength.toNat range = .ok (rangeStart, rangeEnd))
    (hrange : rangeStart < rangeEnd) (hinside : rangeEnd ≤ totalBytes file.terms)
    (hfits : ∀ seg ∈ file.terms, ∃ xorb, Fits metas seg xorb) :
    ∃ plan, planReconstruction file range metas = .ok (some plan) ∧
      plan.offsetIntoFirstRange ≤ rangeStart ∧
      (∀ t ∈ plan.terms,
        t.unpackedLength = (chunkRun (chunk t.xorb) t.chunkStart t.chunkEnd).length) ∧
      ((planContent chunk plan.terms).drop plan.offsetIntoFirstRange).take
          (rangeEnd - rangeStart) =
        ((fileContent chunk file.terms).drop rangeStart).take (rangeEnd - rangeStart) := by
  obtain ⟨p, hplan, hcov⟩ := planReconstruction_rule
    (I := Covered chunk rangeStart rangeEnd) hwindow hrange (by omega) hfits
    (by
      intro skipped seg rest he hskip
      have hlen := length_fileContent hc skipped (fun s hm => hfits s (by simp [he, hm]))
      exact ⟨⟨fileContent chunk skipped, [], by simp [planContent], hlen, .inl rfl⟩,
        by simp [planContent], hskip, by simp⟩)
    (fun done seg xorb p p' a b h hfit hopen hfirst c => h.cut hc hfit hopen hfirst c.toCut)
    (fun done rest p h hpast => h.past hpast)
  refine ⟨_, hplan, Nat.sub_le _ _, hcov.exact, ?_⟩
  obtain ⟨skipped, tail, hsplit, hskip, htail⟩ := hcov.split
  have hreach : rangeEnd ≤ skipped.length + (planContent chunk p.terms).length := by
    rw [hskip, ← hcov.cumulative]
    rcases htail with hempty | hpast
    · have hlen := length_fileContent hc file.terms hfits
      rw [hsplit, hempty] at hlen
      simp only [List.append_nil, List.length_append, hskip, ← hcov.cumulative] at hlen
      omega
    · exact hpast
  have hfirst := hcov.first
  rw [← hskip] at hfirst
  rw [hsplit, ← window_of_append skipped _ tail hfirst hreach, hskip]
  rfl

/-- Range reconstruction is exact. -/
theorem range_reconstruction_exact (file : FileRecord) (range : Option (Nat × Nat)) (metas : Metas)
    (chunk : String → Nat → Bytes) (hc : Holds metas chunk)
    (hlength : file.fileLength.toNat = totalBytes file.terms)
    (hfits : ∀ seg ∈ file.terms, ∃ xorb, Fits metas seg xorb)
    (hrange : Satisfiable file.fileLength.toNat range) :
    ∃ plan, planReconstruction file range metas = .ok (some plan) ∧
      (∀ t ∈ plan.terms,
        t.unpackedLength = (chunkRun (chunk t.xorb) t.chunkStart t.chunkEnd).length) ∧
      ((planContent chunk plan.terms).drop plan.offsetIntoFirstRange).take
          ((requested file.fileLength.toNat range).2 - (requested file.fileLength.toNat range).1) =
        ((fileContent chunk file.terms).drop (requested file.fileLength.toNat range).1).take
          ((requested file.fileLength.toNat range).2 -
            (requested file.fileLength.toNat range).1) := by
  rcases window_eq hrange with ⟨hwindow, hlt, hle⟩ | ⟨hzero, hnone⟩
  · obtain ⟨plan, hplan, _, hexact, hcontent⟩ := planned_content hc hwindow hlt
      (hle.trans_eq hlength) hfits
    exact ⟨plan, hplan, hexact, hcontent⟩
  · subst hnone
    refine ⟨.empty, ?_, by simp [Plan.empty], ?_⟩
    · simp [planReconstruction, window, hzero]
    · simp [requested, hzero]

/-- Two xorbs, the first with an empty chunk in the middle. -/
def twoXorbs : Metas := fun hash =>
  if hash = "x" then some ⟨[11, 19, 29], [3, 3, 5]⟩
  else if hash = "y" then some ⟨[12], [4]⟩
  else none

def twoXorbsChunk (hash : String) (i : Nat) : Bytes :=
  if hash = "x" then [[1, 2, 3], [], [4, 5]].getD i [] else [6, 7, 8, 9]

def acrossXorbs : FileRecord where
  fileHash := "f"
  fileLength := 9
  sha256 := ""
  terms := [⟨"x", 1, 3, 2⟩, ⟨"y", 0, 1, 4⟩, ⟨"x", 0, 1, 3⟩]
  verificationRangeHashes := []
  createdAt := 0

theorem acrossXorbs_fits : ∀ seg ∈ acrossXorbs.terms, ∃ xorb, Fits twoXorbs seg xorb := by
  have hx : XorbMeta.Geometry ⟨[11, 19, 29], [3, 3, 5]⟩ := ⟨rfl, by decide, by decide⟩
  have hy : XorbMeta.Geometry ⟨[12], [4]⟩ := ⟨rfl, by decide, by decide⟩
  simp only [acrossXorbs, List.forall_mem_cons]
  refine ⟨⟨_, rfl, hx, ?_, ?_, ?_⟩, ⟨_, rfl, hy, ?_, ?_, ?_⟩, ⟨_, rfl, hx, ?_, ?_, ?_⟩, by simp⟩
  all_goals decide

theorem twoXorbs_holds : Holds twoXorbs twoXorbsChunk := by
  intro hash xorb hm
  unfold twoXorbs at hm
  split at hm
  · rename_i he
    cases hm
    subst he
    decide
  · split at hm
    · rename_i he
      cases hm
      subst he
      decide
    · cases hm

theorem range_across_xorbs :
    ∃ plan, planReconstruction acrossXorbs (some (1, 5)) twoXorbs = .ok (some plan) ∧
      (∀ t ∈ plan.terms, t.unpackedLength =
        (chunkRun (twoXorbsChunk t.xorb) t.chunkStart t.chunkEnd).length) ∧
      ((planContent twoXorbsChunk plan.terms).drop plan.offsetIntoFirstRange).take (5 - 1) =
        ((fileContent twoXorbsChunk acrossXorbs.terms).drop 1).take (5 - 1) :=
  range_reconstruction_exact acrossXorbs (some (1, 5)) twoXorbs twoXorbsChunk twoXorbs_holds
    (by decide) acrossXorbs_fits (by
      intro start stop he
      cases he
      decide)

end Content

end Xetcas.Proofs.Planner
