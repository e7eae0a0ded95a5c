import Xetcas.Routes.Reconstructions

namespace Xetcas.Proofs.EndOfFile
open Lib Routes Routes.Reconstructions
variable {file : FileRecord} {metas : Metas} {spec : RangeSpec}

/-- The half-open range that a parsed range denotes, not cut at the end of the
file. -/
def unclamped (len : Nat) : RangeSpec → Nat × Nat
  | .fromTo s e => (s.toNat, e.toNat + 1)
  | .from_ s => (s.toNat, UInt64.size - 1)
  | .suffix n => (len - n.toNat, len)

def Proper : RangeSpec → Prop
  | .fromTo s e => s ≤ e
  | .from_ _ => True
  | .suffix n => 1 ≤ n

/-- The range names its first byte, and it is the file's first. -/
def FromFirst : RangeSpec → Prop
  | .fromTo s _ => s = 0
  | .from_ s => s = 0
  | .suffix _ => False

instance : DecidablePred Proper
  | .fromTo s e => inferInstanceAs (Decidable (s ≤ e))
  | .from_ _ => inferInstanceAs (Decidable True)
  | .suffix n => inferInstanceAs (Decidable (1 ≤ n))

instance : DecidablePred FromFirst
  | .fromTo s _ => inferInstanceAs (Decidable (s = 0))
  | .from_ s => inferInstanceAs (Decidable (s = 0))
  | .suffix _ => inferInstanceAs (Decidable False)

/-- What the planner says of the range as it was asked for. -/
def plannedDirectly (state : AppState) (file : FileRecord) (spec : RangeSpec) :
    Except String (Option Plan) :=
  planReconstruction file (some (unclamped file.fileLength.toNat spec))
    (metasOf state.index file)

/-- The route and the planner agree where the file ends, and on the plan of a
range before it. -/
structure Agrees (state : AppState) (fileId text : String) (file : FileRecord)
    (spec : RangeSpec) : Prop where
  ended : get state fileId (some (some text)) = .error .rangeNotSatisfiable ↔
    plannedDirectly state file spec = .ok none
  planned : get state fileId (some (some text)) ≠ .error .rangeNotSatisfiable →
    ∃ start stop, spec.resolve file.fileLength = some (start, stop) ∧
      planReconstruction file (some (start.toNat, stop.toNat)) (metasOf state.index file) =
        plannedDirectly state file spec

/-- The window decides whether there is a plan. -/
theorem plan_none_iff {range : Option (Nat × Nat)} :
    planReconstruction file range metas = .ok none ↔
      window file.fileLength.toNat range = .error none := by
  unfold planReconstruction
  cases window file.fileLength.toNat range with
  | error answer => simp
  | ok bounds =>
    obtain ⟨rangeStart, rangeEnd⟩ := bounds
    simp only [reduceCtorEq, iff_false]
    intro h
    obtain ⟨_, _, h⟩ := bind_eq_ok.mp h
    obtain ⟨_, _, h⟩ := bind_eq_ok.mp h
    cases h

theorem window_none_iff {total start stop : Nat} :
    window total (some (start, stop)) = .error none ↔
      total ≤ start ∧ ¬(total = 0 ∧ start = 0) := by
  unfold window
  split
  · split <;> simp_all
  · simp_all

/-- Planning depends on the range through its window alone. -/
theorem plan_of_window {range range' : Option (Nat × Nat)}
    (h : window file.fileLength.toNat range = window file.fileLength.toNat range') :
    planReconstruction file range metas = planReconstruction file range' metas := by
  unfold planReconstruction
  rw [h]

theorem window_stop {total start stop stop' : Nat} (h : min stop total = min stop' total) :
    window total (some (start, stop)) = window total (some (start, stop')) := by
  simp only [window, h]

/-- Cutting a range at the end of the file twice is cutting it once. -/
theorem window_resolve {start stop : UInt64}
    (hresolve : spec.resolve file.fileLength = some (start, stop)) :
    window file.fileLength.toNat (some (start.toNat, stop.toNat)) =
      window file.fileLength.toNat (some (unclamped file.fileLength.toNat spec)) := by
  have hsize := file.fileLength.toNat_lt
  cases spec with
  | fromTo s e =>
    obtain ⟨_, he⟩ := Option.ite_none_left_eq_some.mp hresolve
    cases he
    apply window_stop
    rw [toNat_min, toNat_saturatingAdd, UInt64.toNat_one]
    unfold UInt64.size
    omega
  | from_ s =>
    obtain ⟨_, he⟩ := Option.ite_none_left_eq_some.mp hresolve
    cases he
    apply window_stop
    unfold UInt64.size
    omega
  | suffix n =>
    obtain ⟨_, he⟩ := Option.ite_none_left_eq_some.mp hresolve
    cases he
    rw [toNat_saturatingSub]
    rfl

/-- A proper range resolves to nothing when it begins at the end or after. -/
theorem resolve_none_iff (hproper : Proper spec) :
    spec.resolve file.fileLength = none ↔
      file.fileLength.toNat ≤ (unclamped file.fileLength.toNat spec).1 ∧
        ¬∃ n, spec = .suffix n := by
  cases spec with
  | fromTo s e =>
    have hle : s.toNat ≤ e.toNat := hproper
    simp only [RangeSpec.resolve, unclamped, ite_eq_left_iff, reduceCtorEq, imp_false, not_not,
      exists_false, not_false_eq_true, and_true, UInt64.le_iff_toNat_le, UInt64.lt_iff_toNat_lt]
    omega
  | from_ s =>
    simp [RangeSpec.resolve, unclamped, UInt64.le_iff_toNat_le]
  | suffix n =>
    have hpos : 1 ≤ n.toNat := hproper
    have hn : n ≠ 0 := by
      intro h0
      subst h0
      simp at hpos
    simp [RangeSpec.resolve, hn]

variable {state : AppState} {fileId text : String}

/-- The route's two reasons to say that the file has ended. -/
theorem get_ended_iff (hid : isHashHex fileId = true)
    (hfile : state.index.getFile fileId = some file) (hparse : parseRangeHeader text = some spec) :
    get state fileId (some (some text)) = .error .rangeNotSatisfiable ↔
      spec.resolve file.fileLength = none ∨ plannedDirectly state file spec = .ok none := by
  have hrequest : checkRequest (validateQueryReconstructionRequest ⟨fileId, none⟩) = .ok () := by
    simp [validateQueryReconstructionRequest, requireHashHex, hid, checkRequest, bind, Except.bind]
  have hvalue : Option.bind (some text) parseRangeHeader = some spec := hparse
  cases hresolve : spec.resolve file.fileLength with
  | none => simp [Reconstructions.get, hrequest, hvalue, hfile, hresolve, bind, Except.bind]
  | some bounds =>
    obtain ⟨start, stop⟩ := bounds
    have hplan : planReconstruction file (some (start.toNat, stop.toNat))
        (metasOf state.index file) = plannedDirectly state file spec :=
      plan_of_window (window_resolve hresolve)
    simp only [Reconstructions.get, hrequest, hvalue, hfile, hresolve, hplan, bind, Except.bind]
    cases plannedDirectly state file spec with
    | error message => simp [orInternal]
    | ok plan =>
      cases plan with
      | none => simp [orInternal]
      | some plan =>
        simp only [orInternal]
        cases validateQueryReconstructionResponse
            (wireResponse state.config.publicBase plan) with
        | error e => simp [checkResponse]
        | ok _ => simp [checkResponse]

/-- The route and the planner agree about the end of every file, but for the
first bytes of an empty one. -/
theorem layers_agree_iff (state : AppState) (fileId text : String) (file : FileRecord)
    (spec : RangeSpec) (hid : isHashHex fileId = true)
    (hfile : state.index.getFile fileId = some file) (hparse : parseRangeHeader text = some spec)
    (hproper : Proper spec) :
    Agrees state fileId text file spec ↔ ¬(file.fileLength = 0 ∧ FromFirst spec) := by
  have hended := get_ended_iff hid hfile hparse
  have hnone : spec.resolve file.fileLength = none ↔ _ := resolve_none_iff hproper
  have hdirect : plannedDirectly state file spec = .ok none ↔
      file.fileLength.toNat ≤ (unclamped file.fileLength.toNat spec).1 ∧
        ¬(file.fileLength.toNat = 0 ∧ (unclamped file.fileLength.toNat spec).1 = 0) :=
    plan_none_iff.trans window_none_iff
  have hfirst : FromFirst spec ↔
      (unclamped file.fileLength.toNat spec).1 = 0 ∧ ¬∃ n, spec = .suffix n := by
    cases spec <;> simp [FromFirst, unclamped, ← UInt64.toNat_inj]
  have hzero : file.fileLength = 0 ↔ file.fileLength.toNat = 0 := by
    rw [← UInt64.toNat_inj, UInt64.toNat_zero]
  constructor
  · intro h hempty
    obtain ⟨hlen, hspec⟩ := hempty
    rw [hzero] at hlen
    rw [hfirst] at hspec
    have hplanned := h.ended.mp (hended.mpr (.inl (hnone.mpr ⟨by omega, hspec.2⟩)))
    exact (hdirect.mp hplanned).2 ⟨hlen, hspec.1⟩
  · intro h
    constructor
    · rw [hended]
      constructor
      · intro hor
        rcases hor with hresolve | hplanned
        · obtain ⟨hle, hsuffix⟩ := hnone.mp hresolve
          refine hdirect.mpr ⟨hle, ?_⟩
          intro hboth
          exact h ⟨hzero.mpr hboth.1, hfirst.mpr ⟨hboth.2, hsuffix⟩⟩
        · exact hplanned
      · exact .inr
    · intro hgoes
      cases hresolve : spec.resolve file.fileLength with
      | none => exact absurd (hended.mpr (.inl hresolve)) hgoes
      | some bounds => exact ⟨_, _, rfl, plan_of_window (window_resolve hresolve)⟩

def zeroHash : String := String.ofList (List.replicate 64 '0')

def emptyFile : FileRecord := ⟨zeroHash, 0, "", [], [], 0⟩

def emptyFileState : AppState :=
  .new ⟨"", none⟩ (Index.fresh.putFiles [emptyFile] []).1 (fun _ => none) 1

/-- Past its end the empty file ends for both. -/
theorem second_byte_agrees : Agrees emptyFileState zeroHash "bytes=1-9" emptyFile (.fromTo 1 9) :=
  (layers_agree_iff emptyFileState zeroHash "bytes=1-9" emptyFile (.fromTo 1 9) (by decide)
    (by decide) (parse_format 1 9) (by decide)).mpr (by decide)

/-- Before its end, the route answers 416 where the planner has an empty plan. -/
theorem first_bytes_disagree :
    Reconstructions.get emptyFileState zeroHash (some (some "bytes=0-9")) =
        .error .rangeNotSatisfiable ∧
      plannedDirectly emptyFileState emptyFile (.fromTo 0 9) = .ok (some .empty) ∧
      ¬Agrees emptyFileState zeroHash "bytes=0-9" emptyFile (.fromTo 0 9) := by
  have hget : Reconstructions.get emptyFileState zeroHash (some (some "bytes=0-9")) =
      .error .rangeNotSatisfiable :=
    (get_ended_iff (by decide) (show _ = some emptyFile by decide) (parse_format 0 9)).mpr (.inl rfl)
  have hplan : plannedDirectly emptyFileState emptyFile (.fromTo 0 9) = .ok (some .empty) := rfl
  refine ⟨hget, hplan, ?_⟩
  intro h
  cases hplan.symm.trans (h.ended.mp hget)

end Xetcas.Proofs.EndOfFile
