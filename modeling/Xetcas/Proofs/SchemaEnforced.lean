import Xetcas.Contracts.GoValidate
import Xetcas.Lib.Ascii

namespace Xetcas.Proofs.SchemaEnforced
open Lib Schema Message

section Hash

theorem lowerHex_char {c : Char} (hc : c.val < 128) :
    isLowerHexByte c.val.toUInt8 = Regex.inClass [('0', '9'), ('a', 'f')] c := by
  have hall : ∀ n < 128, isLowerHexByte (Char.ofNat n).val.toUInt8 =
      Regex.inClass [('0', '9'), ('a', 'f')] (Char.ofNat n) := by
    decide
  have hchar := hall c.toNat hc
  rwa [Char.ofNat_toNat] at hchar

/-- The byte scan is the length and the pattern. -/
theorem isHashHex_eq (value : String) : isHashHex value = hashHex.holds (.text value) := by
  have hbyte : ∀ b, isLowerHexByte b = true → b < 128 := by
    intro b hb
    simp only [isLowerHexByte, Bool.or_eq_true, Bool.and_eq_true, decide_eq_true_eq] at hb
    simp only [UInt8.lt_iff_toNat_lt, UInt8.le_iff_toNat_le] at hb ⊢
    have h57 : (57 : UInt8).toNat = 57 := rfl
    have h102 : (102 : UInt8).toNat = 102 := rfl
    have h128 : (128 : UInt8).toNat = 128 := rfl
    omega
  have hclass : ∀ c, Regex.inClass [('0', '9'), ('a', 'f')] c = true → c.val < 128 := by
    intro c hc
    simp only [Regex.inClass, List.any_cons, List.any_nil, Bool.or_false, Bool.or_eq_true,
      Bool.and_eq_true, decide_eq_true_eq, Char.le_def, UInt32.le_iff_toNat_le,
      UInt32.lt_iff_toNat_lt] at hc ⊢
    have h9 : ('9' : Char).val.toNat = 57 := rfl
    have hf : ('f' : Char).val.toNat = 102 := rfl
    have h128 : (128 : UInt32).toNat = 128 := rfl
    omega
  have hscan := all_utf8 hbyte hclass (fun c hc => lowerHex_char hc) value
  rw [Bool.eq_iff_iff, isHashHex, hscan]
  simp only [Expr.holds, hashHex, hexPattern, Scalar.len, Bool.and_eq_true, beq_iff_eq,
    Regex.search_whole, List.all_eq_true]
  constructor
  · intro h
    have hsize := utf8ByteSize_ascii (fun c hc => hclass c (h.2 c hc))
    exact ⟨h.1, by rw [← hsize, h.1]; rfl, h.2⟩
  · intro h
    exact ⟨h.1, h.2.2⟩

end Hash

section Fields

theorem present_eq_ok {message field : String} {value : Option α}
    {check : α → Except ValidationError β} {b : β} :
    (requirePresent message field value >>= check) = .ok b ↔
      value.isSome = true ∧ ∀ a ∈ value, check a = .ok b := by
  cases value <;> simp [requirePresent, bind, Except.bind]

/-- What is checked after a field that is there has nothing to do with its value. -/
theorem present_and {value : Option α} {p : α → Prop} {q : Prop} :
    (value.isSome = true ∧ ∀ a ∈ value, p a ∧ q) ↔
      value.isSome = true ∧ (∀ a ∈ value, p a) ∧ q := by
  cases value <;> simp

end Fields

def Passes (m : Message) : Prop := m.validate?.getD (.ok ()) = .ok ()

theorem meets_iff (m : Message) : Meets m ↔
    (∀ r ∈ m.refinements, r.expr.holds r.value = true) ∧
      (∀ field ∈ m.required, field.2 = true) ∧
      (∀ key ∈ m.hashKeys, hashHex.holds (.text key) = true) ∧ m.CrossField := by
  constructor
  · intro h
    exact ⟨h.refined, h.present, h.keyed, h.cross⟩
  · intro h
    exact ⟨h.1, h.2.1, h.2.2.1, h.2.2.2⟩

/-- A validator checks what is asked of its message, and the messages in it. -/
theorem passes_iff (m : Message) : Passes m ↔ Meets m ∧ ∀ child ∈ m.children, Passes child := by
  rw [meets_iff]
  cases m <;> simp only [refinements, required, hashKeys, CrossField, children,
    List.forall_mem_append, List.forall_mem_map, List.forall_mem_cons, List.not_mem_nil,
    false_imp_iff, implies_true, and_true, true_and, Option.mem_toList]
  all_goals simp only [Passes, validate?, Option.getD_some, Option.getD_none, implies_true,
    and_true, true_and]
  case indexRange v => simp only [validateIndexRange, require_ok, decide_eq_true_eq]
  case byteRange v => simp only [validateByteRange, require_ok, decide_eq_true_eq]
  case queryReconstructionRequest v =>
    simp only [validateQueryReconstructionRequest, check_eq_ok, requireHashHex_ok, isHashHex_eq]
    cases v.range <;> simp
  case casReconstructionTerm v =>
    simp only [validateCasReconstructionTerm, check_eq_ok, present_eq_ok, requireHashHex_ok,
      isHashHex_eq, and_assoc]
    rfl
  case casReconstructionFetchInfo v =>
    simp only [validateCasReconstructionFetchInfo, check_eq_ok, present_eq_ok, present_and,
      requireNonEmpty_ok, Expr.lenGe_one_holds]
    tauto
  case fetchInfoList v => simp only [validateFetchInfoList, List.forM_eq_forM, forM_eq_ok]
  case queryReconstructionResponse v =>
    simp only [validateQueryReconstructionResponse, check_eq_ok, List.forM_eq_forM, forM_eq_ok,
      requireHashHexKeys_ok, isHashHex_eq]
    tauto
  case xorbRangeDescriptor v =>
    simp only [validateXorbRangeDescriptor, check_eq_ok, present_eq_ok, present_and]
    tauto
  case xorbMultiRangeFetch v =>
    simp only [validateXorbMultiRangeFetch, check_eq_ok, List.forM_eq_forM, forM_eq_ok,
      requireNonEmpty_ok, Expr.lenGe_one_holds]
  case xorbFetchList v => simp only [validateXorbFetchList, List.forM_eq_forM, forM_eq_ok]
  case queryReconstructionResponseV2 v =>
    simp only [validateQueryReconstructionResponseV2, check_eq_ok, List.forM_eq_forM, forM_eq_ok,
      requireHashHexKeys_ok, isHashHex_eq]
    tauto
  case chunkDedupQuery v =>
    simp only [validateChunkDedupQuery, check_eq_ok, requireHashHex_ok, requireNonEmpty_ok,
      isHashHex_eq, Expr.lenGe_one_holds]
  case uploadXorbKey v =>
    simp only [validateUploadXorbKey, check_eq_ok, requireHashHex_ok, requireNonEmpty_ok,
      isHashHex_eq, Expr.lenGe_one_holds]
  case uploadShardResponse v =>
    simp only [validateUploadShardResponse, require_ok, decide_eq_true_eq, Expr.atMost_holds]
    exact UInt32.le_iff_toNat_le
  case xorbRecord v =>
    simp only [validateXorbRecord, check_eq_ok, requireHashHex_ok, require_ok, isHashHex_eq,
      Bool.and_eq_true, decide_eq_true_eq, beq_iff_eq, Expr.and_holds, Expr.atLeast_holds,
      Expr.atMost_holds, UInt32.le_iff_toNat_le, UInt64.le_iff_toNat_le, and_assoc]
    rfl
  case fileTermRecord v =>
    simp only [validateFileTermRecord, check_eq_ok, requireHashHex_ok, require_ok, isHashHex_eq,
      decide_eq_true_eq]
  case fileRecord v =>
    simp only [validateFileRecord, HASH_BYTES, check_eq_ok, requireHashHex_ok, require_ok,
      List.forM_eq_forM, forM_eq_ok, isHashHex_eq, Expr.or_holds, Expr.lenEq_zero_holds,
      Bool.or_eq_true, beq_iff_eq, List.isEmpty_iff]
    tauto
  case lfsObjectSpec v => simp only [validateLfsObjectSpec, requireHashHex_ok, isHashHex_eq]
  case lfsBatchRequest v =>
    simp only [validateLfsBatchRequest, check_eq_ok, require_ok, List.forM_eq_forM, forM_eq_ok,
      Expr.or_holds, Expr.equals_holds, Expr.lenEq_zero_holds, Bool.or_eq_true, beq_iff_eq,
      and_assoc]
  case lfsAction v =>
    simp only [validateLfsAction, requireNonEmpty_ok, Expr.lenGe_one_holds]
  case lfsBatchObject v =>
    simp only [validateLfsBatchObject, check_eq_ok, require_ok, List.forM_eq_forM, forM_eq_ok,
      Bool.or_eq_true, List.isEmpty_iff, Option.isNone_iff_eq_none]
  case lfsBatchResponse v =>
    simp only [validateLfsBatchResponse, check_eq_ok, require_ok, List.forM_eq_forM, forM_eq_ok,
      Expr.or_holds, Expr.equals_holds, Bool.or_eq_true, beq_iff_eq]
  case casTokenInfo v =>
    simp only [validateCasTokenInfo, check_eq_ok, requireNonEmpty_ok, Expr.lenGe_one_holds]

/-- How deep the messages of a type can be nested. -/
def depth : Message → Nat
  | queryReconstructionRequest _ | casReconstructionTerm _ | casReconstructionFetchInfo _
  | xorbRangeDescriptor _ | fileRecord _ | lfsBatchRequest _ | lfsBatchObject _ => 1
  | fetchInfoList _ | xorbMultiRangeFetch _ | lfsBatchResponse _ => 2
  | queryReconstructionResponse _ | xorbFetchList _ => 3
  | queryReconstructionResponseV2 _ => 4
  | _ => 0

theorem depth_child {m child : Message} (h : child ∈ m.children) : depth child < depth m := by
  have hall : ∀ child ∈ m.children, depth child < depth m := by
    cases m <;> simp only [children, List.forall_mem_append, List.forall_mem_map, List.not_mem_nil,
      false_imp_iff, implies_true]
    all_goals simp [depth]
  exact hall child h

theorem passes_iff_nested (m : Message) : Passes m ↔ ∀ inner, Nested m inner → Meets inner := by
  constructor
  · intro h inner hinner
    induction hinner with
    | self m => exact ((passes_iff m).mp h).1
    | within field _ ih => exact ih (((passes_iff _).mp h).2 _ field)
  · intro h
    induction hdepth : depth m using Nat.strong_induction_on generalizing m with
    | h n ih =>
      refine (passes_iff m).mpr ⟨h m (.self m), ?_⟩
      intro child hchild
      apply ih (depth child) (hdepth ▸ depth_child hchild) child _ rfl
      intro inner hinner
      exact h inner (.within hchild hinner)

section Generated
variable {m : Message} {message field predicate value : String}

theorem notNil_eq_ok {name : String} {message : α} {next : α → Go.Validated} :
    (Go.notNil name (some message) >>= next) = next message := rfl

theorem check_ok {holds : Bool} {value : Scalar} :
    Go.check holds message field predicate value = .ok () ↔ holds = true := by
  simp [Go.check]

theorem checkHash_ok :
    Go.checkHash message field value = .ok () ↔ hashHex.holds (.text value) = true :=
  check_ok

theorem checkNonEmpty_ok :
    Go.checkNonEmpty message field value = .ok () ↔ (Expr.lenGe 1).holds (.text value) = true :=
  check_ok

/-- A generated validator tests the refinements of its message, and nothing else. -/
theorem go_ok_iff {checked : Go.Validated} (h : Go.validate? m = some checked) :
    checked = .ok () ↔ ∀ r ∈ m.refinements, r.expr.holds r.value = true := by
  cases m <;> cases h <;> simp only [refinements, List.forall_mem_cons, List.not_mem_nil,
    false_imp_iff, implies_true, and_true]
  case queryReconstructionRequest v => exact checkHash_ok
  case casReconstructionTerm v => exact checkHash_ok
  case casReconstructionFetchInfo v => exact checkNonEmpty_ok
  case xorbMultiRangeFetch v => exact checkNonEmpty_ok
  case chunkDedupQuery v =>
    rw [Go.validateChunkDedupQuery, notNil_eq_ok, check_eq_ok, checkNonEmpty_ok, checkHash_ok]
  case uploadXorbKey v =>
    rw [Go.validateUploadXorbKey, notNil_eq_ok, check_eq_ok, checkNonEmpty_ok, checkHash_ok]
  case uploadShardResponse v =>
    rw [Go.validateUploadShardResponse, notNil_eq_ok, check_ok, decide_eq_true_eq,
      Expr.atMost_holds]
    exact UInt32.le_iff_toNat_le
  case xorbRecord v =>
    rw [Go.validateXorbRecord, notNil_eq_ok, check_eq_ok, check_eq_ok, checkHash_ok, check_ok,
      check_ok]
    simp only [ge_iff_le, Bool.and_eq_true, decide_eq_true_eq, Expr.and_holds, Expr.atLeast_holds,
      Expr.atMost_holds, UInt32.le_iff_toNat_le, UInt64.le_iff_toNat_le]
    rfl
  case fileTermRecord v => exact checkHash_ok
  case fileRecord v =>
    rw [Go.validateFileRecord, notNil_eq_ok, check_eq_ok, checkHash_ok, check_ok]
    rfl
  case lfsObjectSpec v => exact checkHash_ok
  case lfsBatchRequest v =>
    rw [Go.validateLfsBatchRequest, notNil_eq_ok, check_eq_ok, check_ok, check_ok]
    rfl
  case lfsAction v => exact checkNonEmpty_ok
  case lfsBatchResponse v => exact check_ok
  case casTokenInfo v =>
    rw [Go.validateCasTokenInfo, notNil_eq_ok, check_eq_ok, checkNonEmpty_ok, checkNonEmpty_ok]

end Generated

/-- The total that `file_length` is checked against is exact up to 2^32 - 1 terms. -/
theorem total_exact {file : FileRecord} (hcross : CrossField (.fileRecord file))
    (hfew : file.terms.length < 2 ^ 32) :
    file.fileLength.toNat = (file.terms.map (fun term => term.unpackedSegmentBytes.toNat)).sum := by
  have hsum := (toNat_sum (file.terms.map FileTermRecord.unpackedSegmentBytes)
    (by simpa using hfew)).1
  rw [← hcross.2]
  simpa [List.map_map, Function.comp_def] using hsum

/-- A validator accepts a message exactly when the message and all that is
nested in it meet the schema, and then the generated validators accept each of
them. -/
theorem schema_enforced (m : Message) (checked : Checked) (h : m.validate? = some checked) :
    (checked = .ok () ↔ ∀ inner, Nested m inner → Meets inner) ∧
      (checked = .ok () → ∀ inner, Nested m inner → ∀ go, Go.validate? inner = some go →
        go = .ok ()) ∧
      (checked = .ok () → ∀ file, Nested m (.fileRecord file) → file.terms.length < 2 ^ 32 →
        file.fileLength.toNat =
          (file.terms.map (fun term => term.unpackedSegmentBytes.toNat)).sum) := by
  have hpasses : checked = .ok () ↔ ∀ inner, Nested m inner → Meets inner := by
    rw [← passes_iff_nested, Passes, h]
    rfl
  refine ⟨hpasses, ?_, ?_⟩
  · intro hok inner hinner go hgo
    exact (go_ok_iff hgo).mpr (hpasses.mp hok inner hinner).refined
  · intro hok file hfile hfew
    exact total_exact (hpasses.mp hok _ hfile).cross hfew

def zeroQuery : QueryReconstructionRequest :=
  ⟨"0000000000000000000000000000000000000000000000000000000000000000", some ⟨0, 99⟩⟩

theorem zeroQuery_enforced : validateQueryReconstructionRequest zeroQuery = .ok () ∧
    ∀ inner, Nested (.queryReconstructionRequest zeroQuery) inner → Meets inner := by
  have hok : validateQueryReconstructionRequest zeroQuery = .ok () := by decide +kernel
  exact ⟨hok, (schema_enforced (.queryReconstructionRequest zeroQuery) _ rfl).1.mp hok⟩

end Xetcas.Proofs.SchemaEnforced
