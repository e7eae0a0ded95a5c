import Xetcas.Upstream

namespace Xetcas.Formats
open Lib

-- Hashes as `docs/research/binary-formats.md` describes them (section 1).

/-- What the formats rest on: BLAKE3 with a key, SHA-256, the decoders of a
chunk's payload, by compression scheme, and the clock that dedup shards bear. -/
structure Primitives where
  keyedHash : Bytes → Bytes → MerkleHash
  sha256 : Bytes → MerkleHash
  decompress : UInt8 → Bytes → Option Bytes
  now : Nat

def DATA_KEY : Bytes :=
  [102, 151, 245, 119, 91, 149, 80, 222, 49, 53, 203, 172, 165, 151, 24, 28,
    157, 228, 33, 16, 155, 235, 43, 88, 180, 208, 176, 75, 147, 173, 242, 41]

def INTERNAL_NODE_HASH : Bytes :=
  [1, 126, 197, 199, 165, 71, 41, 150, 253, 148, 102, 102, 180, 138, 2, 230,
    93, 221, 83, 111, 55, 199, 109, 210, 248, 99, 82, 230, 74, 83, 113, 63]

def VERIFICATION_KEY : Bytes :=
  [127, 24, 87, 214, 206, 86, 237, 102, 18, 127, 249, 19, 231, 165, 195, 243,
    164, 205, 38, 213, 181, 219, 73, 230, 65, 36, 152, 127, 40, 251, 148, 195]

def zeroHash : MerkleHash := ⟨List.replicate 32 0, by decide⟩

def u32Bytes (n : Nat) : Bytes :=
  [UInt8.ofNat n, UInt8.ofNat (n / 256), UInt8.ofNat (n / 65536), UInt8.ofNat (n / 16777216)]

def u64Bytes (n : Nat) : Bytes := u32Bytes n ++ u32Bytes (n / 4294967296)

section Text

def digitByte (d : UInt8) : UInt8 := if d < 10 then 48 + d else 87 + d

def digitValue (c : UInt8) : Option UInt8 :=
  if 48 ≤ c ∧ c ≤ 57 then some (c - 48)
  else if 97 ≤ c ∧ c ≤ 102 then some (c - 87)
  else if 65 ≤ c ∧ c ≤ 70 then some (c - 55)
  else none

def digitChar (d : UInt8) : Char := Char.ofNat (digitByte d).toNat

/-- Bytes in lowercase hex, in their order. -/
def hexText (bytes : Bytes) : String :=
  String.ofList (bytes.flatMap (fun b => [digitChar (b / 16), digitChar (b % 16)]))

def unhex : Bytes → Option Bytes
  | [] => some []
  | [_] => none
  | hi :: lo :: rest => do
    let hi ← digitValue hi
    let lo ← digitValue lo
    let rest ← unhex rest
    some ((16 * hi + lo) :: rest)

/-- Reverse each of the first groups of eight bytes. -/
def swapGroups : Nat → Bytes → Bytes
  | 0, _ => []
  | n + 1, bytes => (bytes.take 8).reverse ++ swapGroups n (bytes.drop 8)

theorem length_swapGroups {n : Nat} {bytes : Bytes} (h : bytes.length = 8 * n) :
    (swapGroups n bytes).length = 8 * n := by
  induction n generalizing bytes with
  | zero => rfl
  | succ n ih =>
    have hdrop : (bytes.drop 8).length = 8 * n := by simp; omega
    have hrest := ih hdrop
    simp only [swapGroups, List.length_append, List.length_reverse, List.length_take, hrest]
    omega

theorem swapGroups_swapGroups {n : Nat} {bytes : Bytes} (h : bytes.length = 8 * n) :
    swapGroups n (swapGroups n bytes) = bytes := by
  induction n generalizing bytes with
  | zero =>
    apply Eq.symm
    apply List.eq_nil_of_length_eq_zero
    omega
  | succ n ih =>
    have hfirst : (bytes.take 8).reverse.length = 8 := by simp; omega
    have hdrop : (bytes.drop 8).length = 8 * n := by simp; omega
    have hrest := ih hdrop
    simp only [swapGroups, List.take_left' hfirst, List.drop_left' hfirst, List.reverse_reverse,
      hrest, List.take_append_drop]

end Text

/-- `DataHash::hex`: four little-endian words. -/
def hex (m : MerkleHash) : String := hexText (swapGroups 4 m.bytes)

/-- `DataHash::from_hex`: exactly 64 hex digits. -/
def fromHex (s : String) : Except String MerkleHash :=
  match unhex s.toUTF8.data.toList with
  | none => .error "Invalid hex input for DataHash"
  | some bytes =>
    if h : bytes.length = HASH_BYTES then
      .ok ⟨swapGroups 4 bytes, length_swapGroups (n := 4) h⟩
    else .error "Invalid hex input for DataHash"

/-- The remainder of the fourth word, for a modulus up to 2^16. -/
def lastWordMod (m : MerkleHash) (modulus : Nat) : Nat :=
  ((m.bytes.getD 24 0).toNat + 256 * (m.bytes.getD 25 0).toNat) % modulus

section Aggregation
variable (P : Primitives)

def computeDataHash (data : Bytes) : MerkleHash := P.keyedHash DATA_KEY data

def computeInternalNodeHash (data : Bytes) : MerkleHash := P.keyedHash INTERNAL_NODE_HASH data

def rangeHashFromChunks (hashes : List MerkleHash) : MerkleHash :=
  P.keyedHash VERIFICATION_KEY (hashes.flatMap MerkleHash.bytes)

/-- `next_merge_cut`: a group ends after the first hash, from the third on,
that four divides, or with the ninth. -/
def nextMergeCut (nodes : List (MerkleHash × Nat)) : Nat :=
  if nodes.length ≤ 2 then nodes.length
  else
    let stop := min 9 nodes.length
    match (((nodes.map Prod.fst).take stop).drop 2).findIdx? (fun m => lastWordMod m 4 == 0) with
    | some i => i + 3
    | none => stop

def mergedHash (nodes : List (MerkleHash × Nat)) : MerkleHash × Nat :=
  let line (node : MerkleHash × Nat) := s!"{hex node.1} : {node.2}\n"
  (computeInternalNodeHash P (nodes.flatMap (fun node => (line node).toUTF8.data.toList)),
    (nodes.map Prod.snd).sum)

/-- One level of the tree, group by group. -/
def mergeLevel : Nat → List (MerkleHash × Nat) → List (MerkleHash × Nat)
  | 0, _ => []
  | fuel + 1, nodes =>
    if nodes.isEmpty then []
    else
      let cut := nextMergeCut nodes
      mergedHash P (nodes.take cut) :: mergeLevel fuel (nodes.drop cut)

/-- `aggregated_node_hash`, level by level. Every group but a last one has two
nodes at least, so a list has at most as many levels as nodes. -/
def aggregate : Nat → List (MerkleHash × Nat) → MerkleHash
  | _, [] => zeroHash
  | _, [node] => node.1
  | 0, _ => zeroHash
  | fuel + 1, nodes => aggregate fuel (mergeLevel P nodes.length nodes)

def xorbHash (nodes : List (MerkleHash × Nat)) : MerkleHash := aggregate P nodes.length nodes

/-- `file_hash`: salted with zeros, but for no chunks at all. -/
def fileHash (nodes : List (MerkleHash × Nat)) : MerkleHash :=
  if nodes.isEmpty then zeroHash else P.keyedHash zeroHash.bytes (xorbHash P nodes).bytes

end Aggregation

section Laws

/-- A property of all bytes, checked one by one. -/
theorem forall_byte {p : UInt8 → Prop} (h : ∀ n < 256, p (UInt8.ofNat n)) (b : UInt8) : p b := by
  have hb := h b.toNat b.toNat_lt
  rwa [UInt8.ofNat_toNat] at hb

theorem digitByte_digit {d : UInt8} (h : d < 16) :
    digitValue (digitByte d) = some d ∧ (digitByte d).toNat < 128 := by
  revert h
  apply forall_byte (p := fun d => d < 16 → digitValue (digitByte d) = some d ∧ _ < 128) _ d
  decide +kernel

theorem digitValue_lower {c d : UInt8} (hc : isLowerHexByte c = true) (h : digitValue c = some d) :
    d < 16 ∧ digitByte d = c := by
  have hall : isLowerHexByte c = true → (digitValue c).all (fun d => d < 16 && digitByte d == c) := by
    apply forall_byte (p := fun c => isLowerHexByte c = true → (digitValue c).all _) _ c
    decide +kernel
  simpa [h] using hall hc

theorem digitByte_lower {d : UInt8} (h : d < 16) : isLowerHexByte (digitByte d) = true := by
  revert h
  apply forall_byte (p := fun d => d < 16 → isLowerHexByte (digitByte d) = true) _ d
  decide +kernel

theorem high_low (b : UInt8) : b / 16 < 16 ∧ b % 16 < 16 ∧ 16 * (b / 16) + b % 16 = b := by
  apply forall_byte (p := fun b => b / 16 < 16 ∧ b % 16 < 16 ∧ 16 * (b / 16) + b % 16 = b) _ b
  decide +kernel

theorem joined {hi lo : UInt8} (hhi : hi < 16) (hlo : lo < 16) :
    (16 * hi + lo) / 16 = hi ∧ (16 * hi + lo) % 16 = lo := by
  have h₁ : hi.toNat < 16 := hhi
  have h₂ : lo.toNat < 16 := hlo
  constructor
  · apply UInt8.toNat_inj.mp
    simp
    omega
  · apply UInt8.toNat_inj.mp
    simp
    omega

theorem utf8_digitChar {d : UInt8} (h : d < 16) :
    String.utf8EncodeChar (digitChar d) = [digitByte d] := by
  revert h
  apply forall_byte (p := fun d => d < 16 → String.utf8EncodeChar (digitChar d) = [digitByte d]) _ d
  decide +kernel

/-- The text of bytes, as UTF-8. -/
theorem hexText_utf8 (bytes : Bytes) : (hexText bytes).toUTF8.data.toList =
    bytes.flatMap (fun b => [digitByte (b / 16), digitByte (b % 16)]) := by
  rw [String.toUTF8, hexText, String.toByteArray_ofList]
  induction bytes with
  | nil => simp
  | cons b bytes ih =>
    obtain ⟨hhi, hlo, _⟩ := high_low b
    simp [List.utf8Encode, utf8_digitChar hhi, utf8_digitChar hlo] at ih ⊢
    exact ih

theorem hex_form (m : MerkleHash) : isHashHex (hex m) = true := by
  have hlen := length_swapGroups (n := 4) m.size
  have hsize : (hex m).utf8ByteSize = (hex m).toUTF8.data.toList.length := rfl
  rw [isHashHex, hsize, hex, hexText_utf8, Bool.and_eq_true, beq_iff_eq, List.all_flatMap]
  refine ⟨?_, List.all_eq_true.mpr ?_⟩
  · simp [List.length_flatMap, hlen, HASH_HEX_LEN, HASH_BYTES]
  · intro b _
    obtain ⟨hhi, hlo, _⟩ := high_low b
    simp [digitByte_lower hhi, digitByte_lower hlo]

theorem unhex_hexText (bytes : Bytes) : unhex (hexText bytes).toUTF8.data.toList = some bytes := by
  rw [hexText_utf8]
  induction bytes with
  | nil => rfl
  | cons b bytes ih =>
    obtain ⟨hhi, hlo, hb⟩ := high_low b
    simp [unhex, ih, (digitByte_digit hhi).1, (digitByte_digit hlo).1, hb]

theorem hexText_unhex {text bytes : Bytes} (hlower : ∀ c ∈ text, isLowerHexByte c = true)
    (h : unhex text = some bytes) :
    bytes.flatMap (fun b => [digitByte (b / 16), digitByte (b % 16)]) = text := by
  induction text using unhex.induct generalizing bytes with
  | case1 =>
    cases h
    rfl
  | case2 => cases h
  | case3 hi lo rest ih =>
    simp only [unhex, Option.bind_eq_bind, Option.bind_eq_some_iff] at h
    obtain ⟨hi', hhi, lo', hlo, rest', hrest, he⟩ := h
    cases he
    obtain ⟨hhi', hhib⟩ := digitValue_lower (hlower hi (by simp)) hhi
    obtain ⟨hlo', hlob⟩ := digitValue_lower (hlower lo (by simp)) hlo
    obtain ⟨h₁, h₂⟩ := joined hhi' hlo'
    have hih := ih (fun c hc => hlower c (by simp [hc])) hrest
    simp [h₁, h₂, hhib, hlob, hih]

theorem fromHex_hex (m : MerkleHash) : fromHex (hex m) = .ok m := by
  have hsize : m.bytes.length = 8 * 4 := m.size
  have hlen := length_swapGroups hsize
  have hback := swapGroups_swapGroups hsize
  unfold fromHex hex
  rw [unhex_hexText]
  have hh : (swapGroups 4 m.bytes).length = HASH_BYTES := hlen
  simp [hh, hback]

theorem hex_injective (m m' : MerkleHash) (h : hex m = hex m') : m = m' := by
  have hm := fromHex_hex m
  rw [h, fromHex_hex] at hm
  cases hm
  rfl

theorem hex_roundTrip (s : String) (m : MerkleHash) (hs : isHashHex s = true)
    (h : fromHex s = .ok m) : hex m = s := by
  simp only [isHashHex, Bool.and_eq_true, List.all_eq_true] at hs
  unfold fromHex at h
  split at h
  · cases h
  · rename_i bytes hbytes
    split at h
    · rename_i hlen
      cases h
      apply String.toByteArray_inj.mp
      have htext := hexText_unhex hs.2 hbytes
      rw [← hexText_utf8] at htext
      rw [hex, swapGroups_swapGroups (n := 4) hlen]
      exact ByteArray.ext (Array.toList_inj.mp htext)
    · cases h

end Laws

end Xetcas.Formats
