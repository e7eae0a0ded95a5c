import Mathlib.Data.List.Basic
import Mathlib.Data.UInt

namespace Xetcas.Lib.Wire

/-- So many groups of seven bits, the lowest first. -/
def groups : Nat → Nat → List UInt8
  | 0, _ => []
  | k + 1, n => if n < 128 then [.ofNat n] else .ofNat (n % 128 + 128) :: groups k (n / 128)

/-- A varint: ten groups hold 64 bits. -/
def varint (n : UInt64) : List UInt8 := groups 10 n.toNat

/-- Reads the groups back. The last of ten has one bit left. -/
def takeGroups : Nat → List UInt8 → Option (Nat × List UInt8)
  | 0, _ | _ + 1, [] => none
  | k + 1, b :: bytes =>
    if b.toNat < 128 then
      if k = 0 ∧ 2 ≤ b.toNat then none else some (b.toNat, bytes)
    else (takeGroups k bytes).map (fun r => (b.toNat - 128 + 128 * r.1, r.2))

def takeVarint (bytes : List UInt8) : Option (UInt64 × List UInt8) :=
  (takeGroups 10 bytes).map (fun r => (.ofNat r.1, r.2))

theorem takeGroups_groups {k n : Nat} (h : n < 2 ^ (7 * k + 1)) (rest : List UInt8) :
    takeGroups (k + 1) (groups (k + 1) n ++ rest) = some (n, rest) := by
  induction k generalizing n with
  | zero =>
    have hone : n < 2 := h
    have hsmall : n < 128 := by omega
    have hn : (UInt8.ofNat n).toNat = n := by
      rw [UInt8.toNat_ofNat']
      omega
    simp [groups, takeGroups, hsmall, hn, hone]
  | succ k ih =>
    rw [groups]
    split
    · rename_i hsmall
      have hn : (UInt8.ofNat n).toNat = n := by
        rw [UInt8.toNat_ofNat']
        omega
      simp [takeGroups, hn, hsmall]
    · rename_i hlarge
      have hb : (UInt8.ofNat (n % 128 + 128)).toNat = n % 128 + 128 := by
        rw [UInt8.toNat_ofNat']
        omega
      have hshift : n / 128 < 2 ^ (7 * k + 1) := by
        have hpow : 2 ^ (7 * (k + 1) + 1) = 2 ^ (7 * k + 1) * 128 := by
          rw [show 7 * (k + 1) + 1 = 7 * k + 1 + 7 by omega, Nat.pow_add]
        rw [Nat.div_lt_iff_lt_mul (by decide)]
        omega
      rw [List.cons_append, takeGroups, hb, if_neg (by omega), ih hshift]
      simp only [Option.map_some, Option.some.injEq, Prod.mk.injEq, and_true]
      omega

@[simp] theorem takeVarint_varint (n : UInt64) (rest : List UInt8) :
    takeVarint (varint n ++ rest) = some (n, rest) := by
  have hn : n.toNat < 2 ^ (7 * 9 + 1) := n.toNat_lt
  rw [takeVarint, varint, takeGroups_groups hn]
  simp

theorem varint_ne_nil (n : UInt64) : varint n ≠ [] := by
  unfold varint groups
  split <;> simp

/-- What a field holds, by its wire type. -/
inductive Payload where
  | varint (n : UInt64)
  | fixed64 (bytes : { bytes : List UInt8 // bytes.length = 8 })
  | delimited (bytes : List UInt8)
  | fixed32 (bytes : { bytes : List UInt8 // bytes.length = 4 })
  deriving DecidableEq

namespace Payload

def wireType : Payload → Nat
  | varint _ => 0
  | fixed64 _ => 1
  | delimited _ => 2
  | fixed32 _ => 5

def bytes : Payload → List UInt8
  | varint n => Wire.varint n
  | fixed64 bytes => bytes.1
  | delimited bytes => Wire.varint (.ofNat bytes.length) ++ bytes
  | fixed32 bytes => bytes.1

def Fits : Payload → Prop
  | delimited bytes => bytes.length < 2 ^ 64
  | _ => True

def take (wireType : Nat) (bytes : List UInt8) : Option (Payload × List UInt8) :=
  match wireType with
  | 0 => (takeVarint bytes).map (fun r => (varint r.1, r.2))
  | 1 =>
    if h : (bytes.take 8).length = 8 then some (fixed64 ⟨bytes.take 8, h⟩, bytes.drop 8)
    else none
  | 2 =>
    match takeVarint bytes with
    | none => none
    | some (n, rest) =>
      if n.toNat ≤ rest.length then some (delimited (rest.take n.toNat), rest.drop n.toNat)
      else none
  | 5 =>
    if h : (bytes.take 4).length = 4 then some (fixed32 ⟨bytes.take 4, h⟩, bytes.drop 4)
    else none
  | _ => none

theorem take_bytes {p : Payload} (h : p.Fits) (rest : List UInt8) :
    take p.wireType (p.bytes ++ rest) = some (p, rest) := by
  cases p with
  | varint n => simp [wireType, take, bytes]
  | fixed64 bytes =>
    obtain ⟨bytes, hlength⟩ := bytes
    have htake : (bytes ++ rest).take 8 = bytes := by
      rw [← hlength, List.take_left]
    have hdrop : (bytes ++ rest).drop 8 = rest := by
      rw [← hlength, List.drop_left]
    simp [wireType, take, Payload.bytes, htake, hdrop, hlength]
  | delimited bytes =>
    have hlength : (UInt64.ofNat bytes.length).toNat = bytes.length := by
      rw [UInt64.toNat_ofNat']
      exact Nat.mod_eq_of_lt h
    simp [wireType, take, Payload.bytes, hlength]
  | fixed32 bytes =>
    obtain ⟨bytes, hlength⟩ := bytes
    have htake : (bytes ++ rest).take 4 = bytes := by
      rw [← hlength, List.take_left]
    have hdrop : (bytes ++ rest).drop 4 = rest := by
      rw [← hlength, List.drop_left]
    simp [wireType, take, Payload.bytes, htake, hdrop, hlength]

end Payload

structure Field where
  tag : Nat
  payload : Payload
  deriving DecidableEq

def Tagged (tag : Nat) : Prop := 0 < tag ∧ tag < 2 ^ 29

instance (tag : Nat) : Decidable (Tagged tag) := inferInstanceAs (Decidable (_ ∧ _))

namespace Field

def bytes (f : Field) : List UInt8 :=
  varint (.ofNat (f.tag * 8 + f.payload.wireType)) ++ f.payload.bytes

theorem bytes_ne_nil (f : Field) : f.bytes ≠ [] := by
  simp [bytes, varint_ne_nil]

end Field

/-- How deep messages and groups may be nested. -/
def RECURSION_LIMIT : Nat := 100

/-- A key: the tag and the wire type of what follows it. -/
def takeKey (bytes : List UInt8) : Option (Nat × Nat × List UInt8) :=
  match takeVarint bytes with
  | none => none
  | some (key, rest) =>
    if key.toNat < 2 ^ 32 ∧ key.toNat / 8 ≠ 0 then some (key.toNat / 8, key.toNat % 8, rest)
    else none

theorem takeKey_varint {tag wireType : Nat} (htag : Tagged tag) (htype : wireType < 8)
    (rest : List UInt8) :
    takeKey (varint (.ofNat (tag * 8 + wireType)) ++ rest) = some (tag, wireType, rest) := by
  have hkey : (UInt64.ofNat (tag * 8 + wireType)).toNat = tag * 8 + wireType := by
    rw [UInt64.toNat_ofNat']
    have := htag.2
    omega
  have hdiv : (tag * 8 + wireType) / 8 = tag := by omega
  have hmod : (tag * 8 + wireType) % 8 = wireType := by omega
  have hlarge : tag * 8 + wireType < 2 ^ 32 ∧ tag ≠ 0 := by
    have := htag.1
    have := htag.2
    omega
  rw [takeKey, takeVarint_varint]
  simp only [hkey, hdiv, hmod, if_pos hlarge]

/-- What follows a group, a deprecated wire type: its fields are skipped up to
the end of its tag. The first argument bounds how many they are. -/
def skipGroup : Nat → Nat → Nat → List UInt8 → Option (List UInt8)
  | 0, _, _, _ => none
  | fuel + 1, depth, tag, bytes =>
    match takeKey bytes with
    | none => none
    | some (inner, wireType, rest) =>
      if wireType = 4 then if inner = tag then some rest else none
      else if depth < 2 then none
      else if wireType = 3 then
        (skipGroup fuel (depth - 1) inner rest).bind (skipGroup fuel depth tag)
      else (Payload.take wireType rest).bind (fun r => skipGroup fuel depth tag r.2)

/-- What a message is made of: fields, and groups, whose content is not kept. -/
inductive Item where
  | field (f : Field)
  | group (tag : Nat)

namespace Item

/-- The first item, and what follows it. -/
def take (depth : Nat) (bytes : List UInt8) : Option (Item × List UInt8) :=
  match takeKey bytes with
  | none => none
  | some (tag, wireType, rest) =>
    if wireType = 3 then (skipGroup rest.length depth tag rest).map (fun rest => (group tag, rest))
    else (Payload.take wireType rest).map (fun r => (field ⟨tag, r.1⟩, r.2))

theorem take_bytes {f : Field} (htag : Tagged f.tag) (hfits : f.payload.Fits) (depth : Nat)
    (rest : List UInt8) : take depth (f.bytes ++ rest) = some (field f, rest) := by
  have htype : f.payload.wireType < 8 ∧ f.payload.wireType ≠ 3 := by
    cases f.payload <;> simp [Payload.wireType]
  rw [take, Field.bytes, List.append_assoc, takeKey_varint htag htype.1]
  simp only [if_neg htype.2, Payload.take_bytes hfits, Option.map_some]

end Item

def serialize (fs : List Field) : List UInt8 := fs.flatMap Field.bytes

/-- The items of some bytes. An item has a byte at least. -/
def parseItems (depth : Nat) : Nat → List UInt8 → Option (List Item)
  | _, [] => some []
  | 0, _ :: _ => none
  | k + 1, b :: bytes =>
    match Item.take depth (b :: bytes) with
    | none => none
    | some (item, rest) => (parseItems depth k rest).map (item :: ·)

def parse (depth : Nat) (bytes : List UInt8) : Option (List Item) :=
  parseItems depth bytes.length bytes

theorem parseItems_serialize {fs : List Field} {depth k : Nat}
    (htag : ∀ f ∈ fs, Tagged f.tag) (hfits : ∀ f ∈ fs, f.payload.Fits)
    (hk : (serialize fs).length ≤ k) :
    parseItems depth k (serialize fs) = some (fs.map Item.field) := by
  induction fs generalizing k with
  | nil => cases k <;> rfl
  | cons f fs ih =>
    rw [List.forall_mem_cons] at htag hfits
    have hcons : serialize (f :: fs) = f.bytes ++ serialize fs := by simp [serialize]
    rw [hcons] at hk ⊢
    obtain ⟨b, bytes, hb⟩ := List.exists_cons_of_ne_nil
      (List.append_ne_nil_of_left_ne_nil f.bytes_ne_nil (serialize fs))
    have htake := Item.take_bytes htag.1 hfits.1 depth (serialize fs)
    have hpos := List.length_pos_of_ne_nil f.bytes_ne_nil
    rw [List.length_append] at hk
    cases k with
    | zero => omega
    | succ k =>
      rw [hb] at htake ⊢
      have hrest := ih (k := k) htag.2 hfits.2 (by omega)
      simp only [parseItems, htake, hrest, Option.map_some, List.map_cons]

theorem parse_serialize {fs : List Field} {depth : Nat} (htag : ∀ f ∈ fs, Tagged f.tag)
    (hfits : ∀ f ∈ fs, f.payload.Fits) :
    parse depth (serialize fs) = some (fs.map Item.field) :=
  parseItems_serialize htag hfits (Nat.le_refl _)

theorem length_le_serialize {fs : List Field} {f : Field} (h : f ∈ fs) :
    f.bytes.length ≤ (serialize fs).length := by
  obtain ⟨before, after, rfl⟩ := List.append_of_mem h
  simp only [serialize, List.flatMap_append, List.flatMap_cons, List.length_append]
  omega

/-- No field of a message that fits is too long for its own length. -/
theorem fits_of_serialize {fs : List Field} (h : (serialize fs).length < 2 ^ 64) :
    ∀ f ∈ fs, f.payload.Fits := by
  intro f hf
  have hle := length_le_serialize hf
  cases hp : f.payload with
  | delimited bytes =>
    simp only [Field.bytes, hp, Payload.bytes, List.length_append] at hle
    simp only [Payload.Fits]
    omega
  | _ => trivial

end Xetcas.Lib.Wire
