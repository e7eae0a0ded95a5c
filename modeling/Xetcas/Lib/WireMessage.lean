import Xetcas.Lib.Ascii
import Xetcas.Lib.Wire

namespace Xetcas.Lib.Wire

/-- A type of field: how a value is written and merged into what was read
before. A value that is not set is not written. -/
structure Kind (A : Type) where
  unset : A
  write : A → List Payload
  merge : A → Payload → Option A
  restores : ∀ a, (∀ p ∈ write a, p.Fits) → (write a).foldlM merge unset = some a

namespace Kind

def string : Kind String where
  unset := ""
  write s := if s = "" then [] else [.delimited s.toUTF8.data.toList]
  merge _ p :=
    match p with
    | .delimited bytes => String.fromUTF8? ⟨⟨bytes⟩⟩
    | _ => none
  restores := by
    intro s _
    split
    · rename_i hempty
      rw [hempty]
      rfl
    · simpa using fromUTF8_bytes s

def bytes : Kind (List UInt8) where
  unset := []
  write b := if b = [] then [] else [.delimited b]
  merge _ p :=
    match p with
    | .delimited b => some b
    | _ => none
  restores := by
    intro b _
    split
    · rename_i hempty
      rw [hempty]
      rfl
    · rfl

def uint64 : Kind UInt64 where
  unset := 0
  write n := if n = 0 then [] else [.varint n]
  merge _ p :=
    match p with
    | .varint n => some n
    | _ => none
  restores := by
    intro n _
    split
    · rename_i hzero
      rw [hzero]
      rfl
    · rfl

/-- `uint32`. What is too large is cut. -/
def uint32 : Kind UInt32 where
  unset := 0
  write n := if n = 0 then [] else [.varint n.toUInt64]
  merge _ p :=
    match p with
    | .varint n => some n.toUInt32
    | _ => none
  restores := by
    intro n _
    split
    · rename_i hzero
      rw [hzero]
      rfl
    · simp

def unpack : Nat → List UInt8 → Option (List UInt32)
  | _, [] => some []
  | 0, _ :: _ => none
  | k + 1, b :: bytes =>
    match takeVarint (b :: bytes) with
    | none => none
    | some (n, rest) => (unpack k rest).map (n.toUInt32 :: ·)

def pack (ns : List UInt32) : List UInt8 := ns.flatMap (fun n => varint n.toUInt64)

theorem unpack_pack {ns : List UInt32} {k : Nat} (hk : (pack ns).length ≤ k) :
    unpack k (pack ns) = some ns := by
  induction ns generalizing k with
  | nil => cases k <;> rfl
  | cons n ns ih =>
    have hcons : pack (n :: ns) = varint n.toUInt64 ++ pack ns := by simp [pack]
    rw [hcons] at hk ⊢
    obtain ⟨b, bytes, hb⟩ := List.exists_cons_of_ne_nil
      (List.append_ne_nil_of_left_ne_nil (varint_ne_nil n.toUInt64) (pack ns))
    have htake := takeVarint_varint n.toUInt64 (pack ns)
    have hpos := List.length_pos_of_ne_nil (varint_ne_nil n.toUInt64)
    rw [List.length_append] at hk
    cases k with
    | zero => omega
    | succ k =>
      rw [hb] at htake ⊢
      have hrest := ih (k := k) (by omega)
      simp [unpack, htake, hrest]

/-- `repeated uint32`: written packed, read packed or not. -/
def packed : Kind (List UInt32) where
  unset := []
  write ns := if ns = [] then [] else [.delimited (pack ns)]
  merge before p :=
    match p with
    | .delimited bytes => (unpack bytes.length bytes).map (before ++ ·)
    | .varint n => some (before ++ [n.toUInt32])
    | _ => none
  restores := by
    intro ns _
    split
    · rename_i hempty
      rw [hempty]
      rfl
    · simp [unpack_pack (Nat.le_refl _)]

end Kind

structure Slot (R : Type) where
  tag : Nat
  tagged : Tagged tag := by decide
  {A : Type}
  kind : Kind A
  get : R → A
  set : R → A → R
  get_set : ∀ r a, get (set r a) = a := by intros; rfl
  set_get : ∀ r, set r (get r) = r := by intros; rfl
  set_set : ∀ r a b, set (set r a) b = set r b := by intros; rfl

namespace Slot
variable {R : Type}

def fields (s : Slot R) (r : R) : List Field := (s.kind.write (s.get r)).map (⟨s.tag, ·⟩)

def merge (s : Slot R) (r : R) (p : Payload) : Option R := (s.kind.merge (s.get r) p).map (s.set r)

/-- Merging payloads touches nothing but the field. -/
theorem foldlM_merge (s : Slot R) (r : R) (ps : List Payload) :
    ps.foldlM s.merge r = (ps.foldlM s.kind.merge (s.get r)).map (s.set r) := by
  induction ps generalizing r with
  | nil => simp [s.set_get]
  | cons p ps ih =>
    rw [List.foldlM_cons, List.foldlM_cons, merge]
    cases s.kind.merge (s.get r) p with
    | none => rfl
    | some a =>
      simp only [Option.map_some, Option.bind_eq_bind, Option.bind_some, ih, s.get_set]
      congr 1
      funext b
      exact s.set_set r a b

end Slot

/-- A message: its empty value, and its fields in the order they are written. -/
structure Layout (R : Type) where
  empty : R
  slots : List (Slot R)
  distinct : (slots.map Slot.tag).Nodup
  unset : ∀ s ∈ slots, s.get empty = s.kind.unset
  apart : slots.Pairwise (fun s t => ∀ r a, t.get (s.set r a) = t.get r)
  whole : ∀ r, slots.foldl (fun r' s => s.set r' (s.get r)) empty = r

namespace Layout
variable {R : Type} (L : Layout R)

def fields (r : R) : List Field := L.slots.flatMap (fun s => s.fields r)

/-- A field of another tag is skipped. -/
def merge (r : R) (f : Field) : Option R :=
  match L.slots.find? (fun s => s.tag = f.tag) with
  | some s => s.merge r f.payload
  | none => some r

/-- A group of another tag is skipped, too; no field of a message is one. -/
def mergeItem (r : R) : Item → Option R
  | .field f => L.merge r f
  | .group tag => if tag ∈ L.slots.map Slot.tag then none else some r

def encode (r : R) : List UInt8 := serialize (L.fields r)

/-- Reads a message, in which others and groups may be nested so deep. -/
def decode (depth : Nat) (bytes : List UInt8) : Option R :=
  (parse depth bytes).bind (fun items => items.foldlM L.mergeItem L.empty)

variable {L} {r : R}

theorem merge_slot {s : Slot R} (h : s ∈ L.slots) (p : Payload) :
    L.merge r ⟨s.tag, p⟩ = s.merge r p := by
  obtain ⟨before, after, hslots⟩ := List.append_of_mem h
  have hdistinct := L.distinct
  rw [hslots, List.map_append, List.map_cons] at hdistinct
  have hfirst : ∀ t ∈ before, ¬t.tag = s.tag := by
    intro t ht he
    exact (List.nodup_append.mp hdistinct).2.2 t.tag (List.mem_map_of_mem ht) s.tag (by simp) he
  have hfound : L.slots.find? (fun t => t.tag = s.tag) = some s := by
    rw [hslots, List.find?_append, List.find?_eq_none.mpr (by simpa using hfirst)]
    simp
  simp only [merge, hfound]

theorem mem_fields {f : Field} (h : f ∈ L.fields r) :
    ∃ s ∈ L.slots, f.tag = s.tag ∧ f.payload ∈ s.kind.write (s.get r) := by
  obtain ⟨s, hs, hf⟩ := List.mem_flatMap.mp h
  obtain ⟨p, hp, rfl⟩ := List.mem_map.mp hf
  exact ⟨s, hs, rfl, hp⟩

theorem fields_tagged : ∀ f ∈ L.fields r, Tagged f.tag := by
  intro f hf
  obtain ⟨s, _, htag, _⟩ := mem_fields hf
  rw [htag]
  exact s.tagged

/-- Slot after slot is set, whatever the ones before have left. -/
theorem foldlM_slots {todo : List (Slot R)} {r' : R} (hmem : ∀ s ∈ todo, s ∈ L.slots)
    (hapart : todo.Pairwise (fun s t => ∀ r a, t.get (s.set r a) = t.get r))
    (hunset : ∀ s ∈ todo, s.get r' = s.kind.unset)
    (hfits : ∀ s ∈ todo, ∀ p ∈ s.kind.write (s.get r), p.Fits) :
    (todo.flatMap (fun s => s.fields r)).foldlM L.merge r' =
      some (todo.foldl (fun r' s => s.set r' (s.get r)) r') := by
  induction todo generalizing r' with
  | nil => rfl
  | cons s todo ih =>
    rw [List.forall_mem_cons] at hmem hunset hfits
    rw [List.pairwise_cons] at hapart
    have hslot : (s.fields r).foldlM L.merge r' = some (s.set r' (s.get r)) := by
      rw [Slot.fields, List.foldlM_map]
      simp only [merge_slot hmem.1]
      rw [s.foldlM_merge, hunset.1, s.kind.restores _ hfits.1]
      rfl
    rw [List.flatMap_cons, List.foldlM_append, hslot, List.foldl_cons]
    refine ih hmem.2 hapart.2 ?_ hfits.2
    intro t ht
    rw [hapart.1 t ht, hunset.2 t ht]

theorem foldlM_fields (hfits : ∀ f ∈ L.fields r, f.payload.Fits) :
    (L.fields r).foldlM L.merge L.empty = some r := by
  have hwrites : ∀ s ∈ L.slots, ∀ p ∈ s.kind.write (s.get r), p.Fits := by
    intro s hs p hp
    exact hfits ⟨s.tag, p⟩ (List.mem_flatMap.mpr ⟨s, hs, List.mem_map_of_mem hp⟩)
  rw [fields, foldlM_slots (fun _ hs => hs) L.apart L.unset hwrites, L.whole]

/-- A message that has a length is read as it was written. -/
theorem decode_encode {depth : Nat} (hsize : (L.encode r).length < 2 ^ 64) :
    L.decode depth (L.encode r) = some r := by
  have hfits := fits_of_serialize hsize
  rw [decode, encode, parse_serialize fields_tagged hfits, Option.bind_some, List.foldlM_map]
  exact foldlM_fields hfits

end Layout

namespace Kind
variable {A : Type} (depth : Nat) (L : Layout A)

def mergeMessage (before : List A) : Payload → Option (List A)
  | .delimited bytes => (L.decode depth bytes).map (fun a => before ++ [a])
  | _ => none

theorem foldlM_mergeMessage {as before : List A}
    (hfits : ∀ a ∈ as, (Payload.delimited (L.encode a)).Fits) :
    (as.map (fun a => Payload.delimited (L.encode a))).foldlM (mergeMessage depth L) before =
      some (before ++ as) := by
  induction as generalizing before with
  | nil => simp
  | cons a as ih =>
    rw [List.forall_mem_cons] at hfits
    have hone : mergeMessage depth L before (.delimited (L.encode a)) = some (before ++ [a]) := by
      simp [mergeMessage, Layout.decode_encode hfits.1]
    have hrest : (as.map (fun a => Payload.delimited (L.encode a))).foldlM (mergeMessage depth L)
        (before ++ [a]) = some (before ++ [a] ++ as) := ih hfits.2
    rw [List.map_cons, List.foldlM_cons, hone]
    simpa using hrest

/-- `repeated` messages, with the depth that is left for them. -/
def messages : Kind (List A) where
  unset := []
  write as := as.map (fun a => .delimited (L.encode a))
  merge := mergeMessage depth L
  restores := by
    intro as hfits
    exact foldlM_mergeMessage depth L (fun a ha => hfits _ (List.mem_map_of_mem ha))

end Kind

end Xetcas.Lib.Wire
