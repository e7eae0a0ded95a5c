import Mathlib.Data.UInt
import Xetcas.Lib.Table

namespace Xetcas.Lib

inductive Json where
  | null
  | bool (b : Bool)
  | number (n : Nat)
  /-- A number that is negative or has a fraction or an exponent, by its text. -/
  | otherNumber (text : String)
  | string (s : String)
  | array (items : List Json)
  | object (members : List (String × Json))

namespace Json

/-- All values under a name: a document can repeat its names. -/
def valuesOf (name : String) (members : List (String × Json)) : List Json :=
  (members.filter (fun m => m.1 = name)).map Prod.snd

theorem valuesOf_eq_nil {name : String} {members : List (String × Json)}
    (h : ∀ pair ∈ members, pair.1 ≠ name) : valuesOf name members = [] := by
  rw [valuesOf, List.map_eq_nil_iff, List.filter_eq_nil_iff]
  intro pair hpair
  simpa using h pair hpair

def get? (name : String) : Json → Option Json
  | .object members => (valuesOf name members).head?
  | _ => none

/-- A type of value: how it is rendered and how it is read. -/
structure Form (A : Type) where
  render : A → Json
  read : Json → Option A
  reads : ∀ a, read (render a) = some a

namespace Form
variable {A : Type}

def string : Form String where
  render := .string
  read
    | .string s => some s
    | _ => none
  reads _ := rfl

def bool : Form Bool where
  render := .bool
  read
    | .bool b => some b
    | _ => none
  reads _ := rfl

def uint64 : Form UInt64 where
  render n := .number n.toNat
  read
    | .number n => if n < 2 ^ 64 then some (UInt64.ofNat n) else none
    | _ => none
  reads n := by simp [n.toNat_lt]

def uint32 : Form UInt32 where
  render n := .number n.toNat
  read
    | .number n => if n < 2 ^ 32 then some (UInt32.ofNat n) else none
    | _ => none
  reads n := by simp [n.toNat_lt]

def uint8 : Form UInt8 where
  render n := .number n.toNat
  read
    | .number n => if n < 2 ^ 8 then some (UInt8.ofNat n) else none
    | _ => none
  reads n := by simp [n.toNat_lt]

def list (f : Form A) : Form (List A) where
  render as := .array (as.map f.render)
  read
    | .array items => items.mapM f.read
    | _ => none
  reads as := by
    induction as with
    | nil => rfl
    | cons a as ih =>
      simp only at ih
      simp only [List.map_cons, List.mapM_cons, f.reads, ih]
      rfl

/-- `Option`, of a value that is not rendered as `null` itself. -/
def optional (f : Form A) (solid : ∀ a, f.render a ≠ .null) : Form (Option A) where
  render
    | none => .null
    | some a => f.render a
  read
    | .null => some none
    | j => (f.read j).map some
  reads a := by
    cases a with
    | none => rfl
    | some a =>
      have hread := f.reads a
      have hsolid := solid a
      dsimp only
      generalize f.render a = j at hread hsolid ⊢
      cases j with
      | null => exact absurd rfl hsolid
      | _ => simp only [hread, Option.map_some]

/-- A map's rows, the last one of each name. -/
def readRows (f : Form A) : Table String A → List (String × Json) → Option (Table String A)
  | t, [] => some t
  | t, (name, j) :: rows => (f.read j).bind (fun a => readRows f (t.upsert name (fun _ => a)) rows)

theorem readRows_rendered (f : Form A) {t : Table String A} {rows : List (String × A)}
    (h : ((t.rows ++ rows).map Prod.fst).Nodup) :
    ∃ u, f.readRows t (rows.map (fun row => (row.1, f.render row.2))) = some u ∧
      u.rows = t.rows ++ rows := by
  induction rows generalizing t with
  | nil => exact ⟨t, rfl, by simp⟩
  | cons row rows ih =>
    have hnew : t.get? row.1 = none := by
      apply Table.get?_eq_none.mpr
      intro hold
      rw [List.map_append] at h
      exact (List.nodup_append.mp h).2.2 _ hold _ (by simp) rfl
    have hrows : (t.upsert row.1 (fun _ => row.2)).rows = t.rows ++ [row] := by
      simp [Table.upsert, hnew]
    obtain ⟨u, hread, hu⟩ := ih (t := t.upsert row.1 (fun _ => row.2)) (by simpa [hrows] using h)
    exact ⟨u, by simpa [readRows, f.reads] using hread, by simp [hu, hrows]⟩

def map (f : Form A) : Form (Table String A) where
  render t := .object (t.rows.map (fun row => (row.1, f.render row.2)))
  read
    | .object members => f.readRows .empty members
    | _ => none
  reads t := by
    have hkeys : (((Table.empty : Table String A).rows ++ t.rows).map Prod.fst).Nodup := by
      simpa [Table.empty] using t.keys
    obtain ⟨u, hread, hu⟩ := f.readRows_rendered hkeys
    have hsame : u = t := Table.eq_of_rows (by simpa [Table.empty] using hu)
    simpa [hsame] using hread

theorem get?_map (f : Form A) (t : Table String A) (name : String) :
    (f.map.render t).get? name = (t.get? name).map f.render := by
  obtain ⟨rows, _⟩ := t
  change (valuesOf name (rows.map (fun row => (row.1, f.render row.2)))).head? =
    (rowOf name rows).map f.render
  induction rows with
  | nil => rfl
  | cons row rows ih =>
    by_cases hname : row.1 = name
    · simp [valuesOf, rowOf, hname]
    · have hother : name ≠ row.1 := fun he => hname he.symm
      simp only [List.map_cons, List.nodup_cons] at *
      simpa [valuesOf, rowOf, hname, hother] using ih (by tauto)

/-- A struct that is rendered as its only field. -/
def transparent {R : Type} (f : Form A) (get : R → A) (make : A → R)
    (makes : ∀ r, make (get r) = r) : Form R where
  render r := f.render (get r)
  read j := (f.read j).map make
  reads r := by simp [f.reads, makes]

end Form

/-- A field of the struct `R`. `skip` is when it is left out, `fallback` is what
it is by default, and `missing` what an object without it is read as. -/
structure Member (R : Type) where
  name : String
  {A : Type}
  form : Form A
  get : R → A
  set : R → A → R
  skip : A → Bool := fun _ => false
  fallback : Option A := none
  missing : Option A := fallback
  skips : ∀ a, skip a = true → missing = some a := by simp

namespace Member
variable {R : Type} (m : Member R)

def render (r : R) : Option (String × Json) :=
  if m.skip (m.get r) then none else some (m.name, m.form.render (m.get r))

theorem name_render {r : R} {pair : String × Json} (h : m.render r = some pair) :
    pair.1 = m.name := by
  unfold render at h
  split at h
  · cases h
  · cases h
    rfl

/-- A field is read from the members of an object, which must not repeat it. -/
def take (members : List (String × Json)) (r : R) : Option R :=
  match valuesOf m.name members with
  | [] => m.missing.map (m.set r)
  | [j] => (m.form.read j).map (m.set r)
  | _ => none

end Member

/-- A struct: its fields in order. -/
structure Layout (R : Type) where
  blank : R
  members : List (Member R)
  distinct : (members.map Member.name).Nodup := by decide
  whole : ∀ r, members.foldl (fun r' m => m.set r' (m.get r)) blank = r := by intros; rfl

namespace Layout
variable {R : Type} (L : Layout R)

def render (r : R) : Json := .object (L.members.filterMap (fun m => m.render r))

/-- Members of other names are ignored. -/
def readObject (members : List (String × Json)) : Option R :=
  L.members.foldlM (fun r m => m.take members r) L.blank

/-- An array holds the fields in their order; defaults can be missing at its end. -/
def readItems : List (Member R) → List Json → R → Option R
  | [], [], r => some r
  | [], _ :: _, _ => none
  | m :: ms, [], r => m.fallback.bind (fun a => readItems ms [] (m.set r a))
  | m :: ms, j :: js, r => (m.form.read j).bind (fun a => readItems ms js (m.set r a))

def read : Json → Option R
  | .object members => L.readObject members
  | .array items => readItems L.members items L.blank
  | _ => none

variable {L} {r : R}

/-- Only the field itself is rendered under its name. -/
theorem valuesOf_rendered {m : Member R} (h : m ∈ L.members) :
    valuesOf m.name (L.members.filterMap (fun m => m.render r)) =
      ((m.render r).map Prod.snd).toList := by
  obtain ⟨before, after, hmembers⟩ := List.append_of_mem h
  have hdistinct := L.distinct
  rw [hmembers, List.map_append, List.map_cons, List.nodup_append, List.nodup_cons] at hdistinct
  obtain ⟨_, ⟨hafter, _⟩, hbefore⟩ := hdistinct
  have hother : ∀ ms : List (Member R), (∀ m' ∈ ms, m'.name ≠ m.name) →
      valuesOf m.name (ms.filterMap (fun m => m.render r)) = [] := by
    intro ms hms
    apply valuesOf_eq_nil
    intro pair hpair
    obtain ⟨m', hm', hrender⟩ := List.mem_filterMap.mp hpair
    rw [m'.name_render hrender]
    exact hms m' hm'
  have hfront := hother before (fun m' hm' he =>
    hbefore _ (List.mem_map_of_mem hm') _ (List.mem_cons_self) he)
  have hback := hother after (fun m' hm' he => hafter (he ▸ List.mem_map_of_mem hm'))
  unfold valuesOf at hfront hback ⊢
  rw [hmembers, List.filterMap_append, List.filter_append, List.map_append, hfront,
    List.nil_append, List.filterMap_cons]
  unfold Member.render at hback ⊢
  cases m.skip (m.get r) with
  | true => simpa using hback
  | false => simpa using hback

/-- An object as it can be sent: its members in any order, and beside them
others that the struct does not know. -/
def Sent (L : Layout R) (r : R) (members : List (String × Json)) : Prop :=
  ∃ extra, members.Perm (L.members.filterMap (fun m => m.render r) ++ extra) ∧
    ∀ pair ∈ extra, pair.1 ∉ L.members.map Member.name

theorem Sent.valuesOf {members : List (String × Json)} (h : L.Sent r members) {m : Member R}
    (hm : m ∈ L.members) :
    Json.valuesOf m.name members = ((m.render r).map Prod.snd).toList := by
  obtain ⟨extra, hperm, hextra⟩ := h
  have hnone : Json.valuesOf m.name extra = [] := by
    apply valuesOf_eq_nil
    intro pair hpair he
    exact hextra pair hpair (he ▸ List.mem_map_of_mem hm)
  have hvalues := (hperm.filter (fun pair => pair.1 = m.name)).map Prod.snd
  rw [List.filter_append, List.map_append] at hvalues
  change (Json.valuesOf m.name members).Perm
    (Json.valuesOf m.name _ ++ Json.valuesOf m.name extra) at hvalues
  rw [hnone, List.append_nil, valuesOf_rendered hm] at hvalues
  cases hrender : m.render r with
  | none =>
    rw [hrender] at hvalues
    exact List.perm_nil.mp hvalues
  | some pair =>
    rw [hrender] at hvalues
    exact List.perm_singleton.mp hvalues

/-- Whatever was read before, a field is read as it was rendered. -/
theorem Sent.take {members : List (String × Json)} (h : L.Sent r members) {m : Member R}
    (hm : m ∈ L.members) (r' : R) : m.take members r' = some (m.set r' (m.get r)) := by
  unfold Member.take
  rw [h.valuesOf hm, Member.render]
  cases hskip : m.skip (m.get r) with
  | true => simp [m.skips _ hskip]
  | false => simp [m.form.reads]

theorem Sent.takeAll {members : List (String × Json)} (h : L.Sent r members)
    {ms : List (Member R)} (hms : ms ⊆ L.members) (r' : R) :
    ms.foldlM (fun r' m => m.take members r') r' =
      some (ms.foldl (fun r' m => m.set r' (m.get r)) r') := by
  induction ms generalizing r' with
  | nil => rfl
  | cons m ms ih =>
    rw [List.cons_subset] at hms
    rw [List.foldlM_cons, h.take hms.1]
    exact ih hms.2 _

theorem Sent.read {members : List (String × Json)} (h : L.Sent r members) :
    L.read (.object members) = some r := by
  rw [Layout.read, readObject, h.takeAll (List.Subset.refl _), L.whole]

theorem read_render (L : Layout R) (r : R) : L.read (L.render r) = some r :=
  Sent.read ⟨[], by simp, by simp⟩

def form (L : Layout R) : Form R where
  render := L.render
  read := L.read
  reads := L.read_render

/-- An `Option` of the struct. -/
def optional (L : Layout R) : Form (Option R) := .optional L.form (fun _ => nofun)

/-- A member of the object is its field, -/
theorem get?_render (L : Layout R) (r : R) (i : Nat) (h : i < L.members.length)
    (hkept : L.members[i].skip (L.members[i].get r) = false) :
    (L.render r).get? L.members[i].name =
      some (L.members[i].form.render (L.members[i].get r)) := by
  rw [render, Json.get?, valuesOf_rendered (List.getElem_mem h), Member.render, hkept]
  rfl

/-- unless that is left out. -/
theorem get?_skipped (L : Layout R) (r : R) (i : Nat) (h : i < L.members.length)
    (hskip : L.members[i].skip (L.members[i].get r) = true) :
    (L.render r).get? L.members[i].name = none := by
  rw [render, Json.get?, valuesOf_rendered (List.getElem_mem h), Member.render, hskip]
  rfl

end Layout

end Json

end Xetcas.Lib
