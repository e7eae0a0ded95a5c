import Xetcas.XorbStore

namespace Xetcas.Proofs.Durability
open Lib Disk

/-- Whenever the `exists` test of `missing_ancestors` answers yes, every entry
on the way to that directory is already durable. -/
def SeesDurable (d : Disk) : Disk.Act → Prop
  | .advance i => ∀ cursor missing, (d.calls i).phase = .probing cursor missing →
      d.tree.dirs cursor = true → d.tree.Anchored cursor
  | _ => True

/-- The object of a hash is at its path: all of it, as some call submitted it. -/
def HasObject (d : Disk) (h : String) : Prop :=
  ∃ node, d.tree.files (pathFor h) = some node ∧ node.whole = true ∧ node.data ∈ d.submitted h

/-- What the store promises: an acknowledged object is there, and so is the
object of every row, after any power loss that may come now. -/
def SurvivesPowerLoss (d : Disk) : Prop :=
  ∀ keep d', d.step (.powerLoss keep) = some d' →
    ∀ h, d.acked h = true ∨ d.rows h = true → HasObject d' h

def home (c : WriteCall) : Path := (pathFor c.hashHex).dropLast

/-- Every directory on the way to `dir` is durable or still on the list of
those whose parent is to be synced. -/
def Pending (t : DurableTree Bytes) (dir : Path) (fresh : List Path) : Prop :=
  ∀ q, q <+: dir → q ≠ [] → t.dirDurable q = true ∨ q ∈ fresh

/-- Every directory on the way to `dir` exists or is still to be made. -/
def Made (t : DurableTree Bytes) (dir : Path) (todo : List Path) : Prop :=
  ∀ q, q <+: dir → q ≠ [] → t.dirs q = true ∨ q ∈ todo

/-- What a call has achieved before each of its file-system calls. -/
def PhaseOk (d : Disk) (c : WriteCall) : Prop :=
  match c.phase with
  | .idle | .staging | .returned false => True
  | .probing cursor missing =>
    ∀ q, q <+: home c → q ≠ [] → q <+: cursor ∨ q ∈ missing
  | .making todo fresh => Pending d.tree (home c) fresh ∧ Made d.tree (home c) todo
  | .syncing fresh => Pending d.tree (home c) fresh ∧ Made d.tree (home c) []
  | .creating | .writing => d.tree.Anchored (home c)
  | .flushing => d.tree.Anchored (home c) ∧ c.temp.data = c.bytes
  | .renaming => d.tree.Anchored (home c) ∧ c.temp = ⟨c.bytes, true⟩
  | .syncingLeaf => d.tree.Anchored (home c) ∧ (d.tree.files (pathFor c.hashHex)).isSome = true
  | .returned true => d.acked c.hashHex = true

structure CallOk (d : Disk) (c : WriteCall) : Prop where
  submitted : c.phase ≠ .idle → c.bytes ∈ d.submitted c.hashHex
  phase : PhaseOk d c

/-- The invariant: durable chains above every acknowledged object, and under
each name only data that some call submitted for it. -/
structure Kept (d : Disk) : Prop where
  root : d.tree.dirs [] = true
  sound : d.tree.Sound
  present : ∀ p, (d.tree.filesDurable p).isSome = true → (d.tree.files p).isSome = true
  named : ∀ h node, d.tree.files (pathFor h) = some node → node.data ∈ d.submitted h
  namedDurable : ∀ h node, d.tree.filesDurable (pathFor h) = some node → node.data ∈ d.submitted h
  acked : ∀ h, d.acked h = true → d.tree.Anchored (pathFor h).dropLast ∧
    (d.tree.filesDurable (pathFor h)).isSome = true
  rows : ∀ h, d.rows h = true → d.acked h = true
  calls : ∀ i, CallOk d (d.calls i)

theorem fresh_kept : Kept fresh := by
  refine ⟨rfl, DurableTree.bare_sound, ?_, ?_, ?_, ?_, ?_, ?_⟩
  · simp [fresh, DurableTree.bare]
  · simp [fresh, DurableTree.bare]
  · simp [fresh, DurableTree.bare]
  · simp [fresh]
  · simp [fresh]
  · intro i
    exact ⟨fun h => absurd rfl h, trivial⟩

/-- The disk only grows between power losses, so what a call has achieved stays
achieved whatever the other calls do. -/
structure Later (d d' : Disk) : Prop where
  dirs : ∀ p, d.tree.dirs p = true → d'.tree.dirs p = true
  durable : d.tree.Grows d'.tree
  files : ∀ p, (d.tree.files p).isSome = true → (d'.tree.files p).isSome = true
  submitted : ∀ h b, b ∈ d.submitted h → b ∈ d'.submitted h
  acked : ∀ h, d.acked h = true → d'.acked h = true

section Later
variable {d d' : Disk} {c : WriteCall} {dir : Path} {paths : List Path}

theorem Later.pending (l : Later d d') (h : Pending d.tree dir paths) :
    Pending d'.tree dir paths :=
  fun q hq hne => (h q hq hne).imp (l.durable q hne) id

theorem Later.made (l : Later d d') (h : Made d.tree dir paths) : Made d'.tree dir paths :=
  fun q hq hne => (h q hq hne).imp (l.dirs q) id

theorem Later.callOk (l : Later d d') (h : CallOk d c) : CallOk d' c := by
  refine ⟨fun hc => l.submitted _ _ (h.submitted hc), ?_⟩
  have hp := h.phase
  unfold PhaseOk at hp ⊢
  split at hp
  · trivial
  · trivial
  · trivial
  · exact hp
  · exact ⟨l.pending hp.1, l.made hp.2⟩
  · exact ⟨l.pending hp.1, l.made hp.2⟩
  · exact l.durable.anchored hp
  · exact l.durable.anchored hp
  · exact ⟨l.durable.anchored hp.1, hp.2⟩
  · exact ⟨l.durable.anchored hp.1, hp.2⟩
  · exact ⟨l.durable.anchored hp.1, l.files _ hp.2⟩
  · exact l.acked _ hp

end Later

theorem pathFor_ne_nil (h : String) : pathFor h ≠ [] := by simp [pathFor]

/-- Nothing on the way to a directory is left out by the list of fresh ones. -/
theorem Pending.anchored {t : DurableTree Bytes} {dir : Path} (h : Pending t dir []) :
    t.Anchored dir := by
  intro q hq hne
  simpa using h q hq hne

theorem made_ancestors (t : DurableTree Bytes) (dir : Path) : Made t dir (ancestors dir) := by
  intro q hq hne
  right
  simpa [ancestors, List.mem_filter] using And.intro hq hne

/-- Where the walk up stops, the directories below it are exactly the missing
ones and those above it are durable. -/
theorem pending_of_probe {t : DurableTree Bytes} {dir cursor : Path} {missing : List Path}
    (hwalk : ∀ q, q <+: dir → q ≠ [] → q <+: cursor ∨ q ∈ missing)
    (hfound : t.Anchored cursor) : Pending t dir missing.reverse := by
  intro q hq hne
  rcases hwalk q hq hne with hc | hm
  · exact .inl (hfound q hc hne)
  · exact .inr (by simpa using hm)

/-- One turn of the walk up. -/
theorem walk_up {dir cursor : Path} {missing : List Path}
    (hwalk : ∀ q, q <+: dir → q ≠ [] → q <+: cursor ∨ q ∈ missing) :
    ∀ q, q <+: dir → q ≠ [] → q <+: cursor.dropLast ∨ q ∈ missing ++ [cursor] := by
  intro q hq hne
  rcases hwalk q hq hne with hc | hm
  · by_cases he : q = cursor
    · exact .inr (by simp [he])
    · left
      have hcne : cursor ≠ [] := by
        intro hsame
        subst hsame
        exact hne (List.prefix_nil.mp hc)
      rw [← List.dropLast_append_getLast hcne] at hc
      rcases List.prefix_concat_iff.mp hc with h' | h'
      · exact absurd (h'.trans (List.dropLast_append_getLast hcne)) he
      · exact h'
  · exact .inr (List.mem_append_left _ hm)

/-- The phases of a successful call, as one relation per file-system call. -/
inductive Advance (d : Disk) (i : Nat) : Disk → Prop
  | staging (ph : (d.calls i).phase = .staging) :
      Advance d i (d.setPhase i (.probing (d.parent i) []))
  | walk {cursor missing} (ph : (d.calls i).phase = .probing cursor missing)
      (absent : d.tree.dirs cursor = false) (below : cursor ≠ []) :
      Advance d i (d.setPhase i (.probing cursor.dropLast (missing ++ [cursor])))
  | found {cursor missing} (ph : (d.calls i).phase = .probing cursor missing)
      (present : d.tree.dirs cursor = true) :
      Advance d i (d.setPhase i (.making (ancestors (d.parent i)) missing.reverse))
  | rootless {missing} (ph : (d.calls i).phase = .probing [] missing)
      (absent : d.tree.dirs [] = false) :
      Advance d i (d.setPhase i (.making (ancestors (d.parent i)) (missing ++ [[]]).reverse))
  | made {fresh} (ph : (d.calls i).phase = .making [] fresh) :
      Advance d i (d.setPhase i (.syncing fresh))
  | make {dir todo fresh} (ph : (d.calls i).phase = .making (dir :: todo) fresh) :
      Advance d i ({ d with tree := d.tree.mkdir dir }.setPhase i (.making todo fresh))
  | synced (ph : (d.calls i).phase = .syncing []) : Advance d i (d.setPhase i .creating)
  | sync {dir fresh} (ph : (d.calls i).phase = .syncing (dir :: fresh)) :
      Advance d i ({ d with tree := d.tree.syncDir dir.dropLast }.setPhase i (.syncing fresh))
  | create (ph : (d.calls i).phase = .creating) : Advance d i (d.setTemp i ⟨[], false⟩ .writing)
  | write (ph : (d.calls i).phase = .writing) :
      Advance d i (d.setTemp i ⟨(d.calls i).bytes, false⟩ .flushing)
  | flush (ph : (d.calls i).phase = .flushing) :
      Advance d i (d.setTemp i { (d.calls i).temp with whole := true } .renaming)
  | rename (ph : (d.calls i).phase = .renaming) :
      Advance d i ({ d with
        tree := d.tree.place (pathFor (d.calls i).hashHex) (d.calls i).temp }.setPhase i .syncingLeaf)
  | finish (ph : (d.calls i).phase = .syncingLeaf) :
      Advance d i ({ d with
        tree := d.tree.syncDir (d.parent i)
        acked := Function.update d.acked (d.calls i).hashHex true }.setPhase i (.returned true))

theorem advance_moves {d d' : Disk} {i : Nat} (h : d.advance i = some d') : Advance d i d' := by
  unfold Disk.advance at h
  split at h
  · cases h
  · cases h
  · cases h; exact .staging (by assumption)
  · rename_i cursor missing ph
    cases hd : d.tree.dirs cursor with
    | true =>
      simp only [probe, hd, ↓reduceIte, Option.some.injEq] at h
      subst h
      exact .found ph hd
    | false =>
      cases cursor with
      | nil =>
        simp only [probe, hd, Bool.false_eq_true, ↓reduceIte, Option.some.injEq] at h
        subst h
        exact .rootless ph hd
      | cons x xs =>
        simp only [probe, hd, Bool.false_eq_true, ↓reduceIte, Option.some.injEq] at h
        subst h
        exact .walk ph hd (by simp)
  all_goals cases h
  · exact .made (by assumption)
  · exact .make (by assumption)
  · exact .synced (by assumption)
  · exact .sync (by assumption)
  · exact .create (by assumption)
  · exact .write (by assumption)
  · exact .flush (by assumption)
  · exact .rename (by assumption)
  · exact .finish (by assumption)

section Kept
variable {d d' : Disk} {i : Nat}

/-- The acting call may change as long as it is in order; nothing else moves. -/
theorem Kept.retask (h : Kept d) {c : WriteCall} (hc : CallOk d c) :
    Kept { d with calls := Function.update d.calls i c } := by
  have l : Later d { d with calls := Function.update d.calls i c } :=
    ⟨fun _ h => h, fun _ _ h => h, fun _ h => h, fun _ _ h => h, fun _ h => h⟩
  refine ⟨h.root, h.sound, h.present, h.named, h.namedDurable, h.acked, h.rows, ?_⟩
  intro j
  by_cases hj : j = i
  · simpa [hj] using l.callOk hc
  · simpa [hj] using l.callOk (h.calls j)

theorem Kept.mkdir (h : Kept d) (dir : Path) :
    Later d { d with tree := d.tree.mkdir dir } ∧ Kept { d with tree := d.tree.mkdir dir } := by
  have hdirs : ∀ p, d.tree.dirs p = true → (d.tree.mkdir dir).dirs p = true := by
    intro p hp
    by_cases he : p = dir
    · simp [DurableTree.mkdir, he]
    · simpa [DurableTree.mkdir, he] using hp
  have l : Later d { d with tree := d.tree.mkdir dir } :=
    ⟨hdirs, DurableTree.mkdir_grows dir, fun _ h => h, fun _ _ h => h, fun _ h => h⟩
  exact ⟨l, hdirs _ h.root, h.sound.mkdir dir, h.present, h.named, h.namedDurable, h.acked,
    h.rows, fun j => l.callOk (h.calls j)⟩

theorem Kept.syncDir (h : Kept d) (dir : Path) :
    Later d { d with tree := d.tree.syncDir dir } ∧ Kept { d with tree := d.tree.syncDir dir } := by
  have l : Later d { d with tree := d.tree.syncDir dir } :=
    ⟨fun _ h => h, DurableTree.syncDir_grows h.sound dir, fun _ h => h, fun _ _ h => h,
      fun _ h => h⟩
  refine ⟨l, h.root, h.sound.syncDir dir, ?_, h.named, ?_, ?_, h.rows, fun j => l.callOk (h.calls j)⟩
  · intro p hp
    simp only [DurableTree.syncDir] at hp ⊢
    split at hp
    · exact hp
    · exact h.present p hp
  · intro hash node hn
    simp only [DurableTree.syncDir] at hn
    split at hn
    · exact h.named hash node hn
    · exact h.namedDurable hash node hn
  · intro hash ha
    obtain ⟨hanchor, hfile⟩ := h.acked hash ha
    refine ⟨l.durable.anchored hanchor, ?_⟩
    simp only [DurableTree.syncDir]
    split
    · exact h.present _ hfile
    · exact hfile

theorem Kept.place (h : Kept d) {hash : String} {data : Bytes} (hd : data ∈ d.submitted hash) :
    Later d { d with tree := d.tree.place (pathFor hash) ⟨data, true⟩ } ∧
    Kept { d with tree := d.tree.place (pathFor hash) ⟨data, true⟩ } := by
  have hfiles : ∀ p, (d.tree.files p).isSome = true →
      ((d.tree.place (pathFor hash) ⟨data, true⟩).files p).isSome = true := by
    intro p hp
    by_cases he : p = pathFor hash
    · simp [DurableTree.place, he]
    · simpa [DurableTree.place, he] using hp
  have l : Later d { d with tree := d.tree.place (pathFor hash) ⟨data, true⟩ } :=
    ⟨fun _ h => h, DurableTree.place_grows _ _, hfiles, fun _ _ h => h, fun _ h => h⟩
  refine ⟨l, h.root, h.sound.place _ data, ?_, ?_, h.namedDurable, h.acked, h.rows,
    fun j => l.callOk (h.calls j)⟩
  · intro p hp
    exact hfiles p (h.present p hp)
  · intro hash' node hn
    by_cases he : hash' = hash
    · subst he
      simp only [DurableTree.place, Function.update_self, Option.some.injEq] at hn
      simpa [← hn] using hd
    · have hne : pathFor hash' ≠ pathFor hash := fun hp => he (pathFor_injective hp)
      exact h.named hash' node (by simpa [DurableTree.place, hne] using hn)

/-- Acknowledging a hash whose object is durable. -/
theorem Kept.ack (h : Kept d) {hash : String} (hanchor : d.tree.Anchored (pathFor hash).dropLast)
    (hfile : (d.tree.filesDurable (pathFor hash)).isSome = true) :
    Kept { d with acked := Function.update d.acked hash true } := by
  have hacked : ∀ x, d.acked x = true → Function.update d.acked hash true x = true := by
    intro x hx
    by_cases he : x = hash
    · simp [he]
    · simpa [he] using hx
  have l : Later d { d with acked := Function.update d.acked hash true } :=
    ⟨fun _ h => h, fun _ _ h => h, fun _ h => h, fun _ _ h => h, hacked⟩
  refine ⟨h.root, h.sound, h.present, h.named, h.namedDurable, ?_, fun x hx => hacked x (h.rows x hx),
    fun j => l.callOk (h.calls j)⟩
  intro x hx
  by_cases he : x = hash
  · subst he
    exact ⟨hanchor, hfile⟩
  · exact h.acked x (by simpa [he] using hx)

/-- Syncing the parent of a directory takes it off the list. -/
theorem pending_synced {t : DurableTree Bytes} {dir target : Path} {fresh : List Path}
    (hs : t.Sound) (hp : Pending t dir (target :: fresh)) (hm : Made t dir []) :
    Pending (t.syncDir target.dropLast) dir fresh := by
  intro q hq hne
  have hdir : t.dirs q = true := by simpa using hm q hq hne
  rcases hp q hq hne with hd | hmem
  · exact .inl (DurableTree.syncDir_grows hs _ q hne hd)
  · rcases List.mem_cons.mp hmem with rfl | hmem
    · exact .inl (by simp [DurableTree.syncDir, hne, hdir])
    · exact .inr hmem

theorem advance_kept (h : Kept d) (hg : SeesDurable d (.advance i)) (hs : d.advance i = some d') :
    Kept d' := by
  have hc := h.calls i
  have hbytes := hc.submitted
  have hp := hc.phase
  unfold PhaseOk at hp
  cases advance_moves hs with
  | staging ph =>
    refine h.retask ⟨fun _ => hbytes (by simp [ph]), ?_⟩
    intro q hq _
    exact .inl hq
  | @walk cursor missing ph absent below =>
    simp only [ph] at hp
    exact h.retask ⟨fun _ => hbytes (by simp [ph]), walk_up hp⟩
  | @found cursor missing ph present =>
    simp only [ph] at hp
    have hfound := hg cursor missing ph present
    exact h.retask ⟨fun _ => hbytes (by simp [ph]), pending_of_probe hp hfound, made_ancestors _ _⟩
  | rootless ph absent => simp [h.root] at absent
  | made ph =>
    simp only [ph] at hp
    exact h.retask ⟨fun _ => hbytes (by simp [ph]), hp⟩
  | @make dir todo fresh ph =>
    simp only [ph] at hp
    obtain ⟨l, hk⟩ := h.mkdir dir
    refine hk.retask ⟨fun _ => hbytes (by simp [ph]), l.pending hp.1, ?_⟩
    intro q hq hne
    rcases hp.2 q hq hne with hd | hmem
    · exact .inl (l.dirs q hd)
    · rcases List.mem_cons.mp hmem with rfl | hmem
      · exact .inl (by simp [DurableTree.mkdir])
      · exact .inr hmem
  | synced ph =>
    simp only [ph] at hp
    exact h.retask ⟨fun _ => hbytes (by simp [ph]), hp.1.anchored⟩
  | @sync dir fresh ph =>
    simp only [ph] at hp
    obtain ⟨l, hk⟩ := h.syncDir dir.dropLast
    exact hk.retask ⟨fun _ => hbytes (by simp [ph]), pending_synced h.sound hp.1 hp.2, l.made hp.2⟩
  | create ph =>
    simp only [ph] at hp
    exact h.retask ⟨fun _ => hbytes (by simp [ph]), hp⟩
  | write ph =>
    simp only [ph] at hp
    exact h.retask ⟨fun _ => hbytes (by simp [ph]), hp, rfl⟩
  | flush ph =>
    simp only [ph] at hp
    refine h.retask ⟨fun _ => hbytes (by simp [ph]), hp.1, ?_⟩
    simp [hp.2]
  | rename ph =>
    simp only [ph] at hp
    rw [hp.2]
    obtain ⟨l, hk⟩ := h.place (hbytes (by simp [ph]))
    refine hk.retask ⟨fun _ => hbytes (by simp [ph]), l.durable.anchored hp.1, ?_⟩
    simp [DurableTree.place]
  | finish ph =>
    simp only [ph] at hp
    obtain ⟨l, hk⟩ := h.syncDir (d.parent i)
    have hdurable : ((d.tree.syncDir (d.parent i)).filesDurable
        (pathFor (d.calls i).hashHex)).isSome = true := by
      simpa [DurableTree.syncDir, pathFor_ne_nil, Disk.parent] using hp.2
    have hack := hk.ack (l.durable.anchored hp.1) hdurable
    exact hack.retask ⟨fun _ => hbytes (by simp [ph]), by simp [PhaseOk]⟩

theorem noCall_ok (d : Disk) : CallOk d noCall := ⟨fun h => absurd rfl h, trivial⟩

theorem powerLoss_kept (h : Kept d) (keep : Path → Bool) :
    Kept { d with tree := d.tree.powerLoss [] keep, calls := fun _ => noCall } := by
  have hfile : ∀ p, (d.tree.powerLoss [] keep).files p =
      if d.tree.survives keep p.dropLast then
        (if keep p then d.tree.files p else d.tree.filesDurable p) else none :=
    fun p => DurableTree.powerLoss_file h.sound [] keep
  have hnamed : ∀ hash node, (d.tree.powerLoss [] keep).files (pathFor hash) = some node →
      node.data ∈ d.submitted hash := by
    intro hash node hn
    rw [hfile] at hn
    split at hn
    · split at hn
      · exact h.named hash node hn
      · exact h.namedDurable hash node hn
    · cases hn
  refine ⟨?_, h.sound.powerLoss [] keep, fun _ hp => hp, hnamed, hnamed, ?_, h.rows,
    fun _ => noCall_ok _⟩
  · exact DurableTree.anchored_root.survives h.sound keep
  · intro hash ha
    obtain ⟨hanchor, hdurable⟩ := h.acked hash ha
    refine ⟨DurableTree.powerLoss_anchored h.sound hanchor [] keep, ?_⟩
    change ((d.tree.powerLoss [] keep).files (pathFor hash)).isSome = true
    rw [hfile, if_pos (hanchor.survives h.sound keep)]
    split
    · exact h.present _ hdurable
    · exact hdurable

theorem step_kept (h : Kept d) {a : Disk.Act} (hg : SeesDurable d a) (hs : d.step a = some d') :
    Kept d' := by
  cases a with
  | call j hash bytes =>
    simp only [Disk.step] at hs
    split at hs
    · cases hs
      have hsub : ∀ x b, b ∈ d.submitted x →
          b ∈ Function.update d.submitted hash (bytes :: d.submitted hash) x := by
        intro x b hb
        by_cases he : x = hash
        · subst he
          simp [hb]
        · simpa [he] using hb
      have l : Later d { d with
          submitted := Function.update d.submitted hash (bytes :: d.submitted hash) } :=
        ⟨fun _ h => h, fun _ _ h => h, fun _ h => h, hsub, fun _ h => h⟩
      have hk : Kept { d with
          submitted := Function.update d.submitted hash (bytes :: d.submitted hash) } :=
        ⟨h.root, h.sound, h.present, fun x node hn => hsub x _ (h.named x node hn),
          fun x node hn => hsub x _ (h.namedDurable x node hn), h.acked, h.rows,
          fun k => l.callOk (h.calls k)⟩
      exact hk.retask ⟨fun _ => by simp, trivial⟩
    · cases hs
  | advance j => exact advance_kept h hg hs
  | fail j =>
    simp only [Disk.step] at hs
    split at hs
    · cases hs
    · cases hs
    · cases hs
      refine h.retask ⟨fun _ => (h.calls j).submitted ?_, trivial⟩
      assumption
  | insertRow j =>
    simp only [Disk.step] at hs
    split at hs
    · rename_i ph
      cases hs
      refine ⟨h.root, h.sound, h.present, h.named, h.namedDurable, h.acked, ?_, ?_⟩
      · intro x hx
        by_cases he : x = (d.calls j).hashHex
        · subst he
          have hp := (h.calls j).phase
          simpa [PhaseOk, ph] using hp
        · exact h.rows x (by simpa [he] using hx)
      · intro k
        exact ⟨(h.calls k).submitted, (h.calls k).phase⟩
    · cases hs
  | crash =>
    cases hs
    exact ⟨h.root, h.sound, h.present, h.named, h.namedDurable, h.acked, h.rows,
      fun _ => noCall_ok _⟩
  | powerLoss keep =>
    cases hs
    exact powerLoss_kept h keep

theorem Kept.survives (h : Kept d) : SurvivesPowerLoss d := by
  intro keep d' hs hash hpromise
  have hk' := powerLoss_kept h keep
  cases hs
  have hack : d.acked hash = true := by
    rcases hpromise with ha | hr
    · exact ha
    · exact h.rows hash hr
  obtain ⟨-, hdurable⟩ := hk'.acked hash hack
  obtain ⟨node, hn⟩ := Option.isSome_iff_exists.mp hdurable
  exact ⟨node, hn, hk'.sound.filesDurable _ node hn, hk'.namedDurable hash node hn⟩

/-- If every directory a call finds in place is already durable, no
acknowledged object is ever lost, under any interleaving and any failures. -/
theorem acknowledged_objects_survive {d : Disk} (h : machine.Reachable SeesDurable d) :
    SurvivesPowerLoss d :=
  (h.invariant (fun _ hs => hs ▸ fresh_kept) (fun _ _ _ _ hi hg hs => step_kept hi hg hs)).survives

end Kept

def seesDurable (d : Disk) : Disk.Act → Bool
  | .advance i =>
    match (d.calls i).phase with
    | .probing cursor _ =>
      !d.tree.dirs cursor || cursor.inits.all (fun q => q.isEmpty || d.tree.dirDurable q)
    | _ => true
  | _ => true

theorem seesDurable_sound (d : Disk) (a : Disk.Act) (h : seesDurable d a = true) :
    SeesDurable d a := by
  cases a with
  | advance i =>
    intro cursor missing ph present q hq hne
    simp only [seesDurable, ph, present, Bool.not_true, Bool.false_or, List.all_eq_true,
      List.mem_inits, Bool.or_eq_true, List.isEmpty_iff] at h
    exact (h q hq).resolve_left hne
  | _ => trivial

def hash0 : String := "abcd000000000000000000000000000000000000000000000000000000000000"
def hash1 : String := "abcd000000000000000000000000000000000000000000000000000000000001"

/-- Two writes under one new prefix, the second started when the first is done. -/
theorem one_after_the_other_survives : ∃ d : Disk,
    (d.acked hash0 = true ∧ d.acked hash1 = true) ∧ SurvivesPowerLoss d := by
  obtain ⟨d, hrun, hp⟩ := Machine.exec_reaches machine SeesDurable seesDurable
    (fun d => d.acked hash0 && d.acked hash1) seesDurable_sound fresh
    (.call 0 hash0 [1] :: List.replicate 15 (.advance 0) ++
      .call 1 hash1 [2] :: List.replicate 11 (.advance 1)) (by decide +kernel)
  exact ⟨d, by simpa using hp, acknowledged_objects_survive ⟨fresh, rfl, hrun⟩⟩

/-- A second write finds the prefix directories the first has made and not yet
synced, is acknowledged, and loses its object to a power loss. -/
theorem acknowledged_object_lost :
    ¬∀ d, machine.Reachable Machine.anyStep d → SurvivesPowerLoss d := by
  intro hall
  obtain ⟨d, hrun, hp⟩ := Machine.exec_reaches machine Machine.anyStep (fun _ _ => true)
    (fun d => d.acked hash1 &&
      ((d.tree.powerLoss [] (fun _ => false)).files (pathFor hash1)).isNone)
    (fun _ _ _ => trivial) fresh
    (.call 0 hash0 [1] :: List.replicate 6 (.advance 0) ++
      .call 1 hash1 [2] :: List.replicate 11 (.advance 1)) (by decide +kernel)
  simp only [Bool.and_eq_true, Option.isNone_iff_eq_none] at hp
  obtain ⟨node, hnode, -⟩ :=
    hall d ⟨fresh, rfl, hrun⟩ (fun _ => false) _ rfl hash1 (.inl hp.1)
  rw [hp.2] at hnode
  cases hnode

end Xetcas.Proofs.Durability
