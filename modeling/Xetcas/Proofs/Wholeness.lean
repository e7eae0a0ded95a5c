import Xetcas.Proofs.Durability

namespace Xetcas.Proofs.Wholeness
open Lib Disk Durability
variable {d d' : Disk} {submitted : String → List Bytes} {i : Nat}

/-- The temp file of a call is what the call has to write before it is renamed. -/
structure TempOk (submitted : String → List Bytes) (c : WriteCall) : Prop where
  asked : c.phase ≠ .idle → c.bytes ∈ submitted c.hashHex
  written : c.phase = .flushing → c.temp.data = c.bytes
  flushed : c.phase = .renaming → c.temp = ⟨c.bytes, true⟩

/-- A file is where the object of a hash belongs, and is one that was submitted
for that hash. -/
def Belongs (submitted : String → List Bytes) (p : Path) (node : Inode Bytes) : Prop :=
  ∃ hash, p = pathFor hash ∧ node.data ∈ submitted hash

structure Intact (d : Disk) : Prop where
  sound : d.tree.Sound
  files : ∀ p node, d.tree.files p = some node → Belongs d.submitted p node
  filesDurable : ∀ p node, d.tree.filesDurable p = some node → Belongs d.submitted p node
  calls : ∀ i, TempOk d.submitted (d.calls i)

theorem noCall_tempOk : TempOk submitted noCall := by
  refine ⟨fun h => absurd rfl h, ?_, ?_⟩
  · simp [noCall]
  · simp [noCall]

theorem fresh_intact : Intact fresh := by
  refine ⟨DurableTree.bare_sound, ?_, ?_, fun _ => noCall_tempOk⟩
  · intro p node hfile
    cases hfile
  · intro p node hfile
    cases hfile

/-- One call moves on; the tree stays. -/
theorem Intact.recall (h : Intact d) {c : WriteCall} (hc : TempOk d.submitted c) :
    Intact { d with calls := Function.update d.calls i c } := by
  refine ⟨h.sound, h.files, h.filesDurable, ?_⟩
  intro j
  by_cases hj : j = i
  · simpa [hj] using hc
  · simpa [hj] using h.calls j

/-- The tree changes, and holds no other files than before. -/
theorem Intact.retree (h : Intact d) {tree : DurableTree Bytes} (hs : tree.Sound)
    (hfiles : ∀ p node, tree.files p = some node →
      d.tree.files p = some node ∨ d.tree.filesDurable p = some node ∨ Belongs d.submitted p node)
    (hdurable : ∀ p node, tree.filesDurable p = some node →
      d.tree.files p = some node ∨ d.tree.filesDurable p = some node) :
    Intact { d with tree := tree } := by
  refine ⟨hs, ?_, ?_, h.calls⟩
  · intro p node hfile
    rcases hfiles p node hfile with hold | hold | hnew
    · exact h.files p node hold
    · exact h.filesDurable p node hold
    · exact hnew
  · intro p node hfile
    rcases hdurable p node hfile with hold | hold
    · exact h.files p node hold
    · exact h.filesDurable p node hold

theorem Intact.mkdir (h : Intact d) (dir : Path) : Intact { d with tree := d.tree.mkdir dir } :=
  h.retree (h.sound.mkdir dir) (fun _ _ hfile => .inl hfile) (fun _ _ hfile => .inr hfile)

theorem Intact.syncDir (h : Intact d) (dir : Path) : Intact { d with tree := d.tree.syncDir dir } := by
  refine h.retree (h.sound.syncDir dir) (fun _ _ hfile => .inl hfile) ?_
  intro p node hfile
  simp only [DurableTree.syncDir] at hfile
  split at hfile
  · exact .inl hfile
  · exact .inr hfile

/-- Only a temp file that is written and flushed gets a final name. -/
theorem Intact.rename (h : Intact d) (ph : (d.calls i).phase = .renaming) :
    Intact { d with tree := d.tree.place (pathFor (d.calls i).hashHex) (d.calls i).temp } := by
  have hc := h.calls i
  have hbytes := hc.asked (by simp [ph])
  rw [hc.flushed ph]
  refine h.retree (h.sound.place _ _) ?_ (fun _ _ hfile => .inr hfile)
  intro p node hfile
  simp only [DurableTree.place] at hfile
  by_cases hp : p = pathFor (d.calls i).hashHex
  · subst hp
    rw [Function.update_self] at hfile
    cases hfile
    exact .inr (.inr ⟨_, rfl, hbytes⟩)
  · rw [Function.update_of_ne hp] at hfile
    exact .inl hfile

theorem advance_intact (h : Intact d) (hs : d.advance i = some d') : Intact d' := by
  have hc := h.calls i
  have hbytes : (d.calls i).phase ≠ .idle → (d.calls i).bytes ∈ d.submitted (d.calls i).hashHex :=
    hc.asked
  cases advance_moves hs with
  | staging ph => exact h.recall ⟨fun _ => hbytes (by simp [ph]), by simp, by simp⟩
  | walk ph absent below => exact h.recall ⟨fun _ => hbytes (by simp [ph]), by simp, by simp⟩
  | found ph present => exact h.recall ⟨fun _ => hbytes (by simp [ph]), by simp, by simp⟩
  | rootless ph absent => exact h.recall ⟨fun _ => hbytes (by simp [ph]), by simp, by simp⟩
  | made ph => exact h.recall ⟨fun _ => hbytes (by simp [ph]), by simp, by simp⟩
  | make ph => exact (h.mkdir _).recall ⟨fun _ => hbytes (by simp [ph]), by simp, by simp⟩
  | synced ph => exact h.recall ⟨fun _ => hbytes (by simp [ph]), by simp, by simp⟩
  | sync ph => exact (h.syncDir _).recall ⟨fun _ => hbytes (by simp [ph]), by simp, by simp⟩
  | create ph => exact h.recall ⟨fun _ => hbytes (by simp [ph]), by simp, by simp⟩
  | write ph => exact h.recall ⟨fun _ => hbytes (by simp [ph]), fun _ => rfl, by simp⟩
  | flush ph =>
    refine h.recall ⟨fun _ => hbytes (by simp [ph]), by simp, ?_⟩
    intro _
    simp only [hc.written ph]
  | rename ph => exact (h.rename ph).recall ⟨fun _ => hbytes (by simp [ph]), by simp, by simp⟩
  | finish ph =>
    have hacked : Intact { d with
        tree := d.tree.syncDir (d.parent i)
        acked := Function.update d.acked (d.calls i).hashHex true } := by
      have hsynced := h.syncDir (d.parent i)
      exact ⟨hsynced.sound, hsynced.files, hsynced.filesDurable, hsynced.calls⟩
    exact hacked.recall ⟨fun _ => hbytes (by simp [ph]), by simp, by simp⟩

/-- A power loss leaves the old version of a file or the new one. -/
theorem powerLoss_intact (h : Intact d) (keep : Path → Bool) :
    Intact { d with tree := d.tree.powerLoss [] keep } := by
  have hfile : ∀ p node, (d.tree.powerLoss [] keep).files p = some node →
      d.tree.files p = some node ∨ d.tree.filesDurable p = some node := by
    intro p node hnode
    rw [DurableTree.powerLoss_file h.sound] at hnode
    split at hnode
    · split at hnode
      · exact .inl hnode
      · exact .inr hnode
    · cases hnode
  exact h.retree (h.sound.powerLoss [] keep)
    (fun p node hnode => (hfile p node hnode).imp_right .inl) hfile

theorem step_intact (h : Intact d) {a : Disk.Act} (hs : d.step a = some d') : Intact d' := by
  cases a with
  | call j hash bytes =>
    simp only [Disk.step] at hs
    split at hs
    · cases hs
      have hmore : ∀ x b, b ∈ d.submitted x →
          b ∈ Function.update d.submitted hash (bytes :: d.submitted hash) x := by
        intro x b hb
        by_cases he : x = hash
        · subst he
          simp [hb]
        · simpa [he] using hb
      have hgrown : Intact { d with
          submitted := Function.update d.submitted hash (bytes :: d.submitted hash) } := by
        refine ⟨h.sound, ?_, ?_, ?_⟩
        · intro p node hfile
          obtain ⟨x, hp, hx⟩ := h.files p node hfile
          exact ⟨x, hp, hmore x _ hx⟩
        · intro p node hfile
          obtain ⟨x, hp, hx⟩ := h.filesDurable p node hfile
          exact ⟨x, hp, hmore x _ hx⟩
        · intro k
          exact ⟨fun hk => hmore _ _ ((h.calls k).asked hk), (h.calls k).written,
            (h.calls k).flushed⟩
      exact hgrown.recall ⟨fun _ => by simp, by simp, by simp⟩
    · cases hs
  | advance j => exact advance_intact h hs
  | fail j =>
    simp only [Disk.step] at hs
    split at hs
    · cases hs
    · cases hs
    · rename_i hidle _
      cases hs
      exact h.recall ⟨fun _ => (h.calls j).asked hidle, by simp, by simp⟩
  | insertRow j =>
    simp only [Disk.step] at hs
    split at hs
    · cases hs
      exact ⟨h.sound, h.files, h.filesDurable, h.calls⟩
    · cases hs
  | crash =>
    cases hs
    exact ⟨h.sound, h.files, h.filesDurable, fun _ => noCall_tempOk⟩
  | powerLoss keep =>
    cases hs
    have hleft := powerLoss_intact h keep
    exact ⟨hleft.sound, hleft.files, hleft.filesDurable, fun _ => noCall_tempOk⟩

/-- However writers race, fail and are cut off by crashes and power losses:
below the store's root there are only whole objects, each under the name of the
hash that it was submitted for. -/
theorem objects_never_torn (h : Disk.machine.Reachable Machine.anyStep d) {p : Path}
    {node : Inode Bytes} (hfile : d.tree.files p = some node) :
    node.whole = true ∧ ∃ hash, p = pathFor hash ∧ node.data ∈ d.submitted hash := by
  have hintact : Intact d :=
    h.invariant (fun _ hs => hs ▸ fresh_intact) (fun _ _ _ _ hi _ hs => step_intact hi hs)
  exact ⟨hintact.sound.files p node hfile, hintact.files p node hfile⟩

/-- The second of two racing writes loses the power, and leaves the first one's
object or its own. -/
theorem raced_object_whole : ∃ d node, Disk.machine.Reachable Machine.anyStep d ∧
    d.tree.files (pathFor hash0) = some node ∧
    (node.whole = true ∧ ∃ hash, pathFor hash0 = pathFor hash ∧ node.data ∈ d.submitted hash) := by
  obtain ⟨d, hrun, hp⟩ := Machine.exec_reaches Disk.machine Machine.anyStep (fun _ _ => true)
    (fun d => (d.tree.files (pathFor hash0)).isSome) (fun _ _ _ => trivial) fresh
    (.call 0 hash0 [1] :: .call 1 hash0 [2] :: List.replicate 15 (.advance 0) ++
      List.replicate 10 (.advance 1) ++ [.powerLoss (fun _ => false)]) (by decide +kernel)
  obtain ⟨node, hnode⟩ := Option.isSome_iff_exists.mp hp
  have hreach : Disk.machine.Reachable Machine.anyStep d := ⟨fresh, rfl, hrun⟩
  exact ⟨d, node, hreach, hnode, objects_never_torn hreach hnode⟩

end Xetcas.Proofs.Wholeness
