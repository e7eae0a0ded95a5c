import Xetcas.Lib.Counting
import Xetcas.Proofs.Frozen

namespace Xetcas.Proofs.Health
open Lib Server Routes Routes.Xorbs Provenance Agreement Layout Frozen
variable {U : Upstream} {D : Deployment} {s s' : Server} {state state' : AppState}

/-- The length of the object file of a hash, as it is now. -/
def objectLength (state : AppState) (hash : String) : Nat :=
  ((state.objects (pathFor hash)).map List.length).getD 0

theorem objectLength_eq {hash : String} {object : Bytes}
    (h : state.objects (pathFor hash) = some object) : objectLength state hash = object.length := by
  simp [objectLength, h]

def rowBytes (state : AppState) : Nat :=
  (state.index.xorbs.rows.map (fun row => objectLength state row.1)).sum

/-- The file an upload writes is as long as it will say, and is in place from
its rename to its insert. -/
structure Placed (objects : Path → Option Bytes) (u : XorbUpload) : Prop where
  measured : ∀ {record dedup disk stored renamed}, u.stage = .writing record dedup disk →
    u.task = .write stored renamed → stored.length = disk
  renamed : ∀ {stored}, u.task = .write stored true → objects (pathFor u.hash) = some stored
  put : ∀ {record dedup disk}, u.task = .put record dedup disk →
    ∃ stored, objects (pathFor u.hash) = some stored ∧ stored.length = disk

section Upload
variable {i : Nat} {g g' : AppState} {u u' : XorbUpload} {act : XorbAct}
  {objects objects' : Path → Option Bytes}

theorem placed_none (h : u.task = .none) : Placed objects u := by
  constructor <;> simp [h]

/-- The upload goes on to a stage at which it writes nothing. -/
theorem Placed.leave (h : Placed objects u) (htask : u'.task = u.task) (hhash : u'.hash = u.hash)
    (hstage : ∀ record dedup disk, u'.stage ≠ .writing record dedup disk) : Placed objects u' := by
  refine ⟨fun hw => absurd hw (hstage _ _ _), ?_, ?_⟩
  · intro stored ht
    rw [hhash]
    exact h.renamed (htask ▸ ht)
  · intro record dedup disk ht
    rw [hhash]
    exact h.put (htask ▸ ht)

/-- Only the object of its own hash matters to an upload, and that only while
it has a task that writes. -/
theorem Placed.frame (h : Placed objects u)
    (hsame : (∃ stored renamed, u.task = .write stored renamed) ∨
      (∃ record dedup disk, u.task = .put record dedup disk) →
        objects' (pathFor u.hash) = objects (pathFor u.hash)) : Placed objects' u := by
  refine ⟨h.measured, ?_, ?_⟩
  · intro stored ht
    rw [hsame (.inl ⟨_, _, ht⟩)]
    exact h.renamed ht
  · intro record dedup disk ht
    rw [hsame (.inr ⟨_, _, _, ht⟩)]
    exact h.put ht

theorem moves_placed (h : XorbMoves U i g u act g' u') (hu : Attended u)
    (hp : Placed g.objects u) : Placed g'.objects u' := by
  cases h with
  | refused idle no => exact hp.leave rfl rfl (by simp)
  | admitted idle yes => exact placed_none (hu.task_eq (by simp [idle, XorbStage.awaits]))
  | permit stage free => exact hp.leave rfl rfl (by simp)
  | read stage fits => constructor <;> simp
  | prepared stage task good enter => exact placed_none rfl
  | returned live freed holds exists_ =>
    rcases freed with rfl | ⟨rfl, _⟩
    · exact placed_none rfl
    · exact hp.leave rfl rfl (by simp [XorbUpload.return_])
  | orphanEnded task gone => exact placed_none rfl
  | locked stage acquire => exact hp.leave rfl rfl (by simp)
  | write stage absent =>
    refine ⟨?_, by simp, by simp⟩
    intro record dedup disk stored renamed hstage htask
    cases hstage
    cases htask
    rfl
  | renamed task =>
    refine ⟨?_, ?_, by simp⟩
    · intro record dedup disk stored renamed hstage htask
      cases htask
      exact hp.measured hstage task
    · intro stored htask
      cases htask
      exact Function.update_self _ _ _
  | inserting task stage =>
    refine ⟨by simp, by simp, ?_⟩
    intro record dedup disk htask
    cases htask
    exact ⟨_, hp.renamed task, hp.measured stage task⟩
  | inserted task stage => exact placed_none rfl
  | insertedGone task gone => exact placed_none rfl
  | dropped live holds => exact hp.leave rfl rfl (by simp)
  | unlock stage lockStep kind => exact hp
  | release stage unlocked => exact hp.leave rfl rfl (by simp)

/-- The index changes in the transaction of a task only, and then no file does. -/
theorem moves_index (h : XorbMoves U i g u act g' u') :
    g'.index = g.index ∨ ∃ record dedup disk, u.task = .put record dedup disk ∧
      g'.index = (g.index.putXorb record dedup disk).1 ∧ g'.objects = g.objects := by
  cases h with
  | inserted task stage => exact .inr ⟨_, _, _, task, rfl, rfl⟩
  | insertedGone task gone => exact .inr ⟨_, _, _, task, rfl, rfl⟩
  | _ => exact .inl rfl

end Upload

/-- The counter is right, whoever is about to add to it. -/
structure Accounted (s : Server) : Prop where
  placed : ∀ i, Placed s.state.objects (s.xorbUploads i)
  present : ∀ {hash record}, s.state.index.getXorb hash = some record →
    ∃ object, s.state.objects (pathFor hash) = some object
  total : s.state.index.diskBytes = rowBytes s.state

/-- A file is renamed over no object that another upload has written and not
yet indexed. -/
theorem placed_others (h : (machine D).Reachable NoDrop s) {i j : Nat} {act : XorbAct}
    {g : AppState} {u : XorbUpload} (hm : XorbMoves U i s.state (s.xorbUploads i) act g u)
    (hj : j ≠ i) (hp : Placed s.state.objects (s.xorbUploads j)) :
    Placed g.objects (s.xorbUploads j) := by
  apply hp.frame
  intro htask
  rcases moves_objects hm with hsame | ⟨stored, hwrites, hwritten⟩
  · rw [hsame]
  · have hcrit := (reachable_attended h j).critical htask
    have hcrit' := (reachable_attended h i).critical (.inl ⟨_, _, hwrites⟩)
    have hne : pathFor (s.xorbUploads j).hash ≠ pathFor (s.xorbUploads i).hash := by
      intro hpath
      exact hj ((reachable_traced h).exclusive hcrit hcrit' (pathFor_injective hpath))
    rw [hwritten, Function.update_of_ne hne]

/-- While the rows stay and their objects with them, so does the total. -/
theorem rowBytes_keeps (hk : Keeps state state')
    (hrows : state'.index.xorbs = state.index.xorbs) : rowBytes state' = rowBytes state := by
  unfold rowBytes
  rw [hrows]
  congr 1
  apply List.map_congr_left
  intro row hrow
  have hobject := hk.objects (Table.mem_rows.mp hrow)
  unfold objectLength
  rw [hobject]

/-- An insert adds the length of the object it is about, unless there is a row. -/
theorem total_putXorb {record : XorbRecord} {dedup : List (String × UInt32)} {object : Bytes}
    (hobject : state.objects (pathFor record.xorbHash) = some object)
    (htotal : state.index.diskBytes = rowBytes state)
    (hindex : state'.index = (state.index.putXorb record dedup object.length).1)
    (hobjects : state'.objects = state.objects) : state'.index.diskBytes = rowBytes state' := by
  have hlength : objectLength state' = objectLength state := by
    funext hash
    simp [objectLength, hobjects]
  unfold rowBytes
  rw [hlength, hindex]
  unfold Index.putXorb
  split
  · rename_i hnew
    have hrows := Table.insertOrIgnore_new (r := record) hnew
    simp only [hrows, List.map_append, List.sum_append, List.map_cons, List.map_nil,
      List.sum_cons, List.sum_nil, objectLength_eq hobject]
    rw [htotal, rowBytes, Nat.add_zero]
  · exact htotal

theorem Accounted.xorb (h : Accounted s) (hhex : D.upstream.HexRoundTrip)
    (hreach : (machine D).Reachable NoDrop s) {i : Nat} {act : XorbAct} {g : AppState}
    {u : XorbUpload}
    (turn : xorbStep D.upstream i s.state (s.xorbUploads i) act = some (g, u)) :
    Accounted (after s i g u) := by
  have hm := xorbStep_moves turn
  have hkeeps : Keeps s.state g := by
    have hstep : Server.step D s (.xorb i act) = some (after s i g u) := by
      simp [Server.step, turn]
    exact step_keeps hhex hreach hstep
  have hplaced : ∀ j, Placed g.objects ((after s i g u).xorbUploads j) := by
    intro j
    rcases eq_or_ne j i with rfl | hj
    · simp only [Function.update_self]
      exact moves_placed hm (reachable_attended hreach j) (h.placed j)
    · simp only [Function.update_of_ne hj]
      exact placed_others hreach hm hj (h.placed j)
  rcases moves_index hm with hsame | ⟨record, dedup, disk, htask, hindex, hobjects⟩
  · refine ⟨hplaced, ?_, ?_⟩
    · intro hash record hrow
      have hold : s.state.index.getXorb hash = some record := hsame ▸ hrow
      obtain ⟨object, hobject⟩ := h.present hold
      exact ⟨object, (hkeeps.objects hold).trans hobject⟩
    · rw [rowBytes_keeps hkeeps (congrArg Index.xorbs hsame), ← h.total]
      exact congrArg Index.diskBytes hsame
  · have hhash : record.xorbHash = (s.xorbUploads i).hash := by
      have hsourced := ((reachable_traced hreach).sourced i).task
      rw [htask] at hsourced
      obtain ⟨up, hup, rfl, _⟩ := hsourced
      exact prepared_hash hhex hup
    obtain ⟨object, hobject, rfl⟩ := (h.placed i).put htask
    rw [← hhash] at hobject
    refine ⟨hplaced, ?_, total_putXorb hobject h.total hindex hobjects⟩
    intro hash record' hrow
    have hrow' : (s.state.index.putXorb record dedup object.length).1.getXorb hash =
      some record' := hindex ▸ hrow
    rcases Index.putXorb_row hrow' with hold | ⟨rfl, _, _⟩
    · obtain ⟨object', hobject'⟩ := h.present hold
      exact ⟨object', (hkeeps.objects hold).trans hobject'⟩
    · exact ⟨object, (congrFun hobjects _).trans hobject⟩

theorem step_accounted (hhex : D.upstream.HexRoundTrip) (hreach : (machine D).Reachable NoDrop s)
    (h : Accounted s) {a : Server.Act} (hs : Server.step D s a = some s') : Accounted s' := by
  cases step_moves hs with
  | xorb turn => exact h.xorb hhex hreach turn
  | @shard i act g u turn =>
    have hframe := Shards.shardStep_frame turn
    have hxorbs := shard_xorbs turn
    have hdisk : g.index.diskBytes = s.state.index.diskBytes := by
      cases Shards.shardStep_moves turn <;> rfl
    have hobjects : g.objects = s.state.objects := by rw [hframe]
    refine ⟨?_, ?_, ?_⟩
    · intro j
      rw [hobjects]
      exact h.placed j
    · intro hash record hrow
      rw [hobjects]
      apply h.present
      rw [Index.getXorb, ← hxorbs]
      exact hrow
    · rw [hdisk, h.total, rowBytes_keeps (step_keeps hhex hreach hs) hxorbs]
  | crash => exact ⟨fun _ => placed_none rfl, h.present, h.total⟩

theorem reachable_accounted (hhex : D.upstream.HexRoundTrip)
    (h : (machine D).Reachable NoDrop s) : Accounted s := by
  refine h.invariant ?_ ?_
  · intro s hsame
    subst hsame
    exact ⟨fun _ => placed_none rfl, by simp [boot, AppState.new, Index.fresh, Index.getXorb], rfl⟩
  · intro s a t hreach hi _ hstep
    exact step_accounted hhex hreach hi hstep

def indexed (index : Index) (path : Path) : Bool :=
  index.xorbs.rows.any (fun row => pathFor row.1 == path)

/-- The bytes of the files that are no row's object. -/
def orphanBytes (index : Index) (tree : ObjectTree) : Nat :=
  ((tree.entries.files.filter (fun f => !indexed index f.1)).map (fun f => f.2.length)).sum

section Walk
variable {tree : ObjectTree} {objects : Path → Option Bytes}

/-- The other files are the objects of the rows, each once. -/
theorem indexed_files (h : Accounted s) (htree : tree.Holds s.state.objects) :
    ((tree.entries.files.filter (fun f => indexed s.state.index f.1)).map Prod.fst).Perm
      (s.state.index.xorbs.rows.map (fun row => pathFor row.1)) := by
  have hrows : (s.state.index.xorbs.rows.map (fun row => pathFor row.1)).Nodup := by
    have hkeys := s.state.index.xorbs.keys.map pathFor_injective
    rwa [List.map_map] at hkeys
  have hfiles : ((tree.entries.files.filter (fun f => indexed s.state.index f.1)).map
      Prod.fst).Nodup :=
    (Listing.files_nodup tree.distinct).sublist (List.filter_sublist.map _)
  rw [List.perm_ext_iff_of_nodup hfiles hrows]
  intro path
  constructor
  · intro hmem
    obtain ⟨f, hf, rfl⟩ := List.mem_map.mp hmem
    obtain ⟨row, hrow, hpath⟩ := List.any_eq_true.mp (List.mem_filter.mp hf).2
    exact List.mem_map.mpr ⟨row, hrow, beq_iff_eq.mp hpath⟩
  · intro hmem
    obtain ⟨row, hrow, rfl⟩ := List.mem_map.mp hmem
    obtain ⟨object, hobject⟩ := h.present (Table.mem_rows.mp hrow)
    refine List.mem_map.mpr ⟨(pathFor row.1, object), List.mem_filter.mpr ⟨?_, ?_⟩, rfl⟩
    · exact (htree _ _).mpr hobject
    · exact List.any_eq_true.mpr ⟨row, hrow, beq_self_eq_true _⟩

theorem indexed_bytes (h : Accounted s) (htree : tree.Holds s.state.objects) :
    ((tree.entries.files.filter (fun f => indexed s.state.index f.1)).map
      (fun f => f.2.length)).sum = rowBytes s.state := by
  have hlengths : (tree.entries.files.filter (fun f => indexed s.state.index f.1)).map
      (fun f => f.2.length) =
      ((tree.entries.files.filter (fun f => indexed s.state.index f.1)).map Prod.fst).map
        (fun path => ((s.state.objects path).map List.length).getD 0) := by
    rw [List.map_map]
    apply List.map_congr_left
    intro f hf
    have hobject := (htree f.1 f.2).mp (List.mem_filter.mp hf).1
    simp [hobject]
  rw [hlengths, ((indexed_files h htree).map _).sum_eq, List.map_map]
  rfl

theorem walkSize_files (entries : Listing String Bytes) :
    walkSize entries = (entries.files.map (fun f => f.2.length)).sum := by
  induction entries with
  | nil => rfl
  | file name data rest ih => rw [walkSize, ih, Listing.files, List.map_cons, List.sum_cons]
  | dir name inner rest ihInner ihRest =>
    rw [walkSize, ihInner, ihRest, Listing.files, List.map_append, List.sum_append, List.map_map]
    rfl

/-- Walking the tree counts the rows' objects and the files without a row. -/
theorem walked (h : Accounted s) (htree : tree.Holds s.state.objects) :
    tree.storedBytes = rowBytes s.state + orphanBytes s.state.index tree := by
  have hsplit := List.filter_append_perm (fun f => indexed s.state.index f.1) tree.entries.files
  rw [ObjectTree.storedBytes, walkSize_files, ← (hsplit.map _).sum_eq, List.map_append,
    List.sum_append, indexed_bytes h htree]
  rfl

/-- `write_atomic` makes the two directories of a hash and its file. -/
theorem holds_write (hlevel : tree.entries.Level 3) (htree : tree.Holds objects) (hash : String)
    (stored : Bytes) : ∃ tree' : ObjectTree, tree'.entries.Level 3 ∧
      tree'.Holds (Function.update objects (pathFor hash) (some stored)) := by
  have hdeep : tree.entries.Level (pathFor hash).length := hlevel
  refine ⟨⟨tree.entries.place (pathFor hash) stored, Listing.place_distinct hdeep tree.distinct⟩,
    Listing.place_level hdeep, ?_⟩
  intro path object
  rw [Listing.mem_place hdeep tree.distinct (by simp [pathFor]), htree path object]
  rcases eq_or_ne path (pathFor hash) with rfl | hne
  · simp [eq_comm]
  · simp [hne]

/-- There is a directory tree of which the objects are the view. -/
theorem reachable_tree {ok : Server → Server.Act → Prop} (h : (machine D).Reachable ok s) :
    ∃ tree : ObjectTree, tree.entries.Level 3 ∧ tree.Holds s.state.objects := by
  refine h.invariant (I := fun s => ∃ tree : ObjectTree, tree.entries.Level 3 ∧
    tree.Holds s.state.objects) ?_ ?_
  · intro s hsame
    subst hsame
    refine ⟨⟨.nil, trivial⟩, trivial, ?_⟩
    intro path object
    simp [Listing.files, boot, AppState.new]
  · intro s a t _ hi _ hstep
    obtain ⟨tree, hlevel, htree⟩ := hi
    cases step_moves hstep with
    | xorb turn =>
      rcases moves_objects (xorbStep_moves turn) with hsame | ⟨stored, _, hwritten⟩
      · exact ⟨tree, hlevel, hsame ▸ htree⟩
      · rw [hwritten]
        exact holds_write hlevel htree _ stored
    | shard turn =>
      refine ⟨tree, hlevel, ?_⟩
      rw [Shards.shardStep_frame turn]
      exact htree
    | crash => exact ⟨tree, hlevel, htree⟩

end Walk

/-- What `/health` says of the store, next to the store. -/
structure Exact (state : AppState) : Prop where
  present : ∀ hash record, state.index.getXorb hash = some record →
    ∃ object, state.objects (pathFor hash) = some object
  bytes : state.index.stats.storedBytes = rowBytes state
  xorbs : Exactly (fun hash => (state.index.getXorb hash).isSome = true) state.index.stats.xorbs
  walked : ∀ tree : ObjectTree, tree.Holds state.objects →
    tree.storedBytes = state.index.stats.storedBytes + orphanBytes state.index tree

/-- In every state that uploads which run until they return, and crashes at any
point, lead to, the counters are those of the object tree. -/
theorem health_exact (hhex : D.upstream.HexRoundTrip) (h : (machine D).Reachable NoDrop s) :
    Exact s.state ∧ ∃ tree : ObjectTree, tree.Holds s.state.objects := by
  have haccounted := reachable_accounted hhex h
  refine ⟨⟨fun _ _ => haccounted.present, haccounted.total, ?_, ?_⟩, ?_⟩
  · have hrows := Exactly.of_nodup s.state.index.xorbs.keys
      (p := fun hash => (s.state.index.getXorb hash).isSome = true) (by
        intro hash
        rw [Index.getXorb, Option.isSome_iff_ne_none, Ne, Table.get?_eq_none, not_not])
    rw [List.length_map] at hrows
    exact hrows
  · intro tree htree
    rw [walked haccounted htree, ← haccounted.total]
    rfl
  · obtain ⟨tree, _, htree⟩ := reachable_tree h
    exact ⟨tree, htree⟩

/-- A crash leaves the file of one upload behind, and a longer one of the same
hash is written over it and indexed. -/
theorem letter_stored_after_crash : ∃ s, (machine sampleServer).Reachable NoDrop s ∧
    s.state.index.stats.storedBytes = 160 ∧
    Exact s.state ∧ ∃ tree : ObjectTree, tree.Holds s.state.objects := by
  obtain ⟨s, hrun, hend⟩ := Machine.exec_reaches (machine sampleServer) NoDrop
    (fun _ a => !isDrop a) (fun s => s.state.index.stats.storedBytes == 160)
    (fun _ _ h => by simpa [NoDrop] using h) (boot sampleServer .fresh (fun _ => none))
    (sendLetter 0 Formats.plainBody ++ checkLetter 0 ++ [.xorb 0 .renamed, .crash] ++
      sendLetter 0 Formats.packedBody ++ checkLetter 0 ++ storeLetter 0) (by decide +kernel)
  exact ⟨s, ⟨_, rfl, hrun⟩, beq_iff_eq.mp hend,
    health_exact (Formats.documented_hexRoundTrip _) ⟨_, rfl, hrun⟩⟩

end Xetcas.Proofs.Health
