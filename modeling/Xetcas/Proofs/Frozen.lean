import Xetcas.Proofs.Content

namespace Xetcas.Proofs.Frozen
open Lib Server Routes Routes.Xorbs Provenance Agreement Layout Registration Content
variable {U : Upstream} {D : Deployment} {s s' : Server}

section Upload
variable {i : Nat} {g g' : AppState} {u u' : XorbUpload} {act : XorbAct}

/-- A handler that writes its file has just found no row, or was writing before. -/
theorem moves_writing (h : XorbMoves U i g u act g' u') (hu : Attended u) {record : XorbRecord}
    {dedup : List (String × UInt32)} {disk : Nat} (hstage : u'.stage = .writing record dedup disk) :
    g'.index = g.index ∧ u'.hash = u.hash ∧
      (u.stage = .writing record dedup disk ∨ g.index.getXorb u.hash = none) := by
  cases h with
  | write stage absent => exact ⟨rfl, rfl, .inr absent⟩
  | renamed task => exact ⟨rfl, rfl, .inl hstage⟩
  | orphanEnded task gone => exact ⟨rfl, rfl, .inl hstage⟩
  | unlock stage lockStep kind => exact ⟨rfl, rfl, .inl hstage⟩
  | insertedGone task gone =>
    have hawaits := hu (by simp [task])
    rw [task, show u.stage = _ from hstage] at hawaits
    cases hawaits
  | _ => cases hstage

/-- A row is new only when its own handler, still in its critical section,
inserts it. -/
theorem moves_row (hhex : U.HexRoundTrip) (h : XorbMoves U i g u act g' u') (hu : Attended u)
    (hsourced : Sourced U u) {hash : String} {record : XorbRecord}
    (hrow : g'.index.getXorb hash = some record) :
    g.index.getXorb hash = some record ∨ u.hash = hash ∧ critical u.stage = true := by
  have htask := hsourced.task
  cases h with
  | inserted task stage =>
    rw [task] at htask
    obtain ⟨up, hup, rfl, _⟩ := htask
    rcases Index.putXorb_row hrow with hold | ⟨rfl, _⟩
    · exact .inl hold
    · exact .inr ⟨(prepared_hash hhex hup).symm, hu.critical (.inr ⟨_, _, _, task⟩)⟩
  | insertedGone task gone =>
    rw [task] at htask
    obtain ⟨up, hup, rfl, _⟩ := htask
    rcases Index.putXorb_row hrow with hold | ⟨rfl, _⟩
    · exact .inl hold
    · exact .inr ⟨(prepared_hash hhex hup).symm, hu.critical (.inr ⟨_, _, _, task⟩)⟩
  | _ => exact .inl hrow

/-- The only object an upload writes is its own, after it found no row. -/
theorem moves_objects (h : XorbMoves U i g u act g' u') :
    g'.objects = g.objects ∨ ∃ stored, u.task = .write stored false ∧
      g'.objects = Function.update g.objects (pathFor u.hash) (some stored) := by
  cases h with
  | renamed task => exact .inr ⟨_, task, rfl⟩
  | _ => exact .inl rfl

end Upload

/-- While a file is written there is no row for it. -/
theorem reachable_unwritten (hhex : D.upstream.HexRoundTrip) (h : (machine D).Reachable NoDrop s)
    (i : Nat) {record : XorbRecord} {dedup : List (String × UInt32)} {disk : Nat}
    (hstage : (s.xorbUploads i).stage = .writing record dedup disk) :
    s.state.index.getXorb (s.xorbUploads i).hash = none := by
  revert i record dedup disk
  refine h.invariant (I := fun s => ∀ i {record dedup disk},
    (s.xorbUploads i).stage = .writing record dedup disk →
      s.state.index.getXorb (s.xorbUploads i).hash = none) ?_ ?_
  · intro s hsame i record dedup disk hstage
    subst hsame
    cases hstage
  · intro s a t hreach hi _ hstep j record dedup disk hstage
    have htraced := reachable_traced hreach
    cases step_moves hstep with
    | @xorb i act g u turn =>
      have hm := xorbStep_moves turn
      have hattended := reachable_attended hreach
      rcases eq_or_ne j i with rfl | hj
      · simp only [Function.update_self] at hstage ⊢
        obtain ⟨hindex, hhash, hbefore⟩ := moves_writing hm (hattended j) hstage
        rw [hindex, hhash]
        rcases hbefore with hwriting | habsent
        · exact hi j hwriting
        · exact habsent
      · simp only [Function.update_of_ne hj] at hstage ⊢
        apply Option.eq_none_iff_forall_ne_some.mpr
        intro row hrow
        rcases moves_row hhex hm (hattended i) (htraced.sourced i) hrow with hold | ⟨hhash, hcrit⟩
        · rw [hi j hstage] at hold
          cases hold
        · exact hj (htraced.exclusive (by simp [hstage, critical]) hcrit hhash.symm)
    | @shard i act g u turn =>
      have hxorbs : g.index.xorbs = s.state.index.xorbs := by
        cases Shards.shardStep_moves turn <;> rfl
      have hold := hi j hstage
      simp only [Index.getXorb] at hold ⊢
      rw [hxorbs]
      exact hold
    | crash => cases hstage

/-- Rows stay, and with them their objects. -/
structure Keeps (state state' : AppState) : Prop where
  index : state.index.Grows state'.index
  objects : ∀ {hash record}, state.index.getXorb hash = some record →
    state'.objects (pathFor hash) = state.objects (pathFor hash)

theorem step_keeps (hhex : D.upstream.HexRoundTrip) (h : (machine D).Reachable NoDrop s)
    {a : Server.Act} (hs : Server.step D s a = some s') : Keeps s.state s'.state := by
  refine ⟨step_grows hs, ?_⟩
  intro hash record hrow
  cases step_moves hs with
  | @xorb i act g u turn =>
    rcases moves_objects (xorbStep_moves turn) with hsame | ⟨stored, htask, hwritten⟩
    · rw [hsame]
    · have hattended := reachable_attended h i (by simp [htask])
      rw [htask] at hattended
      have hne : pathFor hash ≠ pathFor (s.xorbUploads i).hash := by
        intro hpath
        cases hstage : (s.xorbUploads i).stage with
        | writing record' dedup disk =>
          have habsent := reachable_unwritten hhex h i hstage
          rw [← pathFor_injective hpath, hrow] at habsent
          cases habsent
        | _ => simp [hstage, XorbStage.awaits] at hattended
      rw [hwritten, Function.update_of_ne hne]
  | shard turn => rw [Shards.shardStep_frame turn]
  | crash => rfl

theorem Keeps.refl (state : AppState) : Keeps state state := ⟨.refl _, fun _ => rfl⟩

theorem Keeps.trans {a b c : AppState} (h : Keeps a b) (g : Keeps b c) : Keeps a c :=
  ⟨h.index.trans g.index,
    fun hrow => (g.objects (h.index.xorbs _ _ hrow)).trans (h.objects hrow)⟩

theorem run_keeps (hhex : D.upstream.HexRoundTrip) (h : (machine D).Reachable NoDrop s)
    (hrun : (machine D).Run NoDrop s s') : Keeps s.state s'.state := by
  have hboth := hrun.keeps (I := fun t => (machine D).Reachable NoDrop t ∧ Keeps s.state t.state)
    ⟨h, .refl _⟩ (by
      intro u a v hu ha hstep
      exact ⟨hu.1.next a ha hstep, hu.2.trans (step_keeps hhex hu.1 hstep)⟩)
  exact hboth.2

section Kept
variable {state state' : AppState} {file : FileRecord}

theorem Keeps.storedChunks (h : Keeps state state') {hash : String} {record : XorbRecord}
    (hrow : state.index.getXorb hash = some record) :
    storedChunks U state' hash = storedChunks U state hash := by
  have hrow' : state'.index.getXorb hash = some record := h.index.xorbs _ _ hrow
  unfold Content.storedChunks
  rw [h.objects hrow, hrow, hrow']

theorem Keeps.termChunks (h : Keeps state state') (hfile : FileStored U state.index file)
    {term : FileTermRecord} (hterm : term ∈ file.terms) :
    termChunks U state' term = termChunks U state term := by
  obtain ⟨chunks, hterms, _⟩ := hfile.terms
  obtain ⟨_, _, record, hstored⟩ := partner hterms hterm
  unfold Content.termChunks
  rw [h.storedChunks hstored.stored]

/-- A stored file keeps its content. -/
theorem Keeps.contentOf (h : Keeps state state') (hd : Described U state)
    (hd' : Described U state') (hfile : FileStored U state.index file) :
    contentOf U state' file = contentOf U state file := by
  rw [contentOf_chunks hd' (hfile.grows h.index), contentOf_chunks hd hfile, fileChunks,
    List.map_congr_left (fun term hterm => h.termChunks hfile hterm)]
  rfl

end Kept

end Xetcas.Proofs.Frozen
