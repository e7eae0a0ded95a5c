import Xetcas.Proofs.Agreement

namespace Xetcas.Proofs.Layout
open Lib Server Routes Routes.Xorbs Provenance Agreement

/-- The upload is about to put this record into the index, or will be once its
file is written. -/
def Claims (u : XorbUpload) (record : XorbRecord) : Prop :=
  (∃ dedup disk, u.task = .put record dedup disk) ∨ ∃ dedup disk, u.stage = .writing record dedup disk

/-- It has renamed the file that goes with the record. -/
def Settles (u : XorbUpload) (record : XorbRecord) : Prop :=
  (∃ dedup disk, u.task = .put record dedup disk) ∨
    ∃ dedup disk stored, u.stage = .writing record dedup disk ∧ u.task = .write stored true

/-- These bytes are still to be renamed into place. -/
def Lands (u : XorbUpload) (stored : Bytes) : Prop := u.task = .write stored false

theorem Settles.claims {u : XorbUpload} {record : XorbRecord} (h : Settles u record) :
    Claims u record := by
  rcases h with hput | ⟨dedup, disk, _, hstage, _⟩
  · exact .inl hput
  · exact .inr ⟨dedup, disk, hstage⟩

/-- The record has a row, or some upload has `p` of it under this hash. -/
def Among (p : XorbUpload → XorbRecord → Prop) (s : Server) (hash : String)
    (record : XorbRecord) : Prop :=
  s.state.index.getXorb hash = some record ∨
    ∃ i, (s.xorbUploads i).hash = hash ∧ p (s.xorbUploads i) record

/-- Whatever is in the index, or on its way there, describes its object and
everything that may still be renamed over it. -/
structure Agreeing (U : Upstream) (s : Server) : Prop where
  settled : ∀ {hash record}, Among Settles s hash record →
    ∃ object, s.state.objects (pathFor hash) = some object ∧ Agrees U object record
  pending : ∀ {i stored record}, Lands (s.xorbUploads i) stored →
    Among Claims s (s.xorbUploads i).hash record → Agrees U stored record

variable {U : Upstream} {s s' : Server} {i : Nat} {g : AppState} {u' : XorbUpload}

/-- A step after which nothing more is settled, claimed or to be renamed. -/
theorem Agreeing.mono (h : Agreeing U s)
    (hsettled : ∀ {hash record}, Among Settles s' hash record → Among Settles s hash record)
    (hclaimed : ∀ {hash record}, Among Claims s' hash record → Among Claims s hash record)
    (hlands : ∀ {j stored}, Lands (s'.xorbUploads j) stored →
      (s'.xorbUploads j).hash = (s.xorbUploads j).hash ∧ Lands (s.xorbUploads j) stored)
    (hobjects : s'.state.objects = s.state.objects) : Agreeing U s' := by
  refine ⟨?_, ?_⟩
  · intro hash record hs
    rw [hobjects]
    exact h.settled (hsettled hs)
  · intro j stored record hl hc
    obtain ⟨hsame, hbefore⟩ := hlands hl
    exact h.pending hbefore (hsame ▸ hclaimed hc)

section Upload
variable {p : XorbUpload → XorbRecord → Prop} {hash : String} {record : XorbRecord}

abbrev after (s : Server) (i : Nat) (g : AppState) (u' : XorbUpload) : Server :=
  { s with state := g, xorbUploads := Function.update s.xorbUploads i u' }

theorem among_after (h : Among p (after s i g u') hash record) :
    g.index.getXorb hash = some record ∨ (u'.hash = hash ∧ p u' record) ∨
      ∃ j, j ≠ i ∧ (s.xorbUploads j).hash = hash ∧ p (s.xorbUploads j) record := by
  rcases h with hrow | ⟨j, hhash, hp⟩
  · exact .inl hrow
  · rcases eq_or_ne j i with rfl | hj
    · exact .inr (.inl (by simpa using And.intro hhash hp))
    · exact .inr (.inr ⟨j, hj, by simpa [hj] using And.intro hhash hp⟩)

/-- Only what holds of the new row and of `u'` has to be checked. -/
theorem among_step (hrow : g.index.getXorb hash = some record → Among p s hash record)
    (hp : p u' record → u'.hash = (s.xorbUploads i).hash ∧ p (s.xorbUploads i) record)
    (h : Among p (after s i g u') hash record) : Among p s hash record := by
  rcases among_after h with hnew | ⟨hhash, hnew⟩ | ⟨j, _, hold⟩
  · exact hrow hnew
  · obtain ⟨hsame, hbefore⟩ := hp hnew
    exact .inr ⟨i, hsame ▸ hhash, hbefore⟩
  · exact .inr ⟨j, hold⟩

/-- What the upload claims, has settled and will rename, it did before. -/
structure Fewer (u u' : XorbUpload) : Prop where
  claims : ∀ {record}, Claims u' record → u'.hash = u.hash ∧ Claims u record
  settles : ∀ {record}, Settles u' record → u'.hash = u.hash ∧ Settles u record
  lands : ∀ {stored}, Lands u' stored → u'.hash = u.hash ∧ Lands u stored

theorem Fewer.lands_after (hf : Fewer (s.xorbUploads i) u') {j : Nat} {stored : Bytes}
    (h : Lands ((after s i g u').xorbUploads j) stored) :
    ((after s i g u').xorbUploads j).hash = (s.xorbUploads j).hash ∧
      Lands (s.xorbUploads j) stored := by
  rcases eq_or_ne j i with rfl | hj
  · simp only [Function.update_self] at h ⊢
    exact hf.lands h
  · simp only [Function.update_of_ne hj] at h ⊢
    exact ⟨trivial, h⟩

/-- A step that leaves rows and objects alone. -/
theorem Agreeing.quiet (h : Agreeing U s) (hf : Fewer (s.xorbUploads i) u')
    (hindex : g.index = s.state.index) (hobjects : g.objects = s.state.objects) :
    Agreeing U (after s i g u') :=
  h.mono (among_step (fun hrow => .inl (hindex ▸ hrow)) hf.settles)
    (among_step (fun hrow => .inl (hindex ▸ hrow)) hf.claims) hf.lands_after hobjects

/-- The transaction of a task commits: its record was settled already. -/
theorem Agreeing.insert (h : Agreeing U s) {dedup : List (String × UInt32)} {disk : Nat}
    (htask : (s.xorbUploads i).task = .put record dedup disk)
    (hhash : record.xorbHash = (s.xorbUploads i).hash) (hf : Fewer (s.xorbUploads i) u')
    (hindex : g.index = (s.state.index.putXorb record dedup disk).1)
    (hobjects : g.objects = s.state.objects) : Agreeing U (after s i g u') := by
  have hput : Settles (s.xorbUploads i) record := .inl ⟨dedup, disk, htask⟩
  have hrow : ∀ {hash' record'}, g.index.getXorb hash' = some record' →
      Among Settles s hash' record' := by
    intro hash' record' hnew
    rw [hindex] at hnew
    rcases Index.putXorb_row hnew with hold | ⟨rfl, rfl, _⟩
    · exact .inl hold
    · exact .inr ⟨i, hhash.symm, hput⟩
  refine h.mono (among_step hrow hf.settles) (among_step ?_ hf.claims) hf.lands_after hobjects
  intro hnew
  rcases hrow hnew with hold | ⟨j, hj, hsettles⟩
  · exact .inl hold
  · exact .inr ⟨j, hj, hsettles.claims⟩

/-- A file is renamed into place. It agrees with everything that is claimed
under its hash, so what is settled stays settled. -/
theorem Agreeing.rename (h : Agreeing U s) {stored : Bytes}
    (hlands : Lands (s.xorbUploads i) stored) :
    Agreeing U (after s i
      { s.state with objects :=
          Function.update s.state.objects (pathFor (s.xorbUploads i).hash) (some stored) }
      { s.xorbUploads i with task := .write stored true }) := by
  have hclaims : ∀ {record}, Claims { s.xorbUploads i with task := .write stored true } record →
      Claims (s.xorbUploads i) record := by
    intro record hc
    rcases hc with ⟨_, _, hput⟩ | hwriting
    · cases hput
    · exact .inr hwriting
  refine ⟨?_, ?_⟩
  · intro hash record hsettled
    rcases eq_or_ne (s.xorbUploads i).hash hash with rfl | hne
    · refine ⟨stored, by simp, h.pending hlands ?_⟩
      rcases among_after hsettled with hrow | ⟨_, hnew⟩ | ⟨j, _, hj, hold⟩
      · exact .inl hrow
      · exact .inr ⟨i, rfl, hclaims hnew.claims⟩
      · exact .inr ⟨j, hj, hold.claims⟩
    · have hpath : pathFor hash ≠ pathFor (s.xorbUploads i).hash := fun he =>
        hne (pathFor_injective he).symm
      simp only [Function.update_of_ne hpath]
      apply h.settled
      rcases among_after hsettled with hrow | ⟨hhash, _⟩ | ⟨j, _, hold⟩
      · exact .inl hrow
      · exact absurd hhash hne
      · exact .inr ⟨j, hold⟩
  · intro j bytes record hl hc
    rcases eq_or_ne j i with rfl | hj
    · simp [Lands] at hl
    · simp only [Function.update_of_ne hj] at hl hc
      apply h.pending hl
      refine among_step (fun hrow => .inl hrow) ?_ hc
      intro hp
      exact ⟨rfl, hclaims hp⟩

/-- A task that writes nothing and a stage that waits for no write, or the same
ones under the same hash. -/
theorem fewer_of {u u' : XorbUpload}
    (htask : (∀ stored renamed, u'.task ≠ .write stored renamed) ∧
        (∀ record dedup disk, u'.task ≠ .put record dedup disk) ∨
      u'.task = u.task ∧ u'.hash = u.hash)
    (hstage : (∀ record dedup disk, u'.stage ≠ .writing record dedup disk) ∨
      u'.stage = u.stage ∧ u'.hash = u.hash) : Fewer u u' := by
  refine ⟨?_, ?_, ?_⟩
  · intro record hc
    rcases hc with ⟨dedup, disk, hput⟩ | ⟨dedup, disk, hwriting⟩
    · rcases htask with ⟨_, hno⟩ | ⟨hsame, hhash⟩
      · exact absurd hput (hno _ _ _)
      · exact ⟨hhash, .inl ⟨dedup, disk, hsame ▸ hput⟩⟩
    · rcases hstage with hno | ⟨hsame, hhash⟩
      · exact absurd hwriting (hno _ _ _)
      · exact ⟨hhash, .inr ⟨dedup, disk, hsame ▸ hwriting⟩⟩
  · intro record hs
    rcases hs with ⟨dedup, disk, hput⟩ | ⟨dedup, disk, stored, hwriting, hwrite⟩
    · rcases htask with ⟨_, hno⟩ | ⟨hsame, hhash⟩
      · exact absurd hput (hno _ _ _)
      · exact ⟨hhash, .inl ⟨dedup, disk, hsame ▸ hput⟩⟩
    · rcases htask with ⟨hno, _⟩ | ⟨hsame, hhash⟩
      · exact absurd hwrite (hno _ _)
      · rcases hstage with hno | ⟨hsame', _⟩
        · exact absurd hwriting (hno _ _ _)
        · exact ⟨hhash, .inr ⟨dedup, disk, stored, hsame' ▸ hwriting, hsame ▸ hwrite⟩⟩
  · intro stored hl
    rcases htask with ⟨hno, _⟩ | ⟨hsame, hhash⟩
    · exact absurd hl (hno _ _)
    · exact ⟨hhash, show u.task = _ from hsame ▸ hl⟩

end Upload

/-- When an upload's check finds no row, whatever another upload of the same
hash has left to a task goes with it: bytes still to be renamed with the record
of this one, a record still to be inserted with the bytes of this one. -/
def LayoutsAgree (U : Upstream) (s : Server) (a : Server.Act) : Prop :=
  ∀ i up, a = .xorb i .checked → (s.xorbUploads i).stage = .checking up →
    s.state.index.getXorb (s.xorbUploads i).hash = none →
      ∀ j, j ≠ i → (s.xorbUploads j).hash = (s.xorbUploads i).hash →
        (∀ stored, (s.xorbUploads j).task = .write stored false → Agrees U stored up.record) ∧
        (∀ record dedup disk, (s.xorbUploads j).task = .put record dedup disk →
          Agrees U up.stored record)

variable {D : Deployment}

/-- A handler that found no row hands its bytes to a task. No other handler is
between check and insert, and what tasks hold agrees by the condition. -/
theorem Agreeing.write (h : Agreeing D.upstream s) (ht : Traced D s)
    (hdecode : D.upstream.FramesDecode) {up : Upload}
    (hstage : (s.xorbUploads i).stage = .checking up)
    (habsent : s.state.index.getXorb (s.xorbUploads i).hash = none)
    (hguard : LayoutsAgree D.upstream s (.xorb i .checked)) :
    Agreeing D.upstream (after s i s.state { s.xorbUploads i with
      stage := .writing up.record up.dedupChunks up.stored.length
      task := .write up.stored false }) := by
  have hother := hguard i up rfl hstage habsent
  have hown : Agrees D.upstream up.stored up.record := by
    have hprepared := (ht.sourced i).stage
    rw [hstage] at hprepared
    exact prepared_describes hdecode hprepared
  refine ⟨?_, ?_⟩
  · intro hash record hsettled
    apply h.settled
    rcases among_after hsettled with hrow | ⟨_, hnew⟩ | ⟨j, _, hold⟩
    · exact .inl hrow
    · rcases hnew with ⟨_, _, hput⟩ | ⟨_, _, _, _, hwrite⟩
      · cases hput
      · cases hwrite
    · exact .inr ⟨j, hold⟩
  · intro j stored record hl hc
    rcases eq_or_ne j i with rfl | hj
    · simp only [Function.update_self] at hl hc
      cases hl
      rcases among_after hc with hrow | ⟨_, hnew⟩ | ⟨k, hk, hhash, hold⟩
      · rw [habsent] at hrow
        cases hrow
      · rcases hnew with ⟨_, _, hput⟩ | ⟨_, _, hwriting⟩
        · cases hput
        · cases hwriting
          exact hown
      · rcases hold with ⟨dedup, disk, hput⟩ | ⟨_, _, hwriting⟩
        · exact (hother k hk hhash).2 record dedup disk hput
        · exact absurd (ht.exclusive (by simp [hwriting, critical]) (by simp [hstage, critical])
            hhash) hk
    · simp only [Function.update_of_ne hj] at hl hc
      rcases among_after hc with hrow | ⟨hhash, hnew⟩ | ⟨k, _, hold⟩
      · exact h.pending hl (.inl hrow)
      · rcases hnew with ⟨_, _, hput⟩ | ⟨_, _, hwriting⟩
        · cases hput
        · cases hwriting
          exact (hother j hj hhash.symm).1 stored hl
      · exact h.pending hl (.inr ⟨k, hold⟩)

theorem boot_agreeing {index : Index} {objects : Path → Option Bytes}
    (h : ∀ {hash record}, index.getXorb hash = some record →
      ∃ object, objects (pathFor hash) = some object ∧ Agrees D.upstream object record) :
    Agreeing D.upstream (boot D index objects) := by
  refine ⟨?_, ?_⟩
  · intro hash record hs
    rcases hs with hrow | ⟨j, _, hnone⟩
    · exact h hrow
    · simp [boot, XorbUpload.none, Settles] at hnone
  · intro j stored record hl _
    simp [boot, XorbUpload.none, Lands] at hl

/-- Shard uploads do not touch the `xorbs` table. -/
theorem shard_xorbs {u v : Shards.ShardUpload} {act : Shards.ShardAct}
    (h : Shards.shardStep U s.state u act = some (g, v)) : g.index.xorbs = s.state.index.xorbs := by
  cases Shards.shardStep_moves h <;> rfl

theorem Agreeing.xorb (h : Agreeing D.upstream s) (ht : Traced D s)
    (hdecode : D.upstream.FramesDecode) (hhex : D.upstream.HexRoundTrip) {act : XorbAct}
    (hguard : LayoutsAgree D.upstream s (.xorb i act))
    (hm : XorbMoves D.upstream i s.state (s.xorbUploads i) act g u') :
    Agreeing D.upstream (after s i g u') := by
  have hsource := ht.sourced i
  cases hm with
  | write stage absent => exact h.write ht hdecode stage absent hguard
  | renamed task => exact h.rename task
  | inserting task stage =>
    refine h.quiet ⟨?_, ?_, ?_⟩ rfl rfl
    · intro record hc
      rcases hc with ⟨_, _, hput⟩ | ⟨_, _, hwriting⟩
      · cases hput
        exact ⟨rfl, .inr ⟨_, _, stage⟩⟩
      · cases hwriting
    · intro record hs
      rcases hs with ⟨_, _, hput⟩ | ⟨_, _, _, hwriting, _⟩
      · cases hput
        exact ⟨rfl, .inr ⟨_, _, _, stage, task⟩⟩
      · cases hwriting
    · intro stored hl
      cases hl
  | inserted task stage =>
    have hput := hsource.task
    rw [task] at hput
    obtain ⟨up, hprepared, rfl, _⟩ := hput
    exact h.insert task (prepared_hash hhex hprepared)
      (fewer_of (.inl (by simp [XorbUpload.return_])) (.inl (by simp [XorbUpload.return_]))) rfl rfl
  | insertedGone task gone =>
    have hput := hsource.task
    rw [task] at hput
    obtain ⟨up, hprepared, rfl, _⟩ := hput
    exact h.insert task (prepared_hash hhex hprepared)
      (fewer_of (.inl (by simp)) (.inr ⟨rfl, rfl⟩)) rfl rfl
  | refused idle no => exact h.quiet (fewer_of (.inr ⟨rfl, rfl⟩) (.inl (by simp))) rfl rfl
  | admitted idle yes =>
    have hnone := hsource.idle idle
    exact h.quiet (fewer_of (.inl (by simp [hnone])) (.inl (by simp))) rfl rfl
  | permit stage free => exact h.quiet (fewer_of (.inr ⟨rfl, rfl⟩) (.inl (by simp))) rfl rfl
  | read stage fits => exact h.quiet (fewer_of (.inl (by simp)) (.inl (by simp))) rfl rfl
  | prepared stage task good enter =>
    exact h.quiet (fewer_of (.inl (by simp)) (.inl (by simp))) rfl rfl
  | returned live freed holds exists_ =>
    refine h.quiet (fewer_of ?_ (.inl (by simp [XorbUpload.return_]))) rfl rfl
    rcases freed with rfl | ⟨rfl, _⟩
    · exact .inl (by simp [XorbUpload.return_])
    · exact .inr ⟨rfl, rfl⟩
  | orphanEnded task gone => exact h.quiet (fewer_of (.inl (by simp)) (.inr ⟨rfl, rfl⟩)) rfl rfl
  | locked stage acquire => exact h.quiet (fewer_of (.inr ⟨rfl, rfl⟩) (.inl (by simp))) rfl rfl
  | dropped live holds => exact h.quiet (fewer_of (.inr ⟨rfl, rfl⟩) (.inl (by simp))) rfl rfl
  | unlock stage lockStep kind =>
    exact h.quiet (fewer_of (.inr ⟨rfl, rfl⟩) (.inr ⟨rfl, rfl⟩)) rfl rfl
  | release stage unlocked => exact h.quiet (fewer_of (.inr ⟨rfl, rfl⟩) (.inl (by simp))) rfl rfl

theorem Agreeing.step (h : Agreeing D.upstream s) (ht : Traced D s)
    (hdecode : D.upstream.FramesDecode) (hhex : D.upstream.HexRoundTrip) {a : Server.Act}
    (hguard : LayoutsAgree D.upstream s a) (hs : Server.step D s a = some s') :
    Agreeing D.upstream s' := by
  cases step_moves hs with
  | xorb turn => exact h.xorb ht hdecode hhex hguard (xorbStep_moves turn)
  | shard turn =>
    have hxorbs := shard_xorbs turn
    have hobjects := congrArg AppState.objects (Shards.shardStep_frame turn)
    refine h.mono ?_ ?_ (fun hl => ⟨rfl, hl⟩) hobjects
    · intro hash record hsettled
      simpa [Among, Index.getXorb, hxorbs] using hsettled
    · intro hash record hclaimed
      simpa [Among, Index.getXorb, hxorbs] using hclaimed
  | crash => exact boot_agreeing (fun hrow => h.settled (.inl hrow))

theorem reachable_agreeing (hdecode : D.upstream.FramesDecode) (hhex : D.upstream.HexRoundTrip)
    (h : (machine D).Reachable (LayoutsAgree D.upstream) s) : Agreeing D.upstream s := by
  refine h.invariant (I := Agreeing D.upstream) ?_ ?_
  · intro s hsame
    subst hsame
    exact boot_agreeing (by simp [Index.fresh, Index.getXorb])
  · intro s a t hreach hi hguard hstep
    exact hi.step (reachable_traced hreach) hdecode hhex hguard hstep

/-- The handler of every task is there and awaits it. -/
def Attended (u : XorbUpload) : Prop := u.task ≠ .none → u.stage.awaits u.task = true

theorem Attended.task_eq {u : XorbUpload} (hu : Attended u)
    (h : ∀ task, u.stage.awaits task = false) : u.task = .none := by
  by_contra hne
  have hawaits := hu hne
  rw [h] at hawaits
  cases hawaits

/-- A task that writes has a handler between the lock and the end of its insert. -/
theorem Attended.critical {u : XorbUpload} (hu : Attended u)
    (h : (∃ stored renamed, u.task = .write stored renamed) ∨
      ∃ record dedup disk, u.task = .put record dedup disk) : critical u.stage = true := by
  rcases h with ⟨stored, renamed, htask⟩ | ⟨record, dedup, disk, htask⟩
  all_goals
    have hawaits := hu (by simp [htask])
    rw [htask] at hawaits
    cases hs : u.stage with
    | writing record dedup disk => rfl
    | inserting => rfl
    | _ => simp [hs, XorbStage.awaits] at hawaits

theorem moves_attended {act : XorbAct} {g' : AppState} {u : XorbUpload}
    (hm : XorbMoves U i g u act g' u') (hdrop : act ≠ .drop) (hu : Attended u) : Attended u' := by
  cases hm with
  | refused idle no =>
    have hnone := hu.task_eq (by simp [idle, XorbStage.awaits])
    exact fun h => absurd hnone h
  | admitted idle yes =>
    have hnone := hu.task_eq (by simp [idle, XorbStage.awaits])
    exact fun h => absurd hnone h
  | permit stage free =>
    have hnone := hu.task_eq (by simp [stage, XorbStage.awaits])
    exact fun h => absurd hnone h
  | locked stage acquire =>
    have hnone := hu.task_eq (by simp [stage, XorbStage.awaits])
    exact fun h => absurd hnone h
  | release stage unlocked =>
    have hnone := hu.task_eq (by simp [stage, XorbStage.awaits])
    exact fun h => absurd hnone h
  | returned live freed holds exists_ =>
    rcases freed with rfl | ⟨rfl, hidle⟩
    · exact fun h => absurd rfl h
    · intro h
      rw [hu h] at hidle
      cases hidle
  | renamed task =>
    intro _
    have hawaits := hu (by simp [task])
    rw [task] at hawaits
    cases hs : u.stage with
    | writing record dedup disk => rfl
    | _ => simp [hs, XorbStage.awaits] at hawaits
  | dropped live holds => exact absurd rfl hdrop
  | read stage fits => exact fun _ => rfl
  | write stage absent => exact fun _ => rfl
  | inserting task stage => exact fun _ => rfl
  | prepared stage task good enter => exact fun h => absurd rfl h
  | orphanEnded task gone => exact fun h => absurd rfl h
  | inserted task stage => exact fun h => absurd rfl h
  | insertedGone task gone => exact fun h => absurd rfl h
  | unlock stage lockStep kind => exact hu

theorem reachable_attended (h : (machine D).Reachable NoDrop s) (i : Nat) :
    Attended (s.xorbUploads i) := by
  refine h.invariant (I := fun s => ∀ i, Attended (s.xorbUploads i)) ?_ ?_ i
  · intro s hsame i
    subst hsame
    exact fun h => absurd rfl h
  · intro s a t _ hi hdrop hstep j
    cases step_moves hstep with
    | @xorb i act g u turn =>
      rcases eq_or_ne j i with rfl | hj
      · have hne : act ≠ .drop := by
          intro hsame
          subst hsame
          cases hdrop
        simpa using moves_attended (xorbStep_moves turn) hne (hi j)
      · simpa [hj] using hi j
    | shard turn => exact hi j
    | crash => exact fun h => absurd rfl h

/-- A run without dropped handlers meets the condition: a task that writes has
a handler in the same critical section. -/
theorem reachable_layoutsAgree (h : (machine D).Reachable NoDrop s) :
    (machine D).Reachable (LayoutsAgree D.upstream) s := by
  refine h.meets ?_
  intro s a hreach _ i up _ hstage _ j hj hhash
  have hquiet : critical (s.xorbUploads j).stage = false := by
    by_contra hc
    exact hj ((reachable_traced hreach).exclusive (by simpa using hc) (by simp [hstage, critical])
      hhash)
  have hattended := reachable_attended hreach j
  refine ⟨?_, ?_⟩
  · intro stored htask
    rw [hattended.critical (.inl ⟨stored, false, htask⟩)] at hquiet
    cases hquiet
  · intro record dedup disk htask
    rw [hattended.critical (.inr ⟨record, dedup, disk, htask⟩)] at hquiet
    cases hquiet

/-- Every row describes the object of its hash, in every run where an upload
passes its check only when what others have left to tasks goes with it. -/
theorem rows_describe_objects (hdecode : D.upstream.FramesDecode)
    (hhex : D.upstream.HexRoundTrip) (h : (machine D).Reachable (LayoutsAgree D.upstream) s)
    (hash : String) (record : XorbRecord) (hrow : s.state.index.getXorb hash = some record) :
    ∃ object, s.state.objects (pathFor hash) = some object ∧ Agrees D.upstream object record :=
  (reachable_agreeing hdecode hhex h).settled (.inl hrow)

/-- A handler is dropped while its file is written; another upload of the same
hash goes through; then the first file is renamed. -/
def lateRename (body : Bytes) : List Server.Act :=
  sendLetter 0 Formats.plainBody ++ checkLetter 0 ++ [.xorb 0 .drop] ++ endUpload 0 ++
    sendLetter 1 body ++ checkLetter 1 ++ storeLetter 1 ++ [.xorb 0 .renamed]

/-- What a task holds is what this upload stores. -/
def sameBytes (up : Upload) : XorbTask → Bool
  | .write stored false => stored == up.stored
  | .put .. => false
  | _ => true

/-- Of two uploads, one checks while the other's task holds the same bytes. -/
def sameLayout (s : Server) : Server.Act → Bool
  | .xorb i .checked =>
    match (s.xorbUploads i).stage with
    | .checking up => sameBytes up (s.xorbUploads (1 - i)).task
    | _ => true
  | _ => true

/-- Two uploads of one body go with each other. -/
theorem layoutsAgree_of_same (hdecode : D.upstream.FramesDecode)
    (hreach : (machine D).Reachable Machine.anyStep s) {a : Server.Act}
    (hfew : ∀ j, 2 ≤ j → s.xorbUploads j = .none) (honly : onlyUploads 2 a = true)
    (hsame : sameLayout s a = true) : LayoutsAgree D.upstream s a := by
  intro i up hact hstage _ j hj _
  subst hact
  have hlt : i < 2 := by simpa [onlyUploads] using honly
  have hother : (s.xorbUploads j).task ≠ .none → j = 1 - i := by
    intro htask
    by_contra hne
    rw [hfew j (by omega)] at htask
    exact htask rfl
  simp only [sameLayout, hstage] at hsame
  have hsource := ((reachable_traced hreach).sourced i).stage
  rw [hstage] at hsource
  refine ⟨?_, ?_⟩
  · intro stored htask
    rw [← hother (by simp [htask]), htask] at hsame
    rw [eq_of_beq hsame]
    exact prepared_describes hdecode hsource
  · intro record dedup disk htask
    rw [← hother (by simp [htask]), htask] at hsame
    cases hsame

/-- A task left behind renames its file over the same bytes. -/
theorem renamed_letter_described : ∃ s, (machine sampleServer).Reachable
      (LayoutsAgree sampleServer.upstream) s ∧
    ∃ record, s.state.index.getXorb Formats.letterHex = some record ∧
      ∃ object, s.state.objects (pathFor Formats.letterHex) = some object ∧
        Agrees sampleServer.upstream object record := by
  let twins : Server → Server.Act → Bool := fun s a => onlyUploads 2 a && sameLayout s a
  obtain ⟨s, hrun, hrow⟩ := Machine.exec_reaches (machine sampleServer)
    (fun s a => twins s a = true) twins
    (fun s => (s.state.index.getXorb Formats.letterHex).isSome)
    (fun _ _ h => h) (boot sampleServer .fresh (fun _ => none)) (lateRename Formats.plainBody)
    (by decide +kernel)
  have hguarded : (machine sampleServer).Reachable (fun s a => twins s a = true) s := ⟨_, rfl, hrun⟩
  have hreach : (machine sampleServer).Reachable (LayoutsAgree sampleServer.upstream) s := by
    refine hguarded.meets ?_
    intro s a hreach htwins
    obtain ⟨honly, hsame⟩ := Bool.and_eq_true_iff.mp htwins
    refine layoutsAgree_of_same (Formats.documented_framesDecode _) hreach.free ?_ honly hsame
    intro j hj
    exact reachable_untouched hreach (fun _ _ h => (Bool.and_eq_true_iff.mp h).1) hj
  obtain ⟨record, hrecord⟩ := Option.isSome_iff_exists.mp hrow
  exact ⟨s, hreach, record, hrecord, rows_describe_objects (Formats.documented_framesDecode _)
    (Formats.documented_hexRoundTrip _) hreach _ record hrecord⟩

/-- A record of one frame does not describe an object whose first frame ends
before. -/
theorem not_agrees {object content rest : Bytes} {record : XorbRecord}
    (hone : record.chunkBoundaryOffsets.length = 1)
    (hread : U.deserializeChunk (object.take record.framesLength.toNat) = .ok (content, rest))
    (hrest : rest ≠ []) : ¬Agrees U object record := by
  intro hparts
  obtain ⟨frames, chunks, hd⟩ := hparts
  have hlen : frames.length = 1 := by
    have hends := congrArg List.length hd.boundary
    simpa [hone] using hends.symm
  obtain ⟨frame, rfl⟩ := List.length_eq_one_iff.mp hlen
  have hframe := hd.decodes
  cases hframe with
  | cons hfirst hnone =>
    have hwhole := hfirst.2 []
    rw [hd.cut] at hread
    simp only [List.flatten_cons, List.flatten_nil] at hread
    rw [hread] at hwhole
    cases hwhole
    exact hrest rfl

/-- The record counts one frame where the object's first one ends before. -/
def endsEarly (record : XorbRecord) (object : Bytes) : Bool :=
  match Formats.deserializeChunk Formats.sample (object.take record.framesLength.toNat) with
  | .ok (_, rest) => record.chunkBoundaryOffsets.length == 1 && !rest.isEmpty
  | .error _ => false

/-- The row describes the second upload's frames, the object has the first one's. -/
theorem row_with_foreign_object : ∃ s, (machine sampleServer).Reachable Machine.anyStep s ∧
    ∃ hash record, s.state.index.getXorb hash = some record ∧
      ¬∃ object, s.state.objects (pathFor hash) = some object ∧
        Agrees sampleServer.upstream object record := by
  obtain ⟨s, hrun, hend⟩ := Machine.exec_reaches (machine sampleServer) Machine.anyStep
    (fun _ _ => true)
    (fun s => (s.state.index.getXorb Formats.letterHex).any fun record =>
      (s.state.objects (pathFor Formats.letterHex)).any (endsEarly record))
    (fun _ _ _ => trivial) (boot sampleServer .fresh (fun _ => none))
    (lateRename Formats.packedBody)
    (by decide +kernel)
  obtain ⟨record, hrecord, hany⟩ := (Option.any_eq_true _ _).mp hend
  refine ⟨s, ⟨_, rfl, hrun⟩, _, record, hrecord, ?_⟩
  intro hparts
  obtain ⟨object, hobject, hagrees⟩ := hparts
  rw [hobject, Option.any_some] at hany
  unfold endsEarly at hany
  split at hany
  · rename_i content rest hread
    simp only [Bool.and_eq_true, beq_iff_eq, Bool.not_eq_true', List.isEmpty_eq_false_iff] at hany
    exact not_agrees hany.1 hread hany.2 hagrees
  · cases hany

end Xetcas.Proofs.Layout
