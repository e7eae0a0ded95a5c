import Xetcas.Proofs.Dedup
import Xetcas.Proofs.Downloads
import Xetcas.Proofs.Frozen

namespace Xetcas.Proofs.Stability
open Lib Server Routes Registration Content Dedup Frozen Downloads Reconstructable
variable {U : Upstream} {D : Deployment} {state state' : AppState} {s t : Server}

/-- The settings are those of the deployment. -/
theorem reachable_config {ok : Server → Server.Act → Prop} (h : (machine D).Reachable ok s) :
    s.state.config = D.config := by
  refine h.invariant (I := fun s => s.state.config = D.config) ?_ ?_
  · intro s hsame
    subst hsame
    rfl
  · intro s a t _ hi _ hstep
    cases step_moves hstep with
    | xorb turn => cases Xorbs.xorbStep_moves turn <;> exact hi
    | shard turn =>
      rw [Shards.shardStep_frame turn]
      exact hi
    | crash => rfl

section Kept
variable {hash : String} {range : Option Xorbs.HeaderValue}

/-- What the data route has sent it sends again. -/
theorem data_kept (h : Keeps state state') {answer : Xorbs.DataResponse}
    (hdata : Xorbs.data state hash range = .ok answer) :
    Xorbs.data state' hash range = .ok answer := by
  cases hrow : state.index.getXorb hash with
  | none =>
    unfold Xorbs.data at hdata
    rw [hrow] at hdata
    cases hdata
  | some record =>
    have hrow' : state'.index.getXorb hash = some record := h.index.xorbs _ _ hrow
    unfold Xorbs.data at hdata ⊢
    rw [hrow', h.objects hrow]
    rw [hrow] at hdata
    exact hdata

end Kept

/-- A term that can be fetched can be fetched later, with the same bytes. -/
theorem fetchTerm_kept (h : Keeps state state') {response : QueryReconstructionResponse}
    {term : CasReconstructionTerm} {bytes : Bytes}
    (hfetch : fetchTerm U state response term = .ok bytes) :
    fetchTerm U state' response term = .ok bytes := by
  obtain ⟨range, hrange, hfetch⟩ := bind_eq_ok.mp hfetch
  obtain ⟨info, hinfo, hfetch⟩ := bind_eq_ok.mp hfetch
  obtain ⟨entry, hentry, hfetch⟩ := bind_eq_ok.mp hfetch
  obtain ⟨chunks, hchunks, hfetch⟩ := bind_eq_ok.mp hfetch
  obtain ⟨window, hwindow, hfetch⟩ := bind_eq_ok.mp hfetch
  obtain ⟨answer, hanswer, hrest⟩ := bind_eq_ok.mp hfetch
  cases hdata : Xorbs.data state term.hash
      (rangeHeader window.start.toNat window.stop.toNat) with
  | error e =>
    rw [hdata] at hanswer
    cases hanswer
  | ok sent =>
    rw [hdata] at hanswer
    have hanswer' : answered (Xorbs.data state' term.hash
        (rangeHeader window.start.toNat window.stop.toNat)) = .ok answer := by
      rw [data_kept h hdata]
      exact hanswer
    exact bind_eq_ok.mpr ⟨range, hrange, bind_eq_ok.mpr ⟨info, hinfo, bind_eq_ok.mpr ⟨entry, hentry,
      bind_eq_ok.mpr ⟨chunks, hchunks, bind_eq_ok.mpr ⟨window, hwindow,
        bind_eq_ok.mpr ⟨answer, hanswer', hrest⟩⟩⟩⟩⟩⟩

theorem forall₂_zip {α β γ : Type} {R : α → β → Prop} {S : α × γ → β → Prop} {xs : List α}
    {ys : List β} {zs : List γ} (h : List.Forall₂ R xs ys) (hlength : zs.length = xs.length)
    (hall : ∀ x y, ∀ z ∈ zs, R x y → S (x, z) y) : List.Forall₂ S (xs.zip zs) ys := by
  induction h generalizing zs with
  | nil => exact .nil
  | cons hxy _ ih =>
    cases zs with
    | nil => cases hlength
    | cons z zs =>
      exact .cons (hall _ _ z (by simp) hxy)
        (ih (by simpa using hlength) (fun x y w hw => hall x y w (by simp [hw])))

/-- A plan never goes stale: a client that fetches each term when it likes,
whatever is uploaded and however often the server restarts in between, puts
together the bytes it asked for. -/
theorem plan_never_stale (hdecode : D.upstream.FramesDecode) (hhex : D.upstream.HexRoundTrip)
    (h : (machine D).Reachable NoDrop s) {fileHash : String} {row : FileRow}
    (hrow : s.state.index.files.get? fileHash = some row) {start stop : Nat} (hlt : start < stop)
    (hle : stop ≤ row.record.fileLength.toNat) :
    ∃ response, Reconstructions.get s.state fileHash (rangeHeader start (stop - 1)) =
        .ok response ∧
      ∀ later : List Server, later.length = response.terms.length →
        (∀ t ∈ later, (machine D).Run NoDrop s t) →
        ∃ parts, (response.terms.zip later).mapM
            (fun fetch => fetchTerm D.upstream fetch.2.state response fetch.1) = .ok parts ∧
          (parts.flatten.drop response.offsetIntoFirstRange.toNat).take (stop - start) =
            ((contentOf D.upstream s.state row.record).drop start).take (stop - start) := by
  have hrows := reachable_rows h
  have hd := reachable_described hdecode hhex h
  have hcontent := downloadRange_content hdecode.cumulativeOffsets hrows hd hrow hlt hle
  obtain ⟨response, hresponse, hrest⟩ := bind_eq_ok.mp hcontent
  obtain ⟨parts, hparts, hdone⟩ := bind_eq_ok.mp hrest
  have hget : Reconstructions.get s.state fileHash (rangeHeader start (stop - 1)) =
      .ok response := by
    cases hget : Reconstructions.get s.state fileHash (rangeHeader start (stop - 1)) with
    | error e =>
      rw [hget] at hresponse
      cases hresponse
    | ok sent =>
      rw [hget] at hresponse
      cases hresponse
      rfl
  refine ⟨response, hget, ?_⟩
  intro later hlength hlater
  refine ⟨parts, ?_, Except.ok.inj hdone⟩
  rw [mapM_eq_ok] at hparts ⊢
  refine forall₂_zip hparts hlength ?_
  intro term part t ht hfetch
  exact fetchTerm_kept (run_keeps hhex h (hlater t ht)) hfetch

/-- The letter's only term is fetched after a restart. -/
theorem letter_plan_kept : ∃ s t response parts, (machine sampleServer).Reachable NoDrop s ∧
    (machine sampleServer).step s .crash = some t ∧
    Reconstructions.get s.state (Formats.hex Formats.letterFileHash) (rangeHeader 0 (1 - 1)) =
      .ok response ∧
    (response.terms.zip (List.replicate response.terms.length t)).mapM (fun fetch =>
      fetchTerm sampleServer.upstream fetch.2.state response fetch.1) = .ok parts ∧
    ((parts.flatten.drop response.offsetIntoFirstRange.toNat).take (1 - 0)).length = 1 := by
  obtain ⟨s, hreach, row, hrow, hlength, _⟩ := letter_registered
  have hcrash : (machine sampleServer).step s .crash =
      some (boot sampleServer s.state.index s.state.objects) := rfl
  have hone : row.record.fileLength.toNat = 1 := by rw [hlength]; rfl
  have hdecode := Formats.documented_framesDecode Formats.sample
  obtain ⟨response, hget, hlater⟩ := plan_never_stale hdecode
    (Formats.documented_hexRoundTrip _) hreach hrow (by decide : 0 < 1) hone.ge
  obtain ⟨parts, hparts, hbytes⟩ := hlater (List.replicate response.terms.length _) (by simp) (by
    intro t ht
    rw [List.eq_of_mem_replicate ht]
    exact .single .crash rfl hcrash)
  refine ⟨s, _, response, parts, hreach, hcrash, hget, hparts, ?_⟩
  have hcontent : (contentOf sampleServer.upstream s.state row.record).length =
      row.record.fileLength.toNat :=
    length_contentOf hdecode.cumulativeOffsets (reachable_rows hreach)
      (reachable_described hdecode (Formats.documented_hexRoundTrip _) hreach)
      ((reachable_rows hreach).files hrow).2.2
  rw [hbytes, List.length_take, List.length_drop, hcontent, hone]
  rfl

end Xetcas.Proofs.Stability
