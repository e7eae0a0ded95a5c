import Xetcas.Proofs.MintedUrls

namespace Xetcas.Proofs.LfsBatch
open Lib Routes MintedUrls
variable {state : AppState} {request : LfsBatchRequest} {spec : LfsObjectSpec}
  {auth : Option String} {env : Lfs.Ambient}

/-- Every message reads back from its document, to the type it has, also when
the members of its object come in another order and beside unknown ones. -/
theorem documents_read_back (m : Schema.Message) :
    Schema.Message.readLike m.document m = some m ∧
    ∀ members extra sent, m.document = .object members → sent.Perm (members ++ extra) →
      (∀ pair ∈ extra, pair.1 ∉ m.memberNames) →
      Schema.Message.readLike (.object sent) m = some m := by
  unfold Schema.Message.readLike Schema.Message.document Schema.Message.memberNames
  cases m.shape with
  | struct layout value message same =>
    refine ⟨?_, ?_⟩
    · simp only [layout.read_render, Option.map_some, same]
    · intro members extra sent hdocument hperm hextra
      cases hdocument
      have hsent : layout.Sent value sent := ⟨extra, hperm, hextra⟩
      simp only [hsent.read, Option.map_some, same]
  | list form value message same bare =>
    refine ⟨?_, ?_⟩
    · simp only [form.reads, Option.map_some, same]
    · intro members extra sent hdocument
      obtain ⟨items, hitems⟩ := bare
      cases hitems.symm.trans hdocument

/-- An object of a batch, its members the other way round and one more. -/
theorem spec_reads_back : Schema.Message.readLike
      (.object [("note", .null), ("size", .number 4), ("oid", .string Formats.wordOid)])
      (.lfsObjectSpec ⟨Formats.wordOid, 4⟩) = some (.lfsObjectSpec ⟨Formats.wordOid, 4⟩) := by
  obtain ⟨_, hsent⟩ := documents_read_back (.lfsObjectSpec ⟨Formats.wordOid, 4⟩)
  refine hsent [("oid", .string Formats.wordOid), ("size", .number 4)] [("note", .null)] _ rfl
    (List.reverse_perm [("oid", Json.string Formats.wordOid), ("size", .number 4),
      ("note", .null)]) ?_
  intro pair hpair
  rw [List.mem_singleton.mp hpair]
  decide

section Valid
variable {object : LfsBatchObject}

def Exclusive (object : LfsBatchObject) : Prop := object.actions = .empty ∨ object.error = none

theorem uploadObject_exclusive (offersXet : Bool) (i : Nat) :
    Exclusive (Lfs.uploadObject state offersXet auth env spec i) := by
  unfold Lfs.uploadObject
  split
  · exact .inl rfl
  · split
    · exact .inl rfl
    · exact .inr rfl

theorem downloadObject_exclusive : Exclusive (Lfs.downloadObject state auth spec) := by
  unfold Lfs.downloadObject
  split
  · exact .inr rfl
  · exact .inl rfl

/-- An object passes its validator, if its actions lead somewhere. -/
theorem object_valid (h : Exclusive object)
    (hactions : ∀ name action, object.actions.get? name = some action →
      action.href.isEmpty = false) : validateLfsBatchObject object = .ok () := by
  unfold validateLfsBatchObject
  rw [check_eq_ok, require_ok]
  refine ⟨?_, ?_⟩
  · rcases h with hempty | hnone
    · simp [hempty, Table.empty]
    · simp [hnone]
  · apply forM_eq_ok.mpr
    intro row hrow
    exact requireNonEmpty_ok.mpr (hactions row.1 row.2 (Table.mem_rows.mp hrow))

/-- What both operations answer is valid. -/
theorem response_valid {response : LfsBatchResponse} (config : Config)
    (htransfer : response.transfer = TRANSFER_XET ∨ response.transfer = TRANSFER_BASIC)
    (hobjects : ∀ object ∈ response.objects, Exclusive object ∧
      ∀ name action, object.actions.get? name = some action →
        ∃ path, Minted config action.href path) :
    validateLfsBatchResponse response = .ok () := by
  unfold validateLfsBatchResponse
  rw [check_eq_ok, require_ok]
  refine ⟨by rcases htransfer with h | h <;> rw [h] <;> decide, ?_⟩
  apply forM_eq_ok.mpr
  intro object hobject
  obtain ⟨hexclusive, hactions⟩ := hobjects object hobject
  apply object_valid hexclusive
  intro name action haction
  obtain ⟨path, hurl, _, hpath⟩ := hactions name action haction
  rw [String.isEmpty_eq_false_iff, hurl]
  intro hempty
  have hnil := congrArg String.toList hempty
  rw [String.toList_append] at hnil
  rw [(List.append_eq_nil_iff.mp hnil).2] at hpath
  cases hpath

theorem uploadBatch_valid :
    validateLfsBatchResponse (Lfs.uploadBatch state request auth env) = .ok () := by
  apply response_valid state.config
  · simp only [Lfs.uploadBatch]
    split
    · exact .inl rfl
    · exact .inr rfl
  · intro object hobject
    obtain ⟨⟨spec, i⟩, _, rfl⟩ := List.mem_map.mp hobject
    refine ⟨uploadObject_exclusive _ _, ?_⟩
    intro name action haction
    obtain ⟨path, hminted, _⟩ := uploadObject_leads haction
    exact ⟨path, hminted⟩

theorem downloadBatch_valid (hoids : ∀ spec ∈ request.objects, isHashHex spec.oid = true) :
    validateLfsBatchResponse (Lfs.downloadBatch state request auth) = .ok () := by
  apply response_valid state.config (.inr rfl)
  intro object hobject
  obtain ⟨spec, hspec, rfl⟩ := List.mem_map.mp hobject
  refine ⟨downloadObject_exclusive, ?_⟩
  intro name action haction
  obtain ⟨path, hminted, _⟩ := downloadObject_leads (hoids spec hspec) haction
  exact ⟨path, hminted⟩

theorem request_operation (h : validateLfsBatchRequest request = .ok ()) :
    request.operation = "upload" ∨ request.operation = "download" := by
  unfold validateLfsBatchRequest at h
  obtain ⟨hoperation, _⟩ := check_eq_ok.mp h
  simpa using hoperation

theorem not_upload (h : request.operation = "download") : request.operation ≠ "upload" := by
  rw [h]
  decide

/-- A valid request is answered, by its operation. -/
theorem batch_valid (state : AppState) (auth : Option String) (env : Lfs.Ambient)
    (h : validateLfsBatchRequest request = .ok ()) :
    request.operation = "upload" ∧
      Lfs.batch state request auth env = .ok (Lfs.uploadBatch state request auth env) ∨
    request.operation = "download" ∧
      Lfs.batch state request auth env = .ok (Lfs.downloadBatch state request auth) := by
  have hchecked := checkRequest_ok.mpr h
  rcases request_operation h with hupload | hdownload
  · refine .inl ⟨hupload, ?_⟩
    rw [Lfs.batch, hchecked]
    simp only [bind, Except.bind, if_pos hupload, uploadBatch_valid, checkResponse]
  · refine .inr ⟨hdownload, ?_⟩
    have hne := not_upload hdownload
    rw [Lfs.batch, hchecked]
    simp only [bind, Except.bind, if_neg hne, if_pos hdownload,
      downloadBatch_valid (request_oids hchecked), checkResponse]

end Valid

/-- The object is to be uploaded or downloaded by the client. -/
def Work (state : AppState) (request : LfsBatchRequest) (spec : LfsObjectSpec) : Prop :=
  if request.operation = "upload" then
    request.transfers.any (· == TRANSFER_XET) = true ∧ state.index.fileBySha256 spec.oid = none
  else (state.index.fileBySha256 spec.oid).isSome = true

/-- The object is refused: there is no such file, or no transfer for it. -/
def Refused (state : AppState) (request : LfsBatchRequest) (spec : LfsObjectSpec) : Prop :=
  if request.operation = "upload" then request.transfers.any (· == TRANSFER_XET) = false
  else state.index.fileBySha256 spec.oid = none

/-- What a client reads in an object's entry. Members that say nothing are not
there, so that an upload without `actions` and `error` is one to skip. -/
structure Tells (state : AppState) (request : LfsBatchRequest) (auth : Option String)
    (spec : LfsObjectSpec) (entry : Json) : Prop where
  oid : entry.get? "oid" = some (.string spec.oid)
  size : entry.get? "size" = some (.number spec.size.toNat)
  work : (entry.get? "actions").isSome = true ↔ Work state request spec
  refused : (entry.get? "error").isSome = true ↔ Refused state request spec
  authenticated : entry.get? "authenticated" = some (.bool true) ↔
    Work state request spec ∧ auth.isSome = true
  unauthenticated : entry.get? "authenticated" ≠ some (.bool true) →
    entry.get? "authenticated" = none
  action : ∀ actions, entry.get? "actions" = some actions → ∃ action,
    actions = .object [(request.operation, action)] ∧ (action.get? "href").isSome = true ∧
    (action.get? "header").bind (Json.get? Lfs.AUTHORIZATION_HEADER) = auth.map .string

section Members
variable (object : LfsBatchObject) (action : LfsAction)

theorem object_oid :
    (LfsBatchObject.json.render object).get? "oid" = some (.string object.oid) :=
  LfsBatchObject.json.get?_render object 0 (by decide) rfl

theorem object_size :
    (LfsBatchObject.json.render object).get? "size" = some (.number object.size.toNat) :=
  LfsBatchObject.json.get?_render object 1 (by decide) rfl

theorem object_authenticated : (LfsBatchObject.json.render object).get? "authenticated" =
    if object.authenticated then some (.bool true) else none := by
  cases h : object.authenticated with
  | true =>
    refine (LfsBatchObject.json.get?_render object 2 (by decide) (congrArg not h)).trans ?_
    exact congrArg (fun b => some (Json.bool b)) h
  | false => exact LfsBatchObject.json.get?_skipped object 2 (by decide) (congrArg not h)

theorem object_actions : (LfsBatchObject.json.render object).get? "actions" =
    if mapIsEmpty object.actions then none
    else some (LfsAction.json.form.map.render object.actions) := by
  cases h : mapIsEmpty object.actions with
  | true => exact LfsBatchObject.json.get?_skipped object 3 (by decide) h
  | false => exact LfsBatchObject.json.get?_render object 3 (by decide) h

theorem object_error : (LfsBatchObject.json.render object).get? "error" =
    object.error.map LfsObjectError.json.render := by
  cases h : object.error with
  | none => exact LfsBatchObject.json.get?_skipped object 4 (by decide) (congrArg Option.isNone h)
  | some error =>
    refine (LfsBatchObject.json.get?_render object 4 (by decide)
      (congrArg Option.isNone h)).trans ?_
    exact congrArg (fun e => some (LfsObjectError.json.optional.render e)) h

theorem action_href : (LfsAction.json.render action).get? "href" = some (.string action.href) :=
  LfsAction.json.get?_render action 0 (by decide) rfl

theorem action_header (name : String) :
    ((LfsAction.json.render action).get? "header").bind (Json.get? name) =
      (action.header.get? name).map .string := by
  cases h : mapIsEmpty action.header with
  | true =>
    have hheader : (LfsAction.json.render action).get? "header" = none :=
      LfsAction.json.get?_skipped action 1 (by decide) h
    rw [hheader, mapIsEmpty_iff.mp h]
    rfl
  | false =>
    have hheader : (LfsAction.json.render action).get? "header" =
        some (Json.Form.string.map.render action.header) :=
      LfsAction.json.get?_render action 1 (by decide) h
    rw [hheader, Option.bind_some, Json.Form.get?_map]
    rfl

end Members

section Objects
variable {action : LfsAction}

theorem get?_withAuthorization {header : Table String String}
    (h : header.get? Lfs.AUTHORIZATION_HEADER = none) :
    (Lfs.withAuthorization header auth).get? Lfs.AUTHORIZATION_HEADER = auth := by
  cases auth with
  | none => exact h
  | some value => rw [Lfs.withAuthorization, Table.get?_upsert, if_pos rfl]

theorem downloadAction_credential (config : Config) (oid : String) :
    (Lfs.downloadAction config oid auth).header.get? Lfs.AUTHORIZATION_HEADER = auth :=
  get?_withAuthorization rfl

theorem uploadAction_credential (config : Config) (now : UInt64) (sessionId : String) :
    (Lfs.uploadAction config auth now sessionId).header.get? Lfs.AUTHORIZATION_HEADER = auth := by
  apply get?_withAuthorization
  have hkeys : Lfs.AUTHORIZATION_HEADER ≠ HEADER_XET_CAS_URL ∧
      Lfs.AUTHORIZATION_HEADER ≠ HEADER_XET_ACCESS_TOKEN ∧
      Lfs.AUTHORIZATION_HEADER ≠ HEADER_XET_TOKEN_EXPIRATION ∧
      Lfs.AUTHORIZATION_HEADER ≠ HEADER_XET_SESSION_ID := by decide
  obtain ⟨hurl, htoken, hexpiration, hsession⟩ := hkeys
  simp only [Table.get?_insertOrIgnore, if_neg hurl, if_neg htoken, if_neg hexpiration,
    if_neg hsession, Table.get?_empty]

theorem rows_single (name : String) :
    (Table.empty.insertOrIgnore name action).rows = [(name, action)] :=
  Table.insertOrIgnore_new rfl

/-- An object with something to do, under a credential. -/
theorem tells_action (hwork : Work state request spec) (hserved : ¬Refused state request spec)
    (hheader : action.header.get? Lfs.AUTHORIZATION_HEADER = auth) :
    Tells state request auth spec (LfsBatchObject.json.render ⟨spec.oid, spec.size,
      Lfs.embedsAuthorization action, Table.empty.insertOrIgnore request.operation action,
      none⟩) := by
  have hactions : mapIsEmpty (Table.empty.insertOrIgnore request.operation action) = false := by
    rw [mapIsEmpty, rows_single]
    rfl
  refine ⟨object_oid _, object_size _, ?_, ?_, ?_, ?_, ?_⟩
  · simp [object_actions, hactions, hwork]
  · simp [object_error, hserved]
  · simp [object_authenticated, Lfs.embedsAuthorization, hheader, hwork, Option.isSome_iff_ne_none]
  · rw [object_authenticated]
    split <;> simp
  · intro actions hfound
    rw [object_actions, hactions, if_neg (by simp), Option.some.injEq] at hfound
    refine ⟨LfsAction.json.render action, ?_, ?_, ?_⟩
    · rw [← hfound]
      exact congrArg (fun rows => Json.object
        (rows.map (fun row => (row.1, LfsAction.json.render row.2)))) (rows_single _)
    · rw [action_href]
      rfl
    · rw [action_header, hheader]

/-- An object with nothing to do, because it is there or because it is refused. -/
theorem tells_none {error : Option LfsObjectError} (hidle : ¬Work state request spec)
    (herror : error.isSome = true ↔ Refused state request spec) :
    Tells state request auth spec
      (LfsBatchObject.json.render ⟨spec.oid, spec.size, false, .empty, error⟩) := by
  have hactions : (LfsBatchObject.json.render
      ⟨spec.oid, spec.size, false, .empty, error⟩).get? "actions" = none := by
    rw [object_actions]
    rfl
  refine ⟨object_oid _, object_size _, ?_, ?_, ?_, ?_, ?_⟩
  · simp [hactions, hidle]
  · simp [object_error, herror]
  · simp [object_authenticated, hidle]
  · simp [object_authenticated]
  · intro actions hfound
    rw [hactions] at hfound
    cases hfound

theorem uploadObject_tells (hupload : request.operation = "upload") (i : Nat) :
    Tells state request auth spec (LfsBatchObject.json.render (Lfs.uploadObject state
      (request.transfers.any (· == TRANSFER_XET)) auth env spec i)) := by
  cases hoffers : request.transfers.any (· == TRANSFER_XET) with
  | false =>
    rw [Lfs.uploadObject, if_pos Bool.not_false]
    refine tells_none ?_ ?_
    · simp only [Work, if_pos hupload, hoffers]
      simp
    · simp only [Refused, if_pos hupload, hoffers]
      simp
  | true =>
    cases hfound : state.index.fileBySha256 spec.oid with
    | some file =>
      rw [Lfs.uploadObject, if_neg (by decide), hfound, if_pos Option.isSome_some]
      refine tells_none ?_ ?_
      · simp only [Work, if_pos hupload, hfound]
        simp
      · simp only [Refused, if_pos hupload, hoffers]
        simp
    | none =>
      rw [Lfs.uploadObject, if_neg (by decide), hfound, if_neg (by simp), ← hupload]
      refine tells_action ?_ ?_ (uploadAction_credential _ _ _)
      · simp only [Work, if_pos hupload, hfound, hoffers]
        simp
      · simp only [Refused, if_pos hupload, hoffers]
        simp

theorem downloadObject_tells (hdownload : request.operation = "download") :
    Tells state request auth spec
      (LfsBatchObject.json.render (Lfs.downloadObject state auth spec)) := by
  have hne := not_upload hdownload
  cases hfound : state.index.fileBySha256 spec.oid with
  | some file =>
    simp only [Lfs.downloadObject, hfound]
    rw [← hdownload]
    refine tells_action ?_ ?_ (downloadAction_credential _ _)
    · simp [Work, if_neg hne, hfound]
    · simp [Refused, if_neg hne, hfound]
  | none =>
    simp only [Lfs.downloadObject, hfound]
    refine tells_none ?_ ?_
    · simp [Work, if_neg hne, hfound]
    · simp [Refused, if_neg hne, hfound]

end Objects

theorem batch_tells (state : AppState) (auth : Option String) (env : Lfs.Ambient)
    (hvalid : validateLfsBatchRequest request = .ok ()) : ∃ response,
    Lfs.batch state request auth env = .ok response ∧
    response.transfer = (if request.operation = "upload" ∧
      request.transfers.any (· == TRANSFER_XET) = true then TRANSFER_XET else TRANSFER_BASIC) ∧
    List.Forall₂ (fun spec object => Tells state request auth spec
      (LfsBatchObject.json.render object)) request.objects response.objects := by
  rcases batch_valid state auth env hvalid with ⟨hupload, hbatch⟩ | ⟨hdownload, hbatch⟩
  · refine ⟨_, hbatch, ?_, ?_⟩
    · simp only [Lfs.uploadBatch, hupload, true_and]
    · rw [Lfs.uploadBatch, List.forall₂_map_right_iff]
      -- each object stands beside its index
      conv => arg 2; rw [← List.zipIdx_map_fst 0 request.objects]
      rw [List.forall₂_map_left_iff, List.forall₂_same]
      exact fun _ _ => uploadObject_tells hupload _
  · refine ⟨_, hbatch, ?_, ?_⟩
    · simp [Lfs.downloadBatch, hdownload]
    · rw [Lfs.downloadBatch, List.forall₂_map_right_iff, List.forall₂_same]
      exact fun _ _ => downloadObject_tells hdownload

/-- A body that is no request, or not a valid one, is refused. Any other is
answered with a document that has an entry for each object in turn. -/
theorem batch_documents (state : AppState) (complaint : Json → String) (body : Json)
    (authorization : Option String) (env : Lfs.Ambient) :
    (LfsBatchRequest.json.read body = none →
      Lfs.batchDocument state complaint body (Lfs.forwardedAuthorization authorization) env =
        .error (.badRequest s!"malformed batch request: {complaint body}")) ∧
    ∀ request, LfsBatchRequest.json.read body = some request →
      (∀ e, validateLfsBatchRequest request = .error e →
        Lfs.batchDocument state complaint body (Lfs.forwardedAuthorization authorization) env =
          .error (.badRequest e.toText)) ∧
      (validateLfsBatchRequest request = .ok () → ∃ answer entries,
        Lfs.batchDocument state complaint body (Lfs.forwardedAuthorization authorization) env =
          .ok answer ∧
        answer.get? "transfer" = some (.string (if request.operation = "upload" ∧
          request.transfers.any (· == TRANSFER_XET) = true then TRANSFER_XET
          else TRANSFER_BASIC)) ∧
        answer.get? "objects" = some (.array entries) ∧
        List.Forall₂ (Tells state request (Lfs.forwardedAuthorization authorization))
          request.objects entries) := by
  generalize Lfs.forwardedAuthorization authorization = auth
  refine ⟨?_, ?_⟩
  · intro hnone
    rw [Lfs.batchDocument, hnone]
  · intro request hread
    have hdocument : Lfs.batchDocument state complaint body auth env =
        (Lfs.batch state request auth env).map LfsBatchResponse.json.render := by
      rw [Lfs.batchDocument, hread]
    refine ⟨?_, ?_⟩
    · intro e he
      rw [hdocument, Lfs.batch, he]
      rfl
    · intro hvalid
      obtain ⟨response, hbatch, htransfer, hobjects⟩ := batch_tells state auth env hvalid
      refine ⟨LfsBatchResponse.json.render response,
        response.objects.map LfsBatchObject.json.render, ?_, ?_, ?_, ?_⟩
      · rw [hdocument, hbatch]
        rfl
      · rw [← htransfer]
        exact LfsBatchResponse.json.get?_render response 0 (by decide) rfl
      · exact LfsBatchResponse.json.get?_render response 1 (by decide) rfl
      · rwa [List.forall₂_map_right_iff]

def wordBatch : Json :=
  .object [("operation", .string "download"), ("objects", .array [
    .object [("oid", .string Formats.wordOid), ("size", .number 4)]])]

/-- A client that asks for the file CDEA is told where to get it, with its own
credential. -/
theorem word_batch_answered : ∃ s answer entry,
    (Server.machine Server.sampleServer).Reachable Server.NoDrop s ∧
    Lfs.batchDocument s.state (fun _ => "") wordBatch
      (Lfs.forwardedAuthorization (some "Basic Og==")) ⟨0, fun _ => ""⟩ = .ok answer ∧
    answer.get? "objects" = some (.array [entry]) ∧
    (entry.get? "actions").isSome = true ∧
    entry.get? "authenticated" = some (.bool true) := by
  obtain ⟨s, hreach, hlinked⟩ := Server.word_registered (fun s =>
    (s.state.index.fileBySha256 Formats.wordOid).isSome) (by decide +kernel)
  obtain ⟨_, hvalid⟩ := (batch_documents s.state (fun _ => "") wordBatch (some "Basic Og==")
    ⟨0, fun _ => ""⟩).2 ⟨"download", [], none, [⟨Formats.wordOid, 4⟩], ""⟩ (by rfl)
  obtain ⟨answer, entries, hanswer, _, hobjects, htells⟩ := hvalid (by decide +kernel)
  obtain ⟨entry, rest, htell, hnone, rfl⟩ := List.forall₂_cons_left_iff.mp htells
  cases hnone
  have hwork : Work s.state ⟨"download", [], none, [⟨Formats.wordOid, 4⟩], ""⟩
      ⟨Formats.wordOid, 4⟩ := by
    rw [Work, if_neg (by decide)]
    exact hlinked
  exact ⟨s, answer, entry, hreach, hanswer, hobjects, htell.work.mpr hwork,
    htell.authenticated.mpr ⟨hwork, by decide +kernel⟩⟩

/-- An object that is there is answered with its name and size alone. -/
example : LfsBatchResponse.json.render ⟨"xet", [⟨"a1", 7, false, .empty, none⟩], ""⟩ =
    .object [("transfer", .string "xet"),
      ("objects", .array [.object [("oid", .string "a1"), ("size", .number 7)]])] := rfl

end Xetcas.Proofs.LfsBatch
