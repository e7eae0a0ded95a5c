import Xetcas.Proofs.Stability

namespace Xetcas.Proofs.Authorization
open Lib Routes Server Stability
variable {D : Deployment} {U : Upstream} {config : Config} {g g' : AppState} {s t : Server}
  {i : Nat} {token : String} {authorization : Option String}

/-- The header is text: the scheme and the token, with white space around the
token. -/
def Presents (token : String) (authorization : Option String) : Prop :=
  ∃ value, authorization = some value ∧ value.toList.all isVisibleAscii = true ∧
    ∃ before after, Blank before ∧ Blank after ∧
      value.toList = "Bearer ".toList ++ (before ++ token.toList ++ after)

/-- A header can present the token: it has no white space at its ends, and no
characters that are no text. -/
def Presentable (token : String) : Prop :=
  trim token.toList = token.toList ∧ token.toList.all isVisibleAscii = true

theorem authorize_eq (config : Config) (authorization : Option String) :
    AppState.authorize config authorization = .ok () ∨
    AppState.authorize config authorization = .error .unauthorized := by
  unfold AppState.authorize
  split
  · exact .inl rfl
  · simp only
    split
    · exact .inl rfl
    · exact .inr rfl

/-- What `authorize` compares with the token is that token. -/
theorem presented_iff : ((authorization.bind toStr).bind
    (fun v => stripStart "Bearer ".toList v.toList)).map trim = some token.toList ↔
      trim token.toList = token.toList ∧ Presents token authorization := by
  constructor
  · intro h
    obtain ⟨rest, hrest, htrim⟩ := Option.map_eq_some_iff.mp h
    obtain ⟨text, htext, hvalue⟩ := Option.bind_eq_some_iff.mp hrest
    obtain ⟨value, rfl, hstr⟩ := Option.bind_eq_some_iff.mp htext
    obtain ⟨hvisible, rfl⟩ := toStr_eq_some.mp hstr
    obtain ⟨htoken, before, after, hbefore, hafter, rfl⟩ := trim_eq_iff.mp htrim
    exact ⟨htoken, value, rfl, hvisible, before, after, hbefore, hafter,
      stripStart_eq_some.mp hvalue⟩
  · rintro ⟨htoken, value, rfl, hvisible, before, after, hbefore, hafter, hvalue⟩
    rw [Option.bind_some, toStr_eq_some.mpr ⟨hvisible, rfl⟩, Option.bind_some,
      stripStart_eq_some.mpr hvalue, Option.map_some, trim_around hbefore hafter, htoken]

theorem authorize_iff : AppState.authorize config authorization = .ok () ↔
    ∀ token, config.token = some token →
      trim token.toList = token.toList ∧ Presents token authorization := by
  unfold AppState.authorize Config.requiredToken
  cases config.token with
  | none => simp
  | some token =>
    simp only [Option.some.injEq, forall_eq']
    rw [← presented_iff]
    split
    · rename_i hpresented
      exact ⟨fun _ => hpresented, fun _ => rfl⟩
    · rename_i hpresented
      exact ⟨fun h => (by cases h), fun h => absurd h hpresented⟩

/-- What is presented is text. -/
theorem Presents.visible (h : Presents token authorization) :
    token.toList.all isVisibleAscii = true := by
  obtain ⟨value, _, hvisible, before, after, _, _, hvalue⟩ := h
  rw [hvalue, List.all_append, List.all_append, List.all_append, Bool.and_eq_true,
    Bool.and_eq_true, Bool.and_eq_true] at hvisible
  exact hvisible.2.1.2

/-- The bare scheme and the token present it. -/
theorem presents_bearer (h : token.toList.all isVisibleAscii = true) :
    Presents token (some ("Bearer " ++ token)) := by
  refine ⟨_, rfl, ?_, [], [], .nil, .nil, ?_⟩
  · rw [String.toList_append, List.all_append, h, Bool.and_true]
    decide
  · simp

/-- No request of a step presents the token. -/
def Keyless (token : String) (_ : Server) : Server.Act → Prop
  | .xorb _ (.request authorization _ _) => ¬Presents token authorization
  | .shard _ (.request authorization _) => ¬Presents token authorization
  | _ => True

theorem keyless_unauthorized (htoken : config.token = some token)
    (h : ¬Presents token authorization) :
    AppState.authorize config authorization = .error .unauthorized := by
  rcases authorize_eq config authorization with hok | herror
  · exact absurd (authorize_iff.mp hok token htoken).2 h
  · exact herror

/-- An upload that has not begun or has left nothing behind. -/
def XorbQuiet (u : Xorbs.XorbUpload) : Prop := (u.stage = .idle ∨ u.stage = .ended) ∧ u.task = .none

def ShardQuiet (u : Shards.ShardUpload) : Prop :=
  (u.stage = .idle ∨ u.stage = .ended) ∧ u.task = .none

/-- All such an upload can do without the token is to be refused. -/
theorem xorb_refused {u u' : Xorbs.XorbUpload} {act : Xorbs.XorbAct} (hu : XorbQuiet u)
    (htoken : g.config.token = some token) (hact : Keyless token s (.xorb i act))
    (h : Xorbs.xorbStep U i g u act = some (g', u')) :
    g' = g ∧ u' = { u with stage := .ended, answer := some (.error .unauthorized) } := by
  obtain ⟨hstage, htask⟩ := hu
  cases act with
  | request authorization key body =>
    have hno : Xorbs.admitUpload U g.config authorization key = .error .unauthorized := by
      rw [Xorbs.admitUpload, keyless_unauthorized htoken hact]
      rfl
    rcases hstage with hidle | hended
    · simp only [Xorbs.xorbStep, hidle, hno, Option.some.injEq, Prod.mk.injEq] at h
      exact ⟨h.1.symm, h.2.symm⟩
    · simp [Xorbs.xorbStep, hended] at h
  | _ => rcases hstage with hidle | hended <;> simp [Xorbs.xorbStep, *] at h

theorem shard_refused {u u' : Shards.ShardUpload} {act : Shards.ShardAct} (hu : ShardQuiet u)
    (htoken : g.config.token = some token) (hact : Keyless token s (.shard i act))
    (h : Shards.shardStep U g u act = some (g', u')) :
    g' = g ∧ u' = u.return_ (.error .unauthorized) := by
  obtain ⟨hstage, htask⟩ := hu
  cases act with
  | request authorization body =>
    have hno : AppState.authorize g.config authorization = .error .unauthorized :=
      keyless_unauthorized htoken hact
    rcases hstage with hidle | hended
    · simp only [Shards.shardStep, hidle, hno, Option.some.injEq, Prod.mk.injEq] at h
      exact ⟨h.1.symm, h.2.symm⟩
    · simp [Shards.shardStep, hended] at h
  | _ => rcases hstage with hidle | hended <;> simp [Shards.shardStep, *] at h

/-- What is stored stays, and nobody new is answered anything but 401. -/
structure Untouched (s t : Server) : Prop where
  index : t.state.index = s.state.index
  objects : t.state.objects = s.state.objects
  xorbs : ∀ i, XorbQuiet (t.xorbUploads i) ∧ ∀ answer, (t.xorbUploads i).answer = some answer →
    (s.xorbUploads i).answer = some answer ∨ answer = .error .unauthorized
  shards : ∀ i, ShardQuiet (t.shardUploads i) ∧ ∀ answer, (t.shardUploads i).answer = some answer →
    (s.shardUploads i).answer = some answer ∨ answer = .error .unauthorized

theorem Untouched.step {t' : Server} {a : Server.Act} (h : Untouched s t)
    (htoken : t.state.config.token = some token) (ha : Keyless token t a)
    (hstep : Server.step D t a = some t') : Untouched s t' := by
  cases step_moves hstep with
  | @xorb i act g u turn =>
    obtain ⟨rfl, rfl⟩ := xorb_refused (h.xorbs i).1 htoken ha turn
    refine ⟨h.index, h.objects, ?_, h.shards⟩
    intro j
    by_cases hj : j = i
    · subst hj
      simp only [Function.update_self]
      exact ⟨⟨.inr rfl, (h.xorbs j).1.2⟩, fun answer hanswer => .inr (by cases hanswer; rfl)⟩
    · simpa only [Function.update_of_ne hj] using h.xorbs j
  | @shard i act g u turn =>
    obtain ⟨rfl, rfl⟩ := shard_refused (h.shards i).1 htoken ha turn
    refine ⟨h.index, h.objects, h.xorbs, ?_⟩
    intro j
    by_cases hj : j = i
    · subst hj
      simp only [Function.update_self]
      exact ⟨⟨.inr rfl, (h.shards j).1.2⟩, fun answer hanswer => .inr (by cases hanswer; rfl)⟩
    · simpa only [Function.update_of_ne hj] using h.shards j
  | crash =>
    refine ⟨h.index, h.objects, ?_, ?_⟩
    · intro j
      exact ⟨⟨.inl rfl, rfl⟩, fun answer hanswer => by cases hanswer⟩
    · intro j
      exact ⟨⟨.inl rfl, rfl⟩, fun answer hanswer => by cases hanswer⟩

/-- With a token set, requests that do not present it change nothing, however
many there are and however often the server is restarted: all are answered 401. -/
theorem keyless_runs_touch_nothing (htoken : D.config.token = some token)
    (h : (machine D).Reachable Machine.anyStep s) (hxorbs : ∀ i, XorbQuiet (s.xorbUploads i))
    (hshards : ∀ i, ShardQuiet (s.shardUploads i)) (hrun : (machine D).Run (Keyless token) s t) :
    t.state.index = s.state.index ∧ t.state.objects = s.state.objects ∧
      (∀ i answer, (t.xorbUploads i).answer = some answer →
        (s.xorbUploads i).answer = some answer ∨ answer = .error .unauthorized) ∧
      ∀ i answer, (t.shardUploads i).answer = some answer →
        (s.shardUploads i).answer = some answer ∨ answer = .error .unauthorized := by
  have hstart : Untouched s s :=
    ⟨rfl, rfl, fun i => ⟨hxorbs i, fun _ => .inl⟩, fun i => ⟨hshards i, fun _ => .inl⟩⟩
  have hkept := hrun.keeps (I := fun u => (machine D).Reachable Machine.anyStep u ∧ Untouched s u)
    ⟨h, hstart⟩ (by
      intro u a v hu ha hstep
      refine ⟨hu.1.next a trivial hstep, hu.2.step ?_ ha hstep⟩
      rw [reachable_config hu.1]
      exact htoken)
  exact ⟨hkept.2.index, hkept.2.objects, fun i => (hkept.2.xorbs i).2,
    fun i => (hkept.2.shards i).2⟩

def lockedServer : Deployment := { sampleServer with
  config := { sampleServer.config with token := some "secret" } }

/-- A xorb is uploaded without the token and refused. -/
theorem keyless_letter_refused : ∃ s t : Server,
    (machine lockedServer).Reachable Machine.anyStep s ∧
    (machine lockedServer).Run (Keyless "secret") s t ∧
    (t.xorbUploads 0).answer.isSome = true ∧
    (t.state.index = s.state.index ∧ t.state.objects = s.state.objects ∧
      (∀ i answer, (t.xorbUploads i).answer = some answer →
        (s.xorbUploads i).answer = some answer ∨ answer = .error .unauthorized) ∧
      ∀ i answer, (t.shardUploads i).answer = some answer →
        (s.shardUploads i).answer = some answer ∨ answer = .error .unauthorized) := by
  have hreach : (machine lockedServer).Reachable Machine.anyStep
      (boot lockedServer .fresh (fun _ => none)) := .start rfl
  have hkeyless : Keyless "secret" (boot lockedServer .fresh (fun _ => none))
      (.xorb 0 (.request none ⟨PREFIX_DEFAULT, Formats.letterHex⟩ Formats.plainBody)) := by
    rintro ⟨value, hvalue, _⟩
    cases hvalue
  obtain ⟨t, hstep, hanswer⟩ : ∃ t, Server.step lockedServer
      (boot lockedServer .fresh (fun _ => none))
        (.xorb 0 (.request none ⟨PREFIX_DEFAULT, Formats.letterHex⟩ Formats.plainBody)) = some t ∧
      (t.xorbUploads 0).answer.isSome = true := ⟨_, rfl, rfl⟩
  have hrun := Machine.Run.single (M := machine lockedServer) _ hkeyless hstep
  exact ⟨_, t, hreach, hrun, hanswer, keyless_runs_touch_nothing rfl hreach
    (fun _ => ⟨.inl rfl, rfl⟩) (fun _ => ⟨.inl rfl, rfl⟩) hrun⟩

/-- The token that a batch action and the token route hand out lets its bearer
write, unless no header can present the token that is set. Then nothing does. -/
theorem minted_tokens_admit (config : Config) :
    (∀ auth now sessionId, (Lfs.uploadAction config auth now sessionId).header.get?
      HEADER_XET_ACCESS_TOKEN = some config.advertisedToken) ∧
    (∀ now info, Lfs.token config now = .ok info → info.accessToken = config.advertisedToken) ∧
    ((∀ token, config.token = some token → Presentable token) →
      AppState.authorize config (some ("Bearer " ++ config.advertisedToken)) = .ok ()) ∧
    ∀ token, config.token = some token → ¬Presentable token →
      ∀ authorization, AppState.authorize config authorization = .error .unauthorized := by
  refine ⟨?_, ?_, ?_, ?_⟩
  · intro auth now sessionId
    have hkeys : HEADER_XET_ACCESS_TOKEN ≠ HEADER_XET_CAS_URL ∧
        HEADER_XET_ACCESS_TOKEN ≠ HEADER_XET_TOKEN_EXPIRATION ∧
        HEADER_XET_ACCESS_TOKEN ≠ HEADER_XET_SESSION_ID ∧
        HEADER_XET_ACCESS_TOKEN ≠ Lfs.AUTHORIZATION_HEADER := by decide
    obtain ⟨hurl, hexpiration, hsession, hauthorization⟩ := hkeys
    cases auth <;>
      simp [Lfs.uploadAction, Lfs.withAuthorization, Table.get?_insertOrIgnore,
        Table.get?_upsert, hurl, hexpiration, hsession, hauthorization]
  · intro now info hinfo
    obtain ⟨_, hsame⟩ := check_eq_ok.mp hinfo
    cases hsame
    rfl
  · intro hpresentable
    rw [authorize_iff]
    intro token htoken
    obtain ⟨htrimmed, hvisible⟩ := hpresentable token htoken
    refine ⟨htrimmed, ?_⟩
    have hadvertised : config.advertisedToken = token := by
      rw [Config.advertisedToken, htoken, Option.getD_some]
    rw [hadvertised]
    exact presents_bearer hvisible
  · intro token htoken hunpresentable authorization
    rcases authorize_eq config authorization with hok | herror
    · obtain ⟨htrimmed, hpresents⟩ := authorize_iff.mp hok token htoken
      exact absurd ⟨htrimmed, hpresents.visible⟩ hunpresentable
    · exact herror

/-- The token that is set admits; one that is not ASCII shuts everybody out. -/
theorem secret_admits :
    AppState.authorize lockedServer.config (some "Bearer secret") = .ok () ∧
    ∀ authorization, AppState.authorize { lockedServer.config with token := some "clé" }
      authorization = .error .unauthorized := by
  obtain ⟨_, _, hadmits, _⟩ := minted_tokens_admit lockedServer.config
  obtain ⟨_, _, _, hrefuses⟩ :=
    minted_tokens_admit { lockedServer.config with token := some "clé" }
  refine ⟨hadmits ?_, hrefuses "clé" rfl ?_⟩
  · intro token htoken
    cases htoken
    exact ⟨by decide, by decide⟩
  · intro hpresentable
    exact absurd hpresentable.2 (by decide)

end Xetcas.Proofs.Authorization
