import Xetcas.Contracts.Documents
import Xetcas.Filestream

namespace Xetcas.Routes.Lfs
open Lib

def TOKEN_TTL_SECS : UInt64 := 3600
def AUTHORIZATION_HEADER : String := "Authorization"

/-- What a batch response takes from outside the request: the clock and a
fresh session id for each action. -/
structure Ambient where
  now : UInt64
  sessionId : Nat → String

def token (config : Config) (now : UInt64) : AppResult CasTokenInfo := do
  let info : CasTokenInfo := ⟨config.publicBase, now + TOKEN_TTL_SECS, config.advertisedToken⟩
  checkResponse (validateCasTokenInfo info)
  .ok info

structure Download where
  contentLength : UInt64
  chunks : List Bytes
  failure : Option String

def download (U : Upstream) (state : AppState) (oid : String) : AppResult Download := do
  checkRequest (validateLfsObjectSpec ⟨oid, 0⟩)
  match state.index.fileBySha256 oid with
  | none => .error .notFound
  | some file => do
    let (chunks, failure) ← streamFile U state file
    .ok ⟨file.fileLength, chunks, failure⟩

def embedsAuthorization (action : LfsAction) : Bool :=
  (action.header.get? AUTHORIZATION_HEADER).isSome

/-- The `Authorization` a batch request arrived with, as far as it says anything. -/
def forwardedAuthorization (authorization : Option String) : Option String :=
  ((authorization.bind toStr).map (fun value => String.ofList (trim value.toList))).filter
    (fun value => !value.isEmpty)

/-- The accepted credential, echoed into an action. -/
def withAuthorization (header : Table String String) (auth : Option String) :
    Table String String :=
  match auth with
  | some auth => header.upsert AUTHORIZATION_HEADER (fun _ => auth)
  | none => header

def uploadAction (config : Config) (auth : Option String) (now : UInt64) (sessionId : String) :
    LfsAction where
  href := s!"{config.publicBase}/xet-token"
  header := withAuthorization
    ((((Table.empty.insertOrIgnore HEADER_XET_CAS_URL config.publicBase).insertOrIgnore
      HEADER_XET_ACCESS_TOKEN config.advertisedToken).insertOrIgnore
      HEADER_XET_TOKEN_EXPIRATION (toString (now + TOKEN_TTL_SECS).toNat)).insertOrIgnore
      HEADER_XET_SESSION_ID sessionId) auth
  expiresIn := TOKEN_TTL_SECS

def downloadAction (config : Config) (oid : String) (auth : Option String) : LfsAction where
  href := s!"{config.publicBase}/lfs/objects/{oid}"
  header := withAuthorization .empty auth
  expiresIn := TOKEN_TTL_SECS

def uploadObject (state : AppState) (offersXet : Bool) (auth : Option String) (env : Ambient)
    (spec : LfsObjectSpec) (i : Nat) : LfsBatchObject :=
  if !offersXet then
    ⟨spec.oid, spec.size, false, .empty, some ⟨422,
      "xetcasd requires the xet transfer agent for uploads -- run 'git xet install'"⟩⟩
  else if (state.index.fileBySha256 spec.oid).isSome then
    -- already stored: no action and no error
    ⟨spec.oid, spec.size, false, .empty, none⟩
  else
    let action := uploadAction state.config auth env.now (env.sessionId i)
    ⟨spec.oid, spec.size, embedsAuthorization action, Table.empty.insertOrIgnore "upload" action,
      none⟩

def uploadBatch (state : AppState) (request : LfsBatchRequest) (auth : Option String)
    (env : Ambient) : LfsBatchResponse :=
  let offersXet := request.transfers.any (· == TRANSFER_XET)
  { transfer := if offersXet then TRANSFER_XET else TRANSFER_BASIC
    objects := request.objects.zipIdx.map (fun o => uploadObject state offersXet auth env o.1 o.2)
    hashAlgo := HASH_ALGO_SHA256 }

def downloadObject (state : AppState) (auth : Option String) (spec : LfsObjectSpec) :
    LfsBatchObject :=
  match state.index.fileBySha256 spec.oid with
  | some _ =>
    let action := downloadAction state.config spec.oid auth
    ⟨spec.oid, spec.size, embedsAuthorization action, Table.empty.insertOrIgnore "download" action,
      none⟩
  | none =>
    ⟨spec.oid, spec.size, false, .empty, some ⟨404, s!"object {spec.oid} not found"⟩⟩

def downloadBatch (state : AppState) (request : LfsBatchRequest) (auth : Option String) :
    LfsBatchResponse where
  transfer := TRANSFER_BASIC
  objects := request.objects.map (downloadObject state auth)
  hashAlgo := HASH_ALGO_SHA256

/-- `batch`, on a request that is already parsed. -/
def batch (state : AppState) (request : LfsBatchRequest) (auth : Option String) (env : Ambient) :
    AppResult LfsBatchResponse := do
  checkRequest (validateLfsBatchRequest request)
  let response ← (
    if request.operation = "upload" then .ok (uploadBatch state request auth env)
    else if request.operation = "download" then .ok (downloadBatch state request auth)
    else .error (.badRequest s!"unsupported operation {request.operation}"))
  checkResponse (validateLfsBatchResponse response)
  .ok response

/-- `batch`, from the document in the request body to the one it answers with.
`complaint` is what serde says of a document that is no request. -/
def batchDocument (state : AppState) (complaint : Json → String) (body : Json)
    (auth : Option String) (env : Ambient) : AppResult Json :=
  match LfsBatchRequest.json.read body with
  | none => .error (.badRequest s!"malformed batch request: {complaint body}")
  | some request => (batch state request auth env).map LfsBatchResponse.json.render

end Xetcas.Routes.Lfs
