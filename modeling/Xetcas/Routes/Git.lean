import Xetcas.Error
import Xetcas.Lib.Components
import Xetcas.Lib.Text

namespace Xetcas.Routes.Git
open Lib

def BATCH_SUFFIX : String := "/info/lfs/objects/batch"

/-- Where a repository is initialized before it is renamed into place. -/
def STAGING_DIR : String := ".xetcasd-staging"

structure GitConfig where
  dataDir : List Char
  gitRoot : Option (List Char)
  gitAutocreate : Bool

def GitConfig.root (config : GitConfig) : List Char :=
  config.gitRoot.getD (join config.dataDir "git".toList)

def isRepoChar (c : Char) : Bool := c.isAlphanum || c == '.' || c == '_' || c == '-'

def checkComponent (component : List Char) : AppResult Unit :=
  if component = [] ∨ component = ['.'] ∨ component = ['.', '.'] then
    .error (.badRequest "empty or traversal path component rejected")
  else if component.all isRepoChar then .ok ()
  else .error (.badRequest "illegal character in repository path")

/-- Reject anything that could escape the git root or confuse http-backend. -/
def sanitize (path : String) : AppResult Unit :=
  if path.isEmpty then .error (.badRequest "empty repository path")
  else (path.toList.splitOn '/').forM checkComponent

def endsInGit (part : List Char) : Bool := ".git".toList.isSuffixOf part

/-- The loop of `split_repo`: the parts pushed so far and the parts left. -/
def takeRepo (pushed : List (List Char)) :
    List (List Char) → Option (List (List Char) × List (List Char))
  | [] => none
  | part :: parts =>
    if endsInGit part then some (pushed ++ [part], parts) else takeRepo (pushed ++ [part]) parts

/-- Split a request path into the repository and the rest. -/
def splitRepo (path : String) : AppResult (String × String) :=
  match takeRepo [] (path.toList.splitOn '/') with
  | some (pushed, parts) => .ok (String.ofList (relative pushed), String.ofList (relative parts))
  | none => .error (.badRequest "repository path must contain a component ending in .git")

/-- The repository of a path and its directory, as `dispatch` finds them. -/
def locate (config : GitConfig) (path : String) : AppResult (String × List Char) := do
  let (repo, _) ← splitRepo path
  let repoDir := join config.root repo.toList
  if startsWith repoDir config.root then .ok (repo, repoDir)
  else .error (.badRequest "repository path escapes the data root")

/-- Locate the end of a CGI header block: where it ends and where the body
starts. -/
def findHeaderEnd (buf : Bytes) : Option (Nat × Nat) :=
  let crlf := (firstPlace [13, 10, 13, 10] buf).map (fun i => (i, i + 4))
  let lf := (firstPlace [10, 10] buf).map (fun i => (i, i + 2))
  match crlf, lf with
  | some a, some b => some (if a.1 ≤ b.1 then a else b)
  | some a, none => some a
  | none, some b => some b
  | none, none => none

/-- What reading from a child's output returns, one read after the other. No
bytes are the end of the output, as is the end of the list. -/
abbrev Reads := List (Except String Bytes)

/-- The read loop of `cgi`: what it has buffered, the split it found, and the
reads left to the body. -/
def readHead (buffered : Bytes) (reads : Reads) : AppResult (Bytes × Option (Nat × Nat) × Reads) :=
  match findHeaderEnd buffered with
  | some split => .ok (buffered, some split, reads)
  | none =>
    match reads with
    | [] => .ok (buffered, none, [])
    | .error e :: _ => .error (.internal s!"read http-backend: {e}")
    | .ok [] :: reads => .ok (buffered, none, reads)
    | .ok (byte :: bytes) :: reads => readHead (buffered ++ byte :: bytes) reads

/-- The header block of the output of `git http-backend`, and the body stream. -/
def splitOutput (reads : Reads) : AppResult (Bytes × Reads) := do
  let (buffered, split, reads) ← readHead [] reads
  match split with
  | some (stop, bodyAt) => .ok (buffered.take stop, .ok (buffered.drop bodyAt) :: reads)
  | none => .ok (buffered, .ok [] :: reads)

end Xetcas.Routes.Git
