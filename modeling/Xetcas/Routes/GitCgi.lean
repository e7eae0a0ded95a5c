import Xetcas.Lib.Lines
import Xetcas.Routes.Git

namespace Xetcas.Routes.Git
open Lib

/-- What the `http` crate takes for the name and for the value of a header, and
how it keeps them, or what it says of one that it does not take. -/
structure HeaderSyntax where
  name : List Char → Except String String
  value : List Char → Except String String

def eqIgnoreAsciiCase (a b : List Char) : Bool := a.map Char.toLower == b.map Char.toLower

def parseU16 (s : List Char) : Option Nat := do
  let n ← decimalValue (if s.head? = some '+' then s.tail else s)
  if n < 2 ^ 16 then some n else none

def fromU16 (code : Nat) : Option Nat := if 100 ≤ code ∧ code < 1000 then some code else none

/-- `str::split_whitespace().next()` -/
def firstWord (s : List Char) : Option (List Char) :=
  let s := s.dropWhile isWhiteSpace
  if s.isEmpty then none else some (s.takeWhile (fun c => !isWhiteSpace c))

/-- The status that the value of a `Status` field stands for. -/
def statusCode (value : List Char) : Nat :=
  ((parseU16 ((firstWord value).getD "200".toList)).bind fromU16).getD 200

/-- `response::Builder`: the headers so far, or the first error. -/
abbrev Builder := Except String (List (String × String))

def Builder.header (http : HeaderSyntax) (builder : Builder) (name value : List Char) : Builder := do
  let headers ← builder
  let name ← http.name name
  let value ← http.value value
  .ok (headers ++ [(name, value)])

/-- The body of the loop over the lines of the header block. -/
def translateLine (http : HeaderSyntax) (so : Nat × Builder) (line : List Char) : Nat × Builder :=
  match splitOnce ':' line with
  | none => so
  | some (name, value) =>
    let (name, value) := (trim name, trim value)
    if eqIgnoreAsciiCase name "Status".toList then (statusCode value, so.2)
    else (so.1, so.2.header http name value)

structure CgiResponse where
  status : Nat
  headers : List (String × String)
  body : Reads

def cgi (http : HeaderSyntax) (reads : Reads) : AppResult CgiResponse := do
  let (head, body) ← splitOutput reads
  let (status, builder) :=
    (lines (fromUtf8Lossy head)).foldl (translateLine http) (200, .ok [])
  match builder with
  | .ok headers => .ok ⟨status, headers, body⟩
  | .error e => .error (.internal s!"build git response: {e}")

end Xetcas.Routes.Git
