import Xetcas.Error
import Xetcas.Index
import Xetcas.KeyedLocks
import Xetcas.Lib.Text
import Xetcas.XorbStore

namespace Xetcas
open Lib

structure Config where
  publicUrl : String
  token : Option String

namespace Config

def publicBase (config : Config) : String :=
  String.ofList (config.publicUrl.toList.reverse.dropWhile (· == '/')).reverse

def requiredToken (config : Config) : Option String := config.token

def advertisedToken (config : Config) : String := config.token.getD "anonymous"

end Config

def isVisibleAscii (c : Char) : Bool := (32 ≤ c.toNat && c.toNat < 127) || c == '\t'

/-- `HeaderValue::to_str`: a value with any other character is no text. -/
def toStr (value : String) : Option String :=
  if value.toList.all isVisibleAscii then some value else none

theorem toStr_eq_some {value text : String} :
    toStr value = some text ↔ value.toList.all isVisibleAscii = true ∧ value = text := by
  unfold toStr
  split
  · rename_i hvisible
    simp [hvisible]
  · rename_i hvisible
    simp [hvisible]

/-- The state that handlers share. The object tree is seen as the readers of
`XorbStore` see it: complete files, by path below the root. Of the semaphore
there are the permits that are free. -/
structure AppState where
  config : Config
  index : Index
  objects : Path → Option Bytes
  xorbLocks : KeyedLocks
  uploadPermits : Nat

def DEFAULT_XORB_UPLOAD_CONCURRENCY : Nat := 16

namespace AppState

def new (config : Config) (index : Index) (objects : Path → Option Bytes) (permits : Nat) :
    AppState :=
  ⟨config, index, objects, .empty, permits⟩

/-- `authorize`, on the value of the `Authorization` header. -/
def authorize (config : Config) (authorization : Option String) : AppResult Unit :=
  match config.requiredToken with
  | none => .ok ()
  | some expected =>
    let presented := ((authorization.bind toStr).bind
      (fun v => stripStart "Bearer ".toList v.toList)).map trim
    if presented = some expected.toList then .ok () else .error .unauthorized

end AppState

end Xetcas
