import Xetcas.Contracts.Validate

namespace Xetcas

inductive AppError where
  | notFound
  | rangeNotSatisfiable
  | badRequest (message : String)
  | unauthorized
  | internal (message : String)
  deriving DecidableEq, Repr

namespace AppError

def status : AppError → Nat
  | notFound => 404
  | rangeNotSatisfiable => 416
  | badRequest _ => 400
  | unauthorized => 401
  | internal _ => 500

/-- The error's display text, which is the response body. -/
def toText : AppError → String
  | notFound => "not found"
  | rangeNotSatisfiable => "range not satisfiable"
  | badRequest message => message
  | unauthorized => "unauthorized"
  | internal message => message

def io (message : String) : AppError := .internal s!"io: {message}"

def index (message : String) : AppError := .internal s!"index: {message}"

end AppError

abbrev AppResult := Except AppError

/-- `.map_err(AppError::bad_request)` on a plain error text. -/
def orBadRequest : Except String α → AppResult α
  | .ok a => .ok a
  | .error message => .error (.badRequest message)

/-- `.map_err(AppError::internal)` on a plain error text. -/
def orInternal : Except String α → AppResult α
  | .ok a => .ok a
  | .error message => .error (.internal message)

/-- A boundary validator in front of a handler. -/
def checkRequest : Checked → AppResult Unit
  | .ok () => .ok ()
  | .error e => .error (.badRequest e.toText)

/-- A boundary validator behind a handler. -/
def checkResponse : Checked → AppResult Unit
  | .ok () => .ok ()
  | .error e => .error (.internal e.toText)

@[simp] theorem orBadRequest_ok {x : Except String α} {a : α} :
    orBadRequest x = .ok a ↔ x = .ok a := by
  cases x <;> simp [orBadRequest]

theorem orInternal_error {x : Except String α} {e : AppError} (h : orInternal x = .error e) :
    ∃ message, e = .internal message := by
  cases x with
  | ok a => cases h
  | error message =>
    cases h
    exact ⟨message, rfl⟩

@[simp] theorem checkRequest_ok {x : Checked} : checkRequest x = .ok () ↔ x = .ok () := by
  cases x <;> simp [checkRequest]

end Xetcas
