import TopDown.Files

/-!
Places in files and token streams, and errors that carry the place where they arose. A place prints
as `file:line:column`; a column of zero is left out, and so is a line of zero after a file name.
-/
namespace TopDown

structure Location where
  file : Option String
  line : Nat
  column : Nat
deriving DecidableEq, Repr, Inhabited

namespace Location

/-- No place in particular. -/
def nowhere : Location := ⟨none, 0, 0⟩

def inStream (line column : Nat) : Location := ⟨none, line, column⟩

def inFile (file : String) (line : Nat) : Location := ⟨some file, line, 0⟩

def position (line column : Nat) : String :=
  if column = 0 then toString line else toString line ++ ":" ++ toString column

def render (place : Location) : String :=
  match place.file with
  | none => position place.line place.column
  | some file =>
    if place.line = 0 then file else file ++ ":" ++ position place.line place.column

/-- The same place, file names being compared as paths. -/
def same (a b : Location) : Bool :=
  a.line = b.line && a.column = b.column &&
    match a.file, b.file with
    | none, none => true
    | some p, some q => Path.same p q
    | _, _ => false

end Location

/-- What an error has to say, without its place. -/
class Explained (ε : Type) where
  message : ε → String

structure Located (ε : Type) where
  error : ε
  location : Location
deriving DecidableEq, Repr

namespace Located

variable {ε : Type}

def message [Explained ε] (e : Located ε) : String := Explained.message e.error

/-- The place in bold red and brackets, then the message, as a terminal shows it. -/
def render [Explained ε] (e : Located ε) : String :=
  "\x1b[31;49;1m[" ++ e.location.render ++ "]\x1b[39;49;1m  " ++ e.message ++ "\x1b[0m"

/-- The same errors at the same places, in order. -/
def agree (same : ε → ε → Bool) : List (Located ε) → List (Located ε) → Bool
  | [], [] => true
  | a :: as, b :: bs => same a.error b.error && a.location.same b.location && agree same as bs
  | _, _ => false

end Located

end TopDown
