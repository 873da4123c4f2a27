import TopDown.Text.Control

/-!
What a run writes. Sections go to the standard output; problems and log records go to the standard
error, the records only as far as the chosen level lets them through and without terminal controls.
-/
namespace TopDown.CommandLine

inductive Level where
  | error
  | warn
  | info
  | debug
  | trace
deriving DecidableEq, Repr

namespace Level

def rank : Level → Nat
  | error => 0
  | warn => 1
  | info => 2
  | debug => 3
  | trace => 4

/-- Five characters wide. -/
def label : Level → String
  | error => "ERROR"
  | warn => "WARN "
  | info => "INFO "
  | debug => "DEBUG"
  | trace => "TRACE"

/-- Quiet silences all but errors, however often more was asked for. -/
def chosen (quiet : Bool) (verbosity : Nat) : Level :=
  if quiet then error
  else
    match verbosity with
    | 0 => warn
    | 1 => info
    | 2 => debug
    | _ => trace

end Level

/-- The part of the program that a log record is about. -/
inductive Topic where
  | program
  | loading
  | sampling
  | sets
  | table
  | parsing
  | analysis
  | scopes
deriving DecidableEq, Repr

def Topic.path : Topic → String
  | program => "llfront"
  | loading => "llfront::loader"
  | sampling => "llfront::generator"
  | sets => "llfront::sets"
  | table => "llfront::table"
  | parsing => "llfront::parser"
  | analysis => "llfront::semantic"
  | scopes => "llfront::semantic::scope"

inductive Output where
  | print (text : String)
  | problem (text : String)
  | record (level : Level) (topic : Topic) (text : String)
deriving DecidableEq, Repr

namespace Output

/-- Later lines of a record are indented by four blanks. -/
def indented (text : String) : String :=
  "\n    ".intercalate ((text.toList.splitOn '\n').map String.ofList)

def printed : Output → String
  | print text => text
  | _ => ""

/-- What the standard error shows at a level. -/
def shown (level : Level) : Output → String
  | print _ => ""
  | problem text => text ++ "\n"
  | record level' topic text =>
    if level'.rank ≤ level.rank then
      Text.withoutControls
        ("[" ++ level'.label ++ " " ++ topic.path ++ "] " ++ indented text ++ "\n")
    else ""

end Output

/-- Why nothing comes after a stage: it has failed, which ends the run, or it never ends. -/
inductive Halt where
  | failed
  | unending
deriving DecidableEq, Repr

/-- A part of a run: what it writes, and its value unless nothing comes after it. -/
structure Stage (α : Type) where
  outputs : List Output
  value : Except Halt α

namespace Stage

variable {α β : Type}

protected def pure (a : α) : Stage α := ⟨[], .ok a⟩

protected def bind (stage : Stage α) (next : α → Stage β) : Stage β :=
  match stage.value with
  | .error halt => ⟨stage.outputs, .error halt⟩
  | .ok a =>
    let rest := next a
    ⟨stage.outputs ++ rest.outputs, rest.value⟩

instance : Monad Stage where
  pure := Stage.pure
  bind := Stage.bind

def write (outputs : List Output) : Stage Unit := ⟨outputs, .ok ()⟩

def print (text : String) : Stage Unit := write [.print text]

/-- Prints a section that the options may leave out. -/
def printIf (wanted : Bool) (text : String) : Stage Unit :=
  if wanted then print text else write []

def record (level : Level) (topic : Topic) (text : String) : Stage Unit :=
  write [.record level topic text]

/-- Reports the problems and ends the run. -/
def stop (problems : List String) : Stage α := ⟨problems.map .problem, .error .failed⟩

/-- Never ends. -/
def hang : Stage α := ⟨[], .error .unending⟩

end Stage

end TopDown.CommandLine
