import TopDown.Text.Unsigned

/-!
The command line. Arguments are read from left to right: a flag stands alone, a setting takes a
value after an equals sign, directly after its letter, or from the next argument, and anything else
is the grammar file, of which there is exactly one. Letters may share one dash, two dashes alone end
the options, and only `-v` may be repeated. The first fault makes the whole command line unusable;
asking for help or the version is answered as soon as it is reached.
-/
namespace TopDown.CommandLine

/-- What a run is asked to do. -/
structure Options where
  file : String
  start : Option String
  tokens : Option String
  sets : Bool
  table : Bool
  tree : Bool
  check : Bool
  amount : Option Nat
  seed : Option Nat
  maxDepth : Nat
  verbosity : Nat
  quiet : Bool
deriving DecidableEq, Repr

inductive Command where
  | run (options : Options)
  | help
  | version
  | unusable
deriving DecidableEq, Repr

inductive Flag where
  | sets
  | table
  | tree
  | check
  | quiet
deriving DecidableEq, Repr

inductive Setting where
  | start
  | tokens
  | amount
  | seed
  | maxDepth
deriving DecidableEq, Repr

inductive Switch where
  | flag (flag : Flag)
  | setting (setting : Setting)
  | verbose
  | help
  | version
deriving DecidableEq, Repr

namespace Switch

def ofLetter : Char → Option Switch
  | 's' => some (setting .start)
  | 't' => some (setting .tokens)
  | 'n' => some (setting .amount)
  | 'v' => some verbose
  | 'q' => some (flag .quiet)
  | 'h' => some help
  | 'V' => some version
  | _ => none

def ofWord : String → Option Switch
  | "start" => some (setting .start)
  | "tokens" => some (setting .tokens)
  | "sets" => some (flag .sets)
  | "table" => some (flag .table)
  | "tree" => some (flag .tree)
  | "check" => some (flag .check)
  | "amount" => some (setting .amount)
  | "seed" => some (setting .seed)
  | "max-depth" => some (setting .maxDepth)
  | "verbose" => some verbose
  | "quiet" => some (flag .quiet)
  | "help" => some help
  | "version" => some version
  | _ => none

end Switch

/-- What the arguments read so far have given. -/
structure Given where
  file : Option String
  start : Option String
  tokens : Option String
  flags : List Flag
  amount : Option Nat
  seed : Option Nat
  maxDepth : Option Nat
  verbosity : Nat
deriving DecidableEq, Repr

/-- Sentences are counted by 32-bit numbers. -/
def amountBound : Nat := 0x100000000

/-- A number of sentences; nothing but zero may have a minus sign. -/
def readAmount : List Char → Option Nat
  | '-' :: '+' :: _ => none
  | '-' :: digits => (Text.readUnsigned amountBound digits).filter (· = 0)
  | text => Text.readUnsigned amountBound text

/-- The first value given, if it is well-formed. -/
def once {α : Type} (before new : Option α) : Option (Option α) :=
  match before, new with
  | none, some a => some (some a)
  | _, _ => none

def nonempty (path : String) : Option String := if path = "" then none else some path

namespace Given

def nothing : Given := ⟨none, none, none, [], none, none, none, 0⟩

def addFlag (given : Given) (flag : Flag) : Option Given :=
  if flag ∈ given.flags then none else some { given with flags := flag :: given.flags }

def addSetting (given : Given) (setting : Setting) (value : String) : Option Given := do
  match setting with
  | .start => return { given with start := ← once given.start (some value) }
  | .tokens => return { given with tokens := ← once given.tokens (nonempty value) }
  | .amount => return { given with amount := ← once given.amount (readAmount value.toList) }
  | .seed =>
    return { given with seed := ← once given.seed (Text.readUnsigned Text.wordBound value.toList) }
  | .maxDepth =>
    return { given with
      maxDepth := ← once given.maxDepth (Text.readUnsigned Text.wordBound value.toList) }

def addFile (given : Given) (path : String) : Option Given := do
  return { given with file := ← once given.file (nonempty path) }

def command (given : Given) : Command :=
  match given.file with
  | none => .unusable
  | some file =>
    .run
      { file
        start := given.start
        tokens := given.tokens
        sets := .sets ∈ given.flags
        table := .table ∈ given.flags
        tree := .tree ∈ given.flags
        check := .check ∈ given.flags
        amount := given.amount
        seed := given.seed
        maxDepth := given.maxDepth.getD 12
        verbosity := given.verbosity
        quiet := .quiet ∈ given.flags }

end Given

/-- Where one argument leads. -/
inductive Progress where
  | given (given : Given)
  | wanting (given : Given) (setting : Setting)
  | answered (command : Command)
deriving DecidableEq, Repr

namespace Progress

def ofGiven? : Option Given → Progress
  | some g => given g
  | none => answered .unusable

end Progress

/-- Reads letters that share one dash. A setting takes the rest of the argument as its value, less
an equals sign. -/
def readLetters (given : Given) : List Char → Progress
  | [] => .given given
  | letter :: rest =>
    match Switch.ofLetter letter with
    | none => .answered .unusable
    | some .help => .answered .help
    | some .version => .answered .version
    | some .verbose => readLetters { given with verbosity := given.verbosity + 1 } rest
    | some (.flag flag) =>
      match given.addFlag flag with
      | some given => readLetters given rest
      | none => .answered .unusable
    | some (.setting setting) =>
      match rest with
      | [] => .wanting given setting
      | '=' :: value => .ofGiven? (given.addSetting setting (String.ofList value))
      | value => .ofGiven? (given.addSetting setting (String.ofList value))

/-- Reads a word after two dashes, with its value if an equals sign gives it one. -/
def readWord (given : Given) (text : List Char) : Progress :=
  let word := text.takeWhile (· ≠ '=')
  match Switch.ofWord (String.ofList word), text.drop word.length with
  | some .help, [] => .answered .help
  | some .version, [] => .answered .version
  | some .verbose, [] => .given { given with verbosity := given.verbosity + 1 }
  | some (.flag flag), [] => .ofGiven? (given.addFlag flag)
  | some (.setting setting), [] => .wanting given setting
  | some (.setting setting), _ :: value =>
    .ofGiven? (given.addSetting setting (String.ofList value))
  | _, _ => .answered .unusable

def readArgument (given : Given) (argument : String) : Progress :=
  match argument.toList with
  | '-' :: '-' :: text => readWord given text
  | '-' :: letter :: rest => readLetters given (letter :: rest)
  | _ => .ofGiven? (given.addFile argument)

/-- Only a lone dash may start a value that is an argument by itself. -/
def isValue (argument : String) : Bool := argument = "-" || argument.toList.head? ≠ some '-'

/-- Reads arguments after the end of the options. -/
def readFiles (given : Given) : List String → Command
  | [] => given.command
  | argument :: rest =>
    match given.addFile argument with
    | some given => readFiles given rest
    | none => .unusable

def readArguments (given : Given) : List String → Command
  | [] => given.command
  | "--" :: rest => readFiles given rest
  | argument :: rest =>
    match readArgument given argument, rest with
    | .given given, rest => readArguments given rest
    | .answered command, _ => command
    | .wanting _ _, [] => .unusable
    | .wanting given setting, value :: rest =>
      if isValue value then
        match given.addSetting setting value with
        | some given => readArguments given rest
        | none => .unusable
      else .unusable

def Command.ofArguments (arguments : List String) : Command := readArguments .nothing arguments

end TopDown.CommandLine
