import TopDown.Bnf.Load
import TopDown.CommandLine.Log
import TopDown.CommandLine.Options
import TopDown.Parse
import TopDown.Sampling
import TopDown.Text.Escaped
import TopDown.Token.Dump
import TopDown.Toy.Analysis

/-!
A run of the program: the grammar is loaded, its sets and its table are computed, sentences are
drawn from it, and tokens are parsed and checked, each stage as far as the options ask for it. The
first stage that fails reports its problems and ends the run. A run that waits for a random choice
which is never made does not end.
-/
namespace TopDown.CommandLine

/-- What a run leaves behind. A run that never ends has no exit code. -/
structure Response where
  code : Option Nat
  output : String
  errors : String
deriving DecidableEq, Repr

/-- What a run reads at a path. -/
abbrev Files := String → Except FileError String

/-- What a run meets: the files, the random generator that belongs to each seed, and the one that is
seeded by chance. -/
structure World where
  files : Files
  seeded : UInt64 → Random.Chooser
  unseeded : Random.Chooser

/-- The generator for a seed, if one is given. -/
def World.chooser (world : World) : Option Nat → Random.Chooser
  | some seed => world.seeded (UInt64.ofNat seed)
  | none => world.unseeded

def loading (options : Options) (files : Files) : Stage Grammar :=
  match Bnf.loadFile options.file options.start (files options.file) with
  | .error errors => .stop (errors.map Located.render)
  | .ok g => do
    .record .info .loading
      ("Loaded " ++ toString g.rules.length ++ " rules from " ++ options.file ++
        " (start symbol `" ++ g.start ++ "`)")
    return g

def recordHeights (g : Grammar) : Stage Unit :=
  .record .debug .sampling
    ("Minimum heights settled after " ++ toString g.heightsSettled.passes ++ " passes")

/-- Warns of nonterminals that derive nothing. -/
def warning (g : Grammar) : Stage Unit := do
  recordHeights g
  .write (g.unproductive.map fun name =>
    .record .warn .program ("`" ++ name ++ "` cannot derive a finite sentence"))

structure Sets where
  first : SetFamily
  follow : SetFamily
deriving DecidableEq, Repr

def computingSets (options : Options) (g : Grammar) : Stage Sets := do
  let first := g.firstSettled
  .record .debug .sets ("FIRST sets converged after " ++ toString first.passes ++ " passes")
  let follow := g.followSettled first.value g.start
  .record .debug .sets ("FOLLOW sets converged after " ++ toString follow.passes ++ " passes")
  .printIf options.sets
    ("FIRST\n" ++ first.value.render g ++ "FOLLOW\n" ++ follow.value.render g)
  return ⟨first.value, follow.value⟩

def buildingTable (options : Options) (g : Grammar) (sets : Sets) : Stage Table := do
  let filling := g.filling sets.first sets.follow
  .write (filling.table.cells.map fun cell =>
    .record .trace .table
      ("table[" ++ cell.row ++ ", " ++ cell.lookahead.render ++ "] = " ++ cell.production.render))
  match filling.conflict with
  | some conflict => .stop [conflict.message]
  | none =>
    .record .info .table ("Built parse table with " ++ toString filling.table.size ++ " entries")
    .printIf options.table filling.table.render
    return filling.table

/-- Draws so many sentences, one a line. -/
def drawing (sampler : Sampler) : Nat → Nat → Stage Unit
  | 0, _ => return
  | amount + 1, position => do
    recordHeights sampler.grammar
    match sampler.sentence sampler.grammar.start position with
    | none => .hang
    | some (.error e) => .stop [e.render]
    | some (.ok (tokens, position)) =>
      .print (" ".intercalate (tokens.map Token.lexeme) ++ "\n")
      drawing sampler amount position

def samplerOf (options : Options) (world : World) (g : Grammar) : Sampler :=
  .ofGrammar g (world.chooser options.seed) options.maxDepth

def sampling (options : Options) (world : World) (g : Grammar) : Stage Unit :=
  match options.amount with
  | none => return
  | some amount => drawing (samplerOf options world g) amount 0

/-- A frame as log records show it. -/
def frameText : Frame → String
  | .bottom => "End"
  | .symbol .epsilon node => "Symbol(Epsilon, " ++ toString node ++ ")"
  | .symbol (.terminal name) node =>
    "Symbol(Terminal(" ++ Text.escaped name ++ "), " ++ toString node ++ ")"
  | .symbol (.nonterminal name) node =>
    "Symbol(Nonterminal(" ++ Text.escaped name ++ "), " ++ toString node ++ ")"

def stackTop (s : Parse.State) : String :=
  match s.stack with
  | [] => ""
  | frame :: _ => "stack top " ++ frameText frame ++ ", lookahead " ++ s.lookahead.render

def parsing (g : Grammar) (table : Table) (tokens : List Token) : Stage SyntaxTree := do
  let states := Parse.states table (table.stepBound tokens.length) (.initial g.start tokens)
  .write (states.map fun s => .record .trace .parsing (stackTop s))
  match table.parse g.start tokens with
  | none => .hang
  | some (.error e) => .stop [e.render]
  | some (.ok tree) =>
    .record .debug .parsing
      ("Parsed " ++ toString tokens.length ++ " tokens into " ++ toString tree.size ++ " nodes")
    return tree

def recordOfEvent : Toy.Event → Output
  | .opened scope parent =>
    .record .debug .scopes ("Opened scope " ++ toString scope ++ " under " ++ toString parent)
  | .declared e =>
    .record .debug .scopes
      ("Declared `" ++ e.name ++ "`: " ++ e.type.render ++ " in scope " ++ toString e.scope)
  | .closed scope => .record .debug .analysis ("Closed scope " ++ toString scope)

def checking (tree : SyntaxTree) : Stage Unit := do
  let analysis := Toy.analysis tree
  .write (analysis.events.map recordOfEvent)
  match analysis.result with
  | .error e => .stop [e.render]
  | .ok symbols =>
    .record .info .analysis
      ("Semantic analysis passed with " ++ toString symbols.size ++ " symbols")
    .print symbols.render

def readingTokens (options : Options) (files : Files) (g : Grammar) (table : Table) :
    Stage Unit :=
  match options.tokens with
  | none => return
  | some path =>
    match Token.readDump path (files path) with
    | .error errors => .stop (errors.map Located.render)
    | .ok tokens => do
      .record .debug .program ("Read " ++ toString tokens.length ++ " tokens from " ++ path)
      let tree ← parsing g table tokens
      .record .info .program ("Parsed " ++ path)
      .printIf options.tree tree.render
      if options.check then checking tree

/-- All stages in order. -/
def stages (options : Options) (world : World) : Stage Unit := do
  let g ← loading options world.files
  warning g
  let sets ← computingSets options g
  let table ← buildingTable options g sets
  sampling options world g
  readingTokens options world.files g table

/-- The exit code for how the stages come out. -/
def exitCode : Except Halt Unit → Option Nat
  | .ok () => some 0
  | .error .failed => some 1
  | .error .unending => none

def run (options : Options) (world : World) : Response :=
  let stage := stages options world
  let level := Level.chosen options.quiet options.verbosity
  { code := exitCode stage.value
    output := String.join (stage.outputs.map Output.printed)
    errors := String.join (stage.outputs.map (Output.shown level)) }

def versionText : String := "llfront 0.1.0\n"

def helpText : String :=
  "Usage: llfront [OPTIONS] <FILE>\n\n" ++
  "  -s, --start <SYMBOL>     Start symbol (default: first in the file)\n" ++
  "  -t, --tokens <FILE>      Token dump to parse\n" ++
  "      --sets               Print the FIRST and FOLLOW sets\n" ++
  "      --table              Print the parse table\n" ++
  "      --tree               Print the syntax tree of the parsed tokens\n" ++
  "      --check              Run the scope analyzer on the parsed tokens\n" ++
  "  -n, --amount <AMOUNT>    Amount of random sentences to generate\n" ++
  "      --seed <N>           Seed for sentence generation (default: random)\n" ++
  "      --max-depth <DEPTH>  Depth after which generation takes the shortest way out\n" ++
  "  -v, --verbose...         Verbose output (-v, -vv, -vvv)\n" ++
  "  -q, --quiet              Only log errors\n" ++
  "  -h, --help               Print help\n" ++
  "  -V, --version            Print version\n"

/-- The answer to a command line. -/
def respond (arguments : List String) (world : World) : Response :=
  match Command.ofArguments arguments with
  | .run options => run options world
  | .version => ⟨some 0, versionText, ""⟩
  | .help => ⟨some 0, helpText, ""⟩
  | .unusable =>
    ⟨some 2, "", "error: unusable command line\n\nFor more information, try '--help'.\n"⟩

end TopDown.CommandLine
