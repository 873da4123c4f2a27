import TopDown.SyntaxTree
import TopDown.Table

/-!
Predictive parsing with a table. The machine keeps a stack of frames and a growing array of nodes. A
nonterminal on top is expanded by the production in its cell and gets a node for every symbol of the
body that is not the empty word; a terminal on top must equal the kind of the next token, which then
fills its node. There is no backtracking, and the first mismatch ends the run.
-/
namespace TopDown

inductive SyntaxError where
  | expected (wanted found : Lookahead) (lexeme : String)
  | noProduction (nonterminal : String) (lookahead : Lookahead) (lexeme : String)
  | unmatchedTerminal
deriving DecidableEq, Repr

namespace SyntaxError

def describe (found : Lookahead) (lexeme : String) : String :=
  match found with
  | .endOfInput => "end of input"
  | other => other.render ++ " `" ++ lexeme ++ "`"

def message : SyntaxError → String
  | expected wanted found lexeme =>
    "Expected " ++ wanted.render ++ ", found " ++ describe found lexeme
  | noProduction nonterminal lookahead lexeme =>
    "No production of `" ++ nonterminal ++ "` starts with " ++ describe lookahead lexeme
  | unmatchedTerminal => "Internal parser error: unmatched terminal left in tree"

instance : Explained SyntaxError := ⟨message⟩

end SyntaxError

/-- What is still to be matched: the end of the input, or a symbol and the node it belongs to. An
empty word has no node of its own and carries that of its parent. -/
inductive Frame where
  | bottom
  | symbol (symbol : Symbol) (node : NodeId)
deriving DecidableEq, Repr

namespace Parse

/-- A terminal's node is empty until its token is matched. -/
structure State where
  stack : List Frame
  nodes : Array (Option Node)
  /-- The token matched last. -/
  previous : Option Token
  remaining : List Token
deriving DecidableEq, Repr

namespace State

def initial (start : String) (tokens : List Token) : State :=
  { stack := [.symbol (.nonterminal start) SyntaxTree.root, .bottom]
    nodes := #[some (.inner start [])]
    previous := none
    remaining := tokens }

def lookahead (s : State) : Lookahead :=
  match s.remaining with
  | [] => .endOfInput
  | token :: _ => .terminal token.kind

def lexeme (s : State) : String :=
  match s.remaining with
  | [] => ""
  | token :: _ => token.lexeme

/-- Past the end of the input errors point at the last token. -/
def location (s : State) : Location :=
  match s.remaining, s.previous with
  | token :: _, _ => token.location
  | [], some token => token.location
  | [], none => .nowhere

def fail (s : State) (error : SyntaxError) : Located SyntaxError := ⟨error, s.location⟩

end State

/-- The frames and new nodes of a body, the first new node being number `next`. -/
structure Expansion where
  frames : List Frame
  nodes : List (Option Node)
  children : List NodeId
deriving DecidableEq, Repr

def expand (parent : NodeId) (next : NodeId) : Body → Expansion
  | [] => ⟨[], [], []⟩
  | .epsilon :: rest =>
    let e := expand parent next rest
    ⟨.symbol .epsilon parent :: e.frames, e.nodes, e.children⟩
  | .terminal name :: rest =>
    let e := expand parent (next + 1) rest
    ⟨.symbol (.terminal name) next :: e.frames, none :: e.nodes, next :: e.children⟩
  | .nonterminal name :: rest =>
    let e := expand parent (next + 1) rest
    ⟨.symbol (.nonterminal name) next :: e.frames, some (.inner name []) :: e.nodes,
      next :: e.children⟩

/-- Gives a node its children, after those it may already have. -/
def attach (children : List NodeId) : Option Node → Option Node
  | some (.inner nonterminal before) => some (.inner nonterminal (before ++ children))
  | other => other

inductive Step where
  | next (state : State)
  | accepted
  | rejected (error : Located SyntaxError)
deriving Repr

/-- Handles the frame on top of the stack. -/
def step (table : Table) (s : State) : Step :=
  match s.stack with
  | [] => .accepted
  | .bottom :: _ =>
    match s.remaining with
    | [] => .accepted
    | _ :: _ => .rejected (s.fail (.expected .endOfInput s.lookahead s.lexeme))
  | .symbol .epsilon _ :: stack => .next { s with stack }
  | .symbol (.terminal name) node :: stack =>
    match s.remaining with
    | token :: remaining =>
      if token.kind = name then
        .next
          { stack
            nodes := s.nodes.setIfInBounds node (some (.leaf token))
            previous := some token
            remaining }
      else .rejected (s.fail (.expected (.terminal name) s.lookahead s.lexeme))
    | [] => .rejected (s.fail (.expected (.terminal name) s.lookahead s.lexeme))
  | .symbol (.nonterminal name) node :: stack =>
    match table.get? name s.lookahead with
    | none => .rejected (s.fail (.noProduction name s.lookahead s.lexeme))
    | some p =>
      let e := expand node s.nodes.size p.body
      .next
        { s with
          stack := e.frames ++ stack
          nodes := s.nodes.modify node (attach e.children) ++ e.nodes }

/-- The nodes once every one of them is filled. -/
def complete (nodes : Array (Option Node)) : Option SyntaxTree :=
  if nodes.all Option.isSome then some ⟨nodes.filterMap fun node => node⟩ else none

def finish (s : State) : Except (Located SyntaxError) SyntaxTree :=
  match complete s.nodes with
  | some tree => .ok tree
  | none => .error (s.fail .unmatchedTerminal)

/-- The answer within the given number of steps. -/
def run (table : Table) : Nat → State → Option (Except (Located SyntaxError) SyntaxTree)
  | 0, _ => none
  | steps + 1, s =>
    match step table s with
    | .next s' => run table steps s'
    | .accepted => some (finish s)
    | .rejected e => some (.error e)

/-- The states a run goes through, each with a frame on top to be handled. -/
def states (table : Table) : Nat → State → List State
  | 0, _ => []
  | steps + 1, s =>
    if s.stack = [] then []
    else
      s :: match step table s with
        | .next s' => states table steps s'
        | _ => []

end Parse

namespace Table

def longestBody (table : Table) : Nat :=
  (table.cells.map fun cell => cell.production.body.length).foldl max 0

/-- A run that answers at all answers within so many steps. While no token is matched the lookahead
is fixed, so a nonterminal that comes up below itself comes up for ever; without that, what a frame
expands to before the next match is no deeper than there are cells, and at each match at most one
chain of expansions leaves frames behind. -/
def stepBound (table : Table) (tokenCount : Nat) : Nat :=
  let width := table.longestBody + 1
  (tokenCount + 2) * (table.size + 2) * Nat.pow width (table.size + 3) + 1

/-- Parses the tokens as a sentence derived from the start symbol; `none` if the run never ends. -/
def parse (table : Table) (start : String) (tokens : List Token) :
    Option (Except (Located SyntaxError) SyntaxTree) :=
  Parse.run table (table.stepBound tokens.length) (.initial start tokens)

end Table

end TopDown
