import TopDown.Token

/-!
Syntax trees kept in one array. A node names its children by their places in the array, and the
first node is the root. The walks below keep a list of nodes still to visit, so that long chains
cost no depth; each node of a tree is visited at most once, which is why as many visits as there are
nodes are enough.
-/
namespace TopDown

abbrev NodeId := Nat

inductive Node where
  | inner (nonterminal : String) (children : List NodeId)
  | leaf (token : Token)
deriving DecidableEq, Repr, Inhabited

structure SyntaxTree where
  nodes : Array Node
deriving DecidableEq, Repr, Inhabited

namespace SyntaxTree

def root : NodeId := 0

variable (tree : SyntaxTree)

def size : Nat := tree.nodes.size

def node? (id : NodeId) : Option Node := tree.nodes[id]?

def children (id : NodeId) : List NodeId :=
  match tree.node? id with
  | some (.inner _ children) => children
  | _ => []

def nonterminal? (id : NodeId) : Option String :=
  match tree.node? id with
  | some (.inner nonterminal _) => some nonterminal
  | _ => none

def token? (id : NodeId) : Option Token :=
  match tree.node? id with
  | some (.leaf token) => some token
  | _ => none

/-- The tokens met when the pending nodes are visited in order. -/
def collect : Nat → List NodeId → List Token
  | 0, _ => []
  | _, [] => []
  | visits + 1, id :: pending =>
    match tree.node? id with
    | some (.leaf token) => token :: collect visits pending
    | some (.inner _ children) => collect visits (children ++ pending)
    | none => collect visits pending

/-- The tokens under a node from left to right. -/
def leavesUnder (id : NodeId) : List Token := tree.collect tree.size [id]

def leaves : List Token := tree.leavesUnder root

/-- The first token met when the pending nodes are visited, the children of a node being taken in
the order that `arrange` gives them. -/
def search (arrange : List NodeId → List NodeId) : Nat → List NodeId → Option Token
  | 0, _ => none
  | _, [] => none
  | visits + 1, id :: pending =>
    match tree.node? id with
    | some (.leaf token) => some token
    | some (.inner _ children) => search arrange visits (arrange children ++ pending)
    | none => search arrange visits pending

/-- The leftmost token under a node. -/
def firstToken (id : NodeId) : Option Token := tree.search (fun ids => ids) tree.size [id]

/-- The rightmost token under a node. -/
def lastToken (id : NodeId) : Option Token := tree.search List.reverse tree.size [id]

/-- Where the text under a node begins; nowhere if it has none. -/
def locationOf (id : NodeId) : Location :=
  match tree.firstToken id with
  | some token => token.location
  | none => .nowhere

def indent (depth : Nat) : String := String.join (List.replicate depth "  ")

def outline : Nat → List (NodeId × Nat) → List String
  | 0, _ => []
  | _, [] => []
  | visits + 1, (id, depth) :: pending =>
    match tree.node? id with
    | some (.inner nonterminal children) =>
      (indent depth ++ nonterminal) ::
        outline visits (children.map (fun child => (child, depth + 1)) ++ pending)
    | some (.leaf token) =>
      (indent depth ++ token.kind ++ " `" ++ token.lexeme ++ "` " ++ toString token.line ++ ":" ++
        toString token.column) :: outline visits pending
    | none => outline visits pending

/-- One node a line from the root down, indented by its depth. -/
def render : String :=
  String.join ((tree.outline tree.size [(root, 0)]).map fun line => line ++ "\n")

end SyntaxTree

end TopDown
