import TopDown.SyntaxTree
import TopDown.Text.Unsigned
import TopDown.Toy.Violation

/-!
The constructs of the toy language in a syntax tree, and their parts. A part is found among the
children of a node by its nonterminal or its token kind, the first one counting.
-/
namespace TopDown.Toy

/-- What a node is to the analysis, told by its nonterminal. -/
inductive Construct where
  | declaration
  | functionDefinition
  | mainDefinition
  | assignment
  | returning
  | call
  | chain
  | variable
  | composite
  | leaf (token : Token)
deriving DecidableEq, Repr

def Construct.ofNonterminal (name : String) : Construct :=
  match name with
  | "Declaration" => declaration
  | "FunctionDefinition" => functionDefinition
  | "MainDefinition" => mainDefinition
  | "Assignment" => assignment
  | "Return" => returning
  | "Call" => call
  | "Expression" => chain
  | "Term" => chain
  | "Variable" => .variable
  | _ => composite

/-- A node together with its token. -/
structure LeafNode where
  id : NodeId
  token : Token
deriving DecidableEq, Repr

section Tree

variable (tree : SyntaxTree)

def constructOf (id : NodeId) : Construct :=
  match tree.node? id with
  | some (.leaf token) => .leaf token
  | some (.inner nonterminal _) => .ofNonterminal nonterminal
  | none => .composite

def violation (e : SemanticError) (id : NodeId) : Located SemanticError := ⟨e, tree.locationOf id⟩

def malformed (id : NodeId) (part : String) : Located SemanticError :=
  violation tree (.malformedTree ((tree.nonterminal? id).getD "leaf") part) id

/-- The first child with the given nonterminal. -/
def childNode? (id : NodeId) (name : String) : Option NodeId :=
  (tree.children id).find? fun child => tree.nonterminal? child = some name

/-- The first child that is a token of the given kind. -/
def childLeaf? (id : NodeId) (kind : String) : Option LeafNode :=
  (tree.children id).findSome? fun child =>
    match tree.token? child with
    | some token => if token.kind = kind then some ⟨child, token⟩ else none
    | none => none

def childNode (id : NodeId) (name : String) : Verdict NodeId :=
  match childNode? tree id name with
  | some child => .ok child
  | none => .error (malformed tree id name)

def childLeaf (id : NodeId) (kind : String) : Verdict LeafNode :=
  match childLeaf? tree id kind with
  | some leaf => .ok leaf
  | none => .error (malformed tree id kind)

/-- The type that the first token under a node names. -/
def scalarType (id : NodeId) : Verdict ValueType :=
  match tree.firstToken id with
  | none => .error (malformed tree id "type")
  | some token =>
    match token.kind with
    | "INT" => .ok .int
    | "FLOAT" => .ok .float
    | "CHAR" => .ok .char
    | "VOID" => .ok .void
    | _ => .error (malformed tree id "type keyword")

/-- A scalar type, or the size of an array and the type of its elements, which comes last. -/
def declaredType (id : NodeId) : Verdict ValueType :=
  match childLeaf? tree id "ARRAY" with
  | none => scalarType tree id
  | some _ => do
    let size ← childLeaf tree id "INT_LITERAL"
    match Text.readUnsigned Text.wordBound size.token.lexeme.toList with
    | none => .error (violation tree (.invalidArraySize size.token.lexeme) size.id)
    | some n => return .array n (← scalarType tree ((tree.children id).getLastD id))

/-- The expression between the brackets after a name, if there is one. -/
def indexExpression? (id : NodeId) : Option NodeId :=
  (childNode? tree id "IndexSuffix").bind fun suffix => childNode? tree suffix "Expression"

def returnedExpression? (id : NodeId) : Option NodeId :=
  (childNode? tree id "ReturnValue").bind fun value => childNode? tree value "Expression"

end Tree

end TopDown.Toy
