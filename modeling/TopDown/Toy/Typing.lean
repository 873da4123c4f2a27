import TopDown.Toy.Construct
import TopDown.Toy.SymbolTable

/-!
Types of expressions. An expression has the type of its first operand, and every other operand of
its chain must have the same; an indexed name has the element type of its array, and a call the
return type of its function.
-/
namespace TopDown.Toy

/-- The declarations visible from a scope. -/
structure View where
  symbols : SymbolTable
  scope : ScopeId
deriving DecidableEq, Repr

namespace View

variable (tree : SyntaxTree) (view : View)

def resolve? (name : String) : Option SymbolEntry := view.symbols.resolve view.scope name

/-- The type of the name that a leaf holds. -/
def typeOfName (leaf : LeafNode) : Verdict ValueType :=
  match view.resolve? leaf.token.lexeme with
  | some e => .ok e.type
  | none => .error (violation tree (.variableNotDeclared leaf.token.lexeme) leaf.id)

/-- The return type of the called function. -/
def callType (id : NodeId) : Verdict ValueType := do
  let name ← childLeaf tree id "ID"
  match view.resolve? name.token.lexeme with
  | some ⟨_, .function returns, _, _, _⟩ => return returns
  | _ => throw (violation tree (.functionNotDeclared name.token.lexeme) name.id)

/-- The type of a token: literals and names have one, other tokens none. -/
def leafType (leaf : LeafNode) : Verdict (Option ValueType) :=
  match leaf.token.kind with
  | "INT_LITERAL" => return some .int
  | "FLOAT_LITERAL" => return some .float
  | "CHAR_LITERAL" => return some .char
  | "ID" => some <$> view.typeOfName tree leaf
  | _ => return none

/-- The type that a node must have. -/
def require (id : NodeId) : Option ValueType → Verdict ValueType
  | some type => .ok type
  | none => .error (malformed tree id "typed operand")

def requireIndex (id : NodeId) (actual : ValueType) : Verdict Unit :=
  if actual = .int then .ok () else .error (violation tree (.arrayIndexType actual) id)

def elementType (name : LeafNode) : ValueType → Verdict ValueType
  | .array _ element => .ok element
  | _ => .error (violation tree (.notAnArray name.token.lexeme) name.id)

mutual

/-- The type of an expression, or none for a node that carries no type. Every step leads down the
tree, so as many levels as there are nodes are enough. -/
def typeWithin : Nat → NodeId → Verdict (Option ValueType)
  | 0, _ => .ok none
  | levels + 1, id =>
    match constructOf tree id with
    | .leaf token => view.leafType tree ⟨id, token⟩
    | .call => some <$> view.callType tree id
    | .variable => do
      let name ← childLeaf tree id "ID"
      let type ← view.typeOfName tree name
      match indexExpression? tree id with
      | none => return some type
      | some index =>
        requireIndex tree index (← require tree index (← typeWithin levels index))
        return some (← elementType tree name type)
    | .chain =>
      match tree.children id with
      | [] => .error (malformed tree id "operand")
      | operand :: rest => do
        let left ← require tree operand (← typeWithin levels operand)
        match rest with
        | [] => return some left
        | tail :: _ =>
          checkTail levels left tail
          return some left
    | .composite => (tree.children id).findSomeM? (typeWithin levels)
    | _ => .error (malformed tree id "value")

/-- Checks that the operands of a chain's tail have the type of the first one. A tail is an
operator, an operand and the next tail; any other shape ends the chain. -/
def checkTail : Nat → ValueType → NodeId → Verdict Unit
  | 0, _, _ => .ok ()
  | levels + 1, left, tail =>
    match tree.children tail with
    | [operator, operand, next] => do
      let right ← require tree operand (← typeWithin levels operand)
      if right = left then checkTail levels left next
      else .error (violation tree (.expressionTypeMismatch left right) operator)
    | _ => .ok ()

end

/-- The type of a node that may carry none. -/
def type? (id : NodeId) : Verdict (Option ValueType) := view.typeWithin tree tree.size id

/-- The type of a node that must carry one. -/
def type (id : NodeId) : Verdict ValueType := do
  require tree id (← view.type? tree id)

end View

end TopDown.Toy
