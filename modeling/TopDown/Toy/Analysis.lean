import TopDown.Toy.Typing

/-!
Analysis of toy programs. The tree is visited from left to right and the first violation ends the
visit. Names are introduced at the top level only, a function's own name before its body, and each
body has a scope of its own. Trees of other grammars may put the constructs anywhere.
-/
namespace TopDown.Toy

/-- What happens to the symbol table, as it can be logged. -/
inductive Event where
  | opened (scope parent : ScopeId)
  | declared (entry : SymbolEntry)
  | closed (scope : ScopeId)
deriving DecidableEq, Repr

structure State where
  symbols : SymbolTable
  /-- The scopes that are open inside the global one, innermost first. -/
  openScopes : List ScopeId
  mainDefined : Bool
  /-- What has happened, last first. -/
  events : List Event
deriving DecidableEq, Repr

namespace State

def initial : State := ⟨.initial, [], false, []⟩

def scope (s : State) : ScopeId := s.openScopes.headD globalScope

def view (s : State) : View := ⟨s.symbols, s.scope⟩

def enter (s : State) : State :=
  let id := s.symbols.nextScope
  { s with
    symbols := s.symbols.openScope s.scope
    openScopes := id :: s.openScopes
    events := .opened id s.scope :: s.events }

def leave (s : State) : State :=
  { s with
    openScopes := s.openScopes.tail
    events := .closed s.scope :: s.events }

end State

/-- A visit changes the state, also when it ends in a violation. -/
abbrev Visit := EStateM (Located SemanticError) State

namespace Visit

def check {α : Type} : Verdict α → Visit α
  | .ok a => pure a
  | .error e => throw e

variable (tree : SyntaxTree)

/-- The type that a node must carry in the present state. -/
def type (id : NodeId) : Visit ValueType := fun s => check (s.view.type tree id) s

def declare (name : LeafNode) (type : ValueType) : Visit Unit := fun s =>
  let e : SymbolEntry := ⟨name.token.lexeme, type, s.scope, name.token.line, name.token.column⟩
  match s.symbols.declare e with
  | .ok symbols => .ok () { s with symbols, events := .declared e :: s.events }
  | .error _ =>
    .error (violation tree (.variableAlreadyDeclared name.token.lexeme) name.id) s

/-- Visits in a scope of its own, which is closed whatever comes of the visit. -/
def within (body : Visit Unit) : Visit Unit := fun s =>
  match body s.enter with
  | .ok () s => .ok () s.leave
  | .error e s => .error e s.leave

def initializer (id : NodeId) (expected : ValueType) : Visit Unit := do
  let initializer ← check (childNode tree id "Initializer")
  match childNode? tree initializer "Expression" with
  | none => return
  | some value =>
    let actual ← type tree value
    if actual ≠ expected then
      throw (violation tree (.typeMismatchAssign actual expected) value)

/-- A declaration; `returns` is the return type of the function around it, if there is one. -/
def declaration (returns : Option ValueType) (id : NodeId) : Visit Unit := do
  let name ← check (childLeaf tree id "ID")
  if returns.isSome then
    throw (violation tree (.localDeclaration name.token.lexeme) id)
  let declared ← check (declaredType tree (← check (childNode tree id "TypeSpec")))
  let s ← get
  if (s.symbols.local? s.scope name.token.lexeme).isSome then
    throw (violation tree (.variableAlreadyDeclared name.token.lexeme) name.id)
  initializer tree id declared
  declare tree name declared

/-- Introduces a function; the answer is its return type and its body. -/
def functionHead (id : NodeId) : Visit (ValueType × NodeId) := do
  let name ← check (childLeaf tree id "ID")
  if (← get).mainDefined then
    throw (violation tree (.functionAfterMain name.token.lexeme) id)
  let returns ← check (scalarType tree (← check (childNode tree id "ReturnType")))
  declare tree name (.function returns)
  return (returns, ← check (childNode tree id "Block"))

/-- Introduces the main function; the answer is its body. -/
def mainHead (id : NodeId) : Visit NodeId := do
  if (← get).mainDefined then
    throw (violation tree .mainAlreadyDefined id)
  modify fun s => { s with mainDefined := true }
  check (childNode tree id "Block")

def assignment (id : NodeId) : Visit Unit := do
  let name ← check (childLeaf tree id "ID")
  let target ← check ((← get).view.typeOfName tree name)
  let value ← check (childNode tree id "Expression")
  let actual ← type tree value
  match indexExpression? tree id with
  | some index =>
    check (View.requireIndex tree index (← type tree index))
    let element ← check (View.elementType tree name target)
    if actual ≠ element then
      throw (violation tree (.arrayAssignType actual element) value)
  | none =>
    if actual ≠ target then
      throw (violation tree (.typeMismatchAssign actual target) value)

/-- A return; a function that returns nothing may return anything. -/
def returning (returns : Option ValueType) (id : NodeId) : Visit Unit := do
  match returns with
  | none => throw (violation tree .returnOutsideFunction id)
  | some expected =>
    let actual ←
      match returnedExpression? tree id with
      | some value => type tree value
      | none => pure .void
    if expected ≠ .void ∧ actual ≠ expected then
      throw (violation tree (.returnTypeMismatch actual expected) id)

/-- Visits the pending nodes in order, inside a function with the given return type or outside of
any. Composites give way to their children. -/
def nodes : Nat → Option ValueType → List NodeId → Visit Unit
  | 0, _, _ => return
  | _, _, [] => return
  | visits + 1, returns, id :: pending => do
    match constructOf tree id with
    | .composite => nodes visits returns (tree.children id ++ pending)
    | .declaration =>
      declaration tree returns id
      nodes visits returns pending
    | .functionDefinition =>
      let (returned, body) ← functionHead tree id
      within (nodes visits (some returned) [body])
      nodes visits returns pending
    | .mainDefinition =>
      let body ← mainHead tree id
      within (nodes visits (some .int) [body])
      nodes visits returns pending
    | .assignment =>
      assignment tree id
      nodes visits returns pending
    | .returning =>
      returning tree returns id
      nodes visits returns pending
    | .call =>
      let _ ← check ((← get).view.callType tree id)
      nodes visits returns pending
    | .chain | .variable =>
      let _ ← check ((← get).view.type? tree id)
      nodes visits returns pending
    | .leaf _ => nodes visits returns pending

/-- Visits the whole program, which must define a main function. -/
def program : Visit SymbolTable := do
  nodes tree tree.size none [SyntaxTree.root]
  let s ← get
  if s.mainDefined then return s.symbols else throw ⟨.missingMain, .nowhere⟩

end Visit

/-- An analysis with what happened on the way. -/
structure Analysis where
  result : Verdict SymbolTable
  events : List Event
deriving Repr

def analysis (tree : SyntaxTree) : Analysis :=
  match Visit.program tree .initial with
  | .ok symbols s => ⟨.ok symbols, s.events.reverse⟩
  | .error e s => ⟨.error e, s.events.reverse⟩

/-- The symbol table of a program, or the first violation. -/
def analyze (tree : SyntaxTree) : Verdict SymbolTable := (analysis tree).result

end TopDown.Toy
