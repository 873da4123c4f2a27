import TopDown.Text.Order
import TopDown.Toy.ValueType

/-!
Symbol tables. Scopes form a tree under the global scope and are numbered in the order in which they
are opened; a name is declared at most once in a scope, and looking it up from a scope finds the
declaration in the nearest enclosing scope that has one.
-/
namespace TopDown.Toy

abbrev ScopeId := Nat

def globalScope : ScopeId := 0

structure Scope where
  id : ScopeId
  parent : Option ScopeId
deriving DecidableEq, Repr

structure SymbolEntry where
  name : String
  type : ValueType
  scope : ScopeId
  line : Nat
  column : Nat
deriving DecidableEq, Repr

namespace SymbolEntry

/-- By scope, and within a scope by name. -/
def notAfter (a b : SymbolEntry) : Bool :=
  a.scope < b.scope || (a.scope == b.scope && !Text.before b.name a.name)

def render (e : SymbolEntry) : String :=
  "[" ++ toString e.scope ++ "] " ++ e.name ++ ": " ++ e.type.render ++ " at " ++
    toString e.line ++ ":" ++ toString e.column

end SymbolEntry

/-- The declarations are kept in the order in which they were made. -/
structure SymbolTable where
  scopes : List Scope
  declared : List SymbolEntry
deriving DecidableEq, Repr

namespace SymbolTable

/-- The global scope, and nothing in it. -/
def initial : SymbolTable := ⟨[⟨globalScope, none⟩], []⟩

variable (table : SymbolTable)

def size : Nat := table.declared.length

def parent? (scope : ScopeId) : Option ScopeId := (table.scopes[scope]?).bind Scope.parent

/-- The number that the next scope gets. -/
def nextScope : ScopeId := table.scopes.length

def openScope (parent : ScopeId) : SymbolTable :=
  { table with scopes := table.scopes ++ [⟨table.nextScope, some parent⟩] }

/-- The declaration of a name in this very scope. -/
def local? (scope : ScopeId) (name : String) : Option SymbolEntry :=
  table.declared.find? fun e => e.scope = scope ∧ e.name = name

def resolveWithin (name : String) : Nat → ScopeId → Option SymbolEntry
  | 0, _ => none
  | bound + 1, scope =>
    match table.local? scope name with
    | some e => some e
    | none =>
      match table.parent? scope with
      | some parent => resolveWithin name bound parent
      | none => none

/-- The declaration of a name in the nearest enclosing scope that has one. A chain of scopes that
does not come back to itself has at most all scopes and one unknown one. -/
def resolve (scope : ScopeId) (name : String) : Option SymbolEntry :=
  table.resolveWithin name (table.scopes.length + 1) scope

/-- Adds a declaration, or hands back the one that has taken its name in its scope. -/
def declare (e : SymbolEntry) : Except SymbolEntry SymbolTable :=
  match table.local? e.scope e.name with
  | some existing => .error existing
  | none => .ok { table with declared := table.declared ++ [e] }

/-- Every declaration, by scope and name. -/
def entries : List SymbolEntry := table.declared.mergeSort SymbolEntry.notAfter

/-- One declaration a line. -/
def render : String := String.join (table.entries.map fun e => e.render ++ "\n")

end SymbolTable

end TopDown.Toy
