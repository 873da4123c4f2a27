import TopDown.NameMap
import TopDown.Text.Unsigned
import TopDown.Toy.ValueType

/-!
Toy programs and the rules they must keep. The rules are about the program as a whole, without
tables, scopes or an order of checks: what an item may use are the names that the items before it
introduce.
-/
namespace TopDown.Toy

/-- The types that values of their own may have. -/
inductive Scalar where
  | int
  | float
  | char
deriving DecidableEq, Repr

def Scalar.type : Scalar → ValueType
  | int => .int
  | float => .float
  | char => .char

/-- How tightly an operator binds. -/
inductive Level where
  | sum
  | product
deriving DecidableEq, Repr

inductive Operator : Level → Type where
  | plus : Operator .sum
  | minus : Operator .sum
  | times : Operator .product
  | divided : Operator .product
deriving DecidableEq, Repr

/-- What expressions are made of: chains of operands, the tails of chains, and factors. -/
inductive Category where
  | chain (level : Level)
  | tail (level : Level)
  | factor
deriving DecidableEq, Repr

/-- The operands of the chains of a level. -/
def Level.operand : Level → Category
  | sum => .chain .product
  | product => .factor

inductive Expr : Category → Type where
  | chain {level : Level} (operand : Expr level.operand) (rest : Expr (.tail level)) :
      Expr (.chain level)
  | done {level : Level} : Expr (.tail level)
  | more {level : Level} (operator : Operator level) (operand : Expr level.operand)
      (rest : Expr (.tail level)) : Expr (.tail level)
  | name (name : String) : Expr .factor
  | element (name : String) (index : Expr (.chain .sum)) : Expr .factor
  | literal (kind : Scalar) : Expr .factor
  | group (inner : Expr (.chain .sum)) : Expr .factor
  | call (name : String) : Expr .factor

abbrev Expression := Expr (.chain .sum)

/-- A scalar type, or a number of elements as it is written and their type. -/
inductive TypeSpec where
  | scalar (type : Scalar)
  | array (size : String) (element : Scalar)

/-- An array has a type only if its size is a number that is small enough. -/
def TypeSpec.type? : TypeSpec → Option ValueType
  | scalar type => some type.type
  | array size element =>
    (Text.readUnsigned Text.wordBound size.toList).map fun n => .array n element.type

structure Declaration where
  spec : TypeSpec
  name : String
  initial : Option Expression

inductive Statement where
  | declaration (declared : Declaration)
  | assignment (name : String) (index : Option Expression) (value : Expression)
  | returning (value : Option Expression)
  | call (name : String)

def Statement.isDeclaration : Statement → Bool
  | declaration _ => true
  | _ => false

/-- A function without a scalar type returns nothing. -/
def returnType : Option Scalar → ValueType
  | some type => type.type
  | none => .void

inductive Item where
  | declaration (declared : Declaration)
  | function (returns : Option Scalar) (name : String) (body : List Statement)
  | main (body : List Statement)

namespace Item

def isMain : Item → Bool
  | main _ => true
  | _ => false

def isFunction : Item → Bool
  | function _ _ _ => true
  | _ => false

/-- The name that an item introduces. -/
def name? : Item → Option String
  | declaration declared => some declared.name
  | function _ name _ => some name
  | main _ => none

def body : Item → List Statement
  | declaration _ => []
  | function _ _ body => body
  | main body => body

end Item

abbrev Program := List Item

/-- The types of the names that may be used. -/
abbrev Environment := NameMap ValueType

/-- Types of expressions. A tail has any type that all of its operands have. -/
inductive HasType (env : Environment) :
    {category : Category} → Expr category → ValueType → Prop where
  | chain {level : Level} {operand : Expr level.operand} {rest : Expr (.tail level)}
      {type : ValueType} :
      HasType env operand type → HasType env rest type → HasType env (.chain operand rest) type
  | done {level : Level} (type : ValueType) : HasType env (Expr.done : Expr (.tail level)) type
  | more {level : Level} {operator : Operator level} {operand : Expr level.operand}
      {rest : Expr (.tail level)} {type : ValueType} :
      HasType env operand type → HasType env rest type →
      HasType env (.more operator operand rest) type
  | name {name : String} {type : ValueType} (hname : env.get? name = some type) :
      HasType env (.name name) type
  | element {name : String} {index : Expression} {size : Nat} {type : ValueType}
      (hname : env.get? name = some (.array size type)) :
      HasType env index .int → HasType env (.element name index) type
  | literal (kind : Scalar) : HasType env (.literal kind) kind.type
  | group {inner : Expression} {type : ValueType} :
      HasType env inner type → HasType env (.group inner) type
  | call {name : String} {type : ValueType} (hname : env.get? name = some (.function type)) :
      HasType env (.call name) type

/-- The initial value has the declared type. -/
def Declaration.Typed (env : Environment) (declared : Declaration) : Prop :=
  ∀ type, declared.spec.type? = some type →
    ∀ value, declared.initial = some value → HasType env value type

/-- Statements of a function with the given return type. A function that returns nothing may return
any value. -/
inductive Statement.Typed (env : Environment) (returns : ValueType) : Statement → Prop where
  | declaration {declared : Declaration} (h : declared.Typed env) :
      Typed env returns (.declaration declared)
  | assignment {name : String} {value : Expression} {type : ValueType}
      (hname : env.get? name = some type) (hvalue : HasType env value type) :
      Typed env returns (.assignment name none value)
  | element {name : String} {index value : Expression} {size : Nat} {type : ValueType}
      (hname : env.get? name = some (.array size type)) (hindex : HasType env index .int)
      (hvalue : HasType env value type) : Typed env returns (.assignment name (some index) value)
  | returning {value : Expression} {type : ValueType} (hvalue : HasType env value type)
      (htype : returns = .void ∨ type = returns) : Typed env returns (.returning (some value))
  | returningNothing (htype : returns = .void) : Typed env returns (.returning none)
  | call {name : String} {type : ValueType} (hname : env.get? name = some (.function type)) :
      Typed env returns (.call name)

namespace Item

/-- The item introduces its name. An array of a size that cannot be read introduces none. -/
def extend (env : Environment) : Item → Environment
  | declaration declared =>
    match declared.spec.type? with
    | some type => env.insert declared.name type
    | none => env
  | function returns name _ => env.insert name (.function (returnType returns))
  | main _ => env

/-- A function body sees the function's own name, an initial value not the declared one. -/
def Typed (env : Environment) : Item → Prop
  | declaration declared => declared.Typed env
  | function returns name body =>
    ∀ s ∈ body, s.Typed (extend env (function returns name body)) (returnType returns)
  | main body => ∀ s ∈ body, s.Typed env .int

/-- The size of a declared array can be read. -/
def Sized : Item → Prop
  | declaration declared => declared.spec.type?.isSome
  | _ => True

end Item

namespace Program

/-- The names that the items introduce, in order. -/
def names (items : List Item) : List String := items.filterMap Item.name?

def environment (items : List Item) : Environment := items.foldl Item.extend .empty

structure Lawful (program : Program) : Prop where
  one_main : program.countP Item.isMain = 1
  main_last : program.Pairwise fun earlier later => earlier.isMain → ¬ later.isFunction
  global : ∀ item ∈ program, ∀ s ∈ item.body, ¬ s.isDeclaration
  distinct : (names program).Nodup
  sized : ∀ item ∈ program, item.Sized
  typed : ∀ before item after, program = before ++ item :: after →
    item.Typed (environment before)

end Program

end TopDown.Toy
