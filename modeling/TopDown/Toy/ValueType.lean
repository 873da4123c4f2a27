/-!
Types of the toy language. Two types are equal when they are built alike; nothing converts from one
to another.
-/
namespace TopDown.Toy

inductive ValueType where
  | int
  | float
  | char
  | void
  | array (size : Nat) (element : ValueType)
  | function (returns : ValueType)
deriving DecidableEq, Repr, Inhabited

namespace ValueType

def render : ValueType → String
  | int => "INT"
  | float => "FLOAT"
  | char => "CHAR"
  | void => "VOID"
  | array size element => "ARRAY[" ++ toString size ++ "]" ++ element.render
  | function returns => "FUNC " ++ returns.render

def isFunction : ValueType → Bool
  | function _ => true
  | _ => false

end ValueType

end TopDown.Toy
