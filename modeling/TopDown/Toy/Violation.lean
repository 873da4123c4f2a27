import TopDown.Location
import TopDown.Toy.ValueType

/-!
Violations of the rules for toy programs. A tree that lacks a part of a construct is one of them.
-/
namespace TopDown.Toy

inductive SemanticError where
  | variableNotDeclared (name : String)
  | variableAlreadyDeclared (name : String)
  | functionNotDeclared (name : String)
  | notAnArray (name : String)
  | arrayIndexType (actual : ValueType)
  | arrayAssignType (actual expected : ValueType)
  | missingMain
  | mainAlreadyDefined
  | functionAfterMain (name : String)
  | returnOutsideFunction
  | typeMismatchAssign (actual expected : ValueType)
  | expressionTypeMismatch (left right : ValueType)
  | returnTypeMismatch (actual expected : ValueType)
  | localDeclaration (name : String)
  | invalidArraySize (lexeme : String)
  | malformedTree (node part : String)
deriving DecidableEq, Repr

namespace SemanticError

/-- What a malformed tree lacks. -/
def lack (node part : String) : String := "`" ++ node ++ "` has no " ++ part

def message : SemanticError → String
  | variableNotDeclared name => "Variable `" ++ name ++ "` is not declared"
  | variableAlreadyDeclared name => "`" ++ name ++ "` is already declared in this scope"
  | functionNotDeclared name => "Function `" ++ name ++ "` is not declared"
  | notAnArray name => "`" ++ name ++ "` is not an array"
  | arrayIndexType actual => "Array index must be INT, found " ++ actual.render
  | arrayAssignType actual expected =>
    "Cannot store " ++ actual.render ++ " in an array of " ++ expected.render
  | missingMain => "Program has no main function"
  | mainAlreadyDefined => "Main is already defined"
  | functionAfterMain name => "Function `" ++ name ++ "` is defined after main"
  | returnOutsideFunction => "Return outside of a function"
  | typeMismatchAssign actual expected =>
    "Cannot assign " ++ actual.render ++ " to a variable of type " ++ expected.render
  | expressionTypeMismatch left right =>
    "Operands have different types: " ++ left.render ++ " and " ++ right.render
  | returnTypeMismatch actual expected =>
    "Returning " ++ actual.render ++ " from a function returning " ++ expected.render
  | localDeclaration name => "Variable `" ++ name ++ "` is declared inside a function"
  | invalidArraySize lexeme => "Array size `" ++ lexeme ++ "` is not a non-negative integer"
  | malformedTree node part => "Unexpected tree shape: " ++ lack node part

instance : Explained SemanticError := ⟨message⟩

end SemanticError

abbrev Verdict := Except (Located SemanticError)

end TopDown.Toy
