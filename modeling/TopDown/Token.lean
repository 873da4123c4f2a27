import TopDown.Location

/-!
Tokens: the kind a grammar sees, the text it was read from, and where that text stands.
-/
namespace TopDown

structure Token where
  kind : String
  lexeme : String
  line : Nat
  column : Nat
deriving DecidableEq, Repr, Inhabited

namespace Token

def location (token : Token) : Location := .inStream token.line token.column

def kinds (tokens : List Token) : List String := tokens.map Token.kind

end Token

end TopDown
