import TopDown.Bnf.Load

/-!
Writing a grammar as BNF text: a line for each rule in order, with bars between the alternatives and
blanks between the symbols. A terminal stands in quotes, with a backslash before each quote and
backslash in it; empty quotes are the empty word, and an alternative without symbols is left empty.
-/
namespace TopDown.Bnf

def escapeQuoted : List Char → List Char
  | [] => []
  | c :: rest =>
    if c = '"' ∨ c = '\\' then '\\' :: c :: escapeQuoted rest else c :: escapeQuoted rest

def printSymbol : Symbol → List Char
  | .terminal name => '"' :: escapeQuoted name.toList ++ ['"']
  | .nonterminal name => name.toList
  | .epsilon => ['"', '"']

def printBody (body : Body) : List Char := [' '].intercalate (body.map printSymbol)

def printRule (rule : Rule) : List Char :=
  rule.name.toList ++ [' ', '=', ' '] ++
    [' ', '|', ' '].intercalate (rule.alternatives.map printBody)

/-- One line for each rule. -/
def print (g : Grammar) : String :=
  String.ofList (g.rules.flatMap fun rule => printRule rule ++ ['\n'])

end TopDown.Bnf
