import TopDown.Grammar

/-!
The toy language: the text of its grammar and the rules in it, whose terminals are token kinds. A
program is a list of declarations, function definitions and a main definition; binary operators
chain through tails, which keeps the grammar predictive.
-/
namespace TopDown.Toy

/-- The grammar as BNF text. -/
def source : String := r#"; The toy language checked by the scope analyzer.
; Quoted names are token kinds emitted by the tokenizer.

Program = TopList
TopList = Top TopList | ""
Top = Declaration | FunctionDefinition | MainDefinition

Declaration = TypeSpec "ID" Initializer "SEMICOLON"
TypeSpec = ScalarType | "ARRAY" "LBRACKET" "INT_LITERAL" "RBRACKET" ScalarType
ScalarType = "INT" | "FLOAT" | "CHAR"
Initializer = "ARROW" Expression | ""

FunctionDefinition = "FUNC" ReturnType "ID" "LPAREN" "RPAREN" Block
ReturnType = ScalarType | "VOID"
MainDefinition = "MAIN" "LPAREN" "RPAREN" Block

Block = "LBRACE" StatementList "RBRACE"
StatementList = Statement StatementList | ""
Statement = Declaration | Assignment | Return | CallStatement
Assignment = "ID" IndexSuffix "ARROW" Expression "SEMICOLON"
Return = "RETURN" ReturnValue "SEMICOLON"
ReturnValue = Expression | ""
CallStatement = Call "SEMICOLON"
Call = "CALL" "ID" "LPAREN" "RPAREN"
IndexSuffix = "LBRACKET" Expression "RBRACKET" | ""

; Binary operators chain through the tails, which keeps the grammar LL(1)
Expression = Term ExpressionTail
ExpressionTail = AddOp Term ExpressionTail | ""
Term = Factor TermTail
TermTail = MulOp Factor TermTail | ""
AddOp = "PLUS" | "MINUS"
MulOp = "STAR" | "SLASH"
Factor = Variable | Literal | "LPAREN" Expression "RPAREN" | Call
Variable = "ID" IndexSuffix
Literal = "INT_LITERAL" | "FLOAT_LITERAL" | "CHAR_LITERAL"
"#

open TopDown.Symbol in
def rules : List Rule :=
  [⟨"Program", [[nonterminal "TopList"]]⟩,
    ⟨"TopList", [[nonterminal "Top", nonterminal "TopList"], [epsilon]]⟩,
    ⟨"Top",
      [[nonterminal "Declaration"], [nonterminal "FunctionDefinition"],
        [nonterminal "MainDefinition"]]⟩,
    ⟨"Declaration",
      [[nonterminal "TypeSpec", terminal "ID", nonterminal "Initializer", terminal "SEMICOLON"]]⟩,
    ⟨"TypeSpec",
      [[nonterminal "ScalarType"],
        [terminal "ARRAY", terminal "LBRACKET", terminal "INT_LITERAL", terminal "RBRACKET",
          nonterminal "ScalarType"]]⟩,
    ⟨"ScalarType", [[terminal "INT"], [terminal "FLOAT"], [terminal "CHAR"]]⟩,
    ⟨"Initializer", [[terminal "ARROW", nonterminal "Expression"], [epsilon]]⟩,
    ⟨"FunctionDefinition",
      [[terminal "FUNC", nonterminal "ReturnType", terminal "ID", terminal "LPAREN",
        terminal "RPAREN", nonterminal "Block"]]⟩,
    ⟨"ReturnType", [[nonterminal "ScalarType"], [terminal "VOID"]]⟩,
    ⟨"MainDefinition",
      [[terminal "MAIN", terminal "LPAREN", terminal "RPAREN", nonterminal "Block"]]⟩,
    ⟨"Block", [[terminal "LBRACE", nonterminal "StatementList", terminal "RBRACE"]]⟩,
    ⟨"StatementList", [[nonterminal "Statement", nonterminal "StatementList"], [epsilon]]⟩,
    ⟨"Statement",
      [[nonterminal "Declaration"], [nonterminal "Assignment"], [nonterminal "Return"],
        [nonterminal "CallStatement"]]⟩,
    ⟨"Assignment",
      [[terminal "ID", nonterminal "IndexSuffix", terminal "ARROW", nonterminal "Expression",
        terminal "SEMICOLON"]]⟩,
    ⟨"Return", [[terminal "RETURN", nonterminal "ReturnValue", terminal "SEMICOLON"]]⟩,
    ⟨"ReturnValue", [[nonterminal "Expression"], [epsilon]]⟩,
    ⟨"CallStatement", [[nonterminal "Call", terminal "SEMICOLON"]]⟩,
    ⟨"Call", [[terminal "CALL", terminal "ID", terminal "LPAREN", terminal "RPAREN"]]⟩,
    ⟨"IndexSuffix",
      [[terminal "LBRACKET", nonterminal "Expression", terminal "RBRACKET"], [epsilon]]⟩,
    ⟨"Expression", [[nonterminal "Term", nonterminal "ExpressionTail"]]⟩,
    ⟨"ExpressionTail",
      [[nonterminal "AddOp", nonterminal "Term", nonterminal "ExpressionTail"], [epsilon]]⟩,
    ⟨"Term", [[nonterminal "Factor", nonterminal "TermTail"]]⟩,
    ⟨"TermTail",
      [[nonterminal "MulOp", nonterminal "Factor", nonterminal "TermTail"], [epsilon]]⟩,
    ⟨"AddOp", [[terminal "PLUS"], [terminal "MINUS"]]⟩,
    ⟨"MulOp", [[terminal "STAR"], [terminal "SLASH"]]⟩,
    ⟨"Factor",
      [[nonterminal "Variable"], [nonterminal "Literal"],
        [terminal "LPAREN", nonterminal "Expression", terminal "RPAREN"], [nonterminal "Call"]]⟩,
    ⟨"Variable", [[terminal "ID", nonterminal "IndexSuffix"]]⟩,
    ⟨"Literal",
      [[terminal "INT_LITERAL"], [terminal "FLOAT_LITERAL"], [terminal "CHAR_LITERAL"]]⟩]

/-- A program of the toy language derives from `Program`. -/
def grammar : Grammar where
  start := "Program"
  rules := rules
  distinct := by decide +kernel
  start_defined := by decide +kernel
  closed := by decide +kernel

end TopDown.Toy
