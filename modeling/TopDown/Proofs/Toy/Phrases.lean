import TopDown.Token
import TopDown.Proofs.Toy.Program

/-!
How programs are written. A phrase is a token of some kind, or a nonterminal with the alternative it
takes and the phrases of that alternative; every construct of a program has its phrase. A token's
text matters where it is a name or the size of an array.
-/
namespace TopDown.Toy

inductive Phrase where
  | token (kind : String) (text : Option String)
  | node (name : String) (alternative : Nat) (parts : List Phrase)

namespace Phrase

def plain (kind : String) : Phrase := .token kind none

def spelled (kind text : String) : Phrase := .token kind (some text)

def nonterminal? : Phrase → Option String
  | token _ _ => none
  | node name _ _ => some name

def kind? : Phrase → Option String
  | token kind _ => some kind
  | node _ _ _ => none

section Roots

variable {name kind text : String} {alternative : Nat} {parts : List Phrase}

@[simp] theorem nonterminal?_node : (node name alternative parts).nonterminal? = some name := rfl

@[simp] theorem nonterminal?_plain : (plain kind).nonterminal? = none := rfl

@[simp] theorem nonterminal?_spelled : (spelled kind text).nonterminal? = none := rfl

@[simp] theorem kind?_node : (node name alternative parts).kind? = none := rfl

@[simp] theorem kind?_plain : (plain kind).kind? = some kind := rfl

@[simp] theorem kind?_spelled : (spelled kind text).kind? = some kind := rfl

end Roots

/-- The token is of the kind, and has the text if one is given. -/
def Fits (kind : String) (text : Option String) (token : Token) : Prop :=
  token.kind = kind ∧ ∀ lexeme, text = some lexeme → token.lexeme = lexeme

/-- The tokens are the phrases written one after the other. -/
inductive Written : List Phrase → List Token → Prop where
  | nil : Written [] []
  | token {kind : String} {text : Option String} {phrases : List Phrase} {token : Token}
      {tokens : List Token} (hfits : Fits kind text token) :
      Written phrases tokens → Written (.token kind text :: phrases) (token :: tokens)
  | node {name : String} {alternative : Nat} {parts phrases : List Phrase}
      {inner tokens : List Token} :
      Written parts inner → Written phrases tokens →
      Written (.node name alternative parts :: phrases) (inner ++ tokens)

namespace Written

variable {kind name : String} {alternative : Nat} {parts phrases others : List Phrase}
  {token : Token} {tokens more : List Token}

theorem append (h : Written phrases tokens) (h' : Written others more) :
    Written (phrases ++ others) (tokens ++ more) := by
  induction h with
  | nil => exact h'
  | token hfits _ ih => exact .token hfits ih
  | node hparts _ _ ih =>
    rw [List.append_assoc]
    exact .node hparts ih

theorem plain (hkind : token.kind = kind) (h : Written phrases tokens) :
    Written (.plain kind :: phrases) (token :: tokens) :=
  .token ⟨hkind, fun _ hlexeme => nomatch hlexeme⟩ h

theorem spelled (hkind : token.kind = kind) (h : Written phrases tokens) :
    Written (.spelled kind token.lexeme :: phrases) (token :: tokens) :=
  .token ⟨hkind, fun _ hlexeme => Option.some.inj hlexeme⟩ h

/-- A single phrase is written as its parts are. -/
theorem single (h : Written parts tokens) : Written [.node name alternative parts] tokens := by
  have hwhole : Written [.node name alternative parts] (tokens ++ []) := .node h .nil
  rwa [List.append_nil] at hwhole

end Written

mutual

/-- Tokens for a phrase, spelled like their kinds where no text is given. -/
def spell : Phrase → List Token
  | token kind text => [⟨kind, text.getD kind, 1, 1⟩]
  | node _ _ parts => spellAll parts

def spellAll : List Phrase → List Token
  | [] => []
  | phrase :: rest => spell phrase ++ spellAll rest

end

mutual

theorem written_spell : (phrase : Phrase) → Written [phrase] (spell phrase)
  | token kind text => by
    refine .token ⟨rfl, fun lexeme hlexeme => ?_⟩ .nil
    rw [hlexeme, Option.getD_some]
  | node _ _ parts => (written_spellAll parts).single

theorem written_spellAll : (phrases : List Phrase) → Written phrases (spellAll phrases)
  | [] => .nil
  | phrase :: rest => (written_spell phrase).append (written_spellAll rest)

end

end Phrase

open Phrase

def Scalar.keyword : Scalar → String
  | int => "INT"
  | float => "FLOAT"
  | char => "CHAR"

/-- The kind of the tokens that stand for a value of the type. -/
def Scalar.literal : Scalar → String
  | int => "INT_LITERAL"
  | float => "FLOAT_LITERAL"
  | char => "CHAR_LITERAL"

def Scalar.alternative : Scalar → Nat
  | int => 0
  | float => 1
  | char => 2

def Scalar.phrase (type : Scalar) : Phrase :=
  .node "ScalarType" type.alternative [plain type.keyword]

def Operator.phrase {level : Level} : Operator level → Phrase
  | plus => .node "AddOp" 0 [plain "PLUS"]
  | minus => .node "AddOp" 1 [plain "MINUS"]
  | times => .node "MulOp" 0 [plain "STAR"]
  | divided => .node "MulOp" 1 [plain "SLASH"]

def Category.nonterminal : Category → String
  | chain .sum => "Expression"
  | chain .product => "Term"
  | tail .sum => "ExpressionTail"
  | tail .product => "TermTail"
  | factor => "Factor"

def callPhrase (name : String) : Phrase :=
  .node "Call" 0 [plain "CALL", spelled "ID" name, plain "LPAREN", plain "RPAREN"]

/-- What stands between brackets after a name, if anything does. -/
def indexPhrase : Option Phrase → Phrase
  | some index => .node "IndexSuffix" 0 [plain "LBRACKET", index, plain "RBRACKET"]
  | none => .node "IndexSuffix" 1 []

def Expr.phrase : {category : Category} → Expr category → Phrase
  | _, @chain level operand rest =>
    .node (Category.chain level).nonterminal 0 [operand.phrase, rest.phrase]
  | _, @done level => .node (Category.tail level).nonterminal 1 []
  | _, @more level operator operand rest =>
    .node (Category.tail level).nonterminal 0 [operator.phrase, operand.phrase, rest.phrase]
  | _, .name x => .node "Factor" 0 [.node "Variable" 0 [spelled "ID" x, indexPhrase none]]
  | _, .element x index =>
    .node "Factor" 0 [.node "Variable" 0 [spelled "ID" x, indexPhrase (some index.phrase)]]
  | _, .literal kind => .node "Factor" 1 [.node "Literal" kind.alternative [plain kind.literal]]
  | _, .group inner => .node "Factor" 2 [plain "LPAREN", inner.phrase, plain "RPAREN"]
  | _, .call x => .node "Factor" 3 [callPhrase x]

def TypeSpec.phrase : TypeSpec → Phrase
  | scalar type => .node "TypeSpec" 0 [type.phrase]
  | array size element =>
    .node "TypeSpec" 1 [plain "ARRAY", plain "LBRACKET", spelled "INT_LITERAL" size,
      plain "RBRACKET", element.phrase]

def initialPhrase : Option Expression → Phrase
  | some value => .node "Initializer" 0 [plain "ARROW", value.phrase]
  | none => .node "Initializer" 1 []

def Declaration.phrase (declared : Declaration) : Phrase :=
  .node "Declaration" 0 [declared.spec.phrase, spelled "ID" declared.name,
    initialPhrase declared.initial, plain "SEMICOLON"]

def valuePhrase : Option Expression → Phrase
  | some value => .node "ReturnValue" 0 [value.phrase]
  | none => .node "ReturnValue" 1 []

def Statement.phrase : Statement → Phrase
  | declaration declared => .node "Statement" 0 [declared.phrase]
  | assignment name index value =>
    .node "Statement" 1 [.node "Assignment" 0 [spelled "ID" name,
      indexPhrase (index.map Expr.phrase), plain "ARROW", value.phrase, plain "SEMICOLON"]]
  | returning value =>
    .node "Statement" 2 [.node "Return" 0 [plain "RETURN", valuePhrase value, plain "SEMICOLON"]]
  | call name => .node "Statement" 3 [.node "CallStatement" 0 [callPhrase name, plain "SEMICOLON"]]

/-- The phrase of a list, which takes its first element and then the rest. -/
def listPhrase (name : String) : List Phrase → Phrase
  | [] => .node name 1 []
  | first :: rest => .node name 0 [first, listPhrase name rest]

def blockPhrase (body : List Statement) : Phrase :=
  .node "Block" 0 [plain "LBRACE", listPhrase "StatementList" (body.map Statement.phrase),
    plain "RBRACE"]

def returnPhrase : Option Scalar → Phrase
  | some type => .node "ReturnType" 0 [type.phrase]
  | none => .node "ReturnType" 1 [plain "VOID"]

def Item.phrase : Item → Phrase
  | declaration declared => .node "Top" 0 [declared.phrase]
  | function returns name body =>
    .node "Top" 1 [.node "FunctionDefinition" 0 [plain "FUNC", returnPhrase returns,
      spelled "ID" name, plain "LPAREN", plain "RPAREN", blockPhrase body]]
  | main body =>
    .node "Top" 2 [.node "MainDefinition" 0 [plain "MAIN", plain "LPAREN", plain "RPAREN",
      blockPhrase body]]

section Roots

@[simp] theorem Category.nonterminal_expression :
    (Category.chain .sum).nonterminal = "Expression" := rfl

@[simp] theorem nonterminal?_indexPhrase (index : Option Phrase) :
    (indexPhrase index).nonterminal? = some "IndexSuffix" := by
  cases index <;> rfl

@[simp] theorem Expr.nonterminal?_phrase {category : Category} (e : Expr category) :
    e.phrase.nonterminal? = some category.nonterminal := by
  cases e <;> rfl

@[simp] theorem Scalar.kind?_phrase (type : Scalar) : type.phrase.kind? = none := rfl

@[simp] theorem TypeSpec.nonterminal?_phrase (spec : TypeSpec) :
    spec.phrase.nonterminal? = some "TypeSpec" := by
  cases spec <;> rfl

@[simp] theorem TypeSpec.kind?_phrase (spec : TypeSpec) : spec.phrase.kind? = none := by
  cases spec <;> rfl

@[simp] theorem nonterminal?_initialPhrase (initial : Option Expression) :
    (initialPhrase initial).nonterminal? = some "Initializer" := by
  cases initial <;> rfl

@[simp] theorem nonterminal?_valuePhrase (value : Option Expression) :
    (valuePhrase value).nonterminal? = some "ReturnValue" := by
  cases value <;> rfl

@[simp] theorem nonterminal?_returnPhrase (returns : Option Scalar) :
    (returnPhrase returns).nonterminal? = some "ReturnType" := by
  cases returns <;> rfl

@[simp] theorem kind?_returnPhrase (returns : Option Scalar) :
    (returnPhrase returns).kind? = none := by
  cases returns <;> rfl

end Roots

def Program.phrase (program : Program) : Phrase :=
  .node "Program" 0 [listPhrase "TopList" (program.map Item.phrase)]

/-- The program is written in these tokens. -/
def Program.WrittenAs (program : Program) (tokens : List Token) : Prop :=
  Written [program.phrase] tokens

theorem Program.writtenAs_spell (program : Program) : program.WrittenAs (spell program.phrase) :=
  written_spell program.phrase

end TopDown.Toy
