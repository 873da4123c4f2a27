import TopDown.Bnf.Word
import TopDown.Files
import TopDown.Grammar
import TopDown.Location

/-!
Grammars from BNF text. A line that is neither blank nor a comment is a rule line: a bare name, an
equals sign, and the alternatives with bars between them. Malformed lines are all reported, one
error each. If there are none, the rule lines are checked together: a bare name in an alternative
needs a rule line, and no name may have two. Only then is the grammar built.
-/
namespace TopDown.Bnf

inductive LoadError where
  | missingEquals
  | unexpectedEquals
  | missingNonterminal
  | unmatchedQuote
  | undefinedNonterminal (name : String)
  | repeatedRule (name : String)
  | grammar (error : GrammarError)
  | file (error : FileError)
deriving DecidableEq, Repr

namespace LoadError

def message : LoadError → String
  | missingEquals => "Expected `=` after nonterminal"
  | unexpectedEquals => "Unexpected `=` encountered"
  | missingNonterminal => "Tried to define something other than a nonterminal"
  | unmatchedQuote => "Unmatched quotes"
  | undefinedNonterminal name => "Could not find definition for `" ++ name ++ "`"
  | repeatedRule name => "`" ++ name ++ "` is already defined"
  | grammar error => error.message
  | file error => "File error: " ++ error.message

instance : Explained LoadError := ⟨message⟩

/-- Errors of reading the file are compared by their kinds. -/
def same : LoadError → LoadError → Bool
  | file a, file b => a.same b
  | a, b => a = b

end LoadError

abbrev LoadErrors := List (Located LoadError)

/-- Puts a symbol at the head of the first alternative. -/
def prepend (symbol : Symbol) : List Body → List Body
  | [] => [[symbol]]
  | body :: rest => (symbol :: body) :: rest

/-- The alternatives between the bars; there is always at least one, possibly without symbols. -/
def alternatives : List Word → Except LoadError (List Body)
  | [] => .ok [[]]
  | .equals :: _ => .error .unexpectedEquals
  | .bar :: rest => (alternatives rest).map ([] :: ·)
  | .epsilon :: rest => (alternatives rest).map (prepend .epsilon)
  | .name text :: rest => (alternatives rest).map (prepend (.nonterminal (String.ofList text)))
  | .quoted text :: rest => (alternatives rest).map (prepend (.terminal (String.ofList text)))

def ruleOfWords : List Word → Except LoadError Rule
  | .name text :: .equals :: rest => do
    return ⟨String.ofList text, ← alternatives rest⟩
  | .name _ :: _ => .error .missingEquals
  | _ => .error .missingNonterminal

def readRule (line : List Char) : Except LoadError Rule :=
  match words line with
  | none => .error .unmatchedQuote
  | some words => ruleOfWords words

def isRuleLine (line : List Char) : Bool :=
  match Text.trimLeft line with
  | [] => false
  | c :: _ => c ≠ ';'

/-- A rule with the number of its line. -/
structure RuleLine where
  rule : Rule
  line : Nat
deriving DecidableEq, Repr

/-- The rules of the lines if all are well-formed, else all errors. -/
def readRules (path : String) : List (List Char × Nat) → Except LoadErrors (List RuleLine)
  | [] => .ok []
  | (line, number) :: rest =>
    match readRule line, readRules path rest with
    | .ok rule, .ok rules => .ok (⟨rule, number⟩ :: rules)
    | .ok _, .error errors => .error errors
    | .error e, .ok _ => .error [⟨e, .inFile path number⟩]
    | .error e, .error errors => .error (⟨e, .inFile path number⟩ :: errors)

/-- The bare names of a rule's alternatives. -/
def references (rule : Rule) : List String :=
  rule.alternatives.flatten.filterMap fun
    | .nonterminal name => some name
    | _ => none

/-- The names of a rule line that no line defines, each of them once. -/
def undefinedReferences (path : String) (defined : List String) (rules : List RuleLine) :
    LoadErrors :=
  rules.flatMap fun line =>
    ((references line.rule).filter (· ∉ defined)).eraseDups.map fun name =>
      ⟨.undefinedNonterminal name, .inFile path line.line⟩

/-- The lines whose name has been seen before. -/
def repeatedRules (path : String) : List String → List RuleLine → LoadErrors
  | _, [] => []
  | seen, line :: rest =>
    let later := repeatedRules path (line.rule.name :: seen) rest
    if line.rule.name ∈ seen then ⟨.repeatedRule line.rule.name, .inFile path line.line⟩ :: later
    else later

/-- All names without a line and all repeated ones, sorted by their lines. -/
def check (path : String) (rules : List RuleLine) : LoadErrors :=
  let defined := rules.map (·.rule.name)
  (undefinedReferences path defined rules ++ repeatedRules path [] rules).mergeSort
    fun a b => a.location.line ≤ b.location.line

def build (path : String) (start : Option String) (rules : List RuleLine) :
    Except LoadErrors Grammar :=
  match check path rules with
  | [] =>
    let start := (start.or (rules.head?.map (·.rule.name))).getD ""
    match Grammar.ofRules start (rules.map RuleLine.rule) with
    | .ok g => .ok g
    | .error e => .error [⟨.grammar e, .inFile path 0⟩]
  | errors => .error errors

/-- Loads a grammar; `path` labels the errors, and without a start symbol the first rule's name is
the start symbol. -/
def load (path : String) (start : Option String) (text : String) : Except LoadErrors Grammar :=
  match readRules path (((Text.lines text.toList).zipIdx 1).filter fun (line, _) => isRuleLine line)
  with
  | .ok rules => build path start rules
  | .error errors => .error errors

def loadFile (path : String) (start : Option String) (content : Except FileError String) :
    Except LoadErrors Grammar :=
  match content with
  | .ok text => load path start text
  | .error e => .error [⟨.file e, .inFile path 0⟩]

/-- The same grammar, or the same errors at the same places. -/
def agree : Except LoadErrors Grammar → Except LoadErrors Grammar → Bool
  | .ok a, .ok b => a = b
  | .error as, .error bs => Located.agree LoadError.same as bs
  | _, _ => false

end TopDown.Bnf
