import Mathlib.Data.List.Pairwise
import TopDown.Proofs.Bnf.RuleLines
import TopDown.Proofs.FirstOfSequences
import TopDown.Proofs.TableCells
import TopDown.Toy.Language

/-!
Why a grammar is predictive. Families of sets that are closed under the rules of FIRST and FOLLOW
lie above the sets of the grammar; if they keep the productions of each nonterminal apart, so do
those sets, and the grammar has a table. The sets of token kinds below do it for the toy language,
whose own sets need not be computed for that. The text of its grammar loads as the grammar.
-/
namespace TopDown

/-- Sets that hold what the rules put into them: in the first family what the bodies can begin with,
in the second what follows. No lookahead predicts two productions of one nonterminal by them. -/
structure Grammar.Separates (g : Grammar) (first follow : SetFamily) : Prop where
  body : ∀ p ∈ g.productions, ∀ l ∈ (firstOf first p.body).toList, l ∈ first.membersOf p.lhs
  start : .endOfInput ∈ follow.membersOf g.start
  after : ∀ o ∈ g.occurrences, ∀ l ∈ (Follow.after first follow o).toList,
    l ∈ follow.membersOf o.name
  apart : ∀ rule ∈ g.rules, rule.productions.Pairwise fun p q =>
    ∀ l ∈ p.predictedBy first follow, l ∉ q.predictedBy first follow

namespace Grammar.Separates

variable {g : Grammar} {first follow : SetFamily} {p q : Production} {l : Lookahead}

theorem first_within (h : g.Separates first follow) : g.first.Within first := by
  rw [first_eq_settle]
  refine SetFamily.settle_within (fun name l => l ∈ first.membersOf name) (First.passBound g) ?_ ?_
  · intro sets hsets p hp l hl
    exact h.body p hp l (mem_firstOf_of_within hsets hl)
  · intro name l hl
    exact absurd hl (SetFamily.mem_membersOf_constant_empty _ name l)

theorem follow_within (h : g.Separates first follow) :
    (g.follow g.first g.start).Within follow := by
  rw [follow_eq_settle]
  refine SetFamily.settle_within (fun name l => l ∈ follow.membersOf name)
    (Follow.passBound g g.first) ?_ ?_
  · intro sets hsets o ho l hl
    refine h.after o ho l (mem_after_iff.mpr ?_)
    rcases mem_after_iff.mp hl with ⟨hrest, hne⟩ | ⟨hepsilon, howned⟩
    · exact Or.inl ⟨mem_firstOf_of_within h.first_within hrest, hne⟩
    · exact Or.inr ⟨mem_firstOf_of_within h.first_within hepsilon, hsets o.owner l howned⟩
  · intro name l hl
    obtain ⟨rfl, _, rfl⟩ := mem_membersOf_initial_iff.mp hl
    exact h.start

theorem mem_predictedBy (h : g.Separates first follow)
    (hl : l ∈ p.predictedBy g.first (g.follow g.first g.start)) :
    l ∈ p.predictedBy first follow := by
  rw [Production.mem_predictedBy_iff] at hl ⊢
  rcases hl with ⟨hbody, hne⟩ | ⟨hepsilon, hfollow⟩
  · exact Or.inl ⟨mem_firstOf_of_within h.first_within hbody, hne⟩
  · exact Or.inr ⟨mem_firstOf_of_within h.first_within hepsilon, h.follow_within p.lhs l hfollow⟩

theorem eq_of_predictedBy (h : g.Separates first follow) (hp : p ∈ g.productions)
    (hq : q ∈ g.productions) (hlhs : p.lhs = q.lhs) (hl : l ∈ p.predictedBy first follow)
    (hl' : l ∈ q.predictedBy first follow) : p = q := by
  obtain ⟨rule, hrule, hprule⟩ := mem_productions_iff.mp hp
  have hqrule : q ∈ rule.productions := by
    rw [← productionsOf_name hrule, mem_productionsOf_iff, ← hlhs]
    exact ⟨hq, lhs_of_mem_rule hprule⟩
  have hsymm : Std.Symm fun p q : Production =>
      ∀ l ∈ p.predictedBy first follow, l ∉ q.predictedBy first follow :=
    ⟨fun _ _ hpq l hl hl' => hpq l hl' hl⟩
  by_contra hne
  exact (h.apart rule hrule).forall hprule hqrule hne l hl hl'

/-- Sets that are too large, but not so large as to mix up the productions, give a table. -/
theorem exists_table (h : g.Separates first follow) : ∃ table, g.table = .ok table := by
  refine exists_tableFor_iff.mpr fun p hp q hq hlhs l hl hl' => ?_
  exact h.eq_of_predictedBy hp hq hlhs (h.mem_predictedBy hl) (h.mem_predictedBy hl')

end Grammar.Separates

namespace Toy

/-- The same set for all names of a group. -/
def grouped (groups : List (List String × LookaheadSet)) : SetFamily :=
  ⟨groups.flatMap fun (names, set) => names.map fun name => (name, set)⟩

def oneOf (kinds : List String) : LookaheadSet := .ofList (kinds.map .terminal)

/-- One of the kinds, or nothing at all. -/
def noneOr (kinds : List String) : LookaheadSet := (oneOf kinds).insert .epsilon

/-- One of the kinds, or the end of the input. -/
def endOr (kinds : List String) : LookaheadSet := (oneOf kinds).insert .endOfInput

def typeKinds : List String := ["INT", "FLOAT", "CHAR"]

def itemKinds : List String := ["FUNC", "MAIN", "ARRAY"] ++ typeKinds

def statementKinds : List String := ["ID", "RETURN", "CALL", "ARRAY"] ++ typeKinds

def literalKinds : List String := ["INT_LITERAL", "FLOAT_LITERAL", "CHAR_LITERAL"]

def operandKinds : List String := ["ID", "CALL", "LPAREN"] ++ literalKinds

/-- The kinds that phrases begin with. -/
def firstKinds : SetFamily := grouped
  [(["Program", "TopList"], noneOr itemKinds), (["Top"], oneOf itemKinds),
    (["Declaration", "TypeSpec"], oneOf ("ARRAY" :: typeKinds)),
    (["ScalarType"], oneOf typeKinds), (["ReturnType"], oneOf ("VOID" :: typeKinds)),
    (["Initializer"], noneOr ["ARROW"]), (["FunctionDefinition"], oneOf ["FUNC"]),
    (["MainDefinition"], oneOf ["MAIN"]), (["Block"], oneOf ["LBRACE"]),
    (["StatementList"], noneOr statementKinds), (["Statement"], oneOf statementKinds),
    (["Assignment", "Variable"], oneOf ["ID"]), (["Return"], oneOf ["RETURN"]),
    (["CallStatement", "Call"], oneOf ["CALL"]), (["IndexSuffix"], noneOr ["LBRACKET"]),
    (["ReturnValue"], noneOr operandKinds), (["Expression", "Term", "Factor"], oneOf operandKinds),
    (["ExpressionTail"], noneOr ["PLUS", "MINUS"]), (["AddOp"], oneOf ["PLUS", "MINUS"]),
    (["TermTail"], noneOr ["STAR", "SLASH"]), (["MulOp"], oneOf ["STAR", "SLASH"]),
    (["Literal"], oneOf literalKinds)]

def afterExpression : List String := ["SEMICOLON", "RBRACKET", "RPAREN"]

def afterTerm : List String := ["PLUS", "MINUS"] ++ afterExpression

def afterFactor : List String := ["STAR", "SLASH"] ++ afterTerm

/-- The kinds that come after phrases. -/
def followKinds : SetFamily := grouped
  [(["Program", "TopList"], endOr []),
    (["Top", "FunctionDefinition", "MainDefinition", "Block"], endOr itemKinds),
    (["Declaration"], endOr ("RBRACE" :: itemKinds ++ statementKinds)),
    (["TypeSpec", "ScalarType", "ReturnType"], oneOf ["ID"]),
    (["Initializer", "ReturnValue"], oneOf ["SEMICOLON"]),
    (["StatementList"], oneOf ["RBRACE"]),
    (["Statement", "Assignment", "Return", "CallStatement"], oneOf ("RBRACE" :: statementKinds)),
    (["Expression", "ExpressionTail"], oneOf afterExpression),
    (["Term", "TermTail"], oneOf afterTerm),
    (["Factor", "Variable", "Literal", "Call"], oneOf afterFactor),
    (["IndexSuffix"], oneOf ("ARROW" :: afterFactor)), (["AddOp", "MulOp"], oneOf operandKinds)]

theorem separates_kinds : grammar.Separates firstKinds followKinds where
  body := by decide +kernel
  start := by decide +kernel
  after := by decide +kernel
  apart := by decide +kernel

/-- The grammar of the toy language is predictive. -/
theorem exists_table : ∃ table, grammar.table = .ok table := separates_kinds.exists_table

/-- The rules are those that are read from the lines of the text. -/
theorem readRules_source :
    (Bnf.readRules "grammars/lang.bnf" (Bnf.ruleLines source)).toOption.map
      (·.map Bnf.RuleLine.rule) = some rules := by
  rw [Bnf.ruleLines, source, String.toList_ofList]
  decide +kernel

/-- The grammar is the one that is loaded from its text. -/
theorem load_source :
    Bnf.load "grammars/lang.bnf" (some "Program") source = .ok grammar := by
  have hsource := readRules_source
  cases hread : Bnf.readRules "grammars/lang.bnf" (Bnf.ruleLines source) with
  | ok lines =>
    rw [hread] at hsource
    have hrules : lines.map Bnf.RuleLine.rule = grammar.rules := Option.some.inj hsource
    rw [Bnf.load_of_readRules hread]
    exact Bnf.build_of_rules hrules rfl "grammars/lang.bnf"
  | error errors =>
    rw [hread] at hsource
    cases hsource

end Toy

end TopDown
