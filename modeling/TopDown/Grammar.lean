import TopDown.Lookahead

/-!
Context-free grammars. A rule gives a nonterminal its alternatives in order; a production is one
alternative together with the nonterminal it belongs to and its place among the alternatives. In a
grammar no two rules share a name, the start symbol has a rule, and every nonterminal in a body has
one: building a grammar turns names without a rule into terminals.
-/
namespace TopDown

inductive Symbol where
  | terminal (name : String)
  | nonterminal (name : String)
  | epsilon
deriving DecidableEq, Repr, Inhabited

namespace Symbol

def render : Symbol → String
  | terminal name => "\"" ++ name ++ "\""
  | nonterminal name => name
  | epsilon => "ε"

/-- The symbol among rules for the given names: a nonterminal without a rule is a terminal. -/
def settleAmong (names : List String) : Symbol → Symbol
  | nonterminal name => if name ∈ names then nonterminal name else terminal name
  | other => other

/-- The symbol needs no rule, or has one. -/
def hasRuleAmong (names : List String) : Symbol → Bool
  | nonterminal name => name ∈ names
  | _ => true

theorem hasRuleAmong_settleAmong (names : List String) (symbol : Symbol) :
    (symbol.settleAmong names).hasRuleAmong names = true := by
  cases symbol with
  | terminal t => rfl
  | epsilon => rfl
  | nonterminal n => by_cases h : n ∈ names <;> simp [settleAmong, hasRuleAmong, h]

/-- A written name: the empty name and `ε` are the empty word. -/
def ofName (name : String) : Symbol :=
  if name = "" ∨ name = "ε" then epsilon else nonterminal name

end Symbol

abbrev Body := List Symbol

structure Production where
  lhs : String
  index : Nat
  body : Body
deriving DecidableEq, Repr, Inhabited

namespace Production

/-- The body vanishes by itself. -/
def isEpsilon (p : Production) : Bool := p.body.all (· = .epsilon)

/-- The body without the symbols that stand for the empty word. -/
def visible (p : Production) : Body := p.body.filter (· ≠ .epsilon)

def render (p : Production) : String :=
  p.lhs ++ " =" ++
    if p.body = [] then " ε" else String.join (p.body.map fun symbol => " " ++ symbol.render)

end Production

structure Rule where
  name : String
  alternatives : List Body
deriving DecidableEq, Repr, Inhabited

namespace Rule

def productions (rule : Rule) : List Production :=
  rule.alternatives.zipIdx.map fun (body, index) => ⟨rule.name, index, body⟩

def settleAmong (names : List String) (rule : Rule) : Rule :=
  ⟨rule.name, rule.alternatives.map fun body => body.map (Symbol.settleAmong names)⟩

end Rule

inductive GrammarError where
  | noRules
  | undefinedStart (name : String)
  | repeatedNonterminal (name : String)
deriving DecidableEq, Repr

def GrammarError.message : GrammarError → String
  | noRules => "Grammar has no rules"
  | undefinedStart name => "Start symbol `" ++ name ++ "` has no rule"
  | repeatedNonterminal name => "Nonterminal `" ++ name ++ "` is defined more than once"

structure Grammar where
  start : String
  rules : List Rule
  distinct : (rules.map Rule.name).Nodup
  start_defined : start ∈ rules.map Rule.name
  closed : ∀ rule ∈ rules, ∀ body ∈ rule.alternatives, ∀ symbol ∈ body,
    symbol.hasRuleAmong (rules.map Rule.name) = true
deriving DecidableEq

namespace Grammar

/-- The first name that an earlier one equals, those in `seen` counting as earlier. -/
def firstRepeat (seen : List String) : List String → Option String
  | [] => none
  | name :: rest => if name ∈ seen then some name else firstRepeat (name :: seen) rest

theorem firstRepeat_eq_none_iff {seen names : List String} :
    firstRepeat seen names = none ↔ names.Nodup ∧ ∀ name ∈ names, name ∉ seen := by
  induction names generalizing seen with
  | nil => simp [firstRepeat]
  | cons name rest ih =>
    simp only [firstRepeat]
    split
    · simp_all
    · rw [ih]
      simp only [List.nodup_cons, List.mem_cons]
      grind

theorem names_settleAmong (names : List String) (rules : List Rule) :
    (rules.map (Rule.settleAmong names)).map Rule.name = rules.map Rule.name := by
  simp [Rule.settleAmong, Function.comp_def]

theorem closed_settleAmong (names : List String) (rules : List Rule) :
    ∀ rule ∈ rules.map (Rule.settleAmong names), ∀ body ∈ rule.alternatives, ∀ symbol ∈ body,
      symbol.hasRuleAmong names = true := by
  intro rule hrule body hbody symbol hsymbol
  obtain ⟨rule, _, rfl⟩ := List.mem_map.1 hrule
  obtain ⟨body, _, rfl⟩ := List.mem_map.1 hbody
  obtain ⟨symbol, _, rfl⟩ := List.mem_map.1 hsymbol
  exact Symbol.hasRuleAmong_settleAmong names symbol

/-- The grammar of the rules. Of several faults the first counts: no rule at all, a repeated name, a
start symbol without a rule. -/
def ofRules (start : String) (rules : List Rule) : Except GrammarError Grammar :=
  if rules = [] then .error .noRules
  else
    match h : firstRepeat [] (rules.map Rule.name) with
    | some name => .error (.repeatedNonterminal name)
    | none =>
      if hs : start ∈ rules.map Rule.name then
        .ok
          { start
            rules := rules.map (Rule.settleAmong (rules.map Rule.name))
            distinct := by
              rw [names_settleAmong]
              exact (firstRepeat_eq_none_iff.1 h).1
            start_defined := by rwa [names_settleAmong]
            closed := by
              rw [names_settleAmong]
              exact closed_settleAmong _ rules }
      else .error (.undefinedStart start)

/-- The grammar of rules written with plain names: a name is a nonterminal if it has a rule. -/
def ofNames (start : String) (rules : List (String × List (List String))) :
    Except GrammarError Grammar :=
  ofRules start (rules.map fun (name, alternatives) =>
    ⟨name, alternatives.map fun body => body.map Symbol.ofName⟩)

/-- The nonterminals in the order of their rules. -/
def nonterminals (g : Grammar) : List String := g.rules.map Rule.name

def isNonterminal (g : Grammar) (name : String) : Bool := name ∈ g.nonterminals

/-- Every production, rule by rule. -/
def productions (g : Grammar) : List Production := g.rules.flatMap Rule.productions

/-- The productions of one nonterminal; none for a name without a rule. -/
def productionsOf (g : Grammar) (name : String) : List Production :=
  match g.rules.find? (·.name = name) with
  | some rule => rule.productions
  | none => []

/-- The terminals that occur in some body, by name. -/
def terminals (g : Grammar) : List String :=
  let lookaheads := (g.productions.flatMap Production.body).filterMap fun
    | .terminal name => some (Lookahead.terminal name)
    | _ => none
  (LookaheadSet.ofList lookaheads).toList.filterMap fun
    | .terminal name => some name
    | _ => none

/-- One production a line. -/
def render (g : Grammar) : String :=
  String.join (g.productions.map fun p => p.render ++ "\n")

end Grammar

end TopDown
