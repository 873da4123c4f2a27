import TopDown.Grammar

/-!
What a grammar derives. A sentential form is a list of terminals and nonterminals; a step replaces
one nonterminal by the symbols of one of its productions, the empty word leaving nothing behind. A
derivation tree records the production that each node uses and has a child for each symbol that is
not the empty word; its leaves from left to right are the word it derives.
-/
namespace TopDown

namespace Grammar

/-- One step, at any nonterminal of the form. -/
inductive Step (g : Grammar) : List Symbol → List Symbol → Prop where
  | expand (left right : List Symbol) (p : Production) (hp : p ∈ g.productions) :
      Step g (left ++ .nonterminal p.lhs :: right) (left ++ p.visible ++ right)

/-- One step, at the leftmost nonterminal of the form. -/
inductive LeftStep (g : Grammar) : List Symbol → List Symbol → Prop where
  | expand (word : List String) (right : List Symbol) (p : Production) (hp : p ∈ g.productions) :
      LeftStep g (word.map Symbol.terminal ++ .nonterminal p.lhs :: right)
        (word.map Symbol.terminal ++ p.visible ++ right)

end Grammar

/-- Any number of steps of a relation. -/
inductive Steps {α : Type} (step : α → α → Prop) : α → α → Prop where
  | refl (a : α) : Steps step a a
  | head {a b c : α} (first : step a b) (rest : Steps step b c) : Steps step a c

namespace Steps

variable {α : Type} {step : α → α → Prop}

theorem single {a b : α} (h : step a b) : Steps step a b := .head h (.refl b)

theorem trans {a b c : α} (hab : Steps step a b) (hbc : Steps step b c) : Steps step a c := by
  induction hab with
  | refl _ => exact hbc
  | head first _ ih => exact .head first (ih hbc)

end Steps

/-- The form derives the other one. -/
def Grammar.Derives (g : Grammar) : List Symbol → List Symbol → Prop := Steps g.Step

/-- The form derives the other one, always at the leftmost nonterminal. -/
def Grammar.LeftDerives (g : Grammar) : List Symbol → List Symbol → Prop := Steps g.LeftStep

/-- The word of terminals is a sentence of the nonterminal. -/
def Grammar.Generates (g : Grammar) (nonterminal : String) (word : List String) : Prop :=
  g.Derives [.nonterminal nonterminal] (word.map Symbol.terminal)

inductive Derivation where
  | leaf (terminal : String)
  | node (production : Production) (children : List Derivation)
deriving Repr, Inhabited

namespace Derivation

/-- The symbol at the root. -/
def label : Derivation → Symbol
  | leaf terminal => .terminal terminal
  | node p _ => .nonterminal p.lhs

mutual

/-- The terminals at the leaves from left to right. -/
def word : Derivation → List String
  | leaf terminal => [terminal]
  | node _ children => words children

def words : List Derivation → List String
  | [] => []
  | tree :: rest => word tree ++ words rest

end

mutual

/-- How many productions the longest way down from the root uses. -/
def height : Derivation → Nat
  | leaf _ => 0
  | node _ children => heights children + 1

def heights : List Derivation → Nat
  | [] => 0
  | tree :: rest => max (height tree) (heights rest)

end

/-- Every node uses a production of the grammar, and its children stand for the body's symbols. -/
inductive Valid (g : Grammar) : Derivation → Prop where
  | leaf (terminal : String) : Valid g (.leaf terminal)
  | node (p : Production) (children : List Derivation) (hp : p ∈ g.productions)
      (labels : children.map label = p.visible) (valid : ∀ child ∈ children, Valid g child) :
      Valid g (.node p children)

end Derivation

end TopDown
