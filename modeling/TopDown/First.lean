import TopDown.Fixpoint
import TopDown.Grammar
import TopDown.NameMap

/-!
FIRST sets: the terminals a nonterminal can begin with, and the empty word if it can vanish. They
are found by passes over the productions, each production seeing what earlier ones of the same pass
have added, until a pass adds nothing.
-/
namespace TopDown

/-- A set of lookaheads for each nonterminal. -/
abbrev SetFamily := NameMap LookaheadSet

namespace SetFamily

/-- The set of a nonterminal, empty when the family has none for it. -/
def membersOf (sets : SetFamily) (name : String) : LookaheadSet := (sets.get? name).getD ∅

/-- How many members the sets have together. -/
def size (sets : SetFamily) : Nat := sets.entries.foldl (fun count entry => count + entry.2.size) 0

/-- One nonterminal a line, in the order of the rules, whether the family has a set for it or
not. -/
def render (g : Grammar) (sets : SetFamily) : String :=
  String.join (g.nonterminals.map fun name =>
    name ++ " = \x7b" ++ ", ".intercalate ((sets.membersOf name).toList.map Lookahead.render) ++
      "\x7d\n")

end SetFamily

/-- What a sequence of symbols can begin with. A symbol counts as long as all before it can vanish,
and the empty word is a member when the whole sequence can. Nothing follows a nonterminal without a
set. -/
def firstOf (first : SetFamily) : List Symbol → LookaheadSet
  | [] => .singleton .epsilon
  | .epsilon :: rest => firstOf first rest
  | .terminal name :: _ => .singleton (.terminal name)
  | .nonterminal name :: rest =>
    match first.get? name with
    | none => ∅
    | some set =>
      if .epsilon ∈ set then set.erase .epsilon ∪ firstOf first rest else set

namespace First

/-- Adds to the set of a production's nonterminal what its body can begin with. -/
def absorb (first : SetFamily) (p : Production) : SetFamily :=
  first.modify p.lhs fun set => firstOf first p.body ∪ set

def pass (g : Grammar) (first : SetFamily) : SetFamily := g.productions.foldl absorb first

/-- No set outgrows the terminals and the empty word, and every pass but the last adds a member. -/
def passBound (g : Grammar) : Nat := g.nonterminals.length * (g.terminals.length + 1) + 1

end First

/-- The FIRST sets of a grammar, with the passes it took to find them. -/
def Grammar.firstSettled (g : Grammar) : Settled SetFamily :=
  settle (First.pass g) (First.passBound g) (.constant g.nonterminals ∅)

def Grammar.first (g : Grammar) : SetFamily := g.firstSettled.value

end TopDown
