import TopDown.Fixpoint
import TopDown.Grammar
import TopDown.NameMap

/-!
Least heights of derivation trees. A production without nonterminals makes a tree of height one, any
other one more than its highest child. The heights are found by passes over the nonterminals in
order, each seeing what the pass has found so far; a nonterminal that ends up without a height
derives no word of terminals.
-/
namespace TopDown

abbrev Heights := NameMap Nat

/-- The height a body gives its production; none while one of its nonterminals has no height. -/
def Heights.ofBody (heights : Heights) (body : Body) : Option Nat :=
  go 0 body
where
  /-- `deepest` is the greatest height met so far. -/
  go (deepest : Nat) : Body → Option Nat
    | [] => some (deepest + 1)
    | .nonterminal name :: rest =>
      match heights.get? name with
      | some height => go (max deepest height) rest
      | none => none
    | _ :: rest => go deepest rest

namespace Height

/-- The least of the heights that the alternatives have so far. -/
def best (heights : Heights) (rule : Rule) : Option Nat :=
  (rule.alternatives.filterMap heights.ofBody).min?

/-- Takes the rule's best height if it is news or lower than what was known. -/
def improve (heights : Heights) (rule : Rule) : Heights :=
  match best heights rule with
  | none => heights
  | some height =>
    match heights.get? rule.name with
    | none => heights.insert rule.name height
    | some known => if height < known then heights.insert rule.name height else heights

def pass (g : Grammar) (heights : Heights) : Heights := g.rules.foldl improve heights

/-- A nonterminal of least height `h` has that height after `h` passes, and no least height exceeds
the number of nonterminals. -/
def passBound (g : Grammar) : Nat := g.rules.length + 1

end Height

namespace Grammar

/-- The least heights, with the passes it took to find them. -/
def heightsSettled (g : Grammar) : Settled Heights :=
  settle (Height.pass g) (Height.passBound g) .empty

def heights (g : Grammar) : Heights := g.heightsSettled.value

/-- The nonterminals that derive no word of terminals, in the order of their rules. -/
def unproductive (g : Grammar) : List String :=
  g.nonterminals.filter fun name => !g.heights.contains name

end Grammar

end TopDown
