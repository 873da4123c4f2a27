import TopDown.First

/-!
FOLLOW sets: the terminals that can stand right after a nonterminal, and the end of the input if
nothing need stand there. They depend on a family of FIRST sets and on the symbol where derivations
start, and are found by passes like the FIRST sets.
-/
namespace TopDown

/-- A place where a nonterminal stands in the body of a production. -/
structure Occurrence where
  owner : String
  name : String
  rest : List Symbol
deriving DecidableEq, Repr

/-- The nonterminals of a body from left to right. -/
def Occurrence.among (owner : String) : List Symbol → List Occurrence
  | [] => []
  | .nonterminal name :: rest => ⟨owner, name, rest⟩ :: among owner rest
  | _ :: rest => among owner rest

def Grammar.occurrences (g : Grammar) : List Occurrence :=
  g.productions.flatMap fun p => Occurrence.among p.lhs p.body

namespace Follow

/-- What an occurrence is followed by: what the rest of the body can begin with, and if the rest can
vanish also what follows the owner. -/
def after (first follow : SetFamily) (o : Occurrence) : LookaheadSet :=
  let rest := firstOf first o.rest
  if .epsilon ∈ rest then rest.erase .epsilon ∪ follow.membersOf o.owner else rest

def absorb (first follow : SetFamily) (o : Occurrence) : SetFamily :=
  follow.modify o.name fun set => after first follow o ∪ set

def pass (g : Grammar) (first follow : SetFamily) : SetFamily :=
  g.occurrences.foldl (absorb first) follow

/-- Only the start symbol is followed by the end of the input at first. -/
def initial (g : Grammar) (start : String) : SetFamily :=
  (NameMap.constant g.nonterminals ∅).modify start (.insert .endOfInput)

/-- Members come from the FIRST sets, the terminals and the end of the input. -/
def passBound (g : Grammar) (first : SetFamily) : Nat :=
  g.nonterminals.length * (first.size + g.terminals.length + 1) + 1

end Follow

/-- The FOLLOW sets of a grammar, with the passes it took to find them. -/
def Grammar.followSettled (g : Grammar) (first : SetFamily) (start : String) : Settled SetFamily :=
  settle (Follow.pass g first) (Follow.passBound g first) (Follow.initial g start)

def Grammar.follow (g : Grammar) (first : SetFamily) (start : String) : SetFamily :=
  (g.followSettled first start).value

end TopDown
