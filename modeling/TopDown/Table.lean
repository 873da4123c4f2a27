import TopDown.Follow

/-!
Predictive parse tables. A production claims a cell for each lookahead it is predicted by: the
lookaheads its body can begin with, and if the body can vanish those that can follow its
nonterminal. A table holds the cells in the order in which they were filled; a cell that two
productions claim is a conflict, and filling stops there.
-/
namespace TopDown

/-- A filled cell; its row is the nonterminal of its production. -/
structure Cell where
  lookahead : Lookahead
  production : Production
deriving DecidableEq, Repr

structure Conflict where
  nonterminal : String
  lookahead : Lookahead
  existing : Production
  incoming : Production
deriving DecidableEq, Repr

def Conflict.message (c : Conflict) : String :=
  "Grammar is not LL(1): cell [" ++ c.nonterminal ++ ", " ++ c.lookahead.render ++
    "] is claimed by `" ++ c.existing.render ++ "` and `" ++ c.incoming.render ++ "`"

structure Table where
  cells : List Cell
deriving DecidableEq, Repr, Inhabited

namespace Cell

def row (cell : Cell) : String := cell.production.lhs

/-- Rows by name, and within a row the order of lookaheads. -/
def notAfter (a b : Cell) : Bool :=
  Text.before a.row b.row || (a.row == b.row && !b.lookahead.before a.lookahead)

end Cell

namespace Table

def empty : Table := ⟨[]⟩

def get? (table : Table) (nonterminal : String) (lookahead : Lookahead) : Option Production :=
  (table.cells.find? fun cell => cell.row = nonterminal ∧ cell.lookahead = lookahead).map
    Cell.production

def size (table : Table) : Nat := table.cells.length

/-- The lookaheads of a row in order. -/
def expected (table : Table) (nonterminal : String) : List Lookahead :=
  (LookaheadSet.ofList
    ((table.cells.filter (·.row = nonterminal)).map Cell.lookahead)).toList

/-- Every cell, by row and lookahead. -/
def entries (table : Table) : List Cell := table.cells.mergeSort Cell.notAfter

/-- One cell a line. -/
def render (table : Table) : String :=
  String.join (table.entries.map fun cell =>
    "[" ++ cell.row ++ ", " ++ cell.lookahead.render ++ "] " ++ cell.production.render ++ "\n")

/-- A table filled as far as its claims allow. -/
structure Filling where
  table : Table
  conflict : Option Conflict
deriving DecidableEq, Repr

/-- Fills cells in the order of the claims. A cell may be claimed again by the production it
holds. -/
def fill (table : Table) : List Cell → Filling
  | [] => ⟨table, none⟩
  | claim :: rest =>
    match table.get? claim.row claim.lookahead with
    | none => fill ⟨table.cells ++ [claim]⟩ rest
    | some existing =>
      if existing = claim.production then fill table rest
      else ⟨table, some ⟨claim.row, claim.lookahead, existing, claim.production⟩⟩

end Table

/-- The lookaheads that predict a production, first those its body can begin with. -/
def Production.predictedBy (first follow : SetFamily) (p : Production) : List Lookahead :=
  let starts := firstOf first p.body
  (starts.erase .epsilon).toList ++
    if .epsilon ∈ starts then (follow.membersOf p.lhs).toList else []

namespace Grammar

def claims (g : Grammar) (first follow : SetFamily) : List Cell :=
  g.productions.flatMap fun p => (p.predictedBy first follow).map fun l => ⟨l, p⟩

def filling (g : Grammar) (first follow : SetFamily) : Table.Filling :=
  Table.fill .empty (g.claims first follow)

/-- The parse table for given FIRST and FOLLOW sets, or the first conflict. -/
def tableFor (g : Grammar) (first follow : SetFamily) : Except Conflict Table :=
  match g.filling first follow with
  | ⟨table, none⟩ => .ok table
  | ⟨_, some conflict⟩ => .error conflict

/-- The parse table for the grammar's own FIRST and FOLLOW sets. -/
def table (g : Grammar) : Except Conflict Table :=
  g.tableFor g.first (g.follow g.first g.start)

end Grammar

end TopDown
