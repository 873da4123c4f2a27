import TopDown.Proofs.Sorting
import TopDown.Proofs.TableCells

/-!
A table as a list of its cells. Filling never gives a second cell to a row and lookahead that have
one, so the entries are the filled cells, each of them once, in strictly ascending order; what a row
expects is read off them.
-/
namespace TopDown

namespace Cell

/-- Rows come by name, and within a row the lookaheads in their order. -/
def Before (a b : Cell) : Prop :=
  Text.before a.row b.row = true ∨ (a.row = b.row ∧ a.lookahead < b.lookahead)

/-- Two cells of different rows or lookaheads. -/
def Apart (a b : Cell) : Prop := ¬(a.row = b.row ∧ a.lookahead = b.lookahead)

instance : Std.Symm Apart := ⟨fun _ _ hab hba => hab ⟨hba.1.symm, hba.2.symm⟩⟩

/-- The row and the lookahead of a cell. -/
def key (cell : Cell) : String × Lookahead := (cell.row, cell.lookahead)

theorem notAfter_iff {a b : Cell} :
    a.notAfter b = true ↔
      ¬ Prod.Lex (fun a b => Text.before a b = true) (· < ·) b.key a.key := by
  rw [not_lex_iff]
  simp only [notAfter, Bool.or_eq_true, Bool.and_eq_true, beq_iff_eq, Bool.not_eq_true',
    ← Bool.not_eq_true]
  exact Iff.rfl

end Cell

namespace Table

variable {table : Table} {name : String} {l : Lookahead} {p : Production}

/-- No row has two cells for one lookahead. -/
def Functional (table : Table) : Prop := table.cells.Pairwise Cell.Apart

theorem functional_empty : empty.Functional := List.Pairwise.nil

/-- What is not in the table may be added to it. -/
theorem Functional.append {claim : Cell} (h : table.Functional)
    (hfree : table.get? claim.row claim.lookahead = none) :
    (Table.mk (table.cells ++ [claim])).Functional := by
  refine List.pairwise_append.mpr ⟨h, List.pairwise_singleton _ _, ?_⟩
  intro cell hcell other hother hsame
  rw [List.mem_singleton.mp hother] at hsame
  have hnone := List.find?_eq_none.mp (Option.map_eq_none_iff.mp hfree) cell hcell
  exact hnone (decide_eq_true hsame)

theorem Functional.fill {claims : List Cell} (h : table.Functional) :
    (Table.fill table claims).table.Functional := by
  induction claims generalizing table with
  | nil => exact h
  | cons claim rest ih =>
    simp only [Table.fill]
    cases hclaimed : table.get? claim.row claim.lookahead with
    | none => exact ih (h.append hclaimed)
    | some existing =>
      simp only
      split
      · exact ih h
      · exact h

/-- The cells are what the table answers with. -/
theorem Functional.mem_cells_iff (h : table.Functional) :
    (⟨l, p⟩ : Cell) ∈ table.cells ↔ table.get? p.lhs l = some p := by
  refine ⟨fun hmem => ?_, fun hget => (cell_of_get? hget).2⟩
  cases hget : table.get? p.lhs l with
  | none =>
    have hfree := List.find?_eq_none.mp (Option.map_eq_none_iff.mp hget) _ hmem
    exact absurd (decide_eq_true ⟨rfl, rfl⟩) hfree
  | some q =>
    obtain ⟨hrow, hmem'⟩ := cell_of_get? hget
    by_contra hne
    have hcells : (⟨l, q⟩ : Cell) ≠ ⟨l, p⟩ := fun heq => hne (congrArg some (Cell.mk.inj heq).2)
    exact h.forall hmem' hmem hcells ⟨hrow, rfl⟩

theorem perm_entries (table : Table) : table.entries.Perm table.cells :=
  List.mergeSort_perm table.cells Cell.notAfter

theorem mem_entries_iff {cell : Cell} : cell ∈ table.entries ↔ cell ∈ table.cells :=
  table.perm_entries.mem_iff

theorem length_entries (table : Table) : table.entries.length = table.size :=
  table.perm_entries.length_eq

/-- The entries ascend. -/
theorem Functional.pairwise_entries (h : table.Functional) :
    table.entries.Pairwise Cell.Before := by
  have hkeys : table.cells.Pairwise fun a b => a.key ≠ b.key :=
    h.imp fun hapart heq => hapart (Prod.mk.inj heq)
  exact (pairwise_mergeSort_key Cell.key (fun _ _ => Cell.notAfter_iff) hkeys).imp Prod.lex_iff.mp

/-- What a row expects are the lookaheads of its entries. -/
theorem Functional.expected_eq (h : table.Functional) (name : String) :
    table.expected name = (table.entries.filter (·.row = name)).map Cell.lookahead := by
  have hascending :
      ((table.entries.filter (·.row = name)).map Cell.lookahead).Pairwise (· < ·) := by
    rw [List.pairwise_map]
    refine (h.pairwise_entries.filter _).imp_of_mem ?_
    intro a b ha hb hbefore
    have hrow := of_decide_eq_true (List.mem_filter.mp ha).2
    have hrow' := of_decide_eq_true (List.mem_filter.mp hb).2
    rcases hbefore with hlt | ⟨_, hlt⟩
    · rw [hrow, hrow', Text.before_irrefl] at hlt
      cases hlt
    · exact hlt
  refine congrArg LookaheadSet.toList (LookaheadSet.ext (b := ⟨_, hascending⟩) fun l => ?_)
  rw [LookaheadSet.mem_ofList]
  exact ((table.perm_entries.filter _).map _).symm.mem_iff

end Table

namespace Grammar

variable {g : Grammar} {first follow : SetFamily} {table : Table}

theorem functional_of_tableFor (h : g.tableFor first follow = .ok table) : table.Functional := by
  have hfill : (Table.fill _ (g.claims first follow)).table.Functional :=
    Table.functional_empty.fill
  rw [fill_of_tableFor h] at hfill
  exact hfill

end Grammar

end TopDown
