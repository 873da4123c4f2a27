import TopDown.Proofs.FollowSets
import TopDown.Table

/-!
What the cells of a filled table hold. Without a conflict a cell holds a production just when the
production claims it; in the table of a grammar's own FIRST and FOLLOW sets these are the
productions that the lookahead predicts, so that no lookahead predicts two productions of one
nonterminal.
-/
namespace TopDown

namespace Table

variable {table : Table} {name : String} {l : Lookahead} {p : Production}

theorem cell_of_get? (h : table.get? name l = some p) :
    p.lhs = name ∧ (⟨l, p⟩ : Cell) ∈ table.cells := by
  obtain ⟨⟨found, q⟩, hfind, rfl⟩ := Option.map_eq_some_iff.mp h
  have hmem := List.mem_of_find?_eq_some hfind
  have hcell := List.find?_some hfind
  obtain ⟨hrow, rfl⟩ : q.lhs = name ∧ found = l := of_decide_eq_true hcell
  exact ⟨hrow, hmem⟩

theorem lhs_of_get? (h : table.get? name l = some p) : p.lhs = name := (cell_of_get? h).1

theorem get?_empty (name : String) (l : Lookahead) : empty.get? name l = none := rfl

/-- A new cell only counts where there was none. -/
theorem get?_append_eq_some_iff (table : Table) (cell : Cell) :
    (Table.mk (table.cells ++ [cell])).get? name l = some p ↔
      table.get? name l = some p ∨
        (table.get? name l = none ∧ cell = ⟨l, p⟩ ∧ p.lhs = name) := by
  simp only [get?, List.find?_append]
  cases table.cells.find? fun cell => cell.row = name ∧ cell.lookahead = l with
  | some found => simp
  | none =>
    simp only [Option.none_or, Option.map_none, reduceCtorEq, false_or, true_and]
    rw [List.find?_singleton]
    by_cases hcell : cell.row = name ∧ cell.lookahead = l
    · rw [if_pos (decide_eq_true hcell), Option.map_some, Option.some.injEq]
      obtain ⟨hrow, hl⟩ := hcell
      constructor
      · intro heq
        subst heq
        exact ⟨hl ▸ rfl, hrow⟩
      · intro hfound
        obtain ⟨rfl, _⟩ := hfound
        rfl
    · rw [if_neg fun h => hcell (of_decide_eq_true h)]
      refine iff_of_false (Option.some_ne_none p).symm ?_
      intro hfound
      obtain ⟨rfl, hrow⟩ := hfound
      exact hcell ⟨hrow, rfl⟩

/-- Filling goes on after a claim from a table that has the claimed cell as well. -/
theorem exists_fill_of_cons {claim : Cell} {rest : List Cell} {filled : Table}
    (h : fill table (claim :: rest) = ⟨filled, none⟩) :
    ∃ next, fill next rest = ⟨filled, none⟩ ∧ ∀ name l p,
      next.get? name l = some p ↔
        table.get? name l = some p ∨ (p.lhs = name ∧ claim = ⟨l, p⟩) := by
  simp only [fill] at h
  cases hclaimed : table.get? claim.row claim.lookahead with
  | none =>
    rw [hclaimed] at h
    refine ⟨_, h, ?_⟩
    intro name l p
    rw [get?_append_eq_some_iff]
    apply or_congr_right
    constructor
    · intro hnew
      exact ⟨hnew.2.2, hnew.2.1⟩
    · intro hnew
      obtain ⟨rfl, rfl⟩ := hnew
      exact ⟨hclaimed, rfl, rfl⟩
  | some existing =>
    rw [hclaimed] at h
    simp only at h
    by_cases hsame : existing = claim.production
    · rw [if_pos hsame] at h
      refine ⟨table, h, ?_⟩
      intro name l p
      have hheld : p.lhs = name ∧ claim = ⟨l, p⟩ → table.get? name l = some p := by
        intro hnew
        obtain ⟨rfl, rfl⟩ := hnew
        rw [hsame] at hclaimed
        exact hclaimed
      exact (or_iff_left_of_imp hheld).symm
    · rw [if_neg hsame] at h
      exact absurd (Filling.mk.inj h).2 (Option.some_ne_none _)

/-- Filling that meets no conflict leaves every cell to the productions that claim it. -/
theorem get?_fill {claims : List Cell} {filled : Table}
    (h : fill table claims = ⟨filled, none⟩) :
    filled.get? name l = some p ↔
      table.get? name l = some p ∨ (p.lhs = name ∧ (⟨l, p⟩ : Cell) ∈ claims) := by
  induction claims generalizing table with
  | nil =>
    have hfilled : table = filled := (Filling.mk.inj h).1
    rw [hfilled]
    simp
  | cons claim rest ih =>
    obtain ⟨next, hrest, hnext⟩ := exists_fill_of_cons h
    have hmem : (⟨l, p⟩ : Cell) ∈ claim :: rest ↔ claim = ⟨l, p⟩ ∨ (⟨l, p⟩ : Cell) ∈ rest := by
      rw [List.mem_cons, eq_comm]
    rw [ih hrest, hnext, hmem, and_or_left, or_assoc]

/-- Filling that stops has met a claim for a cell that the claims before it left to another
production. -/
theorem exists_of_fill_conflict {claims : List Cell} {filled : Table} {c : Conflict}
    (h : fill table claims = ⟨filled, some c⟩) :
    ∃ before claim after, claims = before ++ claim :: after ∧
      fill table before = ⟨filled, none⟩ ∧
      filled.get? claim.row claim.lookahead = some c.existing ∧
      c.existing ≠ claim.production ∧
      c = ⟨claim.row, claim.lookahead, c.existing, claim.production⟩ := by
  induction claims generalizing table with
  | nil => exact absurd (Filling.mk.inj h).2 (Option.some_ne_none c).symm
  | cons claim rest ih =>
    simp only [fill] at h
    cases hclaimed : table.get? claim.row claim.lookahead with
    | none =>
      rw [hclaimed] at h
      obtain ⟨before, stopper, after, rfl, hbefore, hstop⟩ := ih h
      refine ⟨claim :: before, stopper, after, rfl, ?_, hstop⟩
      simp only [fill, hclaimed]
      exact hbefore
    | some existing =>
      rw [hclaimed] at h
      simp only at h
      by_cases hsame : existing = claim.production
      · rw [if_pos hsame] at h
        obtain ⟨before, stopper, after, rfl, hbefore, hstop⟩ := ih h
        refine ⟨claim :: before, stopper, after, rfl, ?_, hstop⟩
        simp only [fill, hclaimed, if_pos hsame]
        exact hbefore
      · rw [if_neg hsame] at h
        obtain ⟨rfl, hc⟩ := Filling.mk.inj h
        obtain rfl := Option.some.inj hc
        exact ⟨[], claim, rest, rfl, rfl, hclaimed, hsame, rfl⟩

end Table

theorem Production.mem_predictedBy_iff {first follow : SetFamily} {p : Production}
    {l : Lookahead} :
    l ∈ p.predictedBy first follow ↔
      (l ∈ firstOf first p.body ∧ l ≠ .epsilon) ∨
        (.epsilon ∈ firstOf first p.body ∧ l ∈ follow.membersOf p.lhs) := by
  simp only [predictedBy, List.mem_append]
  apply or_congr
  · exact LookaheadSet.mem_erase
  · split
    · rename_i hepsilon
      exact (and_iff_right hepsilon).symm
    · rename_i hepsilon
      exact iff_of_false List.not_mem_nil fun h => hepsilon h.1

namespace Grammar

variable {g : Grammar} {table : Table} {name : String} {l : Lookahead} {p : Production}

theorem mem_claims_iff {first follow : SetFamily} :
    (⟨l, p⟩ : Cell) ∈ g.claims first follow ↔
      p ∈ g.productions ∧ l ∈ p.predictedBy first follow := by
  simp only [claims, List.mem_flatMap, List.mem_map, Cell.mk.injEq]
  constructor
  · intro hfound
    obtain ⟨q, hq, m, hm, rfl, rfl⟩ := hfound
    exact ⟨hq, hm⟩
  · intro hfound
    obtain ⟨hp, hl⟩ := hfound
    exact ⟨p, hp, l, hl, rfl, rfl⟩

/-- A table that is built is filled by all claims. -/
theorem fill_of_tableFor {first follow : SetFamily} (h : g.tableFor first follow = .ok table) :
    Table.fill .empty (g.claims first follow) = ⟨table, none⟩ := by
  simp only [tableFor, filling] at h
  split at h
  · rename_i filled hfilled
    rw [hfilled, Except.ok.inj h]
  · cases h

theorem exists_fill_of_tableFor_error {first follow : SetFamily} {c : Conflict}
    (h : g.tableFor first follow = .error c) :
    ∃ filled, Table.fill .empty (g.claims first follow) = ⟨filled, some c⟩ := by
  simp only [tableFor, filling] at h
  split at h
  · cases h
  · rename_i filled conflict hfilled
    rw [← Except.error.inj h]
    exact ⟨filled, hfilled⟩

/-- A table that is built holds a production in a cell just when the sets predict it there. -/
theorem get?_tableFor_iff {first follow : SetFamily}
    (h : g.tableFor first follow = .ok table) :
    table.get? name l = some p ↔
      p ∈ g.productions ∧ p.lhs = name ∧ l ∈ p.predictedBy first follow := by
  rw [Table.get?_fill (fill_of_tableFor h), Table.get?_empty, mem_claims_iff]
  simp only [reduceCtorEq, false_or]
  exact and_left_comm

/-- A conflict is between two productions of its nonterminal that the sets predict by its
lookahead. -/
theorem of_tableFor_error {first follow : SetFamily} {c : Conflict}
    (h : g.tableFor first follow = .error c) :
    c.existing ≠ c.incoming ∧
      (c.existing ∈ g.productions ∧ c.existing.lhs = c.nonterminal ∧
        c.lookahead ∈ c.existing.predictedBy first follow) ∧
      (c.incoming ∈ g.productions ∧ c.incoming.lhs = c.nonterminal ∧
        c.lookahead ∈ c.incoming.predictedBy first follow) := by
  obtain ⟨filled, hfill⟩ := exists_fill_of_tableFor_error h
  obtain ⟨before, ⟨l, p⟩, after, hclaims, hbefore, hheld, hne, hc⟩ :=
    Table.exists_of_fill_conflict hfill
  have hexisting : c.existing.lhs = p.lhs ∧ (⟨l, c.existing⟩ : Cell) ∈ before := by
    rw [Table.get?_fill hbefore, Table.get?_empty] at hheld
    rcases hheld with hheld | hheld
    · cases hheld
    · exact hheld
  obtain ⟨hlhs, hearlier⟩ := hexisting
  have hearlier : (⟨l, c.existing⟩ : Cell) ∈ g.claims first follow := by
    rw [hclaims]
    exact List.mem_append_left _ hearlier
  have hstopper : (⟨l, p⟩ : Cell) ∈ g.claims first follow := by
    rw [hclaims]
    exact List.mem_append_right _ List.mem_cons_self
  rw [mem_claims_iff] at hearlier hstopper
  rw [hc]
  exact ⟨hne, ⟨hearlier.1, hlhs, hearlier.2⟩, ⟨hstopper.1, rfl, hstopper.2⟩⟩

/-- The table is built just when the sets predict no two productions of one nonterminal by one
lookahead. -/
theorem exists_tableFor_iff {first follow : SetFamily} :
    (∃ table, g.tableFor first follow = .ok table) ↔
      ∀ p ∈ g.productions, ∀ q ∈ g.productions, p.lhs = q.lhs →
        ∀ l ∈ p.predictedBy first follow, l ∈ q.predictedBy first follow → p = q := by
  constructor
  · intro hbuilt p hp q hq hlhs l hl hl'
    obtain ⟨table, htable⟩ := hbuilt
    have hcell := (get?_tableFor_iff htable).mpr ⟨hp, hlhs, hl⟩
    have hcell' := (get?_tableFor_iff htable).mpr ⟨hq, rfl, hl'⟩
    exact Option.some.inj (hcell.symm.trans hcell')
  · intro hunique
    cases htable : g.tableFor first follow with
    | ok table => exact ⟨table, rfl⟩
    | error c =>
      obtain ⟨hne, ⟨hp, hlhs, hl⟩, ⟨hq, hlhs', hl'⟩⟩ := of_tableFor_error htable
      exact absurd (hunique _ hp _ hq (hlhs.trans hlhs'.symm) _ hl hl') hne

/-- The grammar's own sets predict what the rules predict. -/
theorem mem_predictedBy_own_iff :
    l ∈ p.predictedBy g.first (g.follow g.first g.start) ↔ g.Predicts l p := by
  rw [Production.mem_predictedBy_iff, mem_firstOf_first_iff, mem_firstOf_first_iff,
    mem_follow_iff]
  exact or_congr_left and_comm

variable (htable : g.table = .ok table)
include htable

theorem get?_table_iff :
    table.get? name l = some p ↔ p ∈ g.productions ∧ p.lhs = name ∧ g.Predicts l p := by
  rw [get?_tableFor_iff htable, mem_predictedBy_own_iff]

theorem get?_of_predicts (hp : p ∈ g.productions) (h : g.Predicts l p) :
    table.get? p.lhs l = some p := (get?_table_iff htable).mpr ⟨hp, rfl, h⟩

/-- A lookahead that the body can begin with finds the production in its cell. -/
theorem get?_of_begins {t : String} (hp : p ∈ g.productions) (h : g.Begins t p.body) :
    table.get? p.lhs (.terminal t) = some p :=
  get?_of_predicts htable hp (Or.inl ⟨Lookahead.noConfusion, h⟩)

/-- If the body can vanish, so does a lookahead that can follow the nonterminal. -/
theorem get?_of_vanishes (hp : p ∈ g.productions) (h : g.Vanishes p.body)
    (hl : g.Follows g.start l p.lhs) : table.get? p.lhs l = some p :=
  get?_of_predicts htable hp (Or.inr ⟨h, hl⟩)

omit htable

/-- Pairs in pairs: a nullable nonterminal between its terminals. -/
def nestedPairs : Grammar where
  start := "S"
  rules := [⟨"S", [[.terminal "a", .nonterminal "S", .terminal "b"], [.epsilon]]⟩]
  distinct := by decide
  start_defined := by decide
  closed := by decide

def nestedPairsTable : Table :=
  ⟨[⟨.terminal "a", ⟨"S", 0, [.terminal "a", .nonterminal "S", .terminal "b"]⟩⟩,
    ⟨.endOfInput, ⟨"S", 1, [.epsilon]⟩⟩,
    ⟨.terminal "b", ⟨"S", 1, [.epsilon]⟩⟩]⟩

theorem table_nestedPairs : nestedPairs.table = .ok nestedPairsTable := by rfl

end Grammar

end TopDown
