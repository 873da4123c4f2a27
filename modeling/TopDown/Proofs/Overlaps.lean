import TopDown.Proofs.ExactSets

/-!
Overlaps of FIRST and FOLLOW sets. A production may claim one cell twice, by what its body begins
with and by what follows its nonterminal, and that alone is no conflict. Still no such overlap goes
unnoticed: where a nullable nonterminal begins with a terminal that also follows it, two productions
of some nonterminal below it claim one cell.
-/
namespace TopDown.Grammar

variable {g : Grammar} {table : Table} {start name t : String} {form : List Symbol}

theorem Vanishes.exists_production {rest : List Symbol}
    (h : g.Vanishes (.nonterminal name :: rest)) :
    ∃ p ∈ g.productions, p.lhs = name ∧ g.Vanishes p.body ∧ g.Vanishes rest := by
  cases h with
  | nonterminal hp hbody hrest => exact ⟨_, hp, rfl, hbody, hrest⟩

/-- Whatever follows a nonterminal follows every nonterminal in a body of it that vanishes. -/
theorem follows_of_mem_body {p : Production} {l : Lookahead} (hp : p ∈ g.productions)
    (hvanishes : g.Vanishes p.body) (hfollows : g.Follows start l p.lhs)
    (hname : .nonterminal name ∈ p.body) : g.Follows start l name := by
  obtain ⟨left, right, hbody⟩ := List.append_of_mem hname
  rw [hbody, vanishes_append_iff] at hvanishes
  obtain ⟨_, _, _, _, hright⟩ := hvanishes.2.exists_production
  exact .last hp hbody hright hfollows

variable (htable : g.tableFor g.first (g.follow g.first start) = .ok table)
include htable

/-- Of the productions that a terminal begins and those that vanish in front of it there is only
one. -/
theorem production_eq_of_table {p q : Production} (hp : p ∈ g.productions) (hq : q ∈ g.productions)
    (hlhs : p.lhs = q.lhs) (hbegins : g.Begins t p.body) (hvanishes : g.Vanishes q.body)
    (hfollows : g.Follows start (.terminal t) q.lhs) : p = q := by
  have hunique := exists_tableFor_iff.mp ⟨table, htable⟩
  refine hunique p hp q hq hlhs (.terminal t) ?_ ?_
  · exact Production.mem_predictedBy_iff.mpr (Or.inl ⟨hbegins.mem_firstOf, Lookahead.noConfusion⟩)
  · have hmem := mem_follow_iff.mpr hfollows
    exact Production.mem_predictedBy_iff.mpr (Or.inr ⟨hvanishes.mem_firstOf, hmem⟩)

/-- With a table, no form that vanishes begins with a terminal that follows all its nonterminals.
The induction is on how it begins: the production by which its first nonterminal begins is the one
by which that vanishes, so its body is such a form again. -/
theorem not_begins_of_vanishes (hbegins : g.Begins t form) (hvanishes : g.Vanishes form)
    (hfollows : ∀ name, .nonterminal name ∈ form → g.Follows start (.terminal t) name) : False := by
  induction hbegins with
  | terminal rest => exact not_vanishes_terminal t rest hvanishes
  | epsilon _ ih =>
    cases hvanishes with
    | epsilon hrest => exact ih hrest fun name hname => hfollows name (List.mem_cons_of_mem _ hname)
  | @inside p hp rest hbody ih =>
    obtain ⟨q, hq, hlhs, hempty, _⟩ := hvanishes.exists_production
    have hafter : g.Follows start (.terminal t) q.lhs := hlhs ▸ hfollows p.lhs List.mem_cons_self
    obtain rfl := production_eq_of_table htable hp hq hlhs.symm hbody hempty hafter
    exact ih hempty fun name hname => follows_of_mem_body hp hempty hafter hname
  | past _ _ _ ih =>
    obtain ⟨_, _, _, _, hrest⟩ := hvanishes.exists_production
    exact ih hrest fun name hname => hfollows name (List.mem_cons_of_mem _ hname)

omit htable

/-- Where a nullable nonterminal has a terminal both in its FIRST and in its FOLLOW set, the table
has a conflict. This holds also when one production supplies the terminal and the empty word, so
that the row of the nonterminal shows none. -/
theorem exists_conflict_of_overlap (g : Grammar) (start : String) :
    (∀ name t, g.Derives [.nonterminal name] [] → .terminal t ∈ g.first.membersOf name →
      .terminal t ∈ (g.follow g.first start).membersOf name →
        ∃ c, g.tableFor g.first (g.follow g.first start) = .error c) ∧
    ∀ p ∈ g.productions, ∀ t, .epsilon ∈ firstOf g.first p.body →
      .terminal t ∈ firstOf g.first p.body →
      .terminal t ∈ (g.follow g.first start).membersOf p.lhs →
        ∃ c, g.tableFor g.first (g.follow g.first start) = .error c := by
  have hoverlap : ∀ name t, g.Vanishes [.nonterminal name] → g.Begins t [.nonterminal name] →
      g.Follows start (.terminal t) name →
        ∃ c, g.tableFor g.first (g.follow g.first start) = .error c := by
    intro name t hvanishes hbegins hfollows
    cases htable : g.tableFor g.first (g.follow g.first start) with
    | error c => exact ⟨c, rfl⟩
    | ok table =>
      have hall : ∀ other, .nonterminal other ∈ [Symbol.nonterminal name] →
          g.Follows start (.terminal t) other := by
        intro other hother
        rwa [Symbol.nonterminal.inj (List.mem_singleton.mp hother)]
      exact (not_begins_of_vanishes htable hbegins hvanishes hall).elim
  constructor
  · intro name t hempty hfirst hfollow
    rw [mem_first_iff] at hfirst
    rw [mem_follow_iff] at hfollow
    exact hoverlap name t (vanishes_iff_derives.mpr hempty) hfirst hfollow
  · intro p hp t hempty hfirst hfollow
    rw [mem_firstOf_first_iff] at hempty hfirst
    rw [mem_follow_iff] at hfollow
    exact hoverlap p.lhs t (Starts.of_body (l := .epsilon) hp hempty)
      (Starts.of_body (l := .terminal t) hp hfirst) hfollow

/-- A letter that may stand in front of itself, one level further down. -/
def wrappedLetter : Grammar where
  start := "S"
  rules :=
    [⟨"S", [[.nonterminal "A", .terminal "a"]]⟩, ⟨"A", [[.nonterminal "B"]]⟩,
      ⟨"B", [[.terminal "a"], [.epsilon]]⟩]
  distinct := by decide
  start_defined := by decide
  closed := by decide

theorem exists_conflict_wrappedLetter :
    (.epsilon ∈ firstOf wrappedLetter.first [.nonterminal "B"] ∧
      .terminal "a" ∈ firstOf wrappedLetter.first [.nonterminal "B"] ∧
      .terminal "a" ∈ (wrappedLetter.follow wrappedLetter.first "S").membersOf "A") ∧
    ∃ c, wrappedLetter.table = .error c := by
  have hempty : .epsilon ∈ firstOf wrappedLetter.first [.nonterminal "B"] := by decide
  have hfirst : .terminal "a" ∈ firstOf wrappedLetter.first [.nonterminal "B"] := by decide
  have hfollow : .terminal "a" ∈ (wrappedLetter.follow wrappedLetter.first "S").membersOf "A" := by
    decide
  exact ⟨⟨hempty, hfirst, hfollow⟩, (exists_conflict_of_overlap wrappedLetter "S").2
    ⟨"A", 0, [.nonterminal "B"]⟩ (by decide) "a" hempty hfirst hfollow⟩

-- The only production of `A` claims its cell twice; the conflict is found at `B`.
example : wrappedLetter.table =
    .error ⟨"B", .terminal "a", ⟨"B", 0, [.terminal "a"]⟩, ⟨"B", 1, [.epsilon]⟩⟩ := by rfl

end TopDown.Grammar
