import TopDown.Proofs.TableEntries

/-!
Which conflict a table meets. For any FIRST and FOLLOW sets a table is built when no lookahead
predicts two alternatives of one nonterminal. Otherwise filling stops at the first production that
shares a lookahead with an earlier alternative: its claims before that one were free, and they come
in ascending order, those its body can begin with before those that can follow its nonterminal.
-/
namespace TopDown

namespace Production

/-- The body can begin with the lookahead. -/
def BeginsWith (first : SetFamily) (l : Lookahead) (p : Production) : Prop :=
  l ∈ firstOf first p.body ∧ l ≠ .epsilon

/-- The body can vanish, and the lookahead can follow its nonterminal. -/
def GivesWayTo (first follow : SetFamily) (l : Lookahead) (p : Production) : Prop :=
  .epsilon ∈ firstOf first p.body ∧ l ∈ follow.membersOf p.lhs

def PredictedOn (first follow : SetFamily) (l : Lookahead) (p : Production) : Prop :=
  p.BeginsWith first l ∨ p.GivesWayTo first follow l

end Production

/-- The lookahead predicts an earlier alternative of the production's nonterminal. -/
def Grammar.Contested (g : Grammar) (first follow : SetFamily) (l : Lookahead) (p : Production) :
    Prop :=
  ∃ q ∈ g.productions, q.lhs = p.lhs ∧ q.index < p.index ∧ q.PredictedOn first follow l

/-- The incoming production is the first one that shares a lookahead with an earlier alternative,
the existing one; the conflict is about the least lookahead that the incoming body can begin with
and that is shared, or if there is none about the least shared one that can follow. -/
structure Conflict.IsFirst (c : Conflict) (g : Grammar) (first follow : SetFamily) : Prop where
  incoming_lhs : c.incoming.lhs = c.nonterminal
  earliest : ∃ before after, g.productions = before ++ c.incoming :: after ∧
    ∀ p ∈ before, ∀ l, p.PredictedOn first follow l → ¬ g.Contested first follow l p
  existing_mem : c.existing ∈ g.productions
  existing_lhs : c.existing.lhs = c.nonterminal
  existing_lt : c.existing.index < c.incoming.index
  existing_predicted : c.existing.PredictedOn first follow c.lookahead
  least :
    (c.incoming.BeginsWith first c.lookahead ∧
      ∀ l, c.incoming.BeginsWith first l → g.Contested first follow l c.incoming →
        ¬ l < c.lookahead) ∨
    ((∀ l, c.incoming.BeginsWith first l → ¬ g.Contested first follow l c.incoming) ∧
      c.incoming.GivesWayTo first follow c.lookahead ∧
      ∀ l, c.incoming.GivesWayTo first follow l → g.Contested first follow l c.incoming →
        ¬ l < c.lookahead)

/-- A place in the lists of a `flatMap` is a place in one of them. -/
theorem exists_of_flatMap_eq {α β : Type} {f : α → List β} {as : List α} {before after : List β}
    {b : β} (h : as.flatMap f = before ++ b :: after) :
    ∃ front a back left right, as = front ++ a :: back ∧ f a = left ++ b :: right ∧
      before = front.flatMap f ++ left := by
  induction as generalizing before with
  | nil => simp at h
  | cons a as ih =>
    rw [List.flatMap_cons] at h
    rcases List.append_eq_append_iff.mp h with ⟨rest, rfl, hrest⟩ | ⟨rest, hrest, hafter⟩
    · obtain ⟨front, x, back, left, right, rfl, hx, rfl⟩ := ih hrest
      exact ⟨a :: front, x, back, left, right, rfl, hx, by simp⟩
    · cases rest with
      | nil =>
        have hnext : as.flatMap f = [] ++ b :: after := hafter.symm
        obtain ⟨front, x, back, left, right, rfl, hx, hleft⟩ := ih hnext
        refine ⟨a :: front, x, back, left, right, rfl, hx, ?_⟩
        rw [List.append_nil] at hrest
        rw [List.flatMap_cons, List.append_assoc, ← hleft, List.append_nil, hrest]
      | cons c rest =>
        obtain ⟨rfl, _⟩ := List.cons.inj hafter
        exact ⟨[], a, as, before, rest, rfl, hrest, rfl⟩

/-- What is less than the place in an ascending list stands before it. -/
theorem LookaheadSet.mem_before {set : LookaheadSet} {before after : List Lookahead}
    {l m : Lookahead} (h : set.toList = before ++ l :: after) (hm : m ∈ set) (hlt : m < l) :
    m ∈ before := by
  have hascending := set.ascending
  rw [h, List.pairwise_append, List.pairwise_cons] at hascending
  obtain ⟨_, ⟨hafter, _⟩, _⟩ := hascending
  change m ∈ set.toList at hm
  rw [h] at hm
  rcases List.mem_append.mp hm with hm | hm
  · exact hm
  · rcases List.mem_cons.mp hm with rfl | hm
    · exact absurd hlt (Lookahead.lt_irrefl _)
    · exact absurd (Lookahead.lt_trans hlt (hafter m hm)) (Lookahead.lt_irrefl _)

namespace Grammar

variable {g : Grammar} {first follow : SetFamily} {p q : Production} {l : Lookahead}

/-- Alternatives of one nonterminal stand in the order of their numbers. -/
theorem pairwise_productions (g : Grammar) :
    g.productions.Pairwise fun p q => p.lhs = q.lhs → p.index < q.index := by
  rw [productions, List.pairwise_flatMap]
  refine ⟨fun rule _ => ?_, ?_⟩
  · refine (pairwise_productions_rule rule).imp ?_
    intro p q hlt _
    exact hlt
  · refine (List.pairwise_map.mp g.distinct).imp ?_
    intro a b hne p hp q hq heq
    rw [lhs_of_mem_rule hp, lhs_of_mem_rule hq] at heq
    exact absurd heq hne

section Place

variable {front back : List Production} (hplace : g.productions = front ++ p :: back)
include hplace

theorem index_lt_of_mem_front (hq : q ∈ front) (hlhs : q.lhs = p.lhs) : q.index < p.index := by
  have hpairwise := g.pairwise_productions
  rw [hplace, List.pairwise_append] at hpairwise
  exact hpairwise.2.2 q hq p List.mem_cons_self hlhs

/-- An earlier alternative stands further to the front. -/
theorem mem_front_of_index_lt {r : Production} (hr : r ∈ front ∨ r = p) (hq : q ∈ g.productions)
    (hlhs : q.lhs = r.lhs) (hlt : q.index < r.index) : q ∈ front := by
  have hpairwise := g.pairwise_productions
  rw [hplace, List.pairwise_append, List.pairwise_cons] at hpairwise
  obtain ⟨_, ⟨hback, _⟩, hfront⟩ := hpairwise
  rw [hplace, List.mem_append, List.mem_cons] at hq
  rcases hq with hq | rfl | hq
  · exact hq
  · rcases hr with hr | rfl
    · exact absurd hlt (Nat.lt_asymm (hfront r hr _ List.mem_cons_self hlhs.symm))
    · exact absurd hlt (Nat.lt_irrefl _)
  · rcases hr with hr | rfl
    · exact absurd hlt (Nat.lt_asymm (hfront r hr q (List.mem_cons_of_mem _ hq) hlhs.symm))
    · exact absurd hlt (Nat.lt_asymm (hback q hq hlhs.symm))

end Place

theorem mem_predictedBy_iff_predictedOn :
    l ∈ p.predictedBy first follow ↔ p.PredictedOn first follow l :=
  Production.mem_predictedBy_iff

/-- The claims before a claim are those of the productions before its own, and those that its own
production makes first. -/
theorem exists_of_claims_eq {before after : List Cell}
    (h : g.claims first follow = before ++ ⟨l, p⟩ :: after) :
    ∃ front back lower higher, g.productions = front ++ p :: back ∧
      p.predictedBy first follow = lower ++ l :: higher ∧
      ∀ m q, (⟨m, q⟩ : Cell) ∈ before ↔
        (q ∈ front ∧ q.PredictedOn first follow m) ∨ (q = p ∧ m ∈ lower) := by
  obtain ⟨front, r, back, left, right, hproductions, hclaims, rfl⟩ := exists_of_flatMap_eq h
  obtain ⟨lower, rest, hpredicted, rfl, hrest⟩ := List.map_eq_append_iff.mp hclaims
  obtain ⟨m, higher, rfl, hm, rfl⟩ := List.map_eq_cons_iff.mp hrest
  obtain ⟨rfl, rfl⟩ := Cell.mk.inj hm
  refine ⟨front, back, lower, higher, hproductions, hpredicted, fun n q => ?_⟩
  rw [List.mem_append, List.mem_flatMap]
  simp only [List.mem_map, Cell.mk.injEq, ← mem_predictedBy_iff_predictedOn]
  constructor
  · rintro (⟨s, hs, k, hk, rfl, rfl⟩ | ⟨k, hk, rfl, rfl⟩)
    · exact Or.inl ⟨hs, hk⟩
    · exact Or.inr ⟨rfl, hk⟩
  · rintro (⟨hq, hn⟩ | ⟨rfl, hn⟩)
    · exact Or.inl ⟨q, hq, n, hn, rfl, rfl⟩
    · exact Or.inr ⟨n, hn, rfl, rfl⟩

/-- A claim for a lookahead that can follow, when the claims before it in its production hold all
that the body can begin with. -/
theorem gives_way_least {lower before higher : List Lookahead} {P : Lookahead → Prop}
    (hlower : ∀ m ∈ lower, ¬ P m)
    (hfirst : ∀ m, p.BeginsWith first m → m ∈ lower) (hbefore : ∀ m ∈ before, m ∈ lower)
    (h : (if .epsilon ∈ firstOf first p.body then (follow.membersOf p.lhs).toList else []) =
      before ++ l :: higher) :
    (∀ m, p.BeginsWith first m → ¬ P m) ∧ p.GivesWayTo first follow l ∧
      ∀ m, p.GivesWayTo first follow m → P m → ¬ m < l := by
  split at h
  next hepsilon =>
    have hl : l ∈ follow.membersOf p.lhs := by
      change l ∈ (follow.membersOf p.lhs).toList
      rw [h]
      exact List.mem_append_right _ List.mem_cons_self
    refine ⟨fun m hm => hlower m (hfirst m hm), ⟨hepsilon, hl⟩, fun m hm hP hlt => ?_⟩
    exact hlower m (hbefore m (LookaheadSet.mem_before h hm.2 hlt)) hP
  next => exact absurd h.symm (by simp)

/-- The place of a lookahead among those that predict a production: it is the least one with a
property of those the body can begin with, or else of those that can follow, when none before it has
the property. -/
theorem least_of_predictedBy_eq {lower higher : List Lookahead} {P : Lookahead → Prop}
    (h : p.predictedBy first follow = lower ++ l :: higher) (hlower : ∀ m ∈ lower, ¬ P m) :
    (p.BeginsWith first l ∧ ∀ m, p.BeginsWith first m → P m → ¬ m < l) ∨
      ((∀ m, p.BeginsWith first m → ¬ P m) ∧ p.GivesWayTo first follow l ∧
        ∀ m, p.GivesWayTo first follow m → P m → ¬ m < l) := by
  have hbegins : ∀ m, p.BeginsWith first m ↔ m ∈ ((firstOf first p.body).erase .epsilon).toList :=
    fun m => LookaheadSet.mem_erase.symm
  -- The place is in the list of what can follow or in the one of what the body can begin with.
  rcases List.append_eq_append_iff.mp h with ⟨rest, hrest, hfollow⟩ | ⟨rest, hfirst, hrest⟩
  · refine Or.inr (gives_way_least hlower (fun m hm => ?_) (fun m hm => ?_) hfollow)
    · rw [hrest]
      exact List.mem_append_left _ ((hbegins m).mp hm)
    · rw [hrest]
      exact List.mem_append_right _ hm
  · cases rest with
    | nil =>
      rw [List.append_nil] at hfirst
      have hnone : ∀ m ∈ ([] : List Lookahead), m ∈ lower := fun m hm => absurd hm List.not_mem_nil
      refine Or.inr (gives_way_least hlower (fun m hm => ?_) hnone hrest.symm)
      rw [← hfirst]
      exact (hbegins m).mp hm
    | cons k rest =>
      obtain ⟨rfl, _⟩ := List.cons.inj hrest
      refine Or.inl ⟨(hbegins l).mpr ?_, fun m hm hP hlt => ?_⟩
      · rw [hfirst]
        exact List.mem_append_right _ List.mem_cons_self
      · exact hlower m (LookaheadSet.mem_before hfirst ((hbegins m).mp hm) hlt) hP

/-- The conflict that is reported is the first one. -/
theorem isFirst_of_tableFor_error {c : Conflict} (h : g.tableFor first follow = .error c) :
    c.IsFirst g first follow := by
  obtain ⟨filled, hfill⟩ := exists_fill_of_tableFor_error h
  obtain ⟨before, ⟨l, p⟩, after, hclaims, hbefore, hheld, hne, hc⟩ :=
    Table.exists_of_fill_conflict hfill
  obtain ⟨front, back, lower, higher, hplace, hpredicted, hmem⟩ := exists_of_claims_eq hclaims
  have hcell : ∀ {name m q},
      filled.get? name m = some q ↔ q.lhs = name ∧ (⟨m, q⟩ : Cell) ∈ before := by
    intro name m q
    rw [Table.get?_fill hbefore, Table.get?_empty]
    simp
  -- a claim before the fatal one is the only one for its cell
  have huncontested : ∀ m q, (⟨m, q⟩ : Cell) ∈ before → ¬ g.Contested first follow m q := by
    rintro m q hq ⟨r, hr, hlhs, hlt, hpredictedOn⟩
    have hplaced : q ∈ front ∨ q = p := ((hmem m q).mp hq).imp And.left And.left
    have hfront := mem_front_of_index_lt hplace hplaced hr hlhs hlt
    have hclaimed := hcell.mpr ⟨hlhs, (hmem m r).mpr (Or.inl ⟨hfront, hpredictedOn⟩)⟩
    have heq := Option.some.inj (hclaimed.symm.trans (hcell.mpr ⟨rfl, hq⟩))
    rw [heq] at hlt
    exact Nat.lt_irrefl _ hlt
  obtain ⟨hlhs, hexisting⟩ := hcell.mp hheld
  have hearlier : c.existing ∈ front ∧ c.existing.PredictedOn first follow l :=
    ((hmem l c.existing).mp hexisting).resolve_right fun hsame => hne hsame.1
  have hleast := least_of_predictedBy_eq (P := fun m => g.Contested first follow m p) hpredicted
    fun m hm => huncontested m p ((hmem m p).mpr (Or.inr ⟨rfl, hm⟩))
  rw [hc]
  exact
    { incoming_lhs := rfl
      earliest := ⟨front, back, hplace, fun q hq m hm =>
        huncontested m q ((hmem m q).mpr (Or.inl ⟨hq, hm⟩))⟩
      existing_mem := by
        rw [hplace]
        exact List.mem_append_left _ hearlier.1
      existing_lhs := hlhs
      existing_lt := index_lt_of_mem_front hplace hearlier.1 hlhs
      existing_predicted := hearlier.2
      least := hleast }

/-- For any FIRST and FOLLOW sets a table is built unless a lookahead predicts two alternatives of
one nonterminal. It holds each production under the lookaheads that predict it and lists the filled
cells in order, each of them once. Otherwise the first conflict is reported. -/
theorem tableFor_exact (g : Grammar) (first follow : SetFamily) :
    ((∃ table, g.tableFor first follow = .ok table) ↔
      ∀ p ∈ g.productions, ∀ q ∈ g.productions, p.lhs = q.lhs →
        ∀ l, p.PredictedOn first follow l → q.PredictedOn first follow l → p = q) ∧
    (∀ table, g.tableFor first follow = .ok table →
      (∀ name l p, table.get? name l = some p ↔
        p ∈ g.productions ∧ p.lhs = name ∧ p.PredictedOn first follow l) ∧
      (∀ l p, (⟨l, p⟩ : Cell) ∈ table.entries ↔ table.get? p.lhs l = some p) ∧
      table.entries.Pairwise Cell.Before ∧
      table.entries.length = table.size ∧
      ∀ name, table.expected name = (table.entries.filter (·.row = name)).map Cell.lookahead) ∧
    ∀ c, g.tableFor first follow = .error c → c.IsFirst g first follow := by
  refine ⟨?_, fun table htable => ?_, fun c => isFirst_of_tableFor_error⟩
  · rw [exists_tableFor_iff]
    simp only [mem_predictedBy_iff_predictedOn]
  · have hfunctional := functional_of_tableFor htable
    refine ⟨fun name l p => ?_, fun l p => ?_, hfunctional.pairwise_entries,
      table.length_entries, hfunctional.expected_eq⟩
    · rw [get?_tableFor_iff htable, mem_predictedBy_iff_predictedOn]
    · rw [Table.mem_entries_iff, hfunctional.mem_cells_iff]

end Grammar

end TopDown
