import TopDown.Proofs.ExactSets
import TopDown.Proofs.Termination
import Mathlib.Data.List.Perm.Basic

/-!
The order of the rules, and of the alternatives in a rule, does not matter. Grammars that differ in
nothing else have the same derivations, so their FIRST and FOLLOW sets agree although the passes
that find them take the productions in another order. A table is built for both or for neither, and
the two tables answer alike on every input: a cell may hold productions with different numbers, but
the machine only looks at bodies.
-/
namespace TopDown

/-- Families for the same names with the same members have the same sets. -/
theorem SetFamily.get?_eq {a b : SetFamily} (hkeys : ∀ name, name ∈ a.keys ↔ name ∈ b.keys)
    (hmembers : ∀ name l, l ∈ a.membersOf name ↔ l ∈ b.membersOf name) (name : String) :
    a.get? name = b.get? name := by
  have hkey := hkeys name
  rw [← NameMap.get?_isSome_iff, ← NameMap.get?_isSome_iff] at hkey
  have hset : a.membersOf name = b.membersOf name := LookaheadSet.ext (hmembers name)
  unfold membersOf at hset
  cases ha : a.get? name with
  | none => cases hb : b.get? name <;> simp [ha, hb] at hkey ⊢
  | some set => cases hb : b.get? name <;> simp_all

/-- The same rule with its alternatives in some order. -/
def Rule.Reordered (a b : Rule) : Prop := a.name = b.name ∧ a.alternatives.Perm b.alternatives

namespace Grammar

/-- The same start and the same rules in some order, each with its alternatives in some order. -/
def Reordered (g h : Grammar) : Prop :=
  g.start = h.start ∧ ∃ rules, g.rules.Perm rules ∧ List.Forall₂ Rule.Reordered rules h.rules

namespace Reordered

variable {g h : Grammar} (hgh : g.Reordered h) {form form' : List Symbol} {t name : String}
  {l : Lookahead}
include hgh

theorem symm : h.Reordered g := by
  obtain ⟨hstart, rules, hperm, hforall⟩ := hgh
  obtain ⟨rules', hforall', hperm'⟩ := List.perm_comp_forall₂ hperm hforall
  have hback : List.Forall₂ (flip Rule.Reordered) g.rules rules' :=
    hforall'.imp fun a b hab => ⟨hab.1.symm, hab.2.symm⟩
  exact ⟨hstart.symm, rules', hperm'.symm, hback.flip⟩

theorem exists_rule {a : Rule} (ha : a ∈ g.rules) : ∃ b ∈ h.rules, a.Reordered b := by
  obtain ⟨_, rules, hperm, hforall⟩ := hgh
  have ha := hperm.mem_iff.mp ha
  clear hperm
  generalize h.rules = bs at hforall
  induction hforall with
  | nil => exact absurd ha List.not_mem_nil
  | cons hab _ ih =>
    rcases List.mem_cons.mp ha with rfl | ha
    · exact ⟨_, List.mem_cons_self, hab⟩
    · obtain ⟨b, hb, hrel⟩ := ih ha
      exact ⟨b, List.mem_cons_of_mem _ hb, hrel⟩

theorem exists_production {p : Production} (hp : p ∈ g.productions) :
    ∃ q ∈ h.productions, q.lhs = p.lhs ∧ q.body = p.body := by
  obtain ⟨a, ha, hp⟩ := mem_productions_iff.mp hp
  obtain ⟨b, hb, hname, halternatives⟩ := hgh.exists_rule ha
  obtain ⟨q, hq, hbody⟩ :=
    exists_production_of_mem (halternatives.mem_iff.mp (body_of_mem_rule hp))
  refine ⟨q, mem_productions_iff.mpr ⟨b, hb, hq⟩, ?_, hbody⟩
  rw [lhs_of_mem_rule hq, lhs_of_mem_rule hp, hname]

theorem mem_nonterminals (hname : name ∈ g.nonterminals) : name ∈ h.nonterminals := by
  obtain ⟨a, ha, rfl⟩ := List.mem_map.mp hname
  obtain ⟨b, hb, hab, _⟩ := hgh.exists_rule ha
  rw [hab]
  exact List.mem_map_of_mem hb

section Derivations

theorem step (hstep : g.Step form form') : h.Step form form' := by
  cases hstep with
  | expand left right p hp =>
    obtain ⟨q, hq, hlhs, hbody⟩ := hgh.exists_production hp
    have hstep := Step.expand left right q hq
    rw [hlhs, Production.visible, hbody] at hstep
    exact hstep

theorem derives (hderives : g.Derives form form') : h.Derives form form' :=
  Steps.map (f := id) (fun _ _ hab => hgh.step hab) hderives

theorem vanishes (hvanishes : g.Vanishes form) : h.Vanishes form :=
  vanishes_iff_derives.mpr (hgh.derives hvanishes.derives)

theorem begins (hbegins : g.Begins t form) : h.Begins t form := by
  obtain ⟨rest, hderives⟩ := hbegins.exists_derives
  exact begins_iff_derives.mpr ⟨rest, hgh.derives hderives⟩

theorem starts (hstarts : g.Starts form l) : h.Starts form l := by
  cases l with
  | epsilon => exact hgh.vanishes hstarts
  | endOfInput => exact hstarts
  | terminal t => exact hgh.begins hstarts

theorem follows {start : String} (hfollows : g.Follows start l name) :
    h.Follows start l name := by
  obtain ⟨owner, howner, left, right, hderives, hfaces⟩ := hfollows.exists_faces
  exact follows_of_faces (hgh.mem_nonterminals howner) (hgh.derives hderives) hfaces

/-- Which productions a lookahead calls for is read off their bodies. -/
theorem predicts {p q : Production} (hlhs : q.lhs = p.lhs) (hbody : q.body = p.body)
    (hpredicts : g.Predicts l p) : h.Predicts l q := by
  unfold Predicts
  rw [hlhs, hbody, ← hgh.1]
  exact hpredicts.imp (And.imp_right hgh.starts) (And.imp hgh.vanishes hgh.follows)

end Derivations

section Sets

theorem get?_first (name : String) : g.first.get? name = h.first.get? name := by
  apply SetFamily.get?_eq
  · intro name
    rw [keys_first, keys_first]
    exact ⟨hgh.mem_nonterminals, hgh.symm.mem_nonterminals⟩
  · intro name l
    rw [mem_first_iff, mem_first_iff]
    exact ⟨hgh.starts, hgh.symm.starts⟩

theorem get?_follow (start name : String) :
    (g.follow g.first start).get? name = (h.follow h.first start).get? name := by
  apply SetFamily.get?_eq
  · intro name
    rw [keys_follow, keys_follow]
    exact ⟨hgh.mem_nonterminals, hgh.symm.mem_nonterminals⟩
  · intro name l
    rw [mem_follow_iff, mem_follow_iff]
    exact ⟨hgh.follows, hgh.symm.follows⟩

end Sets

end Reordered

section Tables

variable {g h : Grammar}

theorem mem_rule_productions_iff {rule : Rule} {p : Production} :
    p ∈ rule.productions ↔ p.lhs = rule.name ∧ rule.alternatives[p.index]? = some p.body := by
  simp only [Rule.productions, List.mem_map]
  constructor
  · intro hfound
    obtain ⟨⟨body, index⟩, hmem, rfl⟩ := hfound
    exact ⟨rfl, List.mk_mem_zipIdx_iff_getElem?.mp hmem⟩
  · intro hfound
    obtain ⟨hlhs, hget⟩ := hfound
    refine ⟨(p.body, p.index), List.mk_mem_zipIdx_iff_getElem?.mpr hget, ?_⟩
    rw [← hlhs]

/-- No lookahead calls for both bodies. -/
def Apart (g : Grammar) (name : String) (a b : Body) : Prop :=
  ∀ l, g.Predicts l ⟨name, 0, a⟩ → ¬ g.Predicts l ⟨name, 0, b⟩

/-- The table is built just when the alternatives of every rule are apart, each from each. -/
theorem exists_table_iff :
    (∃ table, g.table = .ok table) ↔
      ∀ rule ∈ g.rules, rule.alternatives.Pairwise (g.Apart rule.name) := by
  refine exists_tableFor_iff.trans ?_
  simp only [mem_predictedBy_own_iff]
  constructor
  · intro hunique rule hrule
    rw [List.pairwise_iff_getElem]
    intro i j hi hj hlt l hfirst hsecond
    have hmem {k : Nat} (hk : k < rule.alternatives.length) :
        (⟨rule.name, k, rule.alternatives[k]⟩ : Production) ∈ g.productions :=
      mem_productions_iff.mpr ⟨rule, hrule,
        mem_rule_productions_iff.mpr ⟨rfl, List.getElem?_eq_getElem hk⟩⟩
    have hsame := hunique _ (hmem hi) _ (hmem hj) rfl l hfirst hsecond
    exact absurd (congrArg Production.index hsame) (Nat.ne_of_lt hlt)
  · intro hapart p hp q hq hlhs l hpredicts hpredicts'
    obtain ⟨rule, hrule, hprule⟩ := mem_productions_iff.mp hp
    have hqrule : q ∈ rule.productions := by
      rw [← productionsOf_name hrule, mem_productionsOf_iff, ← hlhs]
      exact ⟨hq, lhs_of_mem_rule hprule⟩
    obtain ⟨hpname, hpbody⟩ := mem_rule_productions_iff.mp hprule
    obtain ⟨hqname, hqbody⟩ := mem_rule_productions_iff.mp hqrule
    obtain ⟨_, i, _⟩ := p
    obtain ⟨_, j, _⟩ := q
    dsimp only at hpname hpbody hqname hqbody
    obtain ⟨hi, rfl⟩ := List.getElem?_eq_some_iff.mp hpbody
    obtain ⟨hj, rfl⟩ := List.getElem?_eq_some_iff.mp hqbody
    subst hpname hqname
    have hpairs := List.pairwise_iff_getElem.mp (hapart rule hrule)
    rcases Nat.lt_trichotomy i j with hlt | rfl | hlt
    · exact absurd hpredicts' (hpairs i j hi hj hlt l hpredicts)
    · rfl
    · exact absurd hpredicts (hpairs j i hj hi hlt l hpredicts')

theorem Reordered.exists_table (hgh : g.Reordered h) (htable : ∃ table, g.table = .ok table) :
    ∃ table, h.table = .ok table := by
  rw [exists_table_iff] at htable ⊢
  intro b hb
  obtain ⟨a, ha, hname, halternatives⟩ := hgh.symm.exists_rule hb
  have hsymm : ∀ {x y}, g.Apart a.name x y → g.Apart a.name y x :=
    fun hxy l hy hx => hxy l hx hy
  have hpairs := (halternatives.pairwise_iff hsymm).mpr (htable a ha)
  rw [hname]
  refine hpairs.imp fun hxy l hx hy => ?_
  exact hxy l (hgh.symm.predicts rfl rfl hx) (hgh.symm.predicts rfl rfl hy)

/-- What one table has a body for in some cell, so has the other. -/
theorem Reordered.body_of_get? (hgh : g.Reordered h) {table table' : Table}
    (htable : g.table = .ok table) (htable' : h.table = .ok table') {name : String}
    {l : Lookahead} {body : Body} (hbody : (table.get? name l).map Production.body = some body) :
    (table'.get? name l).map Production.body = some body := by
  obtain ⟨p, hp, rfl⟩ := Option.map_eq_some_iff.mp hbody
  obtain ⟨hmem, rfl, hpredicts⟩ := (get?_table_iff htable).mp hp
  obtain ⟨q, hq, hlhs, hbody⟩ := hgh.exists_production hmem
  have hcell := get?_of_predicts htable' hq (hgh.predicts hlhs hbody hpredicts)
  rw [← hlhs, hcell]
  exact congrArg some hbody

end Tables

end Grammar

namespace Parse

variable {table table' : Table}
  (hbodies : ∀ name l, (table.get? name l).map Production.body =
    (table'.get? name l).map Production.body)
include hbodies

/-- A step looks at nothing of a production but its body. -/
theorem step_congr (s : State) : step table s = step table' s := by
  obtain ⟨stack, nodes, previous, remaining⟩ := s
  cases stack with
  | nil => rfl
  | cons frame stack =>
    cases frame with
    | bottom => rfl
    | symbol symbol node =>
      cases symbol with
      | epsilon => rfl
      | terminal t => rfl
      | nonterminal name =>
        have hbody := hbodies name
          (State.lookahead ⟨.symbol (.nonterminal name) node :: stack, nodes, previous, remaining⟩)
        simp only [step]
        cases hcell : table.get? name _ with
        | none =>
          rw [hcell] at hbody
          rw [Option.map_eq_none_iff.mp hbody.symm]
        | some p =>
          rw [hcell] at hbody
          obtain ⟨q, hq, hpq⟩ := Option.map_eq_some_iff.mp hbody.symm
          simp only [hq, hpq]

theorem run_congr (n : Nat) (s : State) : run table n s = run table' n s := by
  induction n generalizing s with
  | zero => rfl
  | succ n ih =>
    simp only [run, step_congr hbodies s]
    cases step table' s with
    | next s' => exact ih s'
    | accepted => rfl
    | rejected e => rfl

end Parse

namespace Grammar

variable {g h : Grammar}

theorem Reordered.parse_eq (hgh : g.Reordered h) {table table' : Table}
    (htable : g.table = .ok table) (htable' : h.table = .ok table') (tokens : List Token) :
    ∃ answer, table.parse g.start tokens = some answer ∧
      table'.parse h.start tokens = some answer := by
  have hbodies : ∀ name l, (table.get? name l).map Production.body =
      (table'.get? name l).map Production.body := fun name l => Option.ext fun body =>
    ⟨hgh.body_of_get? htable htable', hgh.symm.body_of_get? htable' htable⟩
  obtain ⟨answer, hanswer⟩ := exists_parse htable tokens
  obtain ⟨answer', hanswer'⟩ := exists_parse htable' tokens
  have hrun := hanswer
  rw [Table.parse, Parse.run_congr hbodies, hgh.1] at hrun
  rw [Parse.run_unique hanswer' hrun] at hanswer'
  exact ⟨answer, hanswer, hanswer'⟩

/-- Grammars that differ in the order of their rules and alternatives only have the same FIRST and
FOLLOW sets, both a table or neither, and with their tables the same answer to every input. -/
theorem order_irrelevant (hgh : g.Reordered h) :
    (∀ name, g.first.get? name = h.first.get? name) ∧
      (∀ start name, (g.follow g.first start).get? name = (h.follow h.first start).get? name) ∧
      ((∃ table, g.table = .ok table) ↔ ∃ table, h.table = .ok table) ∧
      ∀ table table', g.table = .ok table → h.table = .ok table' → ∀ tokens,
        ∃ answer, table.parse g.start tokens = some answer ∧
          table'.parse h.start tokens = some answer := by
  refine ⟨hgh.get?_first, hgh.get?_follow, ⟨hgh.exists_table, hgh.symm.exists_table⟩, ?_⟩
  intro table table' htable htable' tokens
  exact hgh.parse_eq htable htable' tokens

/-- Brackets around any number of brackets. -/
def brackets : Grammar where
  start := "S"
  rules :=
    [⟨"S", [[.terminal "(", .nonterminal "T", .terminal ")"]]⟩,
      ⟨"T", [[.nonterminal "S", .nonterminal "T"], [.epsilon]]⟩]
  distinct := by decide
  start_defined := by decide
  closed := by decide

/-- The same with the rules the other way round, and the alternatives too. -/
def bracketsReversed : Grammar where
  start := "S"
  rules :=
    [⟨"T", [[.epsilon], [.nonterminal "S", .nonterminal "T"]]⟩,
      ⟨"S", [[.terminal "(", .nonterminal "T", .terminal ")"]]⟩]
  distinct := by decide
  start_defined := by decide
  closed := by decide

theorem order_irrelevant_brackets :
    brackets.Reordered bracketsReversed ∧
      ∃ table table', brackets.table = .ok table ∧ bracketsReversed.table = .ok table' ∧
        ∀ tokens, ∃ answer, table.parse "S" tokens = some answer ∧
          table'.parse "S" tokens = some answer := by
  have hreordered : brackets.Reordered bracketsReversed := by
    exact ⟨rfl, _, .swap _ _ [], .cons ⟨rfl, .swap _ _ []⟩ (.cons ⟨rfl, .refl _⟩ .nil)⟩
  obtain ⟨_, _, hbuilt, hparse⟩ := order_irrelevant hreordered
  have htable : ∃ table, brackets.table = .ok table := ⟨_, rfl⟩
  obtain ⟨table', htable'⟩ := hbuilt.mp htable
  obtain ⟨table, htable⟩ := htable
  exact ⟨hreordered, table, table', htable, htable', hparse table table' htable htable'⟩

end Grammar

end TopDown
