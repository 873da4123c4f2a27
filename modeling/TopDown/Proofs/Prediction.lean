import TopDown.Derivation

/-!
What a form can begin with, whether it can vanish, and what can follow a nonterminal, each read off
the productions by rules. A production is predicted by a lookahead that its body can begin with, and
if the body can vanish by one that can follow its nonterminal.
-/
namespace TopDown.Grammar

section Productions

variable {g : Grammar} {p : Production}

theorem mem_productions_iff :
    p ∈ g.productions ↔ ∃ rule ∈ g.rules, p ∈ rule.productions := by
  simp [productions]

theorem lhs_of_mem_rule {rule : Rule} (hp : p ∈ rule.productions) : p.lhs = rule.name := by
  obtain ⟨⟨body, index⟩, _, rfl⟩ := List.mem_map.mp hp
  rfl

theorem body_of_mem_rule {rule : Rule} (hp : p ∈ rule.productions) :
    p.body ∈ rule.alternatives := by
  obtain ⟨⟨body, index⟩, hmem, rfl⟩ := List.mem_map.mp hp
  exact List.fst_mem_of_mem_zipIdx hmem

theorem lhs_mem_nonterminals (hp : p ∈ g.productions) : p.lhs ∈ g.nonterminals := by
  obtain ⟨rule, hrule, hp⟩ := mem_productions_iff.mp hp
  rw [lhs_of_mem_rule hp]
  exact List.mem_map_of_mem hrule

theorem exists_production_of_mem {rule : Rule} {body : Body} (h : body ∈ rule.alternatives) :
    ∃ p ∈ rule.productions, p.body = body := by
  obtain ⟨i, hi, rfl⟩ := List.mem_iff_getElem.mp h
  have hmem : (rule.alternatives[i], i) ∈ rule.alternatives.zipIdx :=
    List.mk_mem_zipIdx_iff_getElem?.mpr (List.getElem?_eq_getElem hi)
  exact ⟨⟨rule.name, i, rule.alternatives[i]⟩, List.mem_map.mpr ⟨_, hmem, rfl⟩, rfl⟩

/-- The alternatives of a rule stand in the order of their numbers. -/
theorem pairwise_productions_rule (rule : Rule) :
    rule.productions.Pairwise fun p q => p.index < q.index := by
  have hindices : rule.productions.map Production.index =
      List.range' 0 rule.alternatives.length := by
    rw [← List.zipIdx_map_snd, Rule.productions, List.map_map]
    rfl
  have hascending : (rule.productions.map Production.index).Pairwise (· < ·) := by
    rw [hindices]
    exact List.pairwise_lt_range'
  exact List.pairwise_map.mp hascending

private theorem find?_rule {rules : List Rule} (hdistinct : (rules.map Rule.name).Nodup)
    {rule : Rule} (hrule : rule ∈ rules) : rules.find? (·.name = rule.name) = some rule := by
  induction rules with
  | nil => exact absurd hrule List.not_mem_nil
  | cons first rest ih =>
    obtain ⟨hfirst, hrest⟩ := List.nodup_cons.mp hdistinct
    rcases List.mem_cons.mp hrule with rfl | hrule
    · exact List.find?_cons_of_pos (decide_eq_true rfl)
    · have hne : first.name ≠ rule.name := by
        intro heq
        rw [heq] at hfirst
        exact hfirst (List.mem_map_of_mem hrule)
      rw [List.find?_cons, decide_eq_false hne]
      exact ih hrest hrule

theorem productionsOf_name {rule : Rule} (hrule : rule ∈ g.rules) :
    g.productionsOf rule.name = rule.productions := by
  rw [productionsOf, find?_rule g.distinct hrule]

theorem pairwise_productionsOf (g : Grammar) (name : String) :
    (g.productionsOf name).Pairwise fun p q => p.index < q.index := by
  rw [productionsOf]
  cases g.rules.find? (·.name = name) with
  | none => exact List.Pairwise.nil
  | some rule => exact pairwise_productions_rule rule

/-- The productions of a name are those with the name on the left. -/
theorem mem_productionsOf_iff {name : String} :
    p ∈ g.productionsOf name ↔ p ∈ g.productions ∧ p.lhs = name := by
  rw [mem_productions_iff]
  constructor
  · intro hp
    rw [productionsOf] at hp
    cases hfind : g.rules.find? (·.name = name) with
    | none =>
      rw [hfind] at hp
      exact absurd hp List.not_mem_nil
    | some rule =>
      rw [hfind] at hp
      have hname := List.find?_some hfind
      refine ⟨⟨rule, List.mem_of_find?_eq_some hfind, hp⟩, ?_⟩
      rw [lhs_of_mem_rule hp]
      exact of_decide_eq_true hname
  · intro hfound
    obtain ⟨⟨rule, hrule, hp⟩, rfl⟩ := hfound
    rw [lhs_of_mem_rule hp, productionsOf_name hrule]
    exact hp

/-- Every nonterminal in a body has a rule. -/
theorem mem_nonterminals_of_mem_body (hp : p ∈ g.productions) {name : String}
    (h : .nonterminal name ∈ p.body) : name ∈ g.nonterminals := by
  obtain ⟨rule, hrule, hp⟩ := mem_productions_iff.mp hp
  have hclosed := g.closed rule hrule p.body (body_of_mem_rule hp) _ h
  exact of_decide_eq_true hclosed

theorem start_mem_nonterminals (g : Grammar) : g.start ∈ g.nonterminals := g.start_defined

theorem mem_terminals_iff {name : String} :
    name ∈ g.terminals ↔ ∃ p ∈ g.productions, .terminal name ∈ p.body := by
  simp only [terminals, List.mem_filterMap]
  constructor
  · intro hfound
    obtain ⟨l, hl, hname⟩ := hfound
    obtain ⟨symbol, hsymbol, hlookahead⟩ := List.mem_filterMap.mp (LookaheadSet.mem_ofList.mp hl)
    obtain ⟨p, hp, hbody⟩ := List.mem_flatMap.mp hsymbol
    refine ⟨p, hp, ?_⟩
    cases symbol with
    | terminal t =>
      rw [← Option.some.inj hlookahead] at hname
      rwa [← Option.some.inj hname]
    | nonterminal n => cases hlookahead
    | epsilon => cases hlookahead
  · intro hfound
    obtain ⟨p, hp, hbody⟩ := hfound
    refine ⟨.terminal name, LookaheadSet.mem_ofList.mpr ?_, rfl⟩
    exact List.mem_filterMap.mpr ⟨_, List.mem_flatMap.mpr ⟨p, hp, hbody⟩, rfl⟩

end Productions

/-- The form derives the empty word. -/
inductive Vanishes (g : Grammar) : List Symbol → Prop where
  | nil : Vanishes g []
  | epsilon {rest : List Symbol} : Vanishes g rest → Vanishes g (.epsilon :: rest)
  | nonterminal {p : Production} {rest : List Symbol} (hp : p ∈ g.productions) :
      Vanishes g p.body → Vanishes g rest → Vanishes g (.nonterminal p.lhs :: rest)

/-- The form derives one that begins with the terminal. -/
inductive Begins (g : Grammar) (t : String) : List Symbol → Prop where
  | terminal (rest : List Symbol) : Begins g t (.terminal t :: rest)
  | epsilon {rest : List Symbol} : Begins g t rest → Begins g t (.epsilon :: rest)
  | inside {p : Production} (hp : p ∈ g.productions) (rest : List Symbol) :
      Begins g t p.body → Begins g t (.nonterminal p.lhs :: rest)
  | past {p : Production} {rest : List Symbol} (hp : p ∈ g.productions) :
      Vanishes g p.body → Begins g t rest → Begins g t (.nonterminal p.lhs :: rest)

/-- The lookahead tells how a form starts: with a terminal, or by vanishing. -/
def Starts (g : Grammar) (form : List Symbol) : Lookahead → Prop
  | .epsilon => g.Vanishes form
  | .endOfInput => False
  | .terminal t => g.Begins t form

/-- What can come after a nonterminal when derivations start at the given name. -/
inductive Follows (g : Grammar) (start : String) : Lookahead → String → Prop where
  | start (h : start ∈ g.nonterminals) : Follows g start .endOfInput start
  | beginning {p : Production} {left right : List Symbol} {name t : String}
      (hp : p ∈ g.productions) (hbody : p.body = left ++ .nonterminal name :: right)
      (h : g.Begins t right) : Follows g start (.terminal t) name
  | last {p : Production} {left right : List Symbol} {name : String} {l : Lookahead}
      (hp : p ∈ g.productions) (hbody : p.body = left ++ .nonterminal name :: right)
      (h : g.Vanishes right) : Follows g start l p.lhs → Follows g start l name

/-- The lookahead calls for the production. -/
def Predicts (g : Grammar) (l : Lookahead) (p : Production) : Prop :=
  (l ≠ .epsilon ∧ g.Starts p.body l) ∨ (g.Vanishes p.body ∧ g.Follows g.start l p.lhs)

section Forms

variable {g : Grammar} {t : String} {left right : List Symbol}

theorem Vanishes.append (hleft : g.Vanishes left) (hright : g.Vanishes right) :
    g.Vanishes (left ++ right) := by
  induction hleft with
  | nil => exact hright
  | epsilon _ ih => exact .epsilon ih
  | nonterminal hp hbody _ _ ih => exact .nonterminal hp hbody ih

theorem Begins.append_right (h : g.Begins t left) (right : List Symbol) :
    g.Begins t (left ++ right) := by
  induction h with
  | terminal rest => exact .terminal (rest ++ right)
  | epsilon _ ih => exact .epsilon ih
  | inside hp rest hbody _ => exact .inside hp (rest ++ right) hbody
  | past hp hbody _ ih => exact .past hp hbody ih

theorem Begins.append_left (hleft : g.Vanishes left) (hright : g.Begins t right) :
    g.Begins t (left ++ right) := by
  induction hleft with
  | nil => exact hright
  | epsilon _ ih => exact .epsilon ih
  | nonterminal hp hbody _ _ ih => exact .past hp hbody ih

theorem vanishes_append_iff :
    g.Vanishes (left ++ right) ↔ g.Vanishes left ∧ g.Vanishes right := by
  refine ⟨fun h => ?_, fun h => h.1.append h.2⟩
  induction left with
  | nil => exact ⟨.nil, h⟩
  | cons symbol rest ih =>
    cases h with
    | epsilon h => exact ⟨.epsilon (ih h).1, (ih h).2⟩
    | nonterminal hp hbody h => exact ⟨.nonterminal hp hbody (ih h).1, (ih h).2⟩

theorem begins_append_iff :
    g.Begins t (left ++ right) ↔ g.Begins t left ∨ (g.Vanishes left ∧ g.Begins t right) := by
  constructor
  · intro h
    induction left with
    | nil => exact Or.inr ⟨.nil, h⟩
    | cons symbol rest ih =>
      cases h with
      | terminal => exact Or.inl (.terminal rest)
      | epsilon h =>
        rcases ih h with h | ⟨hv, h⟩
        · exact Or.inl (.epsilon h)
        · exact Or.inr ⟨.epsilon hv, h⟩
      | inside hp _ hbody => exact Or.inl (.inside hp rest hbody)
      | past hp hbody h =>
        rcases ih h with h | ⟨hv, h⟩
        · exact Or.inl (.past hp hbody h)
        · exact Or.inr ⟨.nonterminal hp hbody hv, h⟩
  · intro hcase
    rcases hcase with h | ⟨hv, h⟩
    · exact h.append_right right
    · exact .append_left hv h

theorem not_vanishes_terminal (t : String) (rest : List Symbol) :
    ¬ g.Vanishes (.terminal t :: rest) := by
  intro h
  cases h

/-- The rules only look at the symbols that stand for something. -/
theorem vanishes_filter_iff {form : List Symbol} :
    g.Vanishes (form.filter (· ≠ .epsilon)) ↔ g.Vanishes form := by
  induction form with
  | nil => exact Iff.rfl
  | cons symbol rest ih =>
    cases symbol with
    | terminal t =>
      exact iff_of_false (not_vanishes_terminal t _) (not_vanishes_terminal t _)
    | epsilon =>
      refine ih.trans ⟨.epsilon, fun h => ?_⟩
      cases h with
      | epsilon h => exact h
    | nonterminal name =>
      change g.Vanishes (.nonterminal name :: rest.filter (· ≠ .epsilon)) ↔ _
      constructor
      · intro h
        cases h with
        | nonterminal hp hbody h => exact .nonterminal hp hbody (ih.mp h)
      · intro h
        cases h with
        | nonterminal hp hbody h => exact .nonterminal hp hbody (ih.mpr h)

theorem begins_filter_iff {form : List Symbol} :
    g.Begins t (form.filter (· ≠ .epsilon)) ↔ g.Begins t form := by
  induction form with
  | nil => exact Iff.rfl
  | cons symbol rest ih =>
    cases symbol with
    | terminal s =>
      change g.Begins t (.terminal s :: rest.filter (· ≠ .epsilon)) ↔ _
      constructor
      · intro h
        cases h with
        | terminal => exact .terminal rest
      · intro h
        cases h with
        | terminal => exact .terminal _
    | epsilon =>
      refine ih.trans ⟨.epsilon, fun h => ?_⟩
      cases h with
      | epsilon h => exact h
    | nonterminal name =>
      change g.Begins t (.nonterminal name :: rest.filter (· ≠ .epsilon)) ↔ _
      constructor
      · intro h
        cases h with
        | inside hp _ hbody => exact .inside hp rest hbody
        | past hp hbody h => exact .past hp hbody (ih.mp h)
      · intro h
        cases h with
        | inside hp _ hbody => exact .inside hp _ hbody
        | past hp hbody h => exact .past hp hbody (ih.mpr h)

end Forms

end TopDown.Grammar
