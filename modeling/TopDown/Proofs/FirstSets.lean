import TopDown.Proofs.Prediction
import TopDown.Proofs.SetGrowth

/-!
The FIRST sets of a grammar are exact: a terminal is in the set of a nonterminal if the nonterminal
can begin with it, the empty word if the nonterminal can vanish, and nothing else is. The passes of
the computation end within their bound for that.
-/
namespace TopDown

/-- A set that has the empty word gives way to what comes after. -/
theorem LookaheadSet.mem_past_epsilon_iff {set after : LookaheadSet} {l : Lookahead} :
    l ∈ (if .epsilon ∈ set then set.erase .epsilon ∪ after else set) ↔
      (l ∈ set ∧ l ≠ .epsilon) ∨ (.epsilon ∈ set ∧ l ∈ after) := by
  by_cases hepsilon : .epsilon ∈ set
  · rw [if_pos hepsilon, mem_union, mem_erase]
    exact or_congr_right (and_iff_right hepsilon).symm
  · rw [if_neg hepsilon]
    constructor
    · intro h
      have hne : l ≠ .epsilon := fun heq => hepsilon (heq ▸ h)
      exact Or.inl ⟨h, hne⟩
    · intro hcase
      rcases hcase with ⟨h, _⟩ | ⟨h, _⟩
      · exact h
      · exact absurd h hepsilon

section FirstOf

variable {first : SetFamily}

theorem mem_firstOf_nil {l : Lookahead} : l ∈ firstOf first [] ↔ l = .epsilon :=
  LookaheadSet.mem_singleton

theorem mem_firstOf_terminal {l : Lookahead} {t : String} {rest : List Symbol} :
    l ∈ firstOf first (.terminal t :: rest) ↔ l = .terminal t := LookaheadSet.mem_singleton

theorem mem_firstOf_nonterminal {l : Lookahead} {name : String} {rest : List Symbol} :
    l ∈ firstOf first (.nonterminal name :: rest) ↔
      (l ∈ first.membersOf name ∧ l ≠ .epsilon) ∨
        (.epsilon ∈ first.membersOf name ∧ l ∈ firstOf first rest) := by
  simp only [firstOf, SetFamily.membersOf]
  cases first.get? name with
  | none =>
    constructor
    · intro h
      exact absurd h (LookaheadSet.not_mem_empty l)
    · intro hcase
      rcases hcase with ⟨h, _⟩ | ⟨h, _⟩
      · exact absurd h (LookaheadSet.not_mem_empty l)
      · exact absurd h (LookaheadSet.not_mem_empty _)
  | some set =>
    simp only [Option.getD_some]
    exact LookaheadSet.mem_past_epsilon_iff

/-- What a form begins with comes from the sets, from its terminals, or is the empty word. -/
theorem firstOf_origin (allowed : Lookahead → Prop)
    (hsets : ∀ name, ∀ l ∈ first.membersOf name, allowed l) {form : List Symbol}
    (hterminals : ∀ t, .terminal t ∈ form → allowed (.terminal t)) {l : Lookahead}
    (hl : l ∈ firstOf first form) : l = .epsilon ∨ allowed l := by
  induction form with
  | nil => exact Or.inl (mem_firstOf_nil.mp hl)
  | cons symbol rest ih =>
    have hrest := ih fun t ht => hterminals t (List.mem_cons_of_mem _ ht)
    cases symbol with
    | terminal t =>
      rw [mem_firstOf_terminal.mp hl]
      exact Or.inr (hterminals t List.mem_cons_self)
    | epsilon => exact hrest hl
    | nonterminal name =>
      rcases mem_firstOf_nonterminal.mp hl with ⟨hl, _⟩ | ⟨_, hl⟩
      · exact Or.inr (hsets name l hl)
      · exact hrest hl

end FirstOf

namespace Grammar

variable {g : Grammar}

/-- What a nonterminal's body starts with, the nonterminal starts with. -/
theorem Starts.of_body {p : Production} (hp : p ∈ g.productions) {l : Lookahead}
    (h : g.Starts p.body l) : g.Starts [.nonterminal p.lhs] l := by
  cases l with
  | epsilon => exact .nonterminal hp h .nil
  | endOfInput => exact h
  | terminal t => exact .inside hp [] h

theorem Starts.epsilon {rest : List Symbol} {l : Lookahead} (h : g.Starts rest l) :
    g.Starts (.epsilon :: rest) l := by
  cases l with
  | epsilon => exact Vanishes.epsilon h
  | endOfInput => exact h
  | terminal t => exact Begins.epsilon h

theorem Starts.append_right {left : List Symbol} {l : Lookahead} (h : g.Starts left l)
    (hne : l ≠ .epsilon) (right : List Symbol) : g.Starts (left ++ right) l := by
  cases l with
  | epsilon => exact absurd rfl hne
  | endOfInput => exact h
  | terminal t => exact Begins.append_right h right

theorem Starts.append_left {left right : List Symbol} {l : Lookahead}
    (hleft : g.Vanishes left) (h : g.Starts right l) : g.Starts (left ++ right) l := by
  cases l with
  | epsilon => exact Vanishes.append hleft h
  | endOfInput => exact h
  | terminal t => exact Begins.append_left hleft h

theorem starts_of_mem_firstOf {sets : SetFamily}
    (hsets : ∀ name, ∀ l ∈ sets.membersOf name, g.Starts [.nonterminal name] l)
    {form : List Symbol} {l : Lookahead} (hl : l ∈ firstOf sets form) : g.Starts form l := by
  induction form with
  | nil =>
    rw [mem_firstOf_nil.mp hl]
    exact Vanishes.nil
  | cons symbol rest ih =>
    cases symbol with
    | terminal t =>
      rw [mem_firstOf_terminal.mp hl]
      exact Begins.terminal rest
    | epsilon => exact .epsilon (ih hl)
    | nonterminal name =>
      rcases mem_firstOf_nonterminal.mp hl with ⟨hl, hne⟩ | ⟨hepsilon, hl⟩
      · have hname := hsets name l hl
        exact hname.append_right hne rest
      · have hname : g.Vanishes [.nonterminal name] := hsets name .epsilon hepsilon
        exact .append_left hname (ih hl)

/-- The members that the sets of the FIRST passes can have. -/
def firstPool (g : Grammar) : List Lookahead := .epsilon :: g.terminals.map .terminal

theorem mem_firstPool_of_mem_firstOf {sets : SetFamily} (hsets : sets.Inside g.firstPool)
    {p : Production} (hp : p ∈ g.productions) {l : Lookahead} (hl : l ∈ firstOf sets p.body) :
    l ∈ g.firstPool := by
  have horigin := firstOf_origin (· ∈ g.firstPool)
    (fun name l hl => hsets.of_membersOf hl) (fun t ht => ?_) hl
  · rcases horigin with rfl | hl
    · exact List.mem_cons_self
    · exact hl
  · have hterminal : t ∈ g.terminals := mem_terminals_iff.mpr ⟨p, hp, ht⟩
    exact List.mem_cons_of_mem _ (List.mem_map_of_mem hterminal)

theorem first_eq_settle (g : Grammar) :
    g.first = (settle (SetFamily.scan Production.lhs
      (fun first p => firstOf first p.body) g.productions)
      (First.passBound g) (.constant g.nonterminals ∅)).value := rfl

theorem keys_first (g : Grammar) : g.first.keys = g.nonterminals := by
  rw [first_eq_settle, SetFamily.keys_settle, NameMap.keys_constant]

/-- The FIRST passes end by themselves. -/
theorem settles_first (g : Grammar) :
    Settles (First.pass g) (.constant g.nonterminals ∅) g.first g.firstSettled.passes := by
  apply SetFamily.scan_settles g.firstPool
  · intro sets hsets p hp l hl
    exact mem_firstPool_of_mem_firstOf hsets hp hl
  · intro entry hentry l hl
    obtain ⟨name, _, rfl⟩ := List.mem_map.mp hentry
    exact absurd hl (LookaheadSet.not_mem_empty l)
  · rw [NameMap.keys_constant]
    simp only [firstPool, List.length_cons, List.length_map, First.passBound]
    omega

/-- A further FIRST pass changes nothing. -/
theorem pass_first (g : Grammar) : First.pass g g.first = g.first := (settles_first g).fixed

theorem mem_first_of_mem_firstOf {p : Production} (hp : p ∈ g.productions) {l : Lookahead}
    (hl : l ∈ firstOf g.first p.body) : l ∈ g.first.membersOf p.lhs := by
  have hkey : p.lhs ∈ g.first.keys := by
    rw [keys_first]
    exact lhs_mem_nonterminals hp
  have hpass : SetFamily.scan Production.lhs (fun first p => firstOf first p.body)
      g.productions g.first = g.first := pass_first g
  exact SetFamily.contribution_mem_of_scan_eq hpass hp hkey hl

theorem starts_of_mem_first {name : String} {l : Lookahead} (hl : l ∈ g.first.membersOf name) :
    g.Starts [.nonterminal name] l := by
  rw [first_eq_settle] at hl
  refine SetFamily.settle_within (fun name l => g.Starts [.nonterminal name] l)
    (First.passBound g) ?_ ?_ name l hl
  · intro sets hsets p hp l hl
    exact .of_body hp (starts_of_mem_firstOf hsets hl)
  · intro name l hl
    exact absurd hl (SetFamily.mem_membersOf_constant_empty _ name l)

theorem Vanishes.mem_firstOf {form : List Symbol} (h : g.Vanishes form) :
    .epsilon ∈ firstOf g.first form := by
  induction h with
  | nil => exact mem_firstOf_nil.mpr rfl
  | epsilon _ ih => exact ih
  | nonterminal hp _ _ ihbody ihrest =>
    exact mem_firstOf_nonterminal.mpr (Or.inr ⟨mem_first_of_mem_firstOf hp ihbody, ihrest⟩)

theorem Begins.mem_firstOf {t : String} {form : List Symbol} (h : g.Begins t form) :
    .terminal t ∈ firstOf g.first form := by
  induction h with
  | terminal rest => exact mem_firstOf_terminal.mpr rfl
  | epsilon _ ih => exact ih
  | inside hp rest _ ih =>
    refine mem_firstOf_nonterminal.mpr (Or.inl ⟨mem_first_of_mem_firstOf hp ih, ?_⟩)
    exact Lookahead.noConfusion
  | past hp hbody _ ih =>
    exact mem_firstOf_nonterminal.mpr
      (Or.inr ⟨mem_first_of_mem_firstOf hp hbody.mem_firstOf, ih⟩)

/-- With the grammar's FIRST sets a form begins with exactly what the rules say. -/
theorem mem_firstOf_first_iff {form : List Symbol} {l : Lookahead} :
    l ∈ firstOf g.first form ↔ g.Starts form l := by
  constructor
  · exact starts_of_mem_firstOf fun name l hl => starts_of_mem_first hl
  · intro h
    cases l with
    | epsilon => exact Vanishes.mem_firstOf h
    | endOfInput => exact h.elim
    | terminal t => exact Begins.mem_firstOf h

theorem mem_first_iff {name : String} {l : Lookahead} :
    l ∈ g.first.membersOf name ↔ g.Starts [.nonterminal name] l := by
  constructor
  · exact starts_of_mem_first
  · intro h
    have hmem := mem_firstOf_nonterminal.mp (mem_firstOf_first_iff.mpr h)
    rcases hmem with ⟨hl, _⟩ | ⟨hepsilon, hl⟩
    · exact hl
    · rw [mem_firstOf_nil.mp hl]
      exact hepsilon

end Grammar

end TopDown
