import TopDown.Proofs.Toy.ConcreteSyntax

/-!
Reading programs off derivations. Tokens whose kinds the grammar derives are taken apart nonterminal
by nonterminal, each nonterminal giving the construct it stands for. Expressions are read by
induction on the height of their derivation, lists by the same induction for any kind of element.
-/
namespace TopDown.Toy

open TopDown.Derivation Phrase

/-- The tokens' kinds are derived from the form, with trees of no more than that height. -/
def Spells (height : Nat) (form : List Symbol) (tokens : List Token) : Prop :=
  ∃ ds, Forest grammar form ds ∧ words ds = Token.kinds tokens ∧ heights ds ≤ height

namespace Spells

variable {height : Nat} {rest : List Symbol} {name kind : String} {tokens : List Token}

theorem nil_eq (h : Spells height [] tokens) : tokens = [] := by
  obtain ⟨ds, hforest, hwords, _⟩ := h
  cases hforest with
  | nil => exact List.map_eq_nil_iff.mp hwords.symm

theorem epsilon_eq (h : Spells height [.epsilon] tokens) : tokens = [] := by
  obtain ⟨ds, hforest, hwords, hheight⟩ := h
  cases hforest with
  | epsilon hforest => exact nil_eq ⟨ds, hforest, hwords, hheight⟩

/-- A terminal is spelled by one token. -/
theorem terminal (h : Spells height (.terminal kind :: rest) tokens) :
    ∃ token more, tokens = token :: more ∧ token.kind = kind ∧ Spells height rest more := by
  obtain ⟨ds, hforest, hwords, hheight⟩ := h
  cases hforest with
  | terminal _ hforest =>
    obtain ⟨token, more, rfl, hkind, hmore⟩ := List.map_eq_cons_iff.mp hwords.symm
    exact ⟨token, more, rfl, hkind, _, hforest, hmore.symm, (Nat.max_le.mp hheight).2⟩

/-- The tokens of a nonterminal come before those of the rest. -/
theorem split (h : Spells height (.nonterminal name :: rest) tokens) :
    ∃ inner more, tokens = inner ++ more ∧ Spells height [.nonterminal name] inner ∧
      Spells height rest more := by
  obtain ⟨ds, hforest, hwords, hheight⟩ := h
  cases hforest with
  | @nonterminal p _ children ds hp hbody hforest =>
    obtain ⟨inner, more, rfl, hinner, hmore⟩ := List.map_eq_append_iff.mp hwords.symm
    obtain ⟨hchildren, hrest⟩ := Nat.max_le.mp hheight
    refine ⟨inner, more, rfl, ⟨_, .nonterminal hp hbody .nil, ?_, ?_⟩, ds, hforest, hmore.symm,
      hrest⟩
    · simp only [words, List.append_nil]
      exact hinner.symm
    · exact Nat.max_le.mpr ⟨hchildren, Nat.zero_le _⟩

theorem last (h : Spells height [.terminal kind] tokens) :
    ∃ token, tokens = [token] ∧ token.kind = kind := by
  obtain ⟨token, more, rfl, hkind, h⟩ := h.terminal
  rw [h.nil_eq]
  exact ⟨token, rfl, hkind⟩

/-- A nonterminal is spelled by one of its alternatives, with lower trees. -/
theorem expand (h : Spells height [.nonterminal name] tokens) :
    ∃ body ∈ grammar.alternatives name, ∃ lower < height, Spells lower body tokens := by
  obtain ⟨ds, hforest, hwords, hheight⟩ := h
  cases hforest with
  | @nonterminal p _ children ds hp hbody hforest =>
    cases hforest with
    | nil =>
      obtain ⟨hchildren, _⟩ := Nat.max_le.mp hheight
      simp only [words, word, List.append_nil] at hwords
      exact ⟨p.body, Grammar.body_mem_alternatives hp, heights children, hchildren, children, hbody,
        hwords, Nat.le_refl _⟩

end Spells

variable {height : Nat} {tokens : List Token}

theorem exists_scalar (h : Spells height [.nonterminal "ScalarType"] tokens) :
    ∃ type : Scalar, Written [type.phrase] tokens := by
  -- One case for each alternative; the last pattern says that there are no more.
  obtain ⟨_, _ | ⟨_, _ | ⟨_, _ | ⟨_, ⟨⟩⟩⟩⟩, _, _, h⟩ := h.expand
  all_goals obtain ⟨token, rfl, hkind⟩ := h.last
  · exact ⟨.int, .single (.plain hkind .nil)⟩
  · exact ⟨.float, .single (.plain hkind .nil)⟩
  · exact ⟨.char, .single (.plain hkind .nil)⟩

theorem exists_operator {level : Level} (h : Spells height [.nonterminal level.operator] tokens) :
    ∃ operator : Operator level, Written [operator.phrase] tokens := by
  cases level with
  | sum =>
    obtain ⟨_, _ | ⟨_, _ | ⟨_, ⟨⟩⟩⟩, _, _, h⟩ := h.expand
    all_goals obtain ⟨token, rfl, hkind⟩ := h.last
    · exact ⟨.plus, .single (.plain hkind .nil)⟩
    · exact ⟨.minus, .single (.plain hkind .nil)⟩
  | product =>
    obtain ⟨_, _ | ⟨_, _ | ⟨_, ⟨⟩⟩⟩, _, _, h⟩ := h.expand
    all_goals obtain ⟨token, rfl, hkind⟩ := h.last
    · exact ⟨.times, .single (.plain hkind .nil)⟩
    · exact ⟨.divided, .single (.plain hkind .nil)⟩

theorem exists_call (h : Spells height [.nonterminal "Call"] tokens) :
    ∃ name, Written [callPhrase name] tokens := by
  obtain ⟨_, _ | ⟨_, ⟨⟩⟩, _, _, h⟩ := h.expand
  obtain ⟨_, _, rfl, hcall, h⟩ := h.terminal
  obtain ⟨name, _, rfl, hname, h⟩ := h.terminal
  obtain ⟨_, _, rfl, hopen, h⟩ := h.terminal
  obtain ⟨_, rfl, hclose⟩ := h.last
  exact ⟨name.lexeme, .single (.plain hcall (.spelled hname (.plain hopen (.plain hclose .nil))))⟩

theorem exists_literal (h : Spells height [.nonterminal "Literal"] tokens) :
    ∃ kind : Scalar,
      Written [.node "Literal" kind.alternative [plain kind.literal]] tokens := by
  obtain ⟨_, _ | ⟨_, _ | ⟨_, _ | ⟨_, ⟨⟩⟩⟩⟩, _, _, h⟩ := h.expand
  all_goals obtain ⟨token, rfl, hkind⟩ := h.last
  · exact ⟨.int, .single (.plain hkind .nil)⟩
  · exact ⟨.float, .single (.plain hkind .nil)⟩
  · exact ⟨.char, .single (.plain hkind .nil)⟩

/-- What is spelled below some height stands for expressions. -/
def ReadsBelow (height : Nat) : Prop :=
  ∀ lower < height, ∀ (category : Category) (tokens : List Token),
    Spells lower [.nonterminal category.nonterminal] tokens →
      ∃ e : Expr category, Written [e.phrase] tokens

theorem exists_index {bound : Nat} (hbelow : ReadsBelow bound) (hle : height ≤ bound)
    (h : Spells height [.nonterminal "IndexSuffix"] tokens) :
    ∃ index : Option Expression, Written [indexPhrase (index.map Expr.phrase)] tokens := by
  obtain ⟨_, _ | ⟨_, _ | ⟨_, ⟨⟩⟩⟩, lower, hlower, h⟩ := h.expand
  · obtain ⟨_, _, rfl, hopen, h⟩ := h.terminal
    obtain ⟨inner, _, rfl, hinner, h⟩ := h.split
    obtain ⟨_, rfl, hclose⟩ := h.last
    obtain ⟨index, hindex⟩ := hbelow lower (by omega) (.chain .sum) inner hinner
    exact ⟨some index, .single (.plain hopen (hindex.append (.plain hclose .nil)))⟩
  · rw [h.epsilon_eq]
    exact ⟨none, .single .nil⟩

theorem exists_factor (hbelow : ReadsBelow height)
    (h : Spells height [.nonterminal "Factor"] tokens) :
    ∃ e : Expr .factor, Written [e.phrase] tokens := by
  obtain ⟨_, _ | ⟨_, _ | ⟨_, _ | ⟨_, _ | ⟨_, ⟨⟩⟩⟩⟩⟩, lower, hlower, h⟩ := h.expand
  · obtain ⟨_, _ | ⟨_, ⟨⟩⟩, least, hleast, h⟩ := h.expand
    obtain ⟨name, _, rfl, hname, h⟩ := h.terminal
    obtain ⟨index, hindex⟩ := exists_index hbelow (by omega) h
    cases index with
    | none => exact ⟨.name name.lexeme, .single (.single (.spelled hname hindex))⟩
    | some index => exact ⟨.element name.lexeme index, .single (.single (.spelled hname hindex))⟩
  · obtain ⟨kind, hkind⟩ := exists_literal h
    exact ⟨.literal kind, .single hkind⟩
  · obtain ⟨_, _, rfl, hopen, h⟩ := h.terminal
    obtain ⟨inner, _, rfl, hinner, h⟩ := h.split
    obtain ⟨_, rfl, hclose⟩ := h.last
    obtain ⟨e, he⟩ := hbelow lower hlower (.chain .sum) inner hinner
    exact ⟨.group e, .single (.plain hopen (he.append (.plain hclose .nil)))⟩
  · obtain ⟨name, hname⟩ := exists_call h
    exact ⟨.call name, .single hname⟩

/-- Chains, tails and factors are read off any derivation. -/
theorem readsBelow (height : Nat) : ReadsBelow height := by
  induction height with
  | zero =>
    intro lower hlower
    omega
  | succ height ih =>
    intro lower hlower category tokens h
    have hbelow : ReadsBelow lower := fun least hleast => ih least (by omega)
    cases category with
    | chain level =>
      obtain ⟨body, hbody, least, hleast, h⟩ := h.expand
      rw [alternatives_chain, List.mem_singleton] at hbody
      subst hbody
      obtain ⟨first, _, rfl, hfirst, h⟩ := h.split
      obtain ⟨operand, hoperand⟩ := hbelow least hleast _ first hfirst
      obtain ⟨rest, hrest⟩ := hbelow least hleast _ _ h
      exact ⟨.chain operand rest, .single (hoperand.append hrest)⟩
    | tail level =>
      obtain ⟨body, hbody, least, hleast, h⟩ := h.expand
      rw [alternatives_tail, List.mem_cons, List.mem_singleton] at hbody
      rcases hbody with rfl | rfl
      · obtain ⟨sign, _, rfl, hsign, h⟩ := h.split
        obtain ⟨first, _, rfl, hfirst, h⟩ := h.split
        obtain ⟨operator, hoperator⟩ := exists_operator hsign
        obtain ⟨operand, hoperand⟩ := hbelow least hleast _ first hfirst
        obtain ⟨rest, hrest⟩ := hbelow least hleast _ _ h
        exact ⟨.more operator operand rest, .single (hoperator.append (hoperand.append hrest))⟩
      · rw [h.epsilon_eq]
        exact ⟨.done, .single .nil⟩
    | factor => exact exists_factor hbelow h

theorem exists_expression (h : Spells height [.nonterminal "Expression"] tokens) :
    ∃ e : Expression, Written [e.phrase] tokens :=
  readsBelow (height + 1) height (Nat.lt_succ_self height) (.chain .sum) tokens h

theorem exists_typeSpec (h : Spells height [.nonterminal "TypeSpec"] tokens) :
    ∃ spec : TypeSpec, Written [spec.phrase] tokens := by
  obtain ⟨_, _ | ⟨_, _ | ⟨_, ⟨⟩⟩⟩, _, _, h⟩ := h.expand
  · obtain ⟨type, htype⟩ := exists_scalar h
    exact ⟨.scalar type, .single htype⟩
  · obtain ⟨_, _, rfl, harray, h⟩ := h.terminal
    obtain ⟨_, _, rfl, hopen, h⟩ := h.terminal
    obtain ⟨size, _, rfl, hsize, h⟩ := h.terminal
    obtain ⟨_, _, rfl, hclose, h⟩ := h.terminal
    obtain ⟨element, helement⟩ := exists_scalar h
    exact ⟨.array size.lexeme element,
      .single (.plain harray (.plain hopen (.spelled hsize (.plain hclose helement))))⟩

theorem exists_initial (h : Spells height [.nonterminal "Initializer"] tokens) :
    ∃ initial : Option Expression, Written [initialPhrase initial] tokens := by
  obtain ⟨_, _ | ⟨_, _ | ⟨_, ⟨⟩⟩⟩, _, _, h⟩ := h.expand
  · obtain ⟨_, _, rfl, harrow, h⟩ := h.terminal
    obtain ⟨value, hvalue⟩ := exists_expression h
    exact ⟨some value, .single (.plain harrow hvalue)⟩
  · rw [h.epsilon_eq]
    exact ⟨none, .single .nil⟩

theorem exists_declaration (h : Spells height [.nonterminal "Declaration"] tokens) :
    ∃ declared : Declaration, Written [declared.phrase] tokens := by
  obtain ⟨_, _ | ⟨_, ⟨⟩⟩, _, _, h⟩ := h.expand
  obtain ⟨_, _, rfl, htype, h⟩ := h.split
  obtain ⟨name, _, rfl, hname, h⟩ := h.terminal
  obtain ⟨_, _, rfl, hvalue, h⟩ := h.split
  obtain ⟨_, rfl, hend⟩ := h.last
  obtain ⟨spec, hspec⟩ := exists_typeSpec htype
  obtain ⟨initial, hinitial⟩ := exists_initial hvalue
  exact ⟨⟨spec, name.lexeme, initial⟩,
    .single (hspec.append (.spelled hname (hinitial.append (.plain hend .nil))))⟩

theorem exists_value (h : Spells height [.nonterminal "ReturnValue"] tokens) :
    ∃ value : Option Expression, Written [valuePhrase value] tokens := by
  obtain ⟨_, _ | ⟨_, _ | ⟨_, ⟨⟩⟩⟩, _, _, h⟩ := h.expand
  · obtain ⟨value, hvalue⟩ := exists_expression h
    exact ⟨some value, .single hvalue⟩
  · rw [h.epsilon_eq]
    exact ⟨none, .single .nil⟩

theorem exists_statement (h : Spells height [.nonterminal "Statement"] tokens) :
    ∃ s : Statement, Written [s.phrase] tokens := by
  obtain ⟨_, _ | ⟨_, _ | ⟨_, _ | ⟨_, _ | ⟨_, ⟨⟩⟩⟩⟩⟩, _, _, h⟩ := h.expand
  · obtain ⟨declared, hdeclared⟩ := exists_declaration h
    exact ⟨.declaration declared, .single hdeclared⟩
  · obtain ⟨_, _ | ⟨_, ⟨⟩⟩, lower, _, h⟩ := h.expand
    obtain ⟨name, _, rfl, hname, h⟩ := h.terminal
    obtain ⟨_, _, rfl, hsuffix, h⟩ := h.split
    obtain ⟨_, _, rfl, harrow, h⟩ := h.terminal
    obtain ⟨_, _, rfl, hright, h⟩ := h.split
    obtain ⟨_, rfl, hend⟩ := h.last
    obtain ⟨index, hindex⟩ := exists_index (readsBelow lower) (Nat.le_refl lower) hsuffix
    obtain ⟨value, hvalue⟩ := exists_expression hright
    refine ⟨.assignment name.lexeme index value, .single (.single (.spelled hname ?_))⟩
    exact hindex.append (.plain harrow (hvalue.append (.plain hend .nil)))
  · obtain ⟨_, _ | ⟨_, ⟨⟩⟩, _, _, h⟩ := h.expand
    obtain ⟨_, _, rfl, hreturn, h⟩ := h.terminal
    obtain ⟨_, _, rfl, hright, h⟩ := h.split
    obtain ⟨_, rfl, hend⟩ := h.last
    obtain ⟨value, hvalue⟩ := exists_value hright
    exact ⟨.returning value,
      .single (.single (.plain hreturn (hvalue.append (.plain hend .nil))))⟩
  · obtain ⟨_, _ | ⟨_, ⟨⟩⟩, _, _, h⟩ := h.expand
    obtain ⟨_, _, rfl, hcall, h⟩ := h.split
    obtain ⟨_, rfl, hend⟩ := h.last
    obtain ⟨name, hname⟩ := exists_call hcall
    exact ⟨.call name, .single (.single (hname.append (.plain hend .nil)))⟩

/-- A list is read element by element. -/
theorem exists_list {α : Type} {phrase : α → Phrase} {name element : String}
    (hbodies : grammar.alternatives name = [[.nonterminal element, .nonterminal name], [.epsilon]])
    (helement : ∀ height tokens, Spells height [.nonterminal element] tokens →
      ∃ a, Written [phrase a] tokens)
    (h : Spells height [.nonterminal name] tokens) :
    ∃ items : List α, Written [listPhrase name (items.map phrase)] tokens := by
  induction height using Nat.strongRecOn generalizing tokens with
  | ind height ih =>
    obtain ⟨body, hbody, lower, hlower, h⟩ := h.expand
    rw [hbodies, List.mem_cons, List.mem_singleton] at hbody
    rcases hbody with rfl | rfl
    · obtain ⟨first, _, rfl, hfirst, h⟩ := h.split
      obtain ⟨a, ha⟩ := helement lower first hfirst
      obtain ⟨items, hitems⟩ := ih lower hlower h
      exact ⟨a :: items, .single (ha.append hitems)⟩
    · rw [h.epsilon_eq]
      exact ⟨[], .single .nil⟩

theorem exists_block (h : Spells height [.nonterminal "Block"] tokens) :
    ∃ body, Written [blockPhrase body] tokens := by
  obtain ⟨_, _ | ⟨_, ⟨⟩⟩, _, _, h⟩ := h.expand
  obtain ⟨_, _, rfl, hopen, h⟩ := h.terminal
  obtain ⟨_, _, rfl, hlist, h⟩ := h.split
  obtain ⟨_, rfl, hclose⟩ := h.last
  obtain ⟨body, hbody⟩ := exists_list rfl (fun _ _ => exists_statement) hlist
  exact ⟨body, .single (.plain hopen (hbody.append (.plain hclose .nil)))⟩

theorem exists_returns (h : Spells height [.nonterminal "ReturnType"] tokens) :
    ∃ returns, Written [returnPhrase returns] tokens := by
  obtain ⟨_, _ | ⟨_, _ | ⟨_, ⟨⟩⟩⟩, _, _, h⟩ := h.expand
  · obtain ⟨type, htype⟩ := exists_scalar h
    exact ⟨some type, .single htype⟩
  · obtain ⟨_, rfl, hvoid⟩ := h.last
    exact ⟨none, .single (.plain hvoid .nil)⟩

theorem exists_item (h : Spells height [.nonterminal "Top"] tokens) :
    ∃ item : Item, Written [item.phrase] tokens := by
  obtain ⟨_, _ | ⟨_, _ | ⟨_, _ | ⟨_, ⟨⟩⟩⟩⟩, _, _, h⟩ := h.expand
  · obtain ⟨declared, hdeclared⟩ := exists_declaration h
    exact ⟨.declaration declared, .single hdeclared⟩
  · obtain ⟨_, _ | ⟨_, ⟨⟩⟩, _, _, h⟩ := h.expand
    obtain ⟨_, _, rfl, hfunc, h⟩ := h.terminal
    obtain ⟨_, _, rfl, htype, h⟩ := h.split
    obtain ⟨name, _, rfl, hname, h⟩ := h.terminal
    obtain ⟨_, _, rfl, hopen, h⟩ := h.terminal
    obtain ⟨_, _, rfl, hclose, h⟩ := h.terminal
    obtain ⟨returns, hreturns⟩ := exists_returns htype
    obtain ⟨body, hbody⟩ := exists_block h
    refine ⟨.function returns name.lexeme body, .single (.single (.plain hfunc ?_))⟩
    exact hreturns.append (.spelled hname (.plain hopen (.plain hclose hbody)))
  · obtain ⟨_, _ | ⟨_, ⟨⟩⟩, _, _, h⟩ := h.expand
    obtain ⟨_, _, rfl, hmain, h⟩ := h.terminal
    obtain ⟨_, _, rfl, hopen, h⟩ := h.terminal
    obtain ⟨_, _, rfl, hclose, h⟩ := h.terminal
    obtain ⟨body, hbody⟩ := exists_block h
    exact ⟨.main body, .single (.single (.plain hmain (.plain hopen (.plain hclose hbody))))⟩

/-- Whatever the grammar derives is written as a program. -/
theorem exists_program_of_generates
    (h : grammar.Generates grammar.start (Token.kinds tokens)) :
    ∃ program : Program, program.WrittenAs tokens := by
  obtain ⟨ds, hforest, hwords⟩ := Grammar.generates_iff_forest.mp h
  have hspells : Spells (heights ds) [.nonterminal "Program"] tokens :=
    ⟨ds, hforest, hwords, Nat.le_refl _⟩
  obtain ⟨_, _ | ⟨_, ⟨⟩⟩, _, _, hlist⟩ := hspells.expand
  obtain ⟨program, hprogram⟩ := exists_list rfl (fun _ _ => exists_item) hlist
  exact ⟨program, .single hprogram⟩

end TopDown.Toy
