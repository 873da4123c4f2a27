import TopDown.Proofs.ExactSets
import TopDown.Proofs.Reading

/-!
Conflicts are real. In a grammar where every nonterminal is reached from the start and derives some
sentence, a conflict between two productions shows in one place of one leftmost derivation: whatever
follows the nonterminal there, both productions lead on to sentences that go on with the lookahead
of the conflict, or that both end there. FOLLOW sets forget the place they are read off, so a place
is found for each lookahead that can follow; the productions predicted by what they begin with need
no particular one.
-/
namespace TopDown.Grammar

open TopDown.Derivation

variable {g : Grammar} {name t : String} {l : Lookahead} {p q : Production}
  {form form' left right rest : List Symbol} {word : List String}

/-- Every nonterminal is reached from the start and derives some sentence. -/
structure Reduced (g : Grammar) : Prop where
  reached : ∀ name ∈ g.nonterminals, g.Reaches g.start name
  productive : ∀ name ∈ g.nonterminals, ∃ w, g.Generates name w

/-- Every nonterminal of the form has a rule. -/
def Known (g : Grammar) (form : List Symbol) : Prop :=
  ∀ symbol ∈ form, symbol.hasRuleAmong g.nonterminals = true

section Known

theorem known_append_iff : g.Known (left ++ right) ↔ g.Known left ∧ g.Known right :=
  List.forall_mem_append

theorem known_cons_iff {symbol : Symbol} :
    g.Known (symbol :: rest) ↔ symbol.hasRuleAmong g.nonterminals = true ∧ g.Known rest :=
  List.forall_mem_cons

theorem known_start (g : Grammar) : g.Known [.nonterminal g.start] :=
  List.forall_mem_singleton.mpr (decide_eq_true g.start_mem_nonterminals)

theorem known_body (hp : p ∈ g.productions) : g.Known p.body := by
  obtain ⟨rule, hrule, hp⟩ := mem_productions_iff.mp hp
  exact g.closed rule hrule p.body (body_of_mem_rule hp)

theorem known_visible (hp : p ∈ g.productions) : g.Known p.visible :=
  fun symbol hsymbol => known_body hp symbol ((List.mem_filter.mp hsymbol).1)

theorem epsilon_not_mem_visible (p : Production) : .epsilon ∉ p.visible := by
  intro h
  exact absurd rfl (of_decide_eq_true (List.mem_filter.mp h).2)

/-- Steps bring in nonterminals with rules only, and no symbol of the empty word. -/
theorem known_of_step (h : g.Known form ∧ .epsilon ∉ form) (hstep : g.Step form form') :
    g.Known form' ∧ .epsilon ∉ form' := by
  cases hstep with
  | expand left right p hp =>
    simp only [known_append_iff, known_cons_iff, List.mem_append, List.mem_cons, not_or] at h ⊢
    obtain ⟨⟨hleft, _, hright⟩, hleft', _, hright'⟩ := h
    exact ⟨⟨⟨hleft, known_visible hp⟩, hright⟩, ⟨hleft', epsilon_not_mem_visible p⟩, hright'⟩

theorem known_of_derives (h : g.Known form ∧ .epsilon ∉ form) (hderives : g.Derives form form') :
    g.Known form' ∧ .epsilon ∉ form' := by
  induction hderives with
  | refl _ => exact h
  | head first _ ih => exact ih (known_of_step h first)

end Known

/-- A leftmost derivation from the start comes to this place: the word is read, and what follows the
nonterminal is left. -/
def Exposes (g : Grammar) (name : String) (word : List String) (rest : List Symbol) : Prop :=
  g.LeftDerives [.nonterminal g.start] (word.map .terminal ++ .nonterminal name :: rest)

theorem Exposes.known (h : g.Exposes name word rest) : g.Known rest ∧ .epsilon ∉ rest := by
  have hstart : g.Known [.nonterminal g.start] ∧ .epsilon ∉ [Symbol.nonterminal g.start] :=
    ⟨known_start g, by simp⟩
  have hform := known_of_derives hstart h.derives
  simp only [known_append_iff, known_cons_iff, List.mem_append, List.mem_cons, not_or] at hform
  exact ⟨hform.1.2.2, hform.2.2.2⟩

section Sentences

variable (hproductive : ∀ name ∈ g.nonterminals, ∃ w, g.Generates name w)
include hproductive

theorem exists_forest (hknown : g.Known form) : ∃ ds, Forest g form ds := by
  induction form with
  | nil => exact ⟨[], .nil⟩
  | cons symbol rest ih =>
    obtain ⟨hsymbol, hrest⟩ := known_cons_iff.mp hknown
    obtain ⟨ds, hds⟩ := ih hrest
    cases symbol with
    | terminal t => exact ⟨_, .terminal t hds⟩
    | epsilon => exact ⟨ds, .epsilon hds⟩
    | nonterminal name =>
      obtain ⟨w, hw⟩ := hproductive name (of_decide_eq_true hsymbol)
      obtain ⟨es, hes, _⟩ := generates_iff_forest.mp hw
      exact ⟨es ++ ds, hes.append hds⟩

theorem Begins.exists_forest (h : g.Begins t form) (hknown : g.Known form) :
    ∃ ds v, Forest g form ds ∧ words ds = t :: v := by
  induction h with
  | terminal rest =>
    obtain ⟨ds, hds⟩ := Grammar.exists_forest hproductive (known_cons_iff.mp hknown).2
    exact ⟨_, words ds, .terminal t hds, rfl⟩
  | epsilon _ ih =>
    obtain ⟨ds, v, hds, hwords⟩ := ih (known_cons_iff.mp hknown).2
    exact ⟨ds, v, .epsilon hds, hwords⟩
  | inside hp rest _ ih =>
    obtain ⟨ds, v, hds, hwords⟩ := ih (known_body hp)
    obtain ⟨es, hes⟩ := Grammar.exists_forest hproductive (known_cons_iff.mp hknown).2
    refine ⟨_, v ++ words es, .nonterminal hp hds hes, ?_⟩
    simp only [words, word, hwords, List.cons_append]
  | past hp hvanishes _ ih =>
    obtain ⟨es, hes, hempty⟩ := Forest.exists_of_derives (w := []) hvanishes.derives
    obtain ⟨ds, v, hds, hwords⟩ := ih (known_cons_iff.mp hknown).2
    refine ⟨_, v, .nonterminal hp (Forest.filter_iff.mp hes) hds, ?_⟩
    simp only [words, word, hempty, hwords, List.nil_append]

/-- A form that shows the lookahead derives a sentence that does. -/
theorem Meets.exists_derives (h : g.Meets form l) (hknown : g.Known form ∧ .epsilon ∉ form) :
    ∃ v, Lookahead.ofWord v = l ∧ g.Derives form (v.map .terminal) := by
  obtain ⟨hknown, hplain⟩ := hknown
  have hfilter : form.filter (· ≠ .epsilon) = form := by
    rw [List.filter_eq_self]
    intro symbol hsymbol
    exact decide_eq_true fun heq => hplain (heq ▸ hsymbol)
  cases l with
  | epsilon => exact h.elim
  | endOfInput =>
    have hderives := Vanishes.derives h
    rw [hfilter] at hderives
    exact ⟨[], rfl, hderives⟩
  | terminal t =>
    obtain ⟨ds, v, hds, hwords⟩ := Begins.exists_forest hproductive h hknown
    have hderives := hds.derives
    rw [hfilter, hwords] at hderives
    exact ⟨t :: v, rfl, hderives⟩

/-- Below a nonterminal in a place of its own: what stands before it in the body is read first. -/
theorem Exposes.descend (h : g.Exposes p.lhs word rest) (hp : p ∈ g.productions)
    (hbody : p.body = left ++ .nonterminal name :: right) :
    ∃ later, g.Exposes name (word ++ later) (right.filter (· ≠ .epsilon) ++ rest) := by
  have hknown := known_body hp
  rw [hbody, known_append_iff] at hknown
  obtain ⟨ds, hds⟩ := exists_forest hproductive hknown.1
  have hexpand := LeftStep.expand word rest p hp
  have hleft := hds.leftDerives.context word
    (.nonterminal name :: (right.filter (· ≠ .epsilon) ++ rest))
  simp only [visible_eq hbody, List.append_assoc, List.cons_append] at hexpand hleft
  refine ⟨words ds, h.trans (.head hexpand ?_)⟩
  rw [List.map_append, List.append_assoc]
  exact hleft

/-- The nonterminals that a step puts in place of an exposed one are exposed below it. -/
theorem exists_exposes_of_step
    (h : ∀ name, .nonterminal name ∈ form → ∃ word rest, g.Exposes name word rest)
    (hstep : g.Step form form') :
    ∀ name, .nonterminal name ∈ form' → ∃ word rest, g.Exposes name word rest := by
  intro name hname
  cases hstep with
  | expand left right p hp =>
    rw [List.append_assoc, List.mem_append, List.mem_append] at hname
    rcases hname with hleft | hbody | hright
    · exact h name (List.mem_append_left _ hleft)
    · obtain ⟨word, rest, hlhs⟩ := h p.lhs (List.mem_append_right _ List.mem_cons_self)
      obtain ⟨inner, outer, hsplit⟩ := List.append_of_mem (List.mem_filter.mp hbody).1
      obtain ⟨later, hexposes⟩ := Exposes.descend hproductive hlhs hp hsplit
      exact ⟨_, _, hexposes⟩
    · exact h name (List.mem_append_right _ (List.mem_cons_of_mem _ hright))

theorem exists_exposes_of_derives
    (h : ∀ name, .nonterminal name ∈ form → ∃ word rest, g.Exposes name word rest)
    (hderives : g.Derives form form') :
    ∀ name, .nonterminal name ∈ form' → ∃ word rest, g.Exposes name word rest := by
  induction hderives with
  | refl _ => exact h
  | head first _ ih => exact ih (exists_exposes_of_step hproductive h first)

end Sentences

section Reduced

variable (hreduced : g.Reduced)
include hreduced

/-- Whatever is reached is reached by a leftmost derivation as well. -/
theorem exists_exposes (hname : name ∈ g.nonterminals) : ∃ word rest, g.Exposes name word rest := by
  obtain ⟨before, after, hreached⟩ := hreduced.reached name hname
  refine exists_exposes_of_derives hreduced.productive ?_ hreached name
    (List.mem_append_right _ List.mem_cons_self)
  intro other hother
  rw [Symbol.nonterminal.inj (List.mem_singleton.mp hother)]
  exact ⟨[], [], .refl _⟩

/-- What can follow a nonterminal follows it in some place. -/
theorem exists_exposes_of_follows (h : g.Follows g.start l name) :
    ∃ word rest, g.Exposes name word rest ∧ g.Meets rest l := by
  induction h with
  | start _ => exact ⟨[], [], .refl _, .nil⟩
  | beginning hp hbody hbegins =>
    obtain ⟨word, rest, hlhs⟩ := exists_exposes hreduced (lhs_mem_nonterminals hp)
    obtain ⟨later, hname⟩ := Exposes.descend hreduced.productive hlhs hp hbody
    exact ⟨_, _, hname, (begins_filter_iff.mpr hbegins).append_right rest⟩
  | last hp hbody hvanishes _ ih =>
    obtain ⟨word, rest, hlhs, hmeets⟩ := ih
    obtain ⟨later, hname⟩ := Exposes.descend hreduced.productive hlhs hp hbody
    exact ⟨_, _, hname, (vanishes_filter_iff.mpr hvanishes).meets_append hmeets⟩

end Reduced

/-- A body that starts with the lookahead shows it wherever it stands. -/
theorem meets_of_starts (hl : l ≠ .epsilon) (h : g.Starts p.body l) (rest : List Symbol) :
    g.Meets (p.visible ++ rest) l := by
  cases l with
  | epsilon => exact absurd rfl hl
  | endOfInput => exact h.elim
  | terminal t => exact (begins_filter_iff.mpr h).append_right rest

/-- In front of what shows the lookahead every production it predicts shows it. -/
theorem Predicts.meets (h : g.Predicts l p) (hrest : g.Meets rest l) :
    g.Meets (p.visible ++ rest) l := by
  rcases h with ⟨hl, hstarts⟩ | ⟨hvanishes, _⟩
  · exact meets_of_starts hl hstarts rest
  · exact (vanishes_filter_iff.mpr hvanishes).meets_append hrest

/-- One place serves two productions of a nonterminal. If one of them is predicted by what follows,
it is a place where the lookahead does follow. -/
theorem exists_place (hreduced : g.Reduced) (hname : name ∈ g.nonterminals) (hp : g.Predicts l p)
    (hq : g.Predicts l q) (hlhs : p.lhs = name) (hlhs' : q.lhs = name) :
    ∃ word rest, g.Exposes name word rest ∧
      g.Meets (p.visible ++ rest) l ∧ g.Meets (q.visible ++ rest) l := by
  have hfollowed (h : g.Follows g.start l name) : ∃ word rest, g.Exposes name word rest ∧
      g.Meets (p.visible ++ rest) l ∧ g.Meets (q.visible ++ rest) l := by
    obtain ⟨word, rest, hplace, hmeets⟩ := exists_exposes_of_follows hreduced h
    exact ⟨word, rest, hplace, hp.meets hmeets, hq.meets hmeets⟩
  rcases hp with ⟨hl, hstarts⟩ | ⟨_, hfollows⟩
  · rcases hq with ⟨_, hstarts'⟩ | ⟨_, hfollows⟩
    · obtain ⟨word, rest, hplace⟩ := exists_exposes hreduced hname
      exact ⟨word, rest, hplace, meets_of_starts hl hstarts rest, meets_of_starts hl hstarts' rest⟩
    · exact hfollowed (hlhs' ▸ hfollows)
  · exact hfollowed (hlhs ▸ hfollows)

/-- In this place the production leads on to a sentence that shows the lookahead: the terminal comes
right after the word, or the sentence ends there. -/
def LeadsTo (g : Grammar) (word : List String) (rest : List Symbol) (l : Lookahead)
    (p : Production) : Prop :=
  ∃ v, Lookahead.ofWord v = l ∧
    g.Derives (word.map .terminal ++ p.visible ++ rest) ((word ++ v).map .terminal)

theorem Exposes.leadsTo (hreduced : g.Reduced) (h : g.Exposes p.lhs word rest)
    (hp : p ∈ g.productions) (hmeets : g.Meets (p.visible ++ rest) l) :
    g.LeadsTo word rest l p := by
  have hknown : g.Known (p.visible ++ rest) ∧ .epsilon ∉ p.visible ++ rest := by
    rw [known_append_iff, List.mem_append, not_or]
    exact ⟨⟨known_visible hp, h.known.1⟩, epsilon_not_mem_visible p, h.known.2⟩
  obtain ⟨v, hv, hderives⟩ := Meets.exists_derives hreduced.productive hmeets hknown
  have hcontext := hderives.context (word.map .terminal) []
  simp only [List.append_nil, ← List.append_assoc] at hcontext
  refine ⟨v, hv, ?_⟩
  rw [List.map_append]
  exact hcontext

/-- A conflict of the grammar's own sets is between two productions of its nonterminal, and some
leftmost derivation from the start comes to a place where both of them lead on to sentences that
show the lookahead. -/
theorem table_conflict_real (hreduced : g.Reduced) {c : Conflict} (h : g.table = .error c) :
    c.existing ≠ c.incoming ∧
      c.existing ∈ g.productionsOf c.nonterminal ∧ c.incoming ∈ g.productionsOf c.nonterminal ∧
      ∃ word rest,
        g.LeftDerives [.nonterminal g.start]
          (word.map .terminal ++ .nonterminal c.nonterminal :: rest) ∧
        g.LeadsTo word rest c.lookahead c.existing ∧
        g.LeadsTo word rest c.lookahead c.incoming := by
  obtain ⟨hne, ⟨hp, hlhs, hpredicts⟩, ⟨hq, hlhs', hpredicts'⟩⟩ := of_tableFor_error h
  rw [mem_predictedBy_own_iff] at hpredicts hpredicts'
  have hname : c.nonterminal ∈ g.nonterminals := hlhs ▸ lhs_mem_nonterminals hp
  obtain ⟨word, rest, hplace, hmeets, hmeets'⟩ :=
    exists_place hreduced hname hpredicts hpredicts' hlhs hlhs'
  refine ⟨hne, mem_productionsOf_iff.mpr ⟨hp, hlhs⟩, mem_productionsOf_iff.mpr ⟨hq, hlhs'⟩,
    word, rest, hplace, ?_, ?_⟩
  · exact Exposes.leadsTo hreduced (hlhs.symm ▸ hplace) hp hmeets
  · exact Exposes.leadsTo hreduced (hlhs'.symm ▸ hplace) hq hmeets'

/-- A letter that may stand in front of itself. -/
def doubledLetter : Grammar where
  start := "S"
  rules := [⟨"S", [[.nonterminal "A", .terminal "a"]]⟩, ⟨"A", [[.terminal "a"], [.epsilon]]⟩]
  distinct := by decide
  start_defined := by decide
  closed := by decide

theorem reduced_doubledLetter : doubledLetter.Reduced := by
  have hexpand := Step.expand (g := doubledLetter) [] []
    ⟨"S", 0, [.nonterminal "A", .terminal "a"]⟩ (by decide)
  have hvanish := Step.expand (g := doubledLetter) [] [.terminal "a"] ⟨"A", 1, [.epsilon]⟩
    (by decide)
  have hempty := Step.expand (g := doubledLetter) [] [] ⟨"A", 1, [.epsilon]⟩ (by decide)
  have hnames {name : String} (hname : name ∈ doubledLetter.nonterminals) :
      name = "S" ∨ name = "A" := by
    rcases List.mem_cons.mp hname with hname | hname
    · exact Or.inl hname
    · exact Or.inr (List.mem_singleton.mp hname)
  constructor
  · intro name hname
    rcases hnames hname with rfl | rfl
    · exact ⟨[], [], .refl _⟩
    · exact ⟨[], [.terminal "a"], .single hexpand⟩
  · intro name hname
    rcases hnames hname with rfl | rfl
    · exact ⟨["a"], .head hexpand (.single hvanish)⟩
    · exact ⟨[], .single hempty⟩

theorem table_conflict_real_doubledLetter :
    ∃ word rest,
      doubledLetter.LeftDerives [.nonterminal "S"]
        (word.map .terminal ++ .nonterminal "A" :: rest) ∧
      doubledLetter.LeadsTo word rest (.terminal "a") ⟨"A", 0, [.terminal "a"]⟩ ∧
      doubledLetter.LeadsTo word rest (.terminal "a") ⟨"A", 1, [.epsilon]⟩ := by
  have htable : doubledLetter.table =
      .error ⟨"A", .terminal "a", ⟨"A", 0, [.terminal "a"]⟩, ⟨"A", 1, [.epsilon]⟩⟩ := by rfl
  exact (table_conflict_real reduced_doubledLetter htable).2.2.2

end TopDown.Grammar
