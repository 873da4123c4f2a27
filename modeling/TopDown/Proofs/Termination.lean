import TopDown.Proofs.StepBound

/-!
With the table of a grammar every run ends. A cell is filled by a production that leads to the
lookahead or that vanishes before something that can follow it, and the derivation that says so is
finite; the table has no second production to choose, so expansions go along that derivation. Left
recursion of any kind would need a cell that no finite derivation fills.
-/
namespace TopDown.Grammar

variable {g : Grammar} {table : Table} {l : Lookahead} {form : List Symbol}

/-- The terminal can follow every nonterminal of the form that it may come right after there. -/
def Allows (g : Grammar) (t : String) (form : List Symbol) : Prop :=
  ∀ left name right, form = left ++ .nonterminal name :: right →
    g.Begins t right → g.Follows g.start (.terminal t) name

theorem Allows.tail {t : String} {symbol : Symbol} {rest : List Symbol}
    (h : g.Allows t (symbol :: rest)) : g.Allows t rest := by
  intro left name right heq
  exact h (symbol :: left) name right (congrArg (symbol :: ·) heq)

theorem allows_body {p : Production} (hp : p ∈ g.productions) (t : String) :
    g.Allows t p.body := by
  intro left name right hbody ht
  exact .beginning hp hbody ht

/-- A body that vanishes has what follows its owner after each of its nonterminals. -/
theorem follows_of_vanishes {p : Production} (hp : p ∈ g.productions)
    (hbody : g.Vanishes p.body) (howner : g.Follows g.start l p.lhs) {name : String}
    (hname : .nonterminal name ∈ p.body) : g.Follows g.start l name := by
  obtain ⟨left, right, heq⟩ := List.append_of_mem hname
  have hright : g.Vanishes (left ++ ([.nonterminal name] ++ right)) := heq ▸ hbody
  have hlast := (vanishes_append_iff.mp (vanishes_append_iff.mp hright).2).2
  exact .last hp heq hlast howner

section Erosion

variable (htable : g.table = .ok table)
include htable

/-- A form that vanishes is erased before a lookahead that can follow each of its nonterminals. -/
theorem erodes_of_vanishes (h : g.Vanishes form)
    (hfollows : ∀ name, .nonterminal name ∈ form → g.Follows g.start l name) :
    ∃ n, table.Erodes l n form [] := by
  induction h with
  | nil => exact ⟨0, .nil⟩
  | epsilon _ ih =>
    obtain ⟨n, hn⟩ := ih fun name hname => hfollows name (List.mem_cons_of_mem _ hname)
    exact ⟨n + 1, .epsilon hn⟩
  | @nonterminal p rest hp hbody _ ihbody ihrest =>
    have howner : g.Follows g.start l p.lhs := hfollows p.lhs List.mem_cons_self
    obtain ⟨m, hm⟩ := ihbody fun name hname => follows_of_vanishes hp hbody howner hname
    obtain ⟨n, hn⟩ := ihrest fun name hname => hfollows name (List.mem_cons_of_mem _ hname)
    exact ⟨m + n + 1, .expand (get?_of_vanishes htable hp hbody howner) (hm.append hn)⟩

/-- A body that vanishes is erased before whatever can follow its owner. -/
theorem body_erodes_of_vanishes {p : Production} (hp : p ∈ g.productions)
    (hbody : g.Vanishes p.body) (howner : g.Follows g.start l p.lhs) :
    ∃ n, table.Erodes l n p.body [] :=
  erodes_of_vanishes htable hbody fun _ hname => follows_of_vanishes hp hbody howner hname

/-- A form that can begin with the terminal erodes until something that stops. -/
theorem erodes_of_begins {t : String} (h : g.Begins t form) (hallows : g.Allows t form) :
    ∃ n left, left ≠ [] ∧ table.Erodes (.terminal t) n form left := by
  induction h with
  | terminal rest => exact ⟨0, _, List.cons_ne_nil _ rest, .stop rest (.terminal t)⟩
  | epsilon _ ih =>
    obtain ⟨n, left, hleft, hn⟩ := ih hallows.tail
    exact ⟨n + 1, left, hleft, .epsilon hn⟩
  | @inside p hp rest hbody ih =>
    obtain ⟨n, left, hleft, hn⟩ := ih (allows_body hp t)
    have hcell := get?_of_begins htable hp hbody
    refine ⟨n + 1, left ++ rest, ?_, .expand hcell (hn.append_of_ne_nil hleft rest)⟩
    intro hnil
    exact hleft (List.append_eq_nil_iff.mp hnil).1
  | @past p rest hp hbody hrest ih =>
    have howner : g.Follows g.start (.terminal t) p.lhs := hallows [] p.lhs rest rfl hrest
    obtain ⟨m, hm⟩ := body_erodes_of_vanishes htable hp hbody howner
    obtain ⟨n, left, hleft, hn⟩ := ih hallows.tail
    have hcell := get?_of_vanishes htable hp hbody howner
    exact ⟨m + n + 1, left, hleft, .expand hcell (hm.append hn)⟩

/-- What a cell holds erodes at the cell's lookahead. -/
theorem body_erodes {name : String} {p : Production} (hp : table.get? name l = some p) :
    ∃ n left, table.Erodes l n p.body left := by
  obtain ⟨hmem, rfl, hpredicts⟩ := (get?_table_iff htable).mp hp
  rcases hpredicts with ⟨hne, hstarts⟩ | ⟨hbody, howner⟩
  · cases l with
    | terminal t =>
      obtain ⟨n, left, _, hn⟩ := erodes_of_begins htable hstarts (allows_body hmem t)
      exact ⟨n, left, hn⟩
    | endOfInput => exact hstarts.elim
    | epsilon => exact absurd rfl hne
  · obtain ⟨n, hn⟩ := body_erodes_of_vanishes htable hmem hbody howner
    exact ⟨n, [], hn⟩

/-- Every form erodes in finitely many moves, whatever the lookahead. -/
theorem exists_erodes (l : Lookahead) (form : List Symbol) :
    ∃ n left, table.Erodes l n form left := by
  induction form with
  | nil => exact ⟨0, [], .nil⟩
  | cons symbol rest ih =>
    cases symbol with
    | epsilon =>
      obtain ⟨n, left, hn⟩ := ih
      exact ⟨n + 1, left, .epsilon hn⟩
    | terminal t => exact ⟨0, _, .stop rest (.terminal t)⟩
    | nonterminal name =>
      cases hcell : table.get? name l with
      | none => exact ⟨0, _, .stop rest (.missing hcell)⟩
      | some p =>
        obtain ⟨m, left, hm⟩ := body_erodes htable hcell
        by_cases hleft : left = []
        · subst hleft
          obtain ⟨n, left, hn⟩ := ih
          exact ⟨m + n + 1, left, .expand hcell (hm.append hn)⟩
        · exact ⟨m + 1, left ++ rest, .expand hcell (hm.append_of_ne_nil hleft rest)⟩

theorem erosive (s : Parse.State) : Parse.Erosive table s := by
  intro n s' form _ _
  exact exists_erodes htable s'.lookahead form

/-- Every stack is answered within what it costs, so every parse answers. -/
theorem exists_parse (tokens : List Token) :
    ∃ answer, table.parse g.start tokens = some answer := by
  obtain ⟨answer, hanswer⟩ :=
    Parse.exists_run_of_erosive (erosive htable (.initial g.start tokens))
      (Parse.Stacked.initial g.start tokens)
  exact ⟨answer, Parse.parse_of_run hanswer⟩

/-- Between two matches there are no more moves than the stack costs. -/
theorem moves_le_of_remaining {n : Nat} {s s' : Parse.State} {form : List Symbol}
    (hstack : Parse.Stacked s.stack form) (h : Parse.Trace table n s s')
    (hremaining : s'.remaining = s.remaining) :
    n ≤ table.symbolCost table.size *
      (s.stack.length + table.size * table.longestBody) := by
  obtain ⟨m, left, herodes⟩ := exists_erodes htable s.lookahead form
  obtain ⟨taken, form', hconsumes, _, htaken, _⟩ := Parse.consumes_of_trace h hstack
  rw [hremaining] at hconsumes htaken
  have hnone : taken = [] := List.self_eq_append_left.mp htaken
  rw [Parse.State.lookahead_eq] at herodes
  have hmoves : n ≤ m := Parse.moves_le_of_erodes hconsumes hnone herodes
  have hcost := herodes.cost_le (Parse.covers_cells table _ m)
  rw [List.length_map] at hcost
  have hlength : form.length ≤ s.stack.length := by
    rw [hstack.length_eq]
    exact Nat.le_succ form.length
  calc n ≤ m := hmoves
    _ ≤ m + table.symbolCost table.size * left.length := Nat.le_add_right _ _
    _ ≤ table.symbolCost table.size * (form.length + table.size * table.longestBody) := hcost
    _ ≤ _ := Nat.mul_le_mul_left _ (Nat.add_le_add_right hlength _)

/-- The loop reaches an answer on every input, within the steps a parse allows, and from any state
it can be in it takes a token or answers after a number of moves bounded by the height of its
stack. -/
theorem parse_terminates (tokens : List Token) :
    (∃ answer, table.parse g.start tokens = some answer) ∧
      (∀ n s, Parse.Trace table n (.initial g.start tokens) s →
        n < table.stepBound tokens.length) ∧
      ∀ m s n s', Parse.Trace table m (.initial g.start tokens) s → Parse.Trace table n s s' →
        s'.remaining = s.remaining →
          n ≤ table.symbolCost table.size *
            (s.stack.length + table.size * table.longestBody) := by
  obtain ⟨answer, hanswer⟩ := exists_parse htable tokens
  refine ⟨⟨answer, hanswer⟩, ?_, ?_⟩
  · intro n s h
    exact Parse.lt_of_trace h hanswer
  · intro m s n s' hs h hremaining
    obtain ⟨taken, form, _, hstack, _, _⟩ :=
      Parse.consumes_of_trace hs (Parse.Stacked.initial g.start tokens)
    exact moves_le_of_remaining htable hstack h hremaining

end Erosion

theorem parse_terminates_nestedPairs :
    (∃ answer, nestedPairsTable.parse "S" [⟨"b", "b", 1, 1⟩] = some answer) ∧
      ∀ n s, Parse.Trace nestedPairsTable n (.initial "S" [⟨"b", "b", 1, 1⟩]) s →
        n < nestedPairsTable.stepBound 1 := by
  have h := parse_terminates table_nestedPairs [⟨"b", "b", 1, 1⟩]
  exact ⟨h.1, h.2.1⟩

end TopDown.Grammar
