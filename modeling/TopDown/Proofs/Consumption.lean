import TopDown.Proofs.Machine

/-!
Runs seen as forms that consume tokens. The nodes of a state play no part in what the machine does
next, so a trace is determined by the form on the stack, by the tokens it takes and by those it
leaves. What it has taken can be read before any word that shows the same lookahead as what it left.
-/
namespace TopDown.Parse

/-- With the tokens `after` left in the end, so many moves take tokens and turn the first form into
the second. -/
inductive Consumes (table : Table) (after : List Token) :
    Nat → List Symbol → List Token → List Symbol → Prop where
  | refl (form : List Symbol) : Consumes table after 0 form [] form
  | skip {n : Nat} {rest left : List Symbol} {taken : List Token} :
      Consumes table after n rest taken left →
        Consumes table after (n + 1) (.epsilon :: rest) taken left
  | take {n : Nat} {rest left : List Symbol} {taken : List Token} (token : Token) :
      Consumes table after n rest taken left →
        Consumes table after (n + 1) (.terminal token.kind :: rest) (token :: taken) left
  | expand {n : Nat} {name : String} {rest left : List Symbol} {taken : List Token}
      {p : Production} (hp : table.get? name (.ofWord (Token.kinds (taken ++ after))) = some p) :
      Consumes table after n (p.body ++ rest) taken left →
        Consumes table after (n + 1) (.nonterminal name :: rest) taken left

variable {table : Table} {s s' : State} {n : Nat} {form left : List Symbol}
  {taken after : List Token}

/-- A trace takes the first of the tokens to come and remembers the last that it took. -/
theorem consumes_of_trace (h : Trace table n s s') (hstack : Stacked s.stack form) :
    ∃ taken left, Consumes table s'.remaining n form taken left ∧ Stacked s'.stack left ∧
      s.remaining = taken ++ s'.remaining ∧ s'.previous = taken.getLast?.or s.previous := by
  induction h generalizing form with
  | refl s => exact ⟨[], form, .refl form, hstack, rfl, rfl⟩
  | head hmove _ ih =>
    cases hmove with
    | skip =>
      cases hstack with
      | symbol _ node hstack =>
        obtain ⟨taken, left, hconsumes, hleft, hremaining, hprevious⟩ := ih hstack
        exact ⟨taken, left, .skip hconsumes, hleft, hremaining, hprevious⟩
    | take token =>
      cases hstack with
      | symbol _ node hstack =>
        obtain ⟨taken, left, hconsumes, hleft, hremaining, hprevious⟩ := ih hstack
        refine ⟨token :: taken, left, .take token hconsumes, hleft,
          congrArg (token :: ·) hremaining, ?_⟩
        rw [hprevious, List.getLast?_cons]
        cases taken.getLast? <;> rfl
    | @expand name node stack nodes previous remaining p hp =>
      cases hstack with
      | symbol _ _ hstack =>
        obtain ⟨taken, left, hconsumes, hleft, hremaining, hprevious⟩ :=
          ih (hstack.expand _ _ _)
        have hcell := hp
        rw [show remaining = taken ++ _ from hremaining] at hcell
        exact ⟨taken, left, .expand hcell hconsumes, hleft, hremaining, hprevious⟩

/-- Two words that show the same are told apart by nothing that is put before them. -/
theorem ofWord_append {v w : List String} (h : Lookahead.ofWord v = Lookahead.ofWord w)
    (u : List String) : Lookahead.ofWord (u ++ v) = Lookahead.ofWord (u ++ w) := by
  cases u with
  | nil => exact h
  | cons t u => rfl

/-- What was taken is read from the first form just when what is left is read from the second, in
front of any word that shows the lookahead at which the moves ended. -/
theorem Consumes.reads_iff {v : List String} (h : Consumes table after n form taken left)
    (hv : Lookahead.ofWord v = Lookahead.ofWord (Token.kinds after)) :
    (∃ ds, table.Reads form (Token.kinds taken ++ v) ds []) ↔ ∃ ds, table.Reads left v ds [] := by
  induction h with
  | refl form => exact Iff.rfl
  | skip _ ih =>
    refine Iff.trans ?_ ih
    constructor
    · intro hfound
      obtain ⟨ds, hreads⟩ := hfound
      cases hreads with
      | epsilon hreads => exact ⟨ds, hreads⟩
    · intro hfound
      obtain ⟨ds, hreads⟩ := hfound
      exact ⟨ds, .epsilon hreads⟩
  | take token _ ih =>
    refine Iff.trans ?_ ih
    constructor
    · intro hfound
      obtain ⟨ds, hreads⟩ := hfound
      cases hreads with
      | terminal _ hreads => exact ⟨_, hreads⟩
    · intro hfound
      obtain ⟨ds, hreads⟩ := hfound
      exact ⟨.leaf token.kind :: ds, .terminal token.kind hreads⟩
  | @expand n name rest left taken p hp _ ih =>
    have hagree : Lookahead.ofWord (Token.kinds taken ++ v) =
        Lookahead.ofWord (Token.kinds (taken ++ after)) := by
      unfold Token.kinds at hv ⊢
      rw [List.map_append]
      exact ofWord_append hv _
    rw [← hagree] at hp
    refine Iff.trans ?_ ih
    constructor
    · intro hfound
      obtain ⟨ds, hreads⟩ := hfound
      cases hreads with
      | nonterminal hp' hbody hrest =>
        rw [hp] at hp'
        obtain rfl := Option.some.inj hp'
        exact ⟨_, hbody.append hrest⟩
    · intro hfound
      obtain ⟨ds, hreads⟩ := hfound
      obtain ⟨children, u, ds, rfl, hbody, hrest⟩ := hreads.split
      exact ⟨.node p children :: ds, .nonterminal hp hbody hrest⟩

/-- A state that accepts, with its stack above the bottom, is done with both stack and tokens. -/
theorem eq_nil_of_accepts (h : Accepts s) (hstack : Stacked s.stack form) :
    form = [] ∧ s.remaining = [] := by
  cases h with
  | empty => cases hstack
  | bottom =>
    cases hstack with
    | bottom => exact ⟨rfl, rfl⟩

/-- A run that accepts has read its stack off the tokens to come. -/
theorem reads_of_trace (h : Trace table n s s') (haccepts : Accepts s')
    (hstack : Stacked s.stack form) :
    ∃ ds, table.Reads form (Token.kinds s.remaining) ds [] := by
  obtain ⟨taken, left, hconsumes, hleft, hremaining, _⟩ := consumes_of_trace h hstack
  obtain ⟨rfl, hafter⟩ := eq_nil_of_accepts haccepts hleft
  rw [hafter] at hconsumes hremaining
  have hreads := (hconsumes.reads_iff rfl).mpr ⟨[], .nil []⟩
  rw [hremaining, List.append_nil]
  simp only [Token.kinds, List.map_nil, List.append_nil] at hreads
  exact hreads

end TopDown.Parse
