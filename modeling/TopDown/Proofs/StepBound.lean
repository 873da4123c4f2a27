import TopDown.Proofs.Consumption
import TopDown.Proofs.Erosion

/-!
How many steps an answer takes. Between two matches a run erodes the form on its stack at a fixed
lookahead, so it either goes on eroding for ever or stops within what the form costs. Hence a run
that answers at all answers within the steps a parse allows.
-/
namespace TopDown.Parse

variable {table : Table} {s s' : State} {form left : List Symbol} {l : Lookahead} {m n : Nat}

theorem covers_cells (table : Table) (l : Lookahead) (n : Nat) :
    table.Covers l n (table.cells.map Cell.production) := by
  intro name p m left hp _ _
  exact List.mem_map_of_mem (Table.cell_of_get? hp).2

/-- The machine makes the moves that erode its stack. -/
theorem exists_trace_of_erodes (h : table.Erodes l n form left)
    (hstack : Stacked s.stack form) (hl : s.lookahead = l) :
    ∃ s', Trace table n s s' ∧ Stacked s'.stack left ∧ s'.remaining = s.remaining := by
  induction h generalizing s with
  | nil => exact ⟨s, .refl s, hstack, rfl⟩
  | stop => exact ⟨s, .refl s, hstack, rfl⟩
  | epsilon _ ih =>
    obtain ⟨stack, nodes, previous, remaining⟩ := s
    cases hstack with
    | symbol _ node hstack =>
      obtain ⟨s', htrace, hleft, hremaining⟩ := ih (s := ⟨_, nodes, previous, remaining⟩) hstack hl
      exact ⟨s', .head .skip htrace, hleft, hremaining⟩
  | expand hp _ ih =>
    obtain ⟨stack, nodes, previous, remaining⟩ := s
    cases hstack with
    | symbol _ node hstack =>
      rw [← hl, State.lookahead_eq] at hp
      obtain ⟨s', htrace, hleft, hremaining⟩ := ih
        (s := ⟨_, nodes.modify node (attach (expand node nodes.size _).children) ++
          (expand node nodes.size _).nodes, previous, remaining⟩)
        (hstack.expand node nodes.size _) hl
      exact ⟨s', .head (.expand hp) htrace, hleft, hremaining⟩

/-- A run that answers erodes what is on its stack. -/
theorem exists_erodes_of_run {answer : Answer} (h : run table n s = some answer)
    (hstack : Stacked s.stack form) : ∃ m left, table.Erodes s.lookahead m form left := by
  induction n generalizing s form with
  | zero => cases h
  | succ n ih =>
    obtain ⟨stack, nodes, previous, remaining⟩ := s
    cases hstack with
    | bottom => exact ⟨0, [], .nil⟩
    | @symbol symbol node stack form hstack =>
      cases symbol with
      | epsilon =>
        obtain ⟨m, left, herodes⟩ := ih (s := ⟨stack, nodes, previous, remaining⟩) h hstack
        exact ⟨m + 1, left, .epsilon herodes⟩
      | terminal t => exact ⟨0, _, .stop form (.terminal t)⟩
      | nonterminal name =>
        cases hcell : table.get? name
            (State.lookahead
              ⟨.symbol (.nonterminal name) node :: stack, nodes, previous, remaining⟩) with
        | none => exact ⟨0, _, .stop form (.missing hcell)⟩
        | some p =>
          have hmove := hcell
          rw [State.lookahead_eq] at hmove
          simp only [run, step_of_move (.expand hmove)] at h
          obtain ⟨m, left, herodes⟩ := ih h (hstack.expand node nodes.size p.body)
          exact ⟨m + 1, left, .expand hcell herodes⟩

/-- A state that no move leaves without a match either answers at once or takes a token. -/
theorem answer_or_take (hstack : Stacked s.stack form)
    (hstops : ∀ symbol rest, form = symbol :: rest → table.Stops s.lookahead symbol) :
    (∃ answer, run table 1 s = some answer) ∨
      ∃ s' symbol rest, Move table s s' ∧ form = symbol :: rest ∧ Stacked s'.stack rest ∧
        s.remaining.length = s'.remaining.length + 1 := by
  rcases step_cases table s with ⟨s', _, hmove⟩ | ⟨hstep, _⟩ | ⟨error, hstep, _⟩
  · cases hmove with
    | skip =>
      cases hstack with
      | symbol _ node hstack => cases hstops _ _ rfl
    | take token =>
      cases hstack with
      | symbol _ node hstack => exact Or.inr ⟨_, _, _, .take token, rfl, hstack, rfl⟩
    | expand hp =>
      cases hstack with
      | symbol _ node hstack =>
        cases hstops _ _ rfl with
        | missing hnone =>
          rw [State.lookahead_eq, hp] at hnone
          cases hnone
  · refine Or.inl ⟨finish s, ?_⟩
    simp only [run, hstep]
  · refine Or.inl ⟨.error (s.fail error), ?_⟩
    simp only [run, hstep]

/-- Moves that take no token are moves of the erosion. -/
theorem moves_le_of_erodes {taken after : List Token} {left' : List Symbol}
    (h : Consumes table after n form taken left) (htaken : taken = [])
    (herodes : table.Erodes (.ofWord (Token.kinds after)) m form left') : n ≤ m := by
  induction h generalizing m with
  | refl form => exact Nat.zero_le m
  | skip _ ih =>
    cases herodes with
    | stop _ hstops => cases hstops
    | epsilon herodes => exact Nat.succ_le_succ (ih htaken herodes)
  | take token _ _ => cases htaken
  | expand hp _ ih =>
    rw [htaken, List.nil_append] at hp
    cases herodes with
    | stop _ hstops =>
      cases hstops with
      | missing hnone =>
        rw [hp] at hnone
        cases hnone
    | expand hp' herodes =>
      rw [hp] at hp'
      obtain rfl := Option.some.inj hp'
      exact Nat.succ_le_succ (ih htaken herodes)

theorem lt_of_trace {answer : Answer} (h : Trace table m s s')
    (hrun : run table n s = some answer) : m < n := by
  rcases Nat.lt_or_ge m n with hlt | hle
  · exact hlt
  · have hlong := run_le hrun hle
    rw [← Nat.add_zero m, run_of_trace h] at hlong
    cases hlong

/-- However far a run goes, the form on its stack erodes. -/
def Erosive (table : Table) (s : State) : Prop :=
  ∀ n s' form, Trace table n s s' → Stacked s'.stack form →
    ∃ m left, table.Erodes s'.lookahead m form left

theorem Erosive.of_trace (h : Erosive table s) (htrace : Trace table n s s') :
    Erosive table s' := by
  intro m s'' form htrace' hstack
  exact h (n + m) s'' form (htrace.trans htrace') hstack

theorem erosive_of_run {answer : Answer} (h : run table n s = some answer) : Erosive table s := by
  intro m s' form htrace hstack
  have hrun : run table (m + n) s = some answer := run_le h (Nat.le_add_left n m)
  rw [run_of_trace htrace] at hrun
  exact exists_erodes_of_run hrun hstack

/-- The steps up to the next match, at most, apart from what the symbols on the stack cost. -/
def phaseCost (table : Table) : Nat :=
  table.symbolCost table.size * (table.size * table.longestBody) + 1

/-- The state answers, or it takes a token and has paid for what it leaves on the stack. -/
theorem answer_or_match (h : Erosive table s) (hstack : Stacked s.stack form) :
    (∃ answer, run table (table.symbolCost table.size * form.length + phaseCost table) s =
        some answer) ∨
      ∃ n s' rest, Trace table n s s' ∧ Stacked s'.stack rest ∧
        s.remaining.length = s'.remaining.length + 1 ∧
          n + table.symbolCost table.size * rest.length ≤
            table.symbolCost table.size * form.length + phaseCost table := by
  obtain ⟨m, left, herodes⟩ := h 0 s form (.refl s) hstack
  have hcost := herodes.cost_le (covers_cells table s.lookahead m)
  rw [List.length_map, Nat.mul_add] at hcost
  change m + table.symbolCost table.size * left.length ≤
    table.symbolCost table.size * form.length +
      table.symbolCost table.size * (table.size * table.longestBody) at hcost
  obtain ⟨t, htrace, hleft, hremaining⟩ := exists_trace_of_erodes herodes hstack rfl
  have hlookahead : t.lookahead = s.lookahead := by
    rw [State.lookahead_eq, State.lookahead_eq, hremaining]
  have hstops : ∀ symbol rest, left = symbol :: rest → table.Stops t.lookahead symbol := by
    intro symbol rest heq
    rw [heq] at herodes
    rw [hlookahead]
    exact herodes.stops
  rcases answer_or_take hleft hstops with
    ⟨answer, hanswer⟩ | ⟨s', symbol, rest, hmove, rfl, hrest, hlength⟩
  · refine Or.inl ⟨answer, ?_⟩
    rw [← run_of_trace htrace] at hanswer
    refine run_le hanswer ?_
    unfold phaseCost
    omega
  · refine Or.inr ⟨m + 1, s', rest, htrace.trans (.head hmove (.refl s')), hrest, ?_, ?_⟩
    · rw [← hremaining]
      exact hlength
    · rw [List.length_cons, Nat.mul_add_one] at hcost
      unfold phaseCost
      omega

/-- The steps within which a stack of so many symbols is answered with so many tokens to come. -/
def answerCost (table : Table) (symbols tokens : Nat) : Nat :=
  table.symbolCost table.size * symbols + (tokens + 1) * phaseCost table

/-- The induction is on the tokens to come: what a match leaves on the stack is paid for. -/
theorem exists_run_of_erosive (h : Erosive table s) (hstack : Stacked s.stack form) :
    ∃ answer, run table (answerCost table form.length s.remaining.length) s = some answer := by
  generalize htokens : s.remaining.length = tokens
  induction tokens using Nat.strongRecOn generalizing s form with
  | ind tokens ih =>
    have hphase : phaseCost table ≤ (tokens + 1) * phaseCost table :=
      Nat.le_mul_of_pos_left _ (Nat.succ_pos tokens)
    rcases answer_or_match h hstack with
      ⟨answer, hanswer⟩ | ⟨n, s', rest, htrace, hrest, hlength, hcost⟩
    · refine ⟨answer, run_le hanswer ?_⟩
      unfold answerCost
      omega
    · obtain ⟨answer, hanswer⟩ :=
        ih s'.remaining.length (by omega) (h.of_trace htrace) hrest rfl
      rw [← run_of_trace htrace] at hanswer
      refine ⟨answer, run_le hanswer ?_⟩
      have hphases : (tokens + 1) * phaseCost table =
          (s'.remaining.length + 1) * phaseCost table + phaseCost table := by
        rw [← htokens, hlength, Nat.succ_mul]
      unfold answerCost
      omega

theorem answerCost_le_stepBound (table : Table) (tokens : Nat) :
    answerCost table 1 tokens ≤ table.stepBound tokens := by
  have hcost : 0 < table.symbolCost table.size := table.symbolCost_pos table.size
  have hpow : table.symbolCost (table.size + 1) ≤
      Nat.pow (table.longestBody + 1) (table.size + 3) :=
    Nat.pow_le_pow_right (Nat.succ_pos _) (by omega)
  have hphase : phaseCost table + table.symbolCost table.size ≤
      (table.size + 2) * Nat.pow (table.longestBody + 1) (table.size + 3) := by
    refine Nat.le_trans ?_ (Nat.mul_le_mul_left _ hpow)
    have hsquare : table.symbolCost table.size * (table.size * table.longestBody) =
        table.size * (table.symbolCost table.size * table.longestBody) := Nat.mul_left_comm _ _ _
    unfold phaseCost
    rw [Table.symbolCost_succ, Nat.add_mul, Nat.mul_add]
    omega
  have htotal := Nat.mul_le_mul_left (tokens + 2) hphase
  rw [Nat.mul_add, Nat.succ_mul, Nat.succ_mul (tokens + 1) (table.symbolCost table.size)] at htotal
  unfold answerCost Table.stepBound
  simp only [Nat.mul_one, Nat.mul_assoc]
  omega

/-- Whatever the loop answers in any number of steps, the parse answers. -/
theorem parse_of_run {start : String} {tokens : List Token} {answer : Answer}
    (h : run table n (.initial start tokens) = some answer) :
    table.parse start tokens = some answer := by
  obtain ⟨answer', hanswer⟩ :=
    exists_run_of_erosive (erosive_of_run h) (Stacked.initial start tokens)
  obtain rfl := run_unique h hanswer
  exact run_le hanswer (answerCost_le_stepBound table tokens.length)

end TopDown.Parse
