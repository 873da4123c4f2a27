import TopDown.Parse
import TopDown.Proofs.Reading

/-!
The parsing machine as a relation: what one step does, in what states it stops, and how runs with a
bound on their steps follow. A run that accepts has read the form on its stack off the remaining
tokens.
-/
namespace TopDown.Parse

/-- What one step of a run does: an empty word is dropped, a terminal takes the next token, a
nonterminal gives way to the body in its cell. -/
inductive Move (table : Table) : State → State → Prop where
  | skip {node : NodeId} {stack : List Frame} {nodes : Array (Option Node)}
      {previous : Option Token} {remaining : List Token} :
      Move table ⟨.symbol .epsilon node :: stack, nodes, previous, remaining⟩
        ⟨stack, nodes, previous, remaining⟩
  | take {node : NodeId} {stack : List Frame} {nodes : Array (Option Node)}
      {previous : Option Token} {remaining : List Token} (token : Token) :
      Move table ⟨.symbol (.terminal token.kind) node :: stack, nodes, previous, token :: remaining⟩
        ⟨stack, nodes.setIfInBounds node (some (.leaf token)), some token, remaining⟩
  | expand {name : String} {node : NodeId} {stack : List Frame} {nodes : Array (Option Node)}
      {previous : Option Token} {remaining : List Token} {p : Production}
      (hp : table.get? name (.ofWord (Token.kinds remaining)) = some p) :
      Move table ⟨.symbol (.nonterminal name) node :: stack, nodes, previous, remaining⟩
        ⟨(expand node nodes.size p.body).frames ++ stack,
          nodes.modify node (attach (expand node nodes.size p.body).children) ++
            (expand node nodes.size p.body).nodes, previous, remaining⟩

/-- The states that accept. -/
inductive Accepts : State → Prop where
  | empty {nodes : Array (Option Node)} {previous : Option Token} {remaining : List Token} :
      Accepts ⟨[], nodes, previous, remaining⟩
  | bottom {stack : List Frame} {nodes : Array (Option Node)} {previous : Option Token} :
      Accepts ⟨.bottom :: stack, nodes, previous, []⟩

/-- The states that reject, with what they say. -/
inductive Rejects (table : Table) (s : State) : SyntaxError → Prop where
  | trailing {stack : List Frame} (hstack : s.stack = .bottom :: stack)
      (hremaining : s.remaining ≠ []) :
      Rejects table s (.expected .endOfInput s.lookahead s.lexeme)
  | mismatch {name : String} {node : NodeId} {stack : List Frame}
      (hstack : s.stack = .symbol (.terminal name) node :: stack)
      (h : s.lookahead ≠ .terminal name) :
      Rejects table s (.expected (.terminal name) s.lookahead s.lexeme)
  | missing {name : String} {node : NodeId} {stack : List Frame}
      (hstack : s.stack = .symbol (.nonterminal name) node :: stack)
      (h : table.get? name s.lookahead = none) :
      Rejects table s (.noProduction name s.lookahead s.lexeme)

theorem State.lookahead_eq (s : State) : s.lookahead = .ofWord (Token.kinds s.remaining) := by
  obtain ⟨stack, nodes, previous, remaining⟩ := s
  cases remaining <;> rfl

variable {table : Table} {s s' : State}

/-- Every state moves on, accepts or rejects. -/
theorem step_cases (table : Table) (s : State) :
    (∃ s', step table s = .next s' ∧ Move table s s') ∨
      (step table s = .accepted ∧ Accepts s) ∨
        ∃ error, step table s = .rejected (s.fail error) ∧ Rejects table s error := by
  obtain ⟨stack, nodes, previous, remaining⟩ := s
  cases stack with
  | nil => exact Or.inr (Or.inl ⟨rfl, .empty⟩)
  | cons frame stack =>
    cases frame with
    | bottom =>
      cases remaining with
      | nil => exact Or.inr (Or.inl ⟨rfl, .bottom⟩)
      | cons token remaining =>
        exact Or.inr (Or.inr ⟨_, rfl, .trailing rfl (List.cons_ne_nil _ _)⟩)
    | symbol symbol node =>
      cases symbol with
      | epsilon => exact Or.inl ⟨_, rfl, .skip⟩
      | terminal name =>
        cases remaining with
        | nil => exact Or.inr (Or.inr ⟨_, rfl, .mismatch rfl Lookahead.noConfusion⟩)
        | cons token remaining =>
          by_cases hkind : token.kind = name
          · subst hkind
            exact Or.inl ⟨_, if_pos rfl, .take token⟩
          · refine Or.inr (Or.inr ⟨_, if_neg hkind, .mismatch rfl ?_⟩)
            exact fun h => hkind (Lookahead.terminal.inj h)
      | nonterminal name =>
        have hlookahead := State.lookahead_eq
          ⟨.symbol (.nonterminal name) node :: stack, nodes, previous, remaining⟩
        simp only [step]
        cases hcell : table.get? name (State.lookahead
            ⟨.symbol (.nonterminal name) node :: stack, nodes, previous, remaining⟩) with
        | none => exact Or.inr (Or.inr ⟨_, rfl, .missing rfl hcell⟩)
        | some p =>
          rw [hlookahead] at hcell
          exact Or.inl ⟨_, rfl, .expand hcell⟩

theorem move_of_step (h : step table s = .next s') : Move table s s' := by
  rcases step_cases table s with ⟨t, hstep, hmove⟩ | ⟨hstep, _⟩ | ⟨error, hstep, _⟩
  · rw [h] at hstep
    exact Step.next.inj hstep ▸ hmove
  · rw [h] at hstep
    cases hstep
  · rw [h] at hstep
    cases hstep

theorem step_of_move (h : Move table s s') : step table s = .next s' := by
  cases h with
  | skip => rfl
  | take token => exact if_pos rfl
  | expand hp =>
    rw [← State.lookahead_eq ⟨_, _, _, _⟩] at hp
    simp only [step]
    rw [hp]

theorem accepts_of_step (h : step table s = .accepted) : Accepts s := by
  rcases step_cases table s with ⟨t, hstep, _⟩ | ⟨_, haccepts⟩ | ⟨error, hstep, _⟩
  · rw [h] at hstep
    cases hstep
  · exact haccepts
  · rw [h] at hstep
    cases hstep

theorem step_of_accepts (h : Accepts s) : step table s = .accepted := by
  cases h <;> rfl

theorem rejects_of_step {e : Located SyntaxError} (h : step table s = .rejected e) :
    ∃ error, e = s.fail error ∧ Rejects table s error := by
  rcases step_cases table s with ⟨t, hstep, _⟩ | ⟨hstep, _⟩ | ⟨error, hstep, hrejects⟩
  · rw [h] at hstep
    cases hstep
  · rw [h] at hstep
    cases hstep
  · rw [h] at hstep
    exact ⟨error, Step.rejected.inj hstep, hrejects⟩

theorem step_of_rejects {error : SyntaxError} (h : Rejects table s error) :
    step table s = .rejected (s.fail error) := by
  obtain ⟨stack, nodes, previous, remaining⟩ := s
  cases h with
  | trailing hstack hremaining =>
    subst hstack
    cases remaining with
    | nil => exact absurd rfl hremaining
    | cons token remaining => rfl
  | mismatch hstack hne =>
    subst hstack
    cases remaining with
    | nil => rfl
    | cons token remaining => exact if_neg fun hkind => hne (congrArg Lookahead.terminal hkind)
  | missing hstack hnone =>
    subst hstack
    simp only [step]
    rw [hnone]

/-- So many moves lead from one state to the other. -/
inductive Trace (table : Table) : Nat → State → State → Prop where
  | refl (s : State) : Trace table 0 s s
  | head {n : Nat} {s s' s'' : State} : Move table s s' → Trace table n s' s'' →
      Trace table (n + 1) s s''

theorem Trace.trans {m n : Nat} {s'' : State} (h : Trace table m s s')
    (h' : Trace table n s' s'') : Trace table (m + n) s s'' := by
  induction h with
  | refl s => rwa [Nat.zero_add]
  | head hmove _ ih =>
    rw [Nat.add_right_comm]
    exact .head hmove (ih h')

abbrev Answer := Except (Located SyntaxError) SyntaxTree

theorem run_of_trace {m : Nat} (h : Trace table m s s') (n : Nat) :
    run table (m + n) s = run table n s' := by
  induction h with
  | refl s => rw [Nat.zero_add]
  | head hmove _ ih =>
    rw [Nat.add_right_comm]
    simp only [run, step_of_move hmove]
    exact ih

/-- A run that has answered keeps its answer. -/
theorem run_add {n : Nat} {answer : Answer} (h : run table n s = some answer) (m : Nat) :
    run table (n + m) s = some answer := by
  induction n generalizing s with
  | zero => cases h
  | succ n ih =>
    rw [Nat.add_right_comm]
    simp only [run] at h ⊢
    cases hstep : step table s with
    | next s' =>
      rw [hstep] at h
      exact ih h
    | accepted =>
      rw [hstep] at h
      exact h
    | rejected e =>
      rw [hstep] at h
      exact h

theorem run_le {m n : Nat} {answer : Answer} (h : run table n s = some answer) (hle : n ≤ m) :
    run table m s = some answer := by
  obtain ⟨k, rfl⟩ := Nat.exists_eq_add_of_le hle
  exact run_add h k

theorem run_unique {m n : Nat} {answer answer' : Answer} (h : run table m s = some answer)
    (h' : run table n s = some answer') : answer = answer' := by
  have hm := run_add h n
  have hn := run_add h' m
  rw [Nat.add_comm, hm] at hn
  exact Option.some.inj hn

theorem run_of_accepts {m : Nat} (h : Trace table m s s') (haccepts : Accepts s') :
    run table (m + 1) s = some (finish s') := by
  rw [run_of_trace h]
  simp only [run, step_of_accepts haccepts]

theorem run_of_rejects {m : Nat} {error : SyntaxError} (h : Trace table m s s')
    (hrejects : Rejects table s' error) : run table (m + 1) s = some (.error (s'.fail error)) := by
  rw [run_of_trace h]
  simp only [run, step_of_rejects hrejects]

/-- A run that has not answered has made all its moves. -/
theorem exists_trace_of_run_eq_none {n : Nat} (h : run table n s = none) :
    ∃ s', Trace table n s s' := by
  induction n generalizing s with
  | zero => exact ⟨s, .refl s⟩
  | succ n ih =>
    simp only [run] at h
    cases hstep : step table s with
    | next t =>
      rw [hstep] at h
      obtain ⟨s', htrace⟩ := ih h
      exact ⟨s', .head (move_of_step hstep) htrace⟩
    | accepted =>
      rw [hstep] at h
      cases h
    | rejected e =>
      rw [hstep] at h
      cases h

/-- An answer comes from a state that accepts or from one that rejects. -/
theorem exists_trace_of_run {n : Nat} {answer : Answer} (h : run table n s = some answer) :
    ∃ m s', Trace table m s s' ∧
      ((Accepts s' ∧ answer = finish s') ∨
        ∃ error, Rejects table s' error ∧ answer = .error (s'.fail error)) := by
  induction n generalizing s with
  | zero => cases h
  | succ n ih =>
    simp only [run] at h
    cases hstep : step table s with
    | next t =>
      rw [hstep] at h
      obtain ⟨m, s', htrace, hstop⟩ := ih h
      exact ⟨m + 1, s', .head (move_of_step hstep) htrace, hstop⟩
    | accepted =>
      rw [hstep] at h
      exact ⟨0, s, .refl s, Or.inl ⟨accepts_of_step hstep, (Option.some.inj h).symm⟩⟩
    | rejected e =>
      rw [hstep] at h
      obtain ⟨error, rfl, hrejects⟩ := rejects_of_step hstep
      exact ⟨0, s, .refl s, Or.inr ⟨error, hrejects, (Option.some.inj h).symm⟩⟩

/-- The stack holds the symbols of the form above the bottom. -/
inductive Stacked : List Frame → List Symbol → Prop where
  | bottom : Stacked [.bottom] []
  | symbol (symbol : Symbol) (node : NodeId) {stack : List Frame} {form : List Symbol} :
      Stacked stack form → Stacked (.symbol symbol node :: stack) (symbol :: form)

namespace Stacked

theorem initial (start : String) (tokens : List Token) :
    Stacked (State.initial start tokens).stack [.nonterminal start] := .symbol _ _ .bottom

theorem expand {stack : List Frame} {form : List Symbol} (h : Stacked stack form)
    (parent next : NodeId) (body : Body) :
    Stacked ((Parse.expand parent next body).frames ++ stack) (body ++ form) := by
  induction body generalizing next with
  | nil => exact h
  | cons symbol rest ih =>
    cases symbol with
    | epsilon => exact .symbol _ _ (ih next)
    | terminal t => exact .symbol _ _ (ih (next + 1))
    | nonterminal name => exact .symbol _ _ (ih (next + 1))

theorem length_eq {stack : List Frame} {form : List Symbol} (h : Stacked stack form) :
    stack.length = form.length + 1 := by
  induction h with
  | bottom => rfl
  | symbol _ _ _ ih => exact congrArg Nat.succ ih

end Stacked

end TopDown.Parse
