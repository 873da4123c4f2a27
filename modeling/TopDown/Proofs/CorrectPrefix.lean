import TopDown.Proofs.Recognition

/-!
Where a parse fails. With the table of a grammar the tokens taken before an error still begin a form
that the start symbol derives, and the token the error shows is the first that fits no sentence: as
long as some sentence agrees with the input up to the lookahead, the machine reads on along the
derivation of that sentence, whatever the rest of the input is.
-/
namespace TopDown

open TopDown.Derivation

/-- The error shows this lookahead, with this text. -/
def SyntaxError.Shows (found : Lookahead) (lexeme : String) : SyntaxError → Prop
  | .expected _ shown text => shown = found ∧ text = lexeme
  | .noProduction _ shown text => shown = found ∧ text = lexeme
  | .unmatchedTerminal => False

/-- The error points past the first `k` tokens, at the one after them or at the end of the input.
What was taken can begin a sentential form, and with the token pointed at it begins no sentence. -/
structure Grammar.Blames (g : Grammar) (tokens : List Token) (k : Nat)
    (e : Located SyntaxError) : Prop where
  le : k ≤ tokens.length
  shows : e.error.Shows (.ofWord (Token.kinds (tokens.drop k))) (tokens[k]?.elim "" Token.lexeme)
  location : e.location = (tokens[k]?.or tokens.getLast?).elim .nowhere Token.location
  viable : ∃ form,
    g.Derives [.nonterminal g.start] ((Token.kinds (tokens.take k)).map .terminal ++ form)
  stuck : ∀ token, tokens[k]? = some token →
    ∀ rest, ¬ g.Generates g.start (Token.kinds (tokens.take k) ++ token.kind :: rest)
  stuck_at_end : k = tokens.length → ¬ g.Generates g.start (Token.kinds tokens)

namespace Parse

variable {table : Table} {s s' : State} {form : List Symbol} {n : Nat}

theorem Rejects.shows {error : SyntaxError} (h : Rejects table s error) :
    error.Shows s.lookahead s.lexeme := by
  cases h with
  | trailing => exact ⟨rfl, rfl⟩
  | mismatch => exact ⟨rfl, rfl⟩
  | missing => exact ⟨rfl, rfl⟩

theorem State.lexeme_eq (s : State) : s.lexeme = s.remaining.head?.elim "" Token.lexeme := by
  obtain ⟨stack, nodes, previous, remaining⟩ := s
  cases remaining <;> rfl

theorem State.location_eq (s : State) :
    s.location = (s.remaining.head?.or s.previous).elim .nowhere Token.location := by
  obtain ⟨stack, nodes, previous, remaining⟩ := s
  cases remaining with
  | nil => cases previous <;> rfl
  | cons token remaining => rfl

/-- The run on the tokens has come to this state with those in front taken. -/
structure Reached (table : Table) (start : String) (tokens taken : List Token) (s : State) :
    Prop where
  tokens_eq : tokens = taken ++ s.remaining
  previous_eq : s.previous = taken.getLast?
  consumes : ∃ n left, Consumes table s.remaining n [.nonterminal start] taken left ∧
    Stacked s.stack left

theorem exists_reached_of_trace {start : String} {tokens : List Token}
    (h : Trace table n (.initial start tokens) s) :
    ∃ taken, Reached table start tokens taken s := by
  obtain ⟨taken, left, hconsumes, hstack, htokens, hprevious⟩ :=
    consumes_of_trace h (Stacked.initial start tokens)
  change s.previous = taken.getLast?.or none at hprevious
  rw [Option.or_none] at hprevious
  exact ⟨taken, htokens, hprevious, n, left, hconsumes, hstack⟩

namespace Reached

variable {start : String} {tokens taken : List Token}

theorem take_eq (h : Reached table start tokens taken s) : tokens.take taken.length = taken := by
  rw [h.tokens_eq]
  exact List.take_left

theorem drop_eq (h : Reached table start tokens taken s) :
    tokens.drop taken.length = s.remaining := by
  rw [h.tokens_eq]
  exact List.drop_left

theorem getElem?_eq (h : Reached table start tokens taken s) :
    tokens[taken.length]? = s.remaining.head? := by
  rw [← List.head?_drop, h.drop_eq]

/-- At the end of the input the token remembered is the last of all. -/
theorem location_eq (h : Reached table start tokens taken s) :
    s.location = (tokens[taken.length]?.or tokens.getLast?).elim .nowhere Token.location := by
  rw [State.location_eq, h.getElem?_eq, h.previous_eq]
  cases hremaining : s.remaining with
  | nil =>
    have htokens := h.tokens_eq
    rw [hremaining, List.append_nil] at htokens
    rw [htokens]
  | cons token remaining => rfl

end Reached

/-- A state that rejects reads no word that shows its lookahead. -/
theorem not_reads_of_rejects {error : SyntaxError} {v : List String} {ds : List Derivation}
    (h : Rejects table s error) (hstack : Stacked s.stack form)
    (hv : Lookahead.ofWord v = s.lookahead) : ¬ table.Reads form v ds [] := by
  intro hreads
  obtain ⟨stack, nodes, previous, remaining⟩ := s
  cases h with
  | trailing heq hremaining =>
    cases hstack with
    | bottom =>
      cases hreads with
      | nil =>
        cases remaining with
        | nil => exact hremaining rfl
        | cons token remaining => cases hv
    | symbol => cases heq
  | mismatch heq hne =>
    cases hstack with
    | bottom => cases heq
    | symbol symbol node hstack =>
      cases heq
      cases hreads with
      | terminal t hreads => exact hne hv.symm
  | missing heq hnone =>
    cases hstack with
    | bottom => cases heq
    | symbol symbol node hstack =>
      cases heq
      cases hreads with
      | nonterminal hp _ _ =>
        rw [hv, hnone] at hp
        cases hp

end Parse

namespace Grammar

variable {g : Grammar} {table : Table}

/-- A form derives what it takes, followed by what is left of it. -/
theorem derives_of_consumes (htable : g.table = .ok table) {n : Nat} {form left : List Symbol}
    {taken after : List Token} (h : Parse.Consumes table after n form taken left) :
    g.Derives (form.filter (· ≠ .epsilon))
      ((Token.kinds taken).map .terminal ++ left.filter (· ≠ .epsilon)) := by
  induction h with
  | refl form => exact .refl _
  | skip _ ih => exact ih
  | take token _ ih =>
    have hcontext := ih.context [.terminal token.kind] []
    simp only [List.append_nil] at hcontext
    exact hcontext
  | @expand _ name rest _ _ p hp _ ih =>
    obtain ⟨hmem, rfl, _⟩ := (get?_table_iff htable).mp hp
    rw [List.filter_append] at ih
    exact .head (.expand [] (rest.filter (· ≠ .epsilon)) p hmem) ih

/-- An error comes from a state that rejects: what accepts has matched every terminal. -/
theorem exists_rejects_of_parse {start : String} {tokens : List Token} {e : Located SyntaxError}
    (h : table.parse start tokens = some (.error e)) :
    ∃ n s error, Parse.Trace table n (.initial start tokens) s ∧ Parse.Rejects table s error ∧
      e = s.fail error := by
  obtain ⟨n, s, htrace, ⟨haccepts, _⟩ | ⟨error, hrejects, hanswer⟩⟩ := Parse.exists_trace_of_run h
  · have hstack := Parse.Stacked.initial start tokens
    obtain ⟨ds, hreads⟩ : ∃ ds, table.Reads [.nonterminal start] (Token.kinds tokens) ds [] :=
      Parse.reads_of_trace htrace haccepts hstack
    obtain ⟨tree, htree, _, _⟩ := parse_of_reads hreads
    rw [h] at htree
    cases htree
  · exact ⟨n, s, error, htrace, hrejects, Except.error.inj hanswer⟩

section Blame

variable {start : String} {tokens taken : List Token} {s : Parse.State} {error : SyntaxError}

/-- No sentence agrees with the input up to the lookahead of a state that rejects. -/
theorem not_generates_of_rejects (htable : g.table = .ok table) {v : List String}
    (hreached : Parse.Reached table g.start tokens taken s)
    (hrejects : Parse.Rejects table s error) (hv : Lookahead.ofWord v = s.lookahead) :
    ¬ g.Generates g.start (Token.kinds taken ++ v) := by
  intro hgenerates
  obtain ⟨n, left, hconsumes, hstack⟩ := hreached.consumes
  have hreads := (generates_iff_reads htable).mp hgenerates
  have hafter : Lookahead.ofWord v = .ofWord (Token.kinds s.remaining) := by
    rw [hv, Parse.State.lookahead_eq]
  obtain ⟨ds, hleft⟩ := (hconsumes.reads_iff hafter).mp hreads
  exact Parse.not_reads_of_rejects hrejects hstack hv hleft

theorem not_generates_next (htable : g.table = .ok table)
    (hreached : Parse.Reached table g.start tokens taken s)
    (hrejects : Parse.Rejects table s error) {token : Token}
    (htoken : s.remaining.head? = some token) (rest : List String) :
    ¬ g.Generates g.start (Token.kinds taken ++ token.kind :: rest) := by
  obtain ⟨later, hremaining⟩ := List.head?_eq_some_iff.mp htoken
  apply not_generates_of_rejects htable hreached hrejects
  rw [Parse.State.lookahead_eq, hremaining]
  rfl

theorem not_generates_end (htable : g.table = .ok table)
    (hreached : Parse.Reached table g.start tokens taken s)
    (hrejects : Parse.Rejects table s error) (hremaining : s.remaining = []) :
    ¬ g.Generates g.start (Token.kinds tokens) := by
  have htokens := hreached.tokens_eq
  rw [hremaining, List.append_nil] at htokens
  have hnot : ¬ g.Generates g.start (Token.kinds taken ++ []) := by
    apply not_generates_of_rejects htable hreached hrejects
    rw [Parse.State.lookahead_eq, hremaining]
    rfl
  rwa [List.append_nil, ← htokens] at hnot

/-- What a state that rejects says is to blame on the token after those taken. -/
theorem blames_of_rejects (htable : g.table = .ok table)
    (hreached : Parse.Reached table g.start tokens taken s)
    (hrejects : Parse.Rejects table s error) : g.Blames tokens taken.length (s.fail error) where
  le := by
    rw [hreached.tokens_eq, List.length_append]
    exact Nat.le_add_right _ _
  shows := by
    rw [hreached.drop_eq, hreached.getElem?_eq, ← Parse.State.lookahead_eq,
      ← Parse.State.lexeme_eq]
    exact hrejects.shows
  location := hreached.location_eq
  viable := by
    obtain ⟨n, left, hconsumes, _⟩ := hreached.consumes
    rw [hreached.take_eq]
    exact ⟨_, derives_of_consumes htable hconsumes⟩
  stuck := by
    intro token htoken rest
    rw [hreached.getElem?_eq] at htoken
    rw [hreached.take_eq]
    exact not_generates_next htable hreached hrejects htoken rest
  stuck_at_end := by
    intro hlength
    have hremaining : s.remaining = [] := by
      rw [← hreached.drop_eq, hlength]
      exact List.drop_length
    exact not_generates_end htable hreached hrejects hremaining

end Blame

/-- An error blames the first token that fits no sentence, or the end of an input that is none. -/
theorem parse_error_blames (htable : g.table = .ok table) {tokens : List Token}
    {e : Located SyntaxError} (h : table.parse g.start tokens = some (.error e)) :
    ∃ k, g.Blames tokens k e := by
  obtain ⟨n, s, error, htrace, hrejects, rfl⟩ := exists_rejects_of_parse h
  obtain ⟨taken, hreached⟩ := Parse.exists_reached_of_trace htrace
  exact ⟨taken.length, blames_of_rejects htable hreached hrejects⟩

theorem parse_error_blames_nestedPairs :
    ∃ k, nestedPairs.Blames [⟨"a", "(", 1, 1⟩, ⟨"b", ")", 1, 2⟩, ⟨"b", ")", 1, 3⟩] k
      ⟨.expected .endOfInput (.terminal "b") ")", .inStream 1 3⟩ :=
  parse_error_blames table_nestedPairs (Parse.parse_of_run (n := 7) rfl)

end Grammar

end TopDown
