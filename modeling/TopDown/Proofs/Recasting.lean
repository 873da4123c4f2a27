import TopDown.Proofs.Consumption
import TopDown.Proofs.TreeBuilding

/-!
Runs on other tokens. The moves of a run carry over to other tokens of the same kinds in the place
of those it takes, and to another rest of the input that shows the same lookahead in the end; so
does the way it stops.
-/
namespace TopDown

/-- The node with another token in place of its own, if it has one. -/
def Node.mapToken (g : Token → Token) : Node → Node
  | .inner name children => .inner name children
  | .leaf token => .leaf (g token)

/-- The tree with other tokens at its leaves. -/
def SyntaxTree.mapTokens (g : Token → Token) (tree : SyntaxTree) : SyntaxTree :=
  ⟨tree.nodes.map (Node.mapToken g)⟩

/-- The same complaint about a token with this text. -/
def SyntaxError.withLexeme (lexeme : String) : SyntaxError → SyntaxError
  | .expected wanted found _ => .expected wanted found lexeme
  | .noProduction nonterminal lookahead _ => .noProduction nonterminal lookahead lexeme
  | .unmatchedTerminal => .unmatchedTerminal

namespace Parse

/-- The state with other tokens in its nodes and before another rest of the input. -/
def State.recast (f : Token → Token) (s : State) (remaining : List Token) : State :=
  { stack := s.stack
    nodes := s.nodes.map (Option.map (Node.mapToken f))
    previous := s.previous.map f
    remaining }

variable {table : Table} {s s' : State} {n : Nat} {f : Token → Token} {taken others : List Token}

theorem mapToken_attach (children : List NodeId) (slot : Option Node) :
    (attach children slot).map (Node.mapToken f) =
      attach children (slot.map (Node.mapToken f)) := by
  cases slot with
  | none => rfl
  | some node => cases node <;> rfl

theorem map_nodes_expand (parent next : NodeId) (body : Body) :
    (expand parent next body).nodes.map (Option.map (Node.mapToken f)) =
      (expand parent next body).nodes := by
  induction body generalizing next with
  | nil => rfl
  | cons symbol rest ih =>
    cases symbol with
    | epsilon => exact ih next
    | terminal t => exact congrArg (none :: ·) (ih (next + 1))
    | nonterminal name => exact congrArg (some (.inner name []) :: ·) (ih (next + 1))

/-- An expansion makes no leaves, so tokens can be changed before it or after. -/
theorem map_grown (nodes : Array (Option Node)) (id : NodeId) (body : Body) :
    (grown nodes id body).map (Option.map (Node.mapToken f)) =
      grown (nodes.map (Option.map (Node.mapToken f))) id body := by
  have hold : ∀ children, (nodes.modify id (attach children)).map (Option.map (Node.mapToken f)) =
      (nodes.map (Option.map (Node.mapToken f))).modify id (attach children) := by
    intro children
    apply Array.ext_getElem?
    intro i
    rw [Array.getElem?_map, Array.getElem?_modify, Array.getElem?_modify, Array.getElem?_map]
    by_cases hi : id = i
    · rw [if_pos hi, if_pos hi, Option.map_map, Option.map_map]
      exact congrArg (Option.map · _) (funext (mapToken_attach children))
    · rw [if_neg hi, if_neg hi]
  have hnew := congrArg List.toArray (map_nodes_expand (f := f) id nodes.size body)
  rw [← List.map_toArray] at hnew
  rw [grown_eq, grown_eq, Array.map_append, hold, hnew, Array.size_map]

theorem lookahead_recast
    (hnext : Lookahead.ofWord (Token.kinds others) = .ofWord (Token.kinds s.remaining)) :
    (s.recast f others).lookahead = s.lookahead := by
  rw [State.lookahead_eq, State.lookahead_eq]
  exact hnext

theorem kinds_map_append (hf : ∀ token ∈ taken, (f token).kind = token.kind)
    {rest : List Token} (hnext : Lookahead.ofWord (Token.kinds others) =
      .ofWord (Token.kinds rest)) :
    Lookahead.ofWord (Token.kinds (taken.map f ++ others)) =
      .ofWord (Token.kinds (taken ++ rest)) := by
  have hkinds : (taken.map f).map Token.kind = taken.map Token.kind := by
    rw [List.map_map]
    exact List.map_congr_left hf
  unfold Token.kinds at hnext ⊢
  rw [List.map_append, List.map_append, hkinds]
  exact ofWord_append hnext _

/-- A move takes some tokens, one at most. It is made just as well with others of the same kinds in
their place, before another rest that shows the same. -/
theorem Move.recast (h : Move table s s') :
    ∃ taken, s.remaining = taken ++ s'.remaining ∧
      ∀ f others, (∀ token ∈ taken, (f token).kind = token.kind) →
        Lookahead.ofWord (Token.kinds others) = .ofWord (Token.kinds s'.remaining) →
          Move table (s.recast f (taken.map f ++ others)) (s'.recast f others) := by
  cases h with
  | skip => exact ⟨[], rfl, fun f others _ _ => .skip⟩
  | @take node stack nodes previous remaining token =>
    refine ⟨[token], rfl, fun f others hf _ => ?_⟩
    have hmove : Move table ⟨.symbol (.terminal (f token).kind) node :: stack,
        nodes.map (Option.map (Node.mapToken f)), previous.map f, f token :: others⟩ _ :=
      .take (f token)
    rw [hf token List.mem_cons_self] at hmove
    simp only [State.recast, Array.map_setIfInBounds, Option.map_some]
    exact hmove
  | @expand name node stack nodes previous remaining p hp =>
    refine ⟨[], rfl, fun f others _ hnext => ?_⟩
    rw [← hnext] at hp
    have hmove : Move table ⟨.symbol (.nonterminal name) node :: stack,
        nodes.map (Option.map (Node.mapToken f)), previous.map f, others⟩ _ := .expand hp
    have hgrown := map_grown (f := f) nodes node p.body
    simp only [grown] at hgrown
    rw [Array.size_map] at hmove hgrown
    simp only [State.recast, hgrown]
    exact hmove

/-- So does a whole trace. -/
theorem Trace.recast (h : Trace table n s s') :
    ∃ taken, s.remaining = taken ++ s'.remaining ∧
      ∀ f others, (∀ token ∈ taken, (f token).kind = token.kind) →
        Lookahead.ofWord (Token.kinds others) = .ofWord (Token.kinds s'.remaining) →
          Trace table n (s.recast f (taken.map f ++ others)) (s'.recast f others) := by
  induction h with
  | refl s => exact ⟨[], rfl, fun f others _ _ => .refl _⟩
  | @head n s t s' hmove _ ih =>
    obtain ⟨first, hfirst, hmoves⟩ := hmove.recast
    obtain ⟨later, hlater, htraces⟩ := ih
    refine ⟨first ++ later, by rw [hfirst, hlater, List.append_assoc], ?_⟩
    intro f others hf hnext
    have hfirstKinds : ∀ token ∈ first, (f token).kind = token.kind :=
      fun token htoken => hf token (List.mem_append_left later htoken)
    have hlaterKinds : ∀ token ∈ later, (f token).kind = token.kind :=
      fun token htoken => hf token (List.mem_append_right first htoken)
    have hshown := kinds_map_append hlaterKinds hnext
    rw [← hlater] at hshown
    rw [List.map_append, List.append_assoc]
    exact .head (hmoves f _ hfirstKinds hshown) (htraces f others hlaterKinds hnext)

theorem Rejects.recast {error : SyntaxError} (h : Rejects table s error)
    (hnext : Lookahead.ofWord (Token.kinds others) = .ofWord (Token.kinds s.remaining)) :
    Rejects table (s.recast f others) (error.withLexeme (s.recast f others).lexeme) := by
  have hlookahead := lookahead_recast (f := f) hnext
  cases h with
  | trailing hstack hremaining =>
    rw [← hlookahead]
    refine .trailing hstack fun hothers => hremaining ?_
    change others = [] at hothers
    rw [hothers] at hnext
    cases hrest : s.remaining with
    | nil => rfl
    | cons token rest =>
      rw [hrest] at hnext
      cases hnext
  | mismatch hstack hne =>
    rw [← hlookahead] at hne ⊢
    exact .mismatch hstack hne
  | missing hstack hnone =>
    rw [← hlookahead] at hnone ⊢
    exact .missing hstack hnone

theorem Accepts.recast (h : Accepts s)
    (hnext : Lookahead.ofWord (Token.kinds others) = .ofWord (Token.kinds s.remaining)) :
    Accepts (s.recast f others) := by
  cases h with
  | empty => exact .empty
  | bottom =>
    cases others with
    | nil => exact .bottom
    | cons token others => cases hnext

theorem complete_map (nodes : Array (Option Node)) :
    complete (nodes.map (Option.map (Node.mapToken f))) =
      (complete nodes).map (SyntaxTree.mapTokens f) := by
  have hall : (nodes.map (Option.map (Node.mapToken f))).all Option.isSome =
      nodes.all Option.isSome := by
    rw [Array.all_map]
    congr 1
    funext slot
    cases slot <;> rfl
  unfold complete
  rw [hall]
  by_cases hfilled : nodes.all Option.isSome = true
  · rw [if_pos hfilled, if_pos hfilled, Array.filterMap_map, Option.map_some,
      SyntaxTree.mapTokens, Array.map_filterMap]
    rfl
  · rw [if_neg hfilled, if_neg hfilled]
    rfl

end Parse

end TopDown
