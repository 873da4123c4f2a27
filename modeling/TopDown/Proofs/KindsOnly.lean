import TopDown.Proofs.ParsedTrees
import TopDown.Proofs.Recasting

/-!
Parses look at nothing but the kinds of their tokens. A run on tokens that carry their places shows
where each answer takes its tokens from the input, and this run carries over to every input of the
same kinds. A failure before the end of the input carries over to every input that has the same
kinds up to the token it points at.
-/
namespace TopDown.Parse

/-- A node with the place of its token in the input, if it has one. -/
inductive Slot where
  | inner (nonterminal : String) (children : List NodeId)
  | leaf (place : Nat)
deriving DecidableEq, Repr

/-- What comes out of a parse, with places in the input where the answer has tokens. A failure is at
the place of the token it points at, or at the one past all tokens. -/
inductive Outcome where
  | tree (slots : Array Slot)
  | failure (error : SyntaxError) (place : Nat)
deriving DecidableEq, Repr

namespace Slot

/-- The slot of a node whose token carries its place. -/
def ofNode : Node → Slot
  | .inner nonterminal children => inner nonterminal children
  | .leaf token => leaf token.column

def fill (tokens : List Token) : Slot → Node
  | inner nonterminal children => .inner nonterminal children
  | leaf place => .leaf (tokens.getD place default)

end Slot

namespace Outcome

/-- Every place is one of so many tokens, or past them. -/
def Within (count : Nat) : Outcome → Prop
  | tree slots => ∀ place, .leaf place ∈ slots → place < count
  | failure _ place => place ≤ count

/-- The answer on this input. Past all tokens an error has no text and stands at the last one. -/
def answer (tokens : List Token) : Outcome → Answer
  | tree slots => .ok ⟨slots.map (Slot.fill tokens)⟩
  | failure error place =>
    .error ⟨error.withLexeme (tokens[place]?.elim "" Token.lexeme),
      (tokens[place]?.or tokens.getLast?).elim .nowhere Token.location⟩

end Outcome

/-- The kinds decide the outcome for every input that has them, and a failure at a token for every
input that has them up to this token. -/
structure Decides (table : Table) (start : String) (kinds : List String)
    (outcome : Option Outcome) : Prop where
  within : ∀ found, outcome = some found → found.Within kinds.length
  answers : ∀ tokens, Token.kinds tokens = kinds →
    table.parse start tokens = outcome.map (Outcome.answer tokens)
  early : ∀ error place, outcome = some (.failure error place) → place < kinds.length →
    ∀ tokens, (Token.kinds tokens).take (place + 1) = kinds.take (place + 1) →
      table.parse start tokens = some (Outcome.answer tokens (.failure error place))

/-- Tokens of these kinds that carry their places. -/
def placed (kinds : List String) : List Token :=
  kinds.zipIdx.map fun (kind, place) => ⟨kind, "", 0, place⟩

/-- The token of the input at the place that the other one carries. -/
def pick (tokens : List Token) (token : Token) : Token := tokens.getD token.column default

/-- The two have the same first `k` terminals and show the same behind them. -/
def Agree (k : Nat) (v w : List String) : Prop :=
  v.take k = w.take k ∧ Lookahead.ofWord (v.drop k) = .ofWord (w.drop k)

section Placed

variable {table : Table} {start : String} {kinds : List String} {tokens taken : List Token}
  {s : State} {n k : Nat}

theorem kinds_placed (kinds : List String) : Token.kinds (placed kinds) = kinds := by
  rw [Token.kinds, placed, List.map_map]
  exact List.zipIdx_map_fst 0 kinds

theorem length_placed (kinds : List String) : (placed kinds).length = kinds.length := by
  rw [placed, List.length_map, List.length_zipIdx]

theorem getElem?_placed (kinds : List String) (i : Nat) :
    (placed kinds)[i]? = kinds[i]?.map fun kind => ⟨kind, "", 0, i⟩ := by
  rw [placed, List.getElem?_map, List.getElem?_zipIdx, Option.map_map, Nat.zero_add]
  rfl

theorem column_lt_of_mem_placed {token : Token} (h : token ∈ placed kinds) :
    token.column < kinds.length := by
  obtain ⟨i, hi⟩ := List.mem_iff_getElem?.mp h
  rw [getElem?_placed, Option.map_eq_some_iff] at hi
  obtain ⟨kind, hkind, rfl⟩ := hi
  exact (List.getElem?_eq_some_iff.mp hkind).1

/-- Picking for the first places gives the first tokens. -/
theorem map_pick_placed (hk : k ≤ kinds.length) (hle : k ≤ tokens.length) :
    ((placed kinds).take k).map (pick tokens) = tokens.take k := by
  apply List.ext_getElem?
  intro i
  rw [List.getElem?_map, List.getElem?_take, List.getElem?_take]
  by_cases hi : i < k
  · have hkind : i < kinds.length := by omega
    have htoken : i < tokens.length := by omega
    rw [if_pos hi, if_pos hi, getElem?_placed, List.getElem?_eq_getElem hkind,
      List.getElem?_eq_getElem htoken]
    simp only [Option.map_some, pick, List.getD_eq_getElem?_getD,
      List.getElem?_eq_getElem htoken, Option.getD_some]
  · rw [if_neg hi, if_neg hi]
    rfl

theorem agree_refl (k : Nat) (w : List String) : Agree k w w := ⟨rfl, rfl⟩

/-- Words with the same first `k + 1` terminals agree behind the first `k`. -/
theorem agree_of_take_succ {v w : List String} (h : v.take (k + 1) = w.take (k + 1)) :
    Agree k v w := by
  have htake : ∀ u : List String, u.take k = (u.take (k + 1)).take k := by
    intro u
    rw [List.take_take, Nat.min_eq_left (Nat.le_succ k)]
  have hdrop : ∀ u : List String,
      Lookahead.ofWord (u.drop k) = .ofWord ((u.take (k + 1)).drop k) := by
    intro u
    rw [List.drop_take, Nat.add_sub_cancel_left]
    cases u.drop k <;> rfl
  exact ⟨by rw [htake v, htake w, h], by rw [hdrop v, hdrop w, h]⟩

theorem recast_initial (f : Token → Token) (start : String) (tokens others : List Token) :
    (State.initial start tokens).recast f others = .initial start others := by
  simp [State.recast, State.initial, Node.mapToken]

/-- Tokens that agree with the ones taken so far, and with the next, show what the machine sees. -/
theorem ofWord_drop_placed (hreached : Reached table start (placed kinds) taken s)
    (hagree : Agree taken.length (Token.kinds tokens) kinds) :
    Lookahead.ofWord (Token.kinds (tokens.drop taken.length)) =
      .ofWord (Token.kinds s.remaining) := by
  have hplaced := congrArg (List.drop taken.length) (kinds_placed kinds)
  rw [Token.kinds, ← List.map_drop, hreached.drop_eq] at hplaced
  rw [Token.kinds, Token.kinds, List.map_drop, hplaced]
  exact hagree.2

theorem map_pick_taken (hreached : Reached table start (placed kinds) taken s)
    (hagree : Agree taken.length (Token.kinds tokens) kinds) :
    taken.map (pick tokens) = tokens.take taken.length := by
  have hk : taken.length ≤ kinds.length := by
    rw [← length_placed, hreached.tokens_eq, List.length_append]
    exact Nat.le_add_right _ _
  have hle : taken.length ≤ tokens.length := by
    have hlength := congrArg List.length hagree.1
    rw [Token.kinds, List.length_take, List.length_take, List.length_map] at hlength
    omega
  have hmap := map_pick_placed hk hle
  rwa [hreached.take_eq] at hmap

theorem kind_pick_taken (hreached : Reached table start (placed kinds) taken s)
    (hagree : Agree taken.length (Token.kinds tokens) kinds) :
    ∀ token ∈ taken, (pick tokens token).kind = token.kind := by
  apply List.map_inj_left.mp
  have hplaced := congrArg (List.take taken.length) (kinds_placed kinds)
  rw [Token.kinds, ← List.map_take, hreached.take_eq] at hplaced
  change taken.map (Token.kind ∘ pick tokens) = _
  rw [← List.map_map, map_pick_taken hreached hagree, List.map_take, hplaced]
  exact hagree.1

/-- What the machine does on tokens that carry their places it does on all that look the same up to
the lookahead. -/
theorem trace_of_placed (h : Trace table n (.initial start (placed kinds)) s)
    (hreached : Reached table start (placed kinds) taken s)
    (hagree : Agree taken.length (Token.kinds tokens) kinds) :
    Trace table n (.initial start tokens)
      (s.recast (pick tokens) (tokens.drop taken.length)) := by
  obtain ⟨front, hfront, htraces⟩ := h.recast
  obtain rfl : front = taken := by
    have htokens := hreached.tokens_eq
    change placed kinds = front ++ s.remaining at hfront
    rw [hfront] at htokens
    exact List.append_cancel_right htokens
  have htrace := htraces (pick tokens) (tokens.drop front.length)
    (kind_pick_taken hreached hagree) (ofWord_drop_placed hreached hagree)
  rwa [map_pick_taken hreached hagree, List.take_append_drop, recast_initial] at htrace

/-- A run that rejects after so many tokens rejects all inputs that look the same so far. -/
theorem parse_of_rejects {error : SyntaxError}
    (h : Trace table n (.initial start (placed kinds)) s)
    (hreached : Reached table start (placed kinds) taken s) (hrejects : Rejects table s error)
    (hagree : Agree taken.length (Token.kinds tokens) kinds) :
    table.parse start tokens = some (Outcome.answer tokens (.failure error taken.length)) := by
  have htrace := trace_of_placed h hreached hagree
  have hstops := hrejects.recast (f := pick tokens) (ofWord_drop_placed hreached hagree)
  obtain ⟨read, hread⟩ := exists_reached_of_trace htrace
  have hlength : read.length = taken.length := by
    have htokens := congrArg List.length hread.tokens_eq
    have hagreed := congrArg List.length (map_pick_taken hreached hagree)
    simp only [State.recast, List.length_append, List.length_drop] at htokens
    rw [List.length_map, List.length_take] at hagreed
    omega
  have hlexeme := State.lexeme_eq (s.recast (pick tokens) (tokens.drop taken.length))
  rw [← hread.getElem?_eq, hlength] at hlexeme
  rw [parse_of_run (run_of_rejects htrace hstops), Outcome.answer, State.fail, hread.location_eq,
    hlength, hlexeme]

theorem mapTokens_pick (tree : SyntaxTree) (tokens : List Token) :
    tree.mapTokens (pick tokens) = ⟨(tree.nodes.map Slot.ofNode).map (Slot.fill tokens)⟩ := by
  rw [SyntaxTree.mapTokens, Array.map_map]
  congr 2
  funext node
  cases node <;> rfl

/-- A tree for tokens that carry their places is one for all tokens of these kinds. -/
theorem parse_of_tree {tree : SyntaxTree} (h : table.parse start (placed kinds) = some (.ok tree))
    (hkinds : Token.kinds tokens = kinds) :
    table.parse start tokens =
      some (Outcome.answer tokens (.tree (tree.nodes.map Slot.ofNode))) := by
  obtain ⟨n, s, htrace, ⟨haccepts, hfinish⟩ | ⟨error, _, hanswer⟩⟩ := exists_trace_of_run h
  · obtain ⟨taken, hreached⟩ := exists_reached_of_trace htrace
    have hagree : Agree taken.length (Token.kinds tokens) kinds := hkinds ▸ agree_refl _ _
    have hrun := run_of_accepts (trace_of_placed htrace hreached hagree)
      (haccepts.recast (ofWord_drop_placed hreached hagree))
    have hcomplete : complete s.nodes = some tree := by
      rw [finish] at hfinish
      split at hfinish
      · rename_i found hfound
        rw [hfound, Except.ok.inj hfinish]
      · cases hfinish
    rw [parse_of_run hrun, finish, State.recast, complete_map, hcomplete, Option.map_some,
      mapTokens_pick]
    rfl
  · cases hanswer

/-- A run that goes on for ever does so on all tokens of these kinds. -/
theorem parse_of_none (h : table.parse start (placed kinds) = none)
    (hkinds : Token.kinds tokens = kinds) : table.parse start tokens = none := by
  cases hparse : table.parse start tokens with
  | none => rfl
  | some answer =>
    obtain ⟨s, htrace⟩ := exists_trace_of_run_eq_none h
    obtain ⟨taken, hreached⟩ := exists_reached_of_trace htrace
    have hagree : Agree taken.length (Token.kinds tokens) kinds := hkinds ▸ agree_refl _ _
    have hlong := trace_of_placed htrace hreached hagree
    have hlength : tokens.length = kinds.length := by
      rw [← hkinds, Token.kinds, List.length_map]
    have hlt := lt_of_trace hlong hparse
    rw [length_placed, hlength] at hlt
    exact absurd hlt (Nat.lt_irrefl _)

/-- The places of a tree are those of tokens. -/
theorem within_of_tree {tree : SyntaxTree}
    (h : table.parse start (placed kinds) = some (.ok tree)) :
    (Outcome.tree (tree.nodes.map Slot.ofNode)).Within kinds.length := by
  intro place hplace
  obtain ⟨node, hnode, hslot⟩ := Array.mem_map.mp hplace
  obtain ⟨i, hi⟩ := Array.mem_iff_getElem?.mp hnode
  cases node with
  | inner name children => cases hslot
  | leaf token =>
    rw [← Slot.leaf.inj hslot]
    exact column_lt_of_mem_placed (Grammar.token_mem_of_parse h hi)

end Placed

theorem exists_decides (table : Table) (start : String) (kinds : List String) :
    ∃ outcome, Decides table start kinds outcome := by
  cases hparse : table.parse start (placed kinds) with
  | none =>
    exact ⟨none, nofun, fun tokens hkinds => parse_of_none hparse hkinds, nofun⟩
  | some answer =>
    cases answer with
    | ok tree =>
      refine ⟨some (.tree (tree.nodes.map Slot.ofNode)), ?_,
        fun tokens hkinds => parse_of_tree hparse hkinds, nofun⟩
      intro found hfound
      obtain rfl := Option.some.inj hfound
      exact within_of_tree hparse
    | error e =>
      obtain ⟨n, s, error, htrace, hrejects, _⟩ := Grammar.exists_rejects_of_parse hparse
      obtain ⟨taken, hreached⟩ := exists_reached_of_trace htrace
      refine ⟨some (.failure error taken.length), ?_, ?_, ?_⟩
      · intro found hfound
        obtain rfl := Option.some.inj hfound
        change taken.length ≤ kinds.length
        rw [← length_placed, hreached.tokens_eq, List.length_append]
        exact Nat.le_add_right _ _
      · intro tokens hkinds
        exact parse_of_rejects htrace hreached hrejects (hkinds ▸ agree_refl _ _)
      · intro other place hfailure _ tokens htokens
        cases hfailure
        exact parse_of_rejects htrace hreached hrejects (agree_of_take_succ htokens)

/-- A failure at a token is answered alike on inputs that begin alike up to this token. -/
theorem answer_failure_congr {tokens others : List Token} {place : Nat} (error : SyntaxError)
    (hplace : place < tokens.length) (h : others.take (place + 1) = tokens.take (place + 1)) :
    Outcome.answer others (.failure error place) =
      Outcome.answer tokens (.failure error place) := by
  have htoken : others[place]? = tokens[place]? := by
    have hget := congrArg (fun found : List Token => found[place]?) h
    simpa only [List.getElem?_take, Nat.lt_succ_self, if_true] using hget
  rw [Outcome.answer, Outcome.answer, htoken, List.getElem?_eq_getElem hplace]
  rfl

/-- Whatever the table, one outcome that the kinds decide stands behind the parses of all inputs
with these kinds, and a failure at a token is the very same on every input that begins with the
same tokens up to there. -/
theorem parse_kinds_only (table : Table) (start : String) (kinds : List String) :
    ∃ outcome, Decides table start kinds outcome ∧
      ∀ error place, outcome = some (.failure error place) → place < kinds.length →
        ∀ tokens others, Token.kinds tokens = kinds →
          others.take (place + 1) = tokens.take (place + 1) →
            table.parse start others = table.parse start tokens := by
  obtain ⟨outcome, hdecides⟩ := exists_decides table start kinds
  refine ⟨outcome, hdecides, ?_⟩
  intro error place hfailure hplace tokens others hkinds hsame
  have hlength : place < tokens.length := by
    rw [← hkinds, Token.kinds, List.length_map] at hplace
    exact hplace
  have hbegins : (Token.kinds others).take (place + 1) = kinds.take (place + 1) := by
    rw [← hkinds, Token.kinds, Token.kinds, ← List.map_take, ← List.map_take, hsame]
  rw [hdecides.early error place hfailure hplace others hbegins,
    hdecides.early error place hfailure hplace tokens (by rw [hkinds]),
    answer_failure_congr error hlength hsame]

/-- A pair and one closing token too many. -/
def unopened : List Token := [⟨"a", "(", 1, 1⟩, ⟨"b", ")", 1, 2⟩, ⟨"b", ")", 1, 3⟩]

theorem parse_kinds_only_nestedPairs :
    ∃ error,
      Grammar.nestedPairsTable.parse "S" [⟨"a", "[", 3, 1⟩, ⟨"b", "]", 3, 2⟩, ⟨"b", ">", 4, 1⟩] =
          some (Outcome.answer [⟨"a", "[", 3, 1⟩, ⟨"b", "]", 3, 2⟩, ⟨"b", ">", 4, 1⟩]
            (.failure error 2)) ∧
        Grammar.nestedPairsTable.parse "S" (unopened ++ [⟨"c", "", 2, 1⟩]) =
          Grammar.nestedPairsTable.parse "S" unopened := by
  obtain ⟨outcome, hdecides, hsame⟩ :=
    parse_kinds_only Grammar.nestedPairsTable "S" ["a", "b", "b"]
  have hanswer := hdecides.answers unopened rfl
  have hparse : Grammar.nestedPairsTable.parse "S" unopened =
      some (.error ⟨.expected .endOfInput (.terminal "b") ")", .inStream 1 3⟩) :=
    parse_of_run (n := 7) rfl
  rw [hparse] at hanswer
  obtain ⟨found, rfl, hfound⟩ := Option.map_eq_some_iff.mp hanswer.symm
  cases found with
  | tree slots => cases hfound
  | failure error place =>
    -- The last token is the only one at its location, and past it there is no text.
    obtain rfl : place = 2 := by
      have hle : place ≤ 3 := hdecides.within _ rfl
      have hplaces : place = 0 ∨ place = 1 ∨ place = 2 ∨ place = 3 := by omega
      rcases hplaces with rfl | rfl | rfl | rfl
      · simp [unopened, Outcome.answer, Token.location, Location.inStream] at hfound
      · simp [unopened, Outcome.answer, Token.location, Location.inStream] at hfound
      · rfl
      · cases error <;> simp [unopened, Outcome.answer, SyntaxError.withLexeme] at hfound
    refine ⟨error, ?_, hsame error 2 rfl (by decide) _ _ rfl rfl⟩
    exact hdecides.answers [⟨"a", "[", 3, 1⟩, ⟨"b", "]", 3, 2⟩, ⟨"b", ">", 4, 1⟩] rfl

end TopDown.Parse
