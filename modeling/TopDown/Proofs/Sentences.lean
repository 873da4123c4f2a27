import TopDown.Proofs.LeastHeights
import TopDown.Proofs.RandomChoices
import TopDown.Proofs.Recognition
import TopDown.Sampling

/-!
Random sentences are sentences. From a nonterminal that derives some word of terminals a tree grows
whatever the random choices and the depth limit, provided that the choices are answered: every
candidate has nonterminals with candidates of their own, and from the limit on each level is lower
than the one above. The other nonterminals are refused.
-/
namespace TopDown

open TopDown.Derivation

namespace Sampler

theorem mem_candidates_iff {sampler : Sampler} {name : String} {c : Candidate} :
    c ∈ sampler.candidates name ↔ c.production ∈ sampler.grammar.productionsOf name ∧
      sampler.heights.ofBody c.production.body = some c.height := by
  simp only [candidates, List.mem_filterMap, Option.map_eq_some_iff]
  constructor
  · intro hfound
    obtain ⟨p, hp, height, hheight, rfl⟩ := hfound
    exact ⟨hp, hheight⟩
  · intro hfound
    obtain ⟨hp, hheight⟩ := hfound
    exact ⟨c.production, hp, c.height, hheight, rfl⟩

/-- There is a shallowest candidate among any, and it is one of them. -/
theorem exists_shallowest (c : Candidate) (rest : List Candidate) :
    ∃ d, shallowest (c :: rest) = some d ∧ d ∈ c :: rest ∧
      ∀ e ∈ c :: rest, d.height ≤ e.height := by
  induction rest generalizing c with
  | nil =>
    refine ⟨c, rfl, List.mem_cons_self, fun e he => ?_⟩
    obtain rfl := List.mem_singleton.mp he
    exact Nat.le_refl e.height
  | cons next rest ih =>
    obtain ⟨d, hd, hmem, hle⟩ := ih next
    have hstep : shallowest (c :: next :: rest) =
        if d.height < c.height then some d else some c := by
      rw [shallowest, hd]
    by_cases hlt : d.height < c.height
    · refine ⟨d, hstep.trans (if_pos hlt), List.mem_cons_of_mem _ hmem, fun e he => ?_⟩
      rcases List.mem_cons.mp he with rfl | he
      · exact Nat.le_of_lt hlt
      · exact hle e he
    · refine ⟨c, hstep.trans (if_neg hlt), List.mem_cons_self, fun e he => ?_⟩
      rcases List.mem_cons.mp he with rfl | he
      · exact Nat.le_refl e.height
      · exact Nat.le_trans (Nat.le_of_not_lt hlt) (hle e he)

section Choice

variable {sampler : Sampler} {name : String} {depth position next : Nat}

/-- With candidates to choose from a choice that is answered takes a production. -/
theorem exists_choose (sampler : Sampler) (hanswers : sampler.chooser.Answers)
    (h : sampler.candidates name ≠ []) (depth position : Nat) :
    ∃ p next, sampler.choose name depth position = some (some p, next) := by
  unfold choose
  cases hcandidates : sampler.candidates name with
  | nil => exact absurd hcandidates h
  | cons c rest =>
    simp only
    by_cases hdepth : depth < sampler.maxDepth
    · obtain ⟨choice, hchoice, hlt⟩ :=
        hanswers (rest.length + 1) position (Nat.succ_pos rest.length)
      have hindex : choice.index < (c :: rest).length := hlt
      rw [if_pos hdepth, hchoice]
      simp only [Option.bind_eq_bind, Option.bind_some, List.getElem?_eq_getElem hindex]
      exact ⟨_, _, rfl⟩
    · obtain ⟨d, hd, _⟩ := exists_shallowest c rest
      rw [if_neg hdepth, hd]
      exact ⟨_, _, rfl⟩

/-- A production is taken from the candidates; from the depth limit on it is one of the shallowest,
and the tape stays where it is. -/
theorem exists_candidate_of_choose {p : Production}
    (h : sampler.choose name depth position = some (some p, next)) :
    ∃ c ∈ sampler.candidates name, c.production = p ∧
      (sampler.maxDepth ≤ depth →
        next = position ∧ ∀ e ∈ sampler.candidates name, c.height ≤ e.height) := by
  unfold choose at h
  cases hcandidates : sampler.candidates name with
  | nil =>
    rw [hcandidates] at h
    cases h
  | cons c rest =>
    rw [hcandidates] at h
    simp only at h
    by_cases hdepth : depth < sampler.maxDepth
    · rw [if_pos hdepth, Option.bind_eq_bind, Option.bind_eq_some_iff] at h
      obtain ⟨choice, _, h⟩ := h
      rw [Option.bind_eq_bind, Option.bind_eq_some_iff] at h
      obtain ⟨chosen, hchosen, h⟩ := h
      cases h
      exact ⟨chosen, List.mem_of_getElem? hchosen, rfl,
        fun hle => absurd hdepth (Nat.not_lt_of_le hle)⟩
    · obtain ⟨d, hd, hmem, hle⟩ := exists_shallowest c rest
      rw [if_neg hdepth, hd] at h
      cases h
      exact ⟨d, hmem, rfl, fun _ => ⟨rfl, hle⟩⟩

/-- Where no production is taken there is no candidate. -/
theorem candidates_eq_nil_of_choose (h : sampler.choose name depth position = some (none, next)) :
    sampler.candidates name = [] := by
  unfold choose at h
  cases hcandidates : sampler.candidates name with
  | nil => rfl
  | cons c rest =>
    rw [hcandidates] at h
    simp only at h
    by_cases hdepth : depth < sampler.maxDepth
    · rw [if_pos hdepth, Option.bind_eq_bind, Option.bind_eq_some_iff] at h
      obtain ⟨choice, _, h⟩ := h
      rw [Option.bind_eq_bind, Option.bind_eq_some_iff] at h
      obtain ⟨chosen, _, h⟩ := h
      cases h
    · obtain ⟨d, hd, _⟩ := exists_shallowest c rest
      rw [if_neg hdepth, hd] at h
      cases h

end Choice

section Growth

variable {g : Grammar} {chooser : Random.Chooser} {maxDepth depth position next : Nat}
  {name : String} {height : Nat} {form : List Symbol}

/-- The nonterminals without a height are those without a candidate. -/
theorem candidates_eq_nil_iff :
    (ofGrammar g chooser maxDepth).candidates name = [] ↔ g.heights.get? name = none := by
  constructor
  · intro hnil
    cases hheight : g.heights.get? name with
    | none => rfl
    | some height =>
      obtain ⟨p, hp, k, hk, _⟩ := Grammar.exists_production_of_height hheight
      have hmem : (⟨p, k⟩ : Candidate) ∈ (ofGrammar g chooser maxDepth).candidates name :=
        mem_candidates_iff.mpr ⟨hp, hk⟩
      rw [hnil] at hmem
      exact absurd hmem List.not_mem_nil
  · intro hnone
    cases hcandidates : (ofGrammar g chooser maxDepth).candidates name with
    | nil => rfl
    | cons c rest =>
      have hmem : c ∈ (ofGrammar g chooser maxDepth).candidates name := by
        rw [hcandidates]
        exact List.mem_cons_self
      obtain ⟨hp, hheight⟩ := mem_candidates_iff.mp hmem
      obtain ⟨hp, hlhs⟩ := Grammar.mem_productionsOf_iff.mp hp
      obtain ⟨least, hleast, _⟩ := Grammar.exists_height_le_of_ofBody (g := g) hp hheight
      rw [hlhs, hnone] at hleast
      cases hleast

theorem candidates_ne_nil (hheight : g.heights.get? name = some height) :
    (ofGrammar g chooser maxDepth).candidates name ≠ [] := by
  rw [ne_eq, candidates_eq_nil_iff, hheight]
  exact Option.some_ne_none height

/-- The production chosen for a nonterminal with a height has nonterminals with heights, which are
lower than its own from the depth limit on. -/
theorem heights_of_choose {p : Production} (hheight : g.heights.get? name = some height)
    (hchoose : (ofGrammar g chooser maxDepth).choose name depth position = some (some p, next)) :
    p ∈ g.productions ∧ p.lhs = name ∧
      ∀ child, .nonterminal child ∈ p.body → ∃ k, g.heights.get? child = some k ∧
        (maxDepth ≤ depth → k < height) := by
  obtain ⟨c, hc, rfl, hshallow⟩ := exists_candidate_of_choose hchoose
  obtain ⟨hp, hbody⟩ := mem_candidates_iff.mp hc
  obtain ⟨hp, hlhs⟩ := Grammar.mem_productionsOf_iff.mp hp
  refine ⟨hp, hlhs, fun child hchild => ?_⟩
  obtain ⟨k, hk, hlt⟩ := Heights.exists_lt_of_ofBody hbody hchild
  refine ⟨k, hk, fun hdepth => ?_⟩
  obtain ⟨q, hq, other, hother, hle⟩ := Grammar.exists_production_of_height hheight
  have hcandidate : (⟨q, other⟩ : Candidate) ∈ (ofGrammar g chooser maxDepth).candidates name :=
    mem_candidates_iff.mpr ⟨hq, hother⟩
  have hleast := (hshallow hdepth).2 ⟨q, other⟩ hcandidate
  simp only at hleast
  omega

/-- Every nonterminal of the form has a height, and a tree of that height from the depth on stays
within the bound. -/
def Fits (g : Grammar) (bound depth : Nat) (form : List Symbol) : Prop :=
  ∀ name, .nonterminal name ∈ form →
    ∃ height, g.heights.get? name = some height ∧ depth + height ≤ bound

theorem Fits.tail {bound : Nat} {symbol : Symbol} (h : Fits g bound depth (symbol :: form)) :
    Fits g bound depth form :=
  fun name hname => h name (List.mem_cons_of_mem symbol hname)

theorem Fits.singleton {bound : Nat} (h : Fits g bound depth form)
    (hname : .nonterminal name ∈ form) : Fits g bound depth [.nonterminal name] := by
  intro other hother
  obtain rfl := Symbol.nonterminal.inj (List.mem_singleton.mp hother)
  exact h other hname

/-- The body that a fitting nonterminal takes fits one level deeper: above the depth limit whatever
its heights are, and from the limit on because they are lower. -/
theorem Fits.body {greatest : Nat} {p : Production}
    (hgreatest : ∀ name height, g.heights.get? name = some height → height ≤ greatest)
    (h : Fits g (maxDepth + greatest) depth form) (hname : .nonterminal name ∈ form)
    (hchoose : (ofGrammar g chooser maxDepth).choose name depth position = some (some p, next)) :
    Fits g (maxDepth + greatest) (depth + 1) p.body := by
  obtain ⟨height, hheight, hfits⟩ := h name hname
  obtain ⟨_, _, hchildren⟩ := heights_of_choose hheight hchoose
  intro child hchild
  obtain ⟨k, hk, hlower⟩ := hchildren child hchild
  refine ⟨k, hk, ?_⟩
  by_cases hdepth : maxDepth ≤ depth
  · have := hlower hdepth
    omega
  · have := hgreatest child k hk
    omega

/-- A form whose nonterminals all grow is grown into a forest. -/
theorem exists_growBody {grow : String → Nat → Option (List Derivation × Nat)}
    (hgrow : ∀ name, .nonterminal name ∈ form → ∀ position, ∃ ds next,
      grow name position = some (ds, next) ∧ Forest g [.nonterminal name] ds) (position : Nat) :
    ∃ ds next, growBody grow form position = some (ds, next) ∧ Forest g form ds := by
  induction form generalizing position with
  | nil => exact ⟨[], position, rfl, .nil⟩
  | cons symbol rest ih =>
    have hrest := ih fun name hname => hgrow name (List.mem_cons_of_mem _ hname)
    cases symbol with
    | epsilon =>
      obtain ⟨ds, next, heq, hds⟩ := hrest position
      exact ⟨ds, next, heq, .epsilon hds⟩
    | terminal t =>
      obtain ⟨ds, next, heq, hds⟩ := hrest position
      refine ⟨.leaf t :: ds, next, ?_, .terminal t hds⟩
      rw [growBody, heq]
      rfl
    | nonterminal name =>
      obtain ⟨front, mid, hfront, hfirst⟩ := hgrow name List.mem_cons_self position
      obtain ⟨ds, next, heq, hds⟩ := hrest mid
      refine ⟨front ++ ds, next, ?_, hfirst.append hds⟩
      rw [growBody, hfront]
      simp only [Option.bind_eq_bind, Option.bind_some, heq]
      rfl

/-- A nonterminal that fits grows into a tree when there are levels enough. -/
theorem exists_grow {greatest levels : Nat} (hanswers : chooser.Answers)
    (hgreatest : ∀ name height, g.heights.get? name = some height → height ≤ greatest)
    (hlevels : maxDepth + greatest ≤ depth + levels)
    (hfits : Fits g (maxDepth + greatest) depth [.nonterminal name]) (position : Nat) :
    ∃ ds next, (ofGrammar g chooser maxDepth).grow levels depth name position = some (ds, next) ∧
      Forest g [.nonterminal name] ds := by
  induction levels generalizing depth name position with
  | zero =>
    obtain ⟨height, hheight, hle⟩ := hfits name List.mem_cons_self
    have hpos := Grammar.height_pos hheight
    omega
  | succ levels ih =>
    obtain ⟨height, hheight, _⟩ := hfits name List.mem_cons_self
    obtain ⟨p, chosen, hchoose⟩ := exists_choose (ofGrammar g chooser maxDepth) hanswers
      (candidates_ne_nil hheight) depth position
    obtain ⟨hp, rfl, _⟩ := heights_of_choose hheight hchoose
    have hbody := hfits.body hgreatest List.mem_cons_self hchoose
    obtain ⟨children, next, hchildren, hforest⟩ := exists_growBody
      (fun child hchild position => ih (by omega) (hbody.singleton hchild) position) chosen
    refine ⟨[.node p children], next, ?_, .nonterminal hp hforest .nil⟩
    rw [grow, hchoose]
    simp only [Option.bind_eq_bind, Option.bind_some, hchildren]
    rfl

/-- No height is above the greatest of the entries. -/
theorem height_le_greatest (hheight : g.heights.get? name = some height) :
    height ≤ (g.heights.entries.map (·.2)).foldl max 0 := by
  have hentry := NameMap.mem_entries_of_get? hheight
  exact (Table.le_foldl_max _ 0).2 _ (List.mem_map_of_mem hentry)

theorem fits_singleton {bound : Nat} (hheight : g.heights.get? name = some height)
    (hle : depth + height ≤ bound) : Fits g bound depth [.nonterminal name] := by
  intro other hother
  obtain rfl := Symbol.nonterminal.inj (List.mem_singleton.mp hother)
  exact ⟨height, hheight, hle⟩

/-- The levels that a sampler allows are enough for every nonterminal with a height. -/
theorem exists_grow_levels (hanswers : chooser.Answers)
    (hheight : g.heights.get? name = some height) (position : Nat) :
    ∃ ds next, (ofGrammar g chooser maxDepth).grow (ofGrammar g chooser maxDepth).levels 0 name
      position = some (ds, next) ∧ Forest g [.nonterminal name] ds := by
  have hle := height_le_greatest hheight
  refine exists_grow hanswers (fun _ _ hknown => height_le_greatest hknown) ?_
    (fits_singleton hheight ?_) position
  · simp only [levels, ofGrammar]
    omega
  · omega

end Growth

/-- Tokens named by their kinds, side by side on the first line. -/
def SideBySide (tokens : List Token) : Prop :=
  ∀ i token, tokens[i]? = some token →
    token.lexeme = token.kind ∧ token.line = 1 ∧ token.column = i + 1

theorem sideBySide_layOut (w : List String) : SideBySide (layOut w) := by
  intro i token htoken
  rw [layOut, List.getElem?_map, Option.map_eq_some_iff] at htoken
  obtain ⟨⟨terminal, column⟩, hplace, rfl⟩ := htoken
  rw [List.getElem?_zipIdx, Option.map_eq_some_iff] at hplace
  obtain ⟨_, _, hpair⟩ := hplace
  have hcolumn := congrArg Prod.snd hpair
  exact ⟨rfl, rfl, by simp only at hcolumn ⊢; omega⟩

theorem kinds_layOut (w : List String) : Token.kinds (layOut w) = w := by
  rw [Token.kinds, layOut, List.map_map]
  exact List.zipIdx_map_fst 1 w

section Outcome

variable {g : Grammar} (chooser : Random.Chooser) (maxDepth : Nat) {start : String} {height : Nat}
  (position : Nat)

/-- A nonterminal with a height gives the word of what grows from it. -/
theorem sentence_of_height (hheight : g.heights.get? start = some height) :
    (ofGrammar g chooser maxDepth).sentence start position =
      ((ofGrammar g chooser maxDepth).grow (ofGrammar g chooser maxDepth).levels 0 start
        position).map fun (trees, position) => .ok (layOut (words trees), position) := by
  have hleast := Grammar.get?_heights_iff.mp hheight
  have hstart : start ∈ g.nonterminals := List.mem_map.mpr hleast.1.exists_rule
  have hdeclared : (ofGrammar g chooser maxDepth).grammar.isNonterminal start = true :=
    decide_eq_true hstart
  have hknown : (ofGrammar g chooser maxDepth).heights.contains start = true := by
    change (g.heights.get? start).isSome = true
    rw [hheight]
    rfl
  rw [sentence, hdeclared, hknown]
  rfl

/-- A declared nonterminal that derives some word gives a sentence, laid out. -/
theorem exists_sentence (hanswers : chooser.Answers) (hword : ∃ w, g.Generates start w) :
    ∃ tokens next,
      (ofGrammar g chooser maxDepth).sentence start position = some (.ok (tokens, next)) ∧
      SideBySide tokens ∧ g.Generates start (Token.kinds tokens) := by
  obtain ⟨height, hheight⟩ := Grammar.exists_height_iff.mpr hword
  obtain ⟨ds, next, hgrow, hforest⟩ := exists_grow_levels hanswers hheight position
  refine ⟨layOut (words ds), next, ?_, sideBySide_layOut _, ?_⟩
  · rw [sentence_of_height chooser maxDepth position hheight, hgrow, Option.map_some]
  · rw [kinds_layOut, Grammar.generates_iff_forest]
    exact ⟨ds, hforest, rfl⟩

/-- A nonterminal that derives some word is not refused, even if its sentence never ends. -/
theorem sentence_ne_error (hword : ∃ w, g.Generates start w) (e : Located SampleError) :
    (ofGrammar g chooser maxDepth).sentence start position ≠ some (.error e) := by
  obtain ⟨height, hheight⟩ := Grammar.exists_height_iff.mpr hword
  rw [sentence_of_height chooser maxDepth position hheight]
  cases (ofGrammar g chooser maxDepth).grow (ofGrammar g chooser maxDepth).levels 0 start position
    with
  | none => exact (Option.some_ne_none _).symm
  | some grown =>
    intro heq
    cases heq

theorem sentence_of_not_generates (hstart : start ∈ g.nonterminals)
    (hword : ¬ ∃ w, g.Generates start w) :
    (ofGrammar g chooser maxDepth).sentence start position =
      some (.error ⟨.unproductive start, .nowhere⟩) := by
  have hheight : g.heights.get? start = none := by
    cases hheight : g.heights.get? start with
    | none => rfl
    | some height => exact absurd (Grammar.exists_height_iff.mp ⟨height, hheight⟩) hword
  have hdeclared : (ofGrammar g chooser maxDepth).grammar.isNonterminal start = true :=
    decide_eq_true hstart
  have hknown : (ofGrammar g chooser maxDepth).heights.contains start = false := by
    change (g.heights.get? start).isSome = false
    rw [hheight]
    rfl
  rw [sentence, hdeclared, hknown]
  rfl

theorem sentence_of_not_mem (hstart : start ∉ g.nonterminals) :
    (ofGrammar g chooser maxDepth).sentence start position =
      some (.error ⟨.undefinedNonterminal start, .nowhere⟩) := by
  have hdeclared : (ofGrammar g chooser maxDepth).grammar.isNonterminal start = false :=
    decide_eq_false hstart
  rw [sentence, hdeclared]
  rfl

/-- After the first sentence come the others. -/
theorem sentences_succ {sampler : Sampler} {tokens : List Token} {position later : Nat}
    (h : sampler.sentence start position = some (.ok (tokens, later))) (amount : Nat) :
    sampler.sentences start (amount + 1) position =
      (sampler.sentences start amount later).map fun drawn =>
        drawn.map fun (rest, last) => (tokens :: rest, last) := by
  rw [sentences, h]

theorem exists_of_sentences_succ {sampler : Sampler} {amount position last : Nat}
    {drawn : List (List Token)}
    (h : sampler.sentences start (amount + 1) position = some (.ok (drawn, last))) :
    ∃ tokens later rest, sampler.sentence start position = some (.ok (tokens, later)) ∧
      sampler.sentences start amount later = some (.ok (rest, last)) ∧ drawn = tokens :: rest := by
  cases hsentence : sampler.sentence start position with
  | none =>
    rw [sentences, hsentence] at h
    cases h
  | some answer =>
    cases answer with
    | error e =>
      rw [sentences, hsentence] at h
      cases h
    | ok answer =>
      rw [sentences_succ hsentence, Option.map_eq_some_iff] at h
      obtain ⟨grown, hrest, heq⟩ := h
      cases grown with
      | error e => cases heq
      | ok grown =>
        cases heq
        exact ⟨answer.1, answer.2, grown.1, rfl, hrest, rfl⟩

/-- Sentences never come to an end just when one of them does not, with those before it drawn. -/
theorem sentences_eq_none_iff {sampler : Sampler} {amount position : Nat} :
    sampler.sentences start amount position = none ↔ ∃ before < amount, ∃ drawn last,
      sampler.sentences start before position = some (.ok (drawn, last)) ∧
        sampler.sentence start last = none := by
  constructor
  · intro h
    induction amount generalizing position with
    | zero => cases h
    | succ amount ih =>
      cases hsentence : sampler.sentence start position with
      | none => exact ⟨0, Nat.succ_pos amount, [], position, rfl, hsentence⟩
      | some answer =>
        cases answer with
        | error e =>
          rw [sentences, hsentence] at h
          cases h
        | ok answer =>
          rw [sentences_succ hsentence, Option.map_eq_none_iff] at h
          obtain ⟨before, hlt, drawn, last, hdrawn, hnone⟩ := ih h
          refine ⟨before + 1, Nat.succ_lt_succ hlt, answer.1 :: drawn, last, ?_, hnone⟩
          rw [sentences_succ hsentence, hdrawn]
          rfl
  · rintro ⟨before, hlt, drawn, last, hdrawn, hnone⟩
    induction amount generalizing before position drawn with
    | zero => exact absurd hlt (Nat.not_lt_zero before)
    | succ amount ih =>
      cases before with
      | zero =>
        cases hdrawn
        rw [sentences, hnone]
      | succ before =>
        obtain ⟨tokens, later, rest, hsentence, hrest, rfl⟩ := exists_of_sentences_succ hdrawn
        rw [sentences_succ hsentence, ih before (Nat.lt_of_succ_lt_succ hlt) rest hrest]
        rfl

/-- Of a nonterminal that derives some word no number of sentences is refused. -/
theorem sentences_ne_error (hword : ∃ w, g.Generates start w) (amount : Nat)
    (e : Located SampleError) :
    (ofGrammar g chooser maxDepth).sentences start amount position ≠ some (.error e) := by
  intro h
  induction amount generalizing position with
  | zero => cases h
  | succ amount ih =>
    cases hsentence : (ofGrammar g chooser maxDepth).sentence start position with
    | none =>
      rw [sentences, hsentence] at h
      cases h
    | some answer =>
      cases answer with
      | error e' => exact sentence_ne_error chooser maxDepth position hword e' hsentence
      | ok answer =>
        rw [sentences_succ hsentence, Option.map_eq_some_iff] at h
        obtain ⟨drawn, hdrawn, heq⟩ := h
        cases drawn with
        | error e' =>
          cases heq
          exact ih _ hdrawn
        | ok rest => cases heq

/-- The table of the grammar parses the sentences of the start symbol back into their tokens. -/
theorem exists_parse_of_generates {table : Table} {tokens : List Token}
    (htable : g.table = .ok table) (h : g.Generates g.start (Token.kinds tokens)) :
    ∃ tree, table.parse g.start tokens = some (.ok tree) ∧ tree.leaves = tokens := by
  obtain ⟨ds, hreads⟩ := (Grammar.generates_iff_reads htable).mp h
  obtain ⟨tree, htree, _, _⟩ := Grammar.parse_of_reads hreads
  exact ⟨tree, htree, (Grammar.isDerivation_of_parse htable htree).leaves⟩

variable (g) (start)

/-- Provided that the random choices are answered, a sentence is drawn from every nonterminal that
derives one, whatever the choices and the depth limit, and from the start symbol it is one that the
grammar's table parses. Of the other names, and of them alone, those without a rule are undefined
and those with one are unproductive. -/
theorem sentence_exact :
    (chooser.Answers → (∃ w, g.Generates start w) →
      ∃ tokens next,
        (ofGrammar g chooser maxDepth).sentence start position = some (.ok (tokens, next)) ∧
        SideBySide tokens ∧ g.Generates start (Token.kinds tokens) ∧
        ∀ table, g.table = .ok table → start = g.start →
          ∃ tree, table.parse g.start tokens = some (.ok tree) ∧ tree.leaves = tokens) ∧
    ((ofGrammar g chooser maxDepth).sentence start position =
        some (.error ⟨.undefinedNonterminal start, .nowhere⟩) ↔ start ∉ g.nonterminals) ∧
    ((ofGrammar g chooser maxDepth).sentence start position =
        some (.error ⟨.unproductive start, .nowhere⟩) ↔
      start ∈ g.nonterminals ∧ ¬ ∃ w, g.Generates start w) := by
  refine ⟨fun hanswers hword => ?_, ?_, ?_⟩
  · obtain ⟨tokens, next, heq, hlaid, hgenerates⟩ :=
      exists_sentence chooser maxDepth position hanswers hword
    refine ⟨tokens, next, heq, hlaid, hgenerates, fun table htable hsame => ?_⟩
    rw [hsame] at hgenerates
    exact exists_parse_of_generates htable hgenerates
  · refine ⟨fun heq hstart => ?_, sentence_of_not_mem chooser maxDepth position⟩
    by_cases hword : ∃ w, g.Generates start w
    · exact sentence_ne_error chooser maxDepth position hword _ heq
    · rw [sentence_of_not_generates chooser maxDepth position hstart hword] at heq
      cases heq
  · constructor
    · intro heq
      by_cases hstart : start ∈ g.nonterminals
      · exact ⟨hstart, fun hword => sentence_ne_error chooser maxDepth position hword _ heq⟩
      · rw [sentence_of_not_mem chooser maxDepth position hstart] at heq
        cases heq
    · intro hfound
      exact sentence_of_not_generates chooser maxDepth position hfound.1 hfound.2

theorem sentence_exact_nestedPairs :
    (Random.Chooser.ofWords [0, 4294967295]).Answers ∧ ∃ tokens next,
      (ofGrammar Grammar.nestedPairs (.ofWords [0, 4294967295]) 3).sentence "S" 0 =
          some (.ok (tokens, next)) ∧
        SideBySide tokens ∧ Grammar.nestedPairs.Generates "S" (Token.kinds tokens) ∧
        ∃ tree, Grammar.nestedPairsTable.parse "S" tokens = some (.ok tree) ∧
          tree.leaves = tokens := by
  have hanswers := Random.Chooser.answers_ofWords [0, 4294967295]
  have hempty : Grammar.nestedPairs.Generates "S" [] :=
    .single (.expand [] [] ⟨"S", 1, [.epsilon]⟩ (by decide))
  obtain ⟨tokens, next, heq, hlaid, hgenerates, hparse⟩ :=
    (sentence_exact Grammar.nestedPairs (.ofWords [0, 4294967295]) 3 "S" 0).1
      hanswers ⟨[], hempty⟩
  exact ⟨hanswers, tokens, next, heq, hlaid, hgenerates, hparse _ Grammar.table_nestedPairs rfl⟩

end Outcome

end Sampler

end TopDown
