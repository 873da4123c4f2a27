import TopDown.Proofs.Growth

/-!
Every sentence can be scripted. A tape makes the sampler grow a given derivation tree, provided that
from the depth limit on the tree has the first alternatives of least height: for each node above the
limit it holds a word that selects the node's production, in the order in which the nodes are
expanded. Candidates are left out only when they derive no word, so a tree has none of those.
-/
namespace TopDown

open TopDown.Derivation

/-- Of the alternatives of its nonterminal the production is the first that makes a tree of the
nonterminal's least height. -/
def Grammar.FirstLowest (g : Grammar) (p : Production) : Prop :=
  ∃ height, g.LeastHeight p.lhs height ∧ g.HasTreeBy p height ∧
    ∀ q ∈ g.productions, q.lhs = p.lhs → q.index < p.index → ¬ g.HasTreeBy q height

/-- From the depth limit on the nodes of a tree whose root is at the given depth use the first
productions of least height. -/
inductive Derivation.Thrifty (g : Grammar) (maxDepth : Nat) : Nat → Derivation → Prop where
  | leaf (depth : Nat) (terminal : String) : Thrifty g maxDepth depth (.leaf terminal)
  | node (depth : Nat) (p : Production) (children : List Derivation)
      (hlowest : maxDepth ≤ depth → g.FirstLowest p)
      (thrifty : ∀ child ∈ children, Thrifty g maxDepth (depth + 1) child) :
      Thrifty g maxDepth depth (.node p children)

namespace Sampler

theorem mem_of_shallowest {cs : List Candidate} {c : Candidate} (h : shallowest cs = some c) :
    c ∈ cs := by
  cases cs with
  | nil => cases h
  | cons first rest =>
    obtain ⟨d, hd, hmem, _⟩ := exists_shallowest first rest
    rw [Option.some.inj (h.symm.trans hd)]
    exact hmem

/-- The shallowest candidate is the one that those before it are higher than and those after it no
lower. -/
theorem shallowest_append_cons {before after : List Candidate} {c : Candidate}
    (hbefore : ∀ e ∈ before, c.height < e.height) (hafter : ∀ e ∈ after, c.height ≤ e.height) :
    shallowest (before ++ c :: after) = some c := by
  induction before with
  | nil =>
    rw [List.nil_append, shallowest]
    cases hrest : shallowest after with
    | none => rfl
    | some d =>
      have hle := hafter d (mem_of_shallowest hrest)
      exact if_neg (Nat.not_lt_of_le hle)
  | cons first before ih =>
    have hrest := ih fun e he => hbefore e (List.mem_cons_of_mem _ he)
    have hlt := hbefore first List.mem_cons_self
    rw [List.cons_append, shallowest, hrest]
    exact if_pos hlt

/-- Every candidate can be selected unless a nonterminal has more alternatives than there are
words. -/
theorem selectable_candidates {g : Grammar}
    (h : ∀ rule ∈ g.rules, rule.alternatives.length ≤ Random.wordCount) (chooser : Random.Chooser)
    (maxDepth : Nat) (name : String) :
    Random.Selectable ((ofGrammar g chooser maxDepth).candidates name).length := by
  have hproductions : (g.productionsOf name).length ≤ Random.wordCount := by
    rw [Grammar.productionsOf]
    cases hfind : g.rules.find? (·.name = name) with
    | none => exact Nat.zero_le _
    | some rule =>
      simp only [Rule.productions, List.length_map, List.length_zipIdx]
      exact h rule (List.mem_of_find?_eq_some hfind)
  exact Random.selectable_of_le (Nat.le_trans (List.length_filterMap_le _ _) hproductions)

section Choice

variable {g : Grammar} {chooser : Random.Chooser} {maxDepth depth position : Nat} {name : String}
  {p : Production} {bound : Nat}

/-- A choice that falls on a candidate takes its production. -/
theorem choose_of_choice {i next : Nat} {c : Candidate} (sampler : Sampler)
    (hdepth : depth < sampler.maxDepth) (hi : (sampler.candidates name)[i]? = some c)
    (hchoice : sampler.chooser.choose (sampler.candidates name).length position =
      some ⟨i, next⟩) :
    sampler.choose name depth position = some (some c.production, next) := by
  unfold choose
  cases hcandidates : sampler.candidates name with
  | nil =>
    rw [hcandidates] at hi
    cases hi
  | cons first rest =>
    rw [hcandidates] at hi hchoice
    rw [List.length_cons] at hchoice
    simp only [if_pos hdepth, hchoice, Option.bind_eq_bind, Option.bind_some, hi]
    rfl

/-- From the depth limit on the shallowest candidate is taken. -/
theorem choose_of_le {c : Candidate} (sampler : Sampler) (hdepth : sampler.maxDepth ≤ depth)
    (h : shallowest (sampler.candidates name) = some c) (position : Nat) :
    sampler.choose name depth position = some (some c.production, position) := by
  unfold choose
  cases hcandidates : sampler.candidates name with
  | nil =>
    rw [hcandidates] at h
    cases h
  | cons first rest =>
    rw [hcandidates] at h
    simp only [if_neg (Nat.not_lt_of_le hdepth), h, Option.map_some]

/-- A production with a tree is a candidate. -/
theorem exists_candidate (chooser : Random.Chooser) (maxDepth : Nat) (h : g.HasTreeBy p bound) :
    ∃ height, (⟨p, height⟩ : Candidate) ∈ (ofGrammar g chooser maxDepth).candidates p.lhs ∧
      height ≤ bound := by
  obtain ⟨height, hheight, hle⟩ := h.exists_heights_ofBody
  have hp := Grammar.mem_productionsOf_iff.mpr ⟨h.mem_productions, rfl⟩
  exact ⟨height, mem_candidates_iff.mpr ⟨hp, hheight⟩, hle⟩

/-- The height of a candidate is reached by a tree with its production at the root. -/
theorem hasTreeBy_of_mem_candidates {c : Candidate}
    (h : c ∈ (ofGrammar g chooser maxDepth).candidates name) :
    c.production.lhs = name ∧ g.HasTreeBy c.production c.height := by
  obtain ⟨hproduction, hheight⟩ := mem_candidates_iff.mp h
  obtain ⟨hproduction, hlhs⟩ := Grammar.mem_productionsOf_iff.mp hproduction
  exact ⟨hlhs, (Grammar.attained_heights g).hasTreeBy_of_ofBody hproduction hheight⟩

/-- The candidates stand in the order of their productions. -/
theorem pairwise_candidates (g : Grammar) (chooser : Random.Chooser) (maxDepth : Nat)
    (name : String) :
    ((ofGrammar g chooser maxDepth).candidates name).Pairwise fun c e =>
      c.production.index < e.production.index := by
  refine List.pairwise_filterMap.mpr ((g.pairwise_productionsOf name).imp ?_)
  intro p q hlt c hc e he
  obtain ⟨_, _, rfl⟩ := Option.map_eq_some_iff.mp hc
  obtain ⟨_, _, rfl⟩ := Option.map_eq_some_iff.mp he
  exact hlt

/-- The first production of least height is the shallowest candidate: any before it are higher, and
none is lower. -/
theorem exists_shallowest_eq (chooser : Random.Chooser) (maxDepth : Nat) (h : g.FirstLowest p) :
    ∃ height, shallowest ((ofGrammar g chooser maxDepth).candidates p.lhs) = some ⟨p, height⟩ := by
  obtain ⟨least, hleast, htree, hearlier⟩ := h
  obtain ⟨height, hmem, hle⟩ := exists_candidate chooser maxDepth htree
  obtain ⟨before, after, hplace⟩ := List.append_of_mem hmem
  have hpairwise := pairwise_candidates g chooser maxDepth p.lhs
  rw [hplace, List.pairwise_append] at hpairwise
  have htrees : ∀ e ∈ (ofGrammar g chooser maxDepth).candidates p.lhs,
      e.production.lhs = p.lhs ∧ g.HasTreeBy e.production e.height :=
    fun e he => hasTreeBy_of_mem_candidates he
  have hlowest : ∀ e ∈ (ofGrammar g chooser maxDepth).candidates p.lhs, least ≤ e.height := by
    intro e he
    obtain ⟨hlhs, htree⟩ := htrees e he
    have hname := htree.hasTree
    rw [hlhs] at hname
    exact hleast.2 e.height hname
  refine ⟨height, ?_⟩
  rw [hplace] at htrees hlowest ⊢
  apply shallowest_append_cons
  · intro e he
    obtain ⟨hlhs, htree⟩ := htrees e (List.mem_append_left _ he)
    have hlt := hpairwise.2.2 e he ⟨p, height⟩ List.mem_cons_self
    by_contra hge
    have hlow : e.height ≤ least := Nat.le_trans (Nat.le_of_not_lt hge) hle
    exact hearlier e.production htree.mem_productions hlhs hlt (htree.mono hlow)
  · intro e he
    exact Nat.le_trans hle (hlowest e (List.mem_append_right _ (List.mem_cons_of_mem _ he)))

/-- Some words make a nonterminal take a given production that has a tree: one that selects it above
the depth limit, and none from the limit on, where the production is the first of least height. -/
theorem exists_choice_words
    (hselect : ∀ chooser name,
      Random.Selectable ((ofGrammar g chooser maxDepth).candidates name).length)
    (htree : g.HasTreeBy p bound) (hlowest : maxDepth ≤ depth → g.FirstLowest p) :
    ∃ words : List UInt32, ∀ (source : Random.Source) tries position,
      source.Offers position words →
        (ofGrammar g (source.chooser (tries + 1)) maxDepth).choose p.lhs depth position =
          some (some p, position + words.length) := by
  by_cases hdepth : depth < maxDepth
  · -- the candidates are the same whatever the tape
    obtain ⟨height, hmem, _⟩ := exists_candidate (.ofWords []) maxDepth htree
    obtain ⟨i, hi⟩ := List.getElem?_of_mem hmem
    have hlt := (List.getElem?_eq_some_iff.mp hi).1
    obtain ⟨v, haccepts, hscale⟩ := hselect (.ofWords []) p.lhs i hlt
    refine ⟨[v], fun source tries position hoffers => ?_⟩
    have hword : source.word position = v := hoffers 0 v rfl
    refine choose_of_choice (ofGrammar g (source.chooser (tries + 1)) maxDepth) hdepth hi ?_
    rw [← hscale, ← hword]
    exact source.choose_of_accepts tries (hword ▸ haccepts)
  · have hdepth : maxDepth ≤ depth := Nat.le_of_not_lt hdepth
    refine ⟨[], fun source tries position _ => ?_⟩
    obtain ⟨height, hshallowest⟩ :=
      exists_shallowest_eq (source.chooser (tries + 1)) maxDepth (hlowest hdepth)
    exact choose_of_le (ofGrammar g _ maxDepth) hdepth hshallowest position

/-- Some words make a form grow into given trees: those for a node, then those for its children,
then those for the trees further right. -/
theorem exists_words {form : List Symbol} {ds : List Derivation}
    (hselect : ∀ chooser name,
      Random.Selectable ((ofGrammar g chooser maxDepth).candidates name).length)
    (h : Forest g form ds) (hthrifty : ∀ d ∈ ds, d.Thrifty g maxDepth depth) :
    ∃ words : List UInt32, ∀ (source : Random.Source) tries position,
      source.Offers position words → ∃ expansions,
        (ofGrammar g (source.chooser (tries + 1)) maxDepth).Grows depth form position expansions ds
          (position + words.length) := by
  induction h generalizing depth with
  | nil => exact ⟨[], fun source tries position _ => ⟨[], .nil depth position⟩⟩
  | epsilon _ ih =>
    obtain ⟨words, hwords⟩ := ih hthrifty
    refine ⟨words, fun source tries position hoffers => ?_⟩
    obtain ⟨expansions, hgrows⟩ := hwords source tries position hoffers
    exact ⟨expansions, .epsilon hgrows⟩
  | terminal t _ ih =>
    obtain ⟨words, hwords⟩ := ih fun d hd => hthrifty d (List.mem_cons_of_mem _ hd)
    refine ⟨words, fun source tries position hoffers => ?_⟩
    obtain ⟨expansions, hgrows⟩ := hwords source tries position hoffers
    exact ⟨expansions, .terminal t hgrows⟩
  | @nonterminal p _ children _ hp hbody _ ihbody ihrest =>
    have htree : g.HasTreeBy p (Derivation.node p children).height :=
      ⟨children, .node p children hp hbody.labels hbody.valid, Nat.le_refl _⟩
    cases hthrifty _ List.mem_cons_self with
    | node _ _ _ hlowest hchildren =>
      obtain ⟨first, hfirst⟩ := exists_choice_words hselect htree hlowest
      obtain ⟨inner, hinner⟩ := ihbody hchildren
      obtain ⟨later, hlater⟩ := ihrest fun d hd => hthrifty d (List.mem_cons_of_mem _ hd)
      refine ⟨first ++ inner ++ later, fun source tries position hoffers => ?_⟩
      simp only [Random.Source.offers_append_iff, List.length_append, ← Nat.add_assoc] at hoffers ⊢
      obtain ⟨⟨hofirst, hoinner⟩, holater⟩ := hoffers
      obtain ⟨innerExpansions, hbody⟩ := hinner source tries _ hoinner
      obtain ⟨laterExpansions, hrest⟩ := hlater source tries _ holater
      exact ⟨_, .expand (hfirst source tries position hofirst) hbody hrest⟩

end Choice

/-- A tree that has the first productions of least height from the depth limit on is grown by some
random words: its word is the sentence on the tape of those words, and on any other tape from a
place on that has them. None of the words is refused, so it does not matter how many words a choice
may try. -/
theorem exists_script (g : Grammar) (maxDepth : Nat) {start : String} {d : Derivation}
    (hvalid : Valid g d) (hroot : d.label = .nonterminal start) (hthrifty : d.Thrifty g maxDepth 0)
    (hselect : ∀ chooser name,
      Random.Selectable ((ofGrammar g chooser maxDepth).candidates name).length) :
    ∃ words : List UInt32,
      (ofGrammar g (.ofWords words) maxDepth).sentence start 0 =
          some (.ok (layOut d.word, words.length)) ∧
        ∀ (source : Random.Source) tries position, source.Offers position words →
          (ofGrammar g (source.chooser (tries + 1)) maxDepth).sentence start position =
            some (.ok (layOut d.word, position + words.length)) := by
  have hforest : Forest g [.nonterminal start] [d] :=
    Grammar.forest_singleton_iff.mpr ⟨hvalid, hroot⟩
  have htree : g.HasTree start d.height := ⟨d, hvalid, hroot, Nat.le_refl _⟩
  obtain ⟨least, hleast, _⟩ := htree.exists_leastHeight
  have hheight := Grammar.get?_heights_iff.mpr hleast
  obtain ⟨script, hscript⟩ := exists_words hselect hforest fun e he => by
    rw [List.mem_singleton.mp he]
    exact hthrifty
  have hsentence : ∀ (source : Random.Source) tries position, source.Offers position script →
      (ofGrammar g (source.chooser (tries + 1)) maxDepth).sentence start position =
        some (.ok (layOut d.word, position + script.length)) := by
    intro source tries position hoffers
    obtain ⟨expansions, hgrows⟩ := hscript source tries position hoffers
    rw [sentence_of_grows g _ maxDepth hheight hgrows, words, words, List.append_nil]
  refine ⟨script, ?_, hsentence⟩
  have hoffered :=
    hsentence (.ofWords script) script.length 0 (Random.Source.offers_ofWords script)
  rwa [Nat.zero_add] at hoffered

/-- One pair around the empty word. -/
def onePair : Derivation :=
  .node ⟨"S", 0, [.terminal "a", .nonterminal "S", .terminal "b"]⟩
    [.leaf "a", .node ⟨"S", 1, [.epsilon]⟩ [], .leaf "b"]

theorem exists_script_nestedPairs :
    ∃ words : List UInt32,
      (ofGrammar Grammar.nestedPairs (.ofWords words) 1).sentence "S" 0 =
        some (.ok ([⟨"a", "a", 1, 1⟩, ⟨"b", "b", 1, 2⟩], words.length)) := by
  have hempty : Valid Grammar.nestedPairs (.node ⟨"S", 1, [.epsilon]⟩ []) :=
    .node _ [] (by decide) (by decide) fun d hd => absurd hd List.not_mem_nil
  have hpair : Valid Grammar.nestedPairs onePair := by
    refine .node _ _ (by decide) (by decide) fun d hd => ?_
    simp only [List.mem_cons, List.not_mem_nil, or_false] at hd
    obtain rfl | rfl | rfl := hd
    · exact .leaf "a"
    · exact hempty
    · exact .leaf "b"
  have hleast : Grammar.nestedPairs.LeastHeight "S" 1 :=
    Grammar.get?_heights_iff.mp (by decide)
  have hlowest : Grammar.nestedPairs.FirstLowest ⟨"S", 1, [.epsilon]⟩ := by
    refine ⟨1, hleast, ⟨[], hempty, Nat.le_refl 1⟩, fun q hq _ hlt htree => ?_⟩
    obtain ⟨k, hk, hle⟩ := htree.exists_heights_ofBody
    have hhigher : ∀ q ∈ Grammar.nestedPairs.productions, q.index < 1 →
        Grammar.nestedPairs.heights.ofBody q.body = some 2 := by decide
    obtain rfl := Option.some.inj (hk.symm.trans (hhigher q hq hlt))
    omega
  have hthrifty : onePair.Thrifty Grammar.nestedPairs 1 0 := by
    refine .node 0 _ _ (fun h => by omega) fun d hd => ?_
    simp only [List.mem_cons, List.not_mem_nil, or_false] at hd
    obtain rfl | rfl | rfl := hd
    · exact .leaf 1 "a"
    · exact .node 1 _ [] (fun _ => hlowest) fun d hd => absurd hd List.not_mem_nil
    · exact .leaf 1 "b"
  obtain ⟨words, hwords, _⟩ := exists_script Grammar.nestedPairs 1 hpair rfl hthrifty
    fun chooser name => selectable_candidates (by decide) chooser 1 name
  exact ⟨words, hwords⟩

end Sampler

end TopDown
