import Mathlib.Data.Nat.Find
import TopDown.Proofs.Sentences

/-!
How a tree grows when nothing bounds its levels. The recursion is a relation: at a depth and a place
on the tape a form grows into trees, with the expansions made on the way. Whatever grows within the
levels that a sampler allows grows without them, and the other way round. From a nonterminal that
derives some word the recursion ends, provided that the random choices are answered: above the depth
limit any choice leads to a nonterminal with a least height, and from the limit on the heights fall.
-/
namespace TopDown.Sampler

open TopDown.Derivation

/-- A nonterminal is expanded at some depth; choosing its production takes the words of the tape
between the two places. -/
structure Expansion where
  name : String
  depth : Nat
  before : Nat
  after : Nat
deriving DecidableEq, Repr

/-- The symbols of the form grow one after the other, each from the place on the tape where the one
before has left it. A nonterminal with nothing to choose from grows nothing. -/
inductive Grows (sampler : Sampler) :
    Nat → List Symbol → Nat → List Expansion → List Derivation → Nat → Prop where
  | nil (depth position : Nat) : Grows sampler depth [] position [] [] position
  | epsilon {depth position next : Nat} {rest : List Symbol} {later : List Expansion}
      {ds : List Derivation} : Grows sampler depth rest position later ds next →
      Grows sampler depth (.epsilon :: rest) position later ds next
  | terminal (t : String) {depth position next : Nat} {rest : List Symbol}
      {later : List Expansion} {ds : List Derivation} :
      Grows sampler depth rest position later ds next →
      Grows sampler depth (.terminal t :: rest) position later (.leaf t :: ds) next
  | barren {name : String} {depth position chosen next : Nat} {rest : List Symbol}
      {later : List Expansion} {ds : List Derivation}
      (hnone : sampler.choose name depth position = some (none, chosen)) :
      Grows sampler depth rest chosen later ds next →
      Grows sampler depth (.nonterminal name :: rest) position
        (⟨name, depth, position, chosen⟩ :: later) ds next
  | expand {name : String} {depth position chosen grown next : Nat} {rest : List Symbol}
      {p : Production} {inner later : List Expansion} {children ds : List Derivation}
      (hchoose : sampler.choose name depth position = some (some p, chosen)) :
      Grows sampler (depth + 1) p.body chosen inner children grown →
      Grows sampler depth rest grown later ds next →
      Grows sampler depth (.nonterminal name :: rest) position
        (⟨name, depth, position, chosen⟩ :: (inner ++ later)) (.node p children :: ds) next

/-- The nonterminal has an alternative to take, its depth stays below the depth limit and the
greatest height together, and from the limit on no random word is drawn for it. -/
structure Expansion.Bounded (sampler : Sampler) (greatest : Nat) (e : Expansion) : Prop where
  candidates_ne_nil : sampler.candidates e.name ≠ []
  depth_lt : e.depth < sampler.maxDepth + greatest
  after_eq : sampler.maxDepth ≤ e.depth → e.after = e.before

section Recursion

variable {sampler : Sampler} {depth position next : Nat} {form : List Symbol}
  {expansions : List Expansion} {ds : List Derivation}

/-- A nonterminal that grows by itself grows in front of a form. -/
theorem Grows.cons {name : String} {rest : List Symbol} {mid : Nat} {others : List Expansion}
    {es : List Derivation}
    (h : sampler.Grows depth [.nonterminal name] position expansions ds mid)
    (hrest : sampler.Grows depth rest mid others es next) :
    sampler.Grows depth (.nonterminal name :: rest) position (expansions ++ others) (ds ++ es)
      next := by
  cases h with
  | barren hnone h =>
    cases h with
    | nil => exact .barren hnone hrest
  | expand hchoose hbody h =>
    cases h with
    | nil =>
      rw [List.append_nil]
      exact .expand hchoose hbody hrest

/-- A body grows when each of its nonterminals does. -/
theorem exists_grows_of_growBody {grow : String → Nat → Option (List Derivation × Nat)}
    (hgrow : ∀ name position ds next, grow name position = some (ds, next) →
      ∃ expansions, sampler.Grows depth [.nonterminal name] position expansions ds next)
    (h : growBody grow form position = some (ds, next)) :
    ∃ expansions, sampler.Grows depth form position expansions ds next := by
  induction form generalizing position ds with
  | nil =>
    obtain ⟨rfl, rfl⟩ := Prod.mk.inj (Option.some.inj h)
    exact ⟨[], .nil depth position⟩
  | cons symbol rest ih =>
    cases symbol with
    | epsilon =>
      obtain ⟨expansions, hrest⟩ := ih h
      exact ⟨expansions, .epsilon hrest⟩
    | terminal t =>
      rw [growBody, Option.bind_eq_bind, Option.bind_eq_some_iff] at h
      obtain ⟨⟨trees, last⟩, hgrown, heq⟩ := h
      obtain ⟨rfl, rfl⟩ := Prod.mk.inj (Option.some.inj heq)
      obtain ⟨expansions, hrest⟩ := ih hgrown
      exact ⟨expansions, .terminal t hrest⟩
    | nonterminal name =>
      rw [growBody, Option.bind_eq_bind, Option.bind_eq_some_iff] at h
      obtain ⟨⟨front, mid⟩, hfront, h⟩ := h
      rw [Option.bind_eq_some_iff] at h
      obtain ⟨⟨trees, last⟩, hgrown, heq⟩ := h
      obtain ⟨rfl, rfl⟩ := Prod.mk.inj (Option.some.inj heq)
      obtain ⟨first, hfirst⟩ := hgrow name position front mid hfront
      obtain ⟨later, hrest⟩ := ih hgrown
      exact ⟨first ++ later, hfirst.cons hrest⟩

/-- What grows within some levels grows without them. -/
theorem exists_grows_of_grow {levels : Nat} {name : String}
    (h : sampler.grow levels depth name position = some (ds, next)) :
    ∃ expansions, sampler.Grows depth [.nonterminal name] position expansions ds next := by
  induction levels generalizing depth name position ds next with
  | zero => cases h
  | succ levels ih =>
    rw [grow, Option.bind_eq_bind, Option.bind_eq_some_iff] at h
    obtain ⟨⟨p?, chosen⟩, hchoose, h⟩ := h
    cases p? with
    | none =>
      obtain ⟨rfl, rfl⟩ := Prod.mk.inj (Option.some.inj h)
      exact ⟨_, .barren hchoose (.nil depth chosen)⟩
    | some p =>
      simp only [Option.bind_eq_bind, Option.bind_eq_some_iff] at h
      obtain ⟨⟨children, last⟩, hgrown, heq⟩ := h
      obtain ⟨rfl, rfl⟩ := Prod.mk.inj (Option.some.inj heq)
      obtain ⟨inner, hbody⟩ :=
        exists_grows_of_growBody (fun _ _ _ _ hgrow => ih hgrow) hgrown
      exact ⟨_, .expand hchoose hbody (.nil depth last)⟩

/-- What grows grows within so many levels if no expansion is deeper than they go. -/
theorem Grows.growBody_eq {levels : Nat}
    (h : sampler.Grows depth form position expansions ds next)
    (hlevels : ∀ e ∈ expansions, e.depth < depth + levels) :
    growBody (sampler.grow levels depth) form position = some (ds, next) := by
  induction h generalizing levels with
  | nil depth position => rfl
  | epsilon _ ih => exact ih hlevels
  | terminal t _ ih =>
    rw [growBody, ih hlevels]
    rfl
  | @barren name depth position chosen _ _ _ _ hnone _ ih =>
    have hself : depth < depth + levels := hlevels _ List.mem_cons_self
    have hrest := ih fun e he => hlevels e (List.mem_cons_of_mem _ he)
    obtain ⟨levels, rfl⟩ := Nat.exists_eq_succ_of_ne_zero (by omega : levels ≠ 0)
    rw [growBody, grow, hnone]
    simp only [Option.bind_eq_bind, Option.bind_some, Option.pure_def, hrest, List.nil_append]
  | @expand name depth position chosen grown _ _ p _ _ children _ hchoose _ _ ihbody ihrest =>
    have hself : depth < depth + levels := hlevels _ List.mem_cons_self
    have hrest := ihrest fun e he =>
      hlevels e (List.mem_cons_of_mem _ (List.mem_append_right _ he))
    obtain ⟨levels, rfl⟩ := Nat.exists_eq_succ_of_ne_zero (by omega : levels ≠ 0)
    have hbody : growBody (sampler.grow levels (depth + 1)) p.body chosen =
        some (children, grown) := by
      refine ihbody fun e he => ?_
      have := hlevels e (List.mem_cons_of_mem _ (List.mem_append_left _ he))
      omega
    rw [growBody, grow, hchoose]
    simp only [Option.bind_eq_bind, Option.bind_some, Option.pure_def, hbody, hrest,
      List.singleton_append]

theorem growBody_singleton (grow : String → Nat → Option (List Derivation × Nat)) (name : String)
    (position : Nat) : growBody grow [.nonterminal name] position = grow name position := by
  rw [growBody]
  cases grow name position with
  | none => rfl
  | some grown =>
    simp only [Option.bind_eq_bind, Option.bind_some, growBody, Option.pure_def, List.append_nil]

end Recursion

section Bounds

variable {g : Grammar} {chooser : Random.Chooser} {maxDepth greatest : Nat}

/-- The expansions of a form that fits are bounded. -/
theorem Grows.bounded {depth position next : Nat} {form : List Symbol}
    {expansions : List Expansion} {ds : List Derivation}
    (hgreatest : ∀ name height, g.heights.get? name = some height → height ≤ greatest)
    (h : (ofGrammar g chooser maxDepth).Grows depth form position expansions ds next)
    (hform : Fits g (maxDepth + greatest) depth form) :
    ∀ e ∈ expansions, e.Bounded (ofGrammar g chooser maxDepth) greatest := by
  induction h with
  | nil => exact fun e he => absurd he List.not_mem_nil
  | epsilon _ ih => exact ih hform.tail
  | terminal t _ ih => exact ih hform.tail
  | barren hnone _ _ =>
    obtain ⟨height, hheight, _⟩ := hform _ List.mem_cons_self
    exact absurd (candidates_eq_nil_of_choose hnone) (candidates_ne_nil hheight)
  | @expand name depth position chosen _ _ _ p _ _ _ _ hchoose _ _ ihbody ihrest =>
    obtain ⟨height, hheight, hfits⟩ := hform name List.mem_cons_self
    have hself : (⟨name, depth, position, chosen⟩ : Expansion).Bounded
        (ofGrammar g chooser maxDepth) greatest := by
      obtain ⟨_, _, _, hshallow⟩ := exists_candidate_of_choose hchoose
      refine ⟨candidates_ne_nil hheight, ?_, fun hdepth => (hshallow hdepth).1⟩
      have hpos := Grammar.height_pos hheight
      change depth < maxDepth + greatest
      omega
    intro e he
    rcases List.mem_cons.mp he with rfl | he
    · exact hself
    · rcases List.mem_append.mp he with he | he
      · exact ihbody (hform.body hgreatest List.mem_cons_self hchoose) e he
      · exact ihrest hform.tail e he

/-- Of the least heights one is the greatest, if there are any. -/
theorem exists_greatest_leastHeight {name : String} {height : Nat} (h : g.LeastHeight name height) :
    ∃ greatest, (∃ name, g.LeastHeight name greatest) ∧
      ∀ name height, g.LeastHeight name height → height ≤ greatest := by
  classical
  have hle : ∀ name height, g.LeastHeight name height →
      height ≤ (g.heights.entries.map (·.2)).foldl max 0 :=
    fun name height hleast => height_le_greatest (Grammar.get?_heights_iff.mpr hleast)
  generalize (g.heights.entries.map (·.2)).foldl max 0 = bound at hle
  let P : Nat → Prop := fun k => ∃ name, g.LeastHeight name k
  refine ⟨Nat.findGreatest P bound, ?_, ?_⟩
  · exact Nat.findGreatest_spec (P := P) (hle name height h) ⟨name, h⟩
  · intro other k hk
    exact Nat.le_findGreatest (hle other k hk) ⟨other, hk⟩

end Bounds

section Outcome

variable (g : Grammar) (chooser : Random.Chooser) (maxDepth : Nat) {start : String}

/-- Whatever grows from a nonterminal with a height is its sentence: the levels that a sampler
allows are enough for it. -/
theorem sentence_of_grows {height position next : Nat} {expansions : List Expansion}
    {ds : List Derivation} (hheight : g.heights.get? start = some height)
    (h : (ofGrammar g chooser maxDepth).Grows 0 [.nonterminal start] position expansions ds next) :
    (ofGrammar g chooser maxDepth).sentence start position =
      some (.ok (layOut (words ds), next)) := by
  have hle := height_le_greatest hheight
  have hbounded := h.bounded (fun _ _ hknown => height_le_greatest hknown)
    (fits_singleton hheight (by omega))
  have hgrow : (ofGrammar g chooser maxDepth).grow (ofGrammar g chooser maxDepth).levels 0 start
      position = some (ds, next) := by
    rw [← growBody_singleton (grow _ _ _)]
    refine h.growBody_eq fun e he => ?_
    have hdepth := (hbounded e he).depth_lt
    simp only [levels, ofGrammar] at hdepth ⊢
    omega
  rw [sentence_of_height chooser maxDepth position hheight, hgrow, Option.map_some]

/-- From a nonterminal that derives some word the recursion ends, provided that the random choices
are answered. It gives the sentence. Every nonterminal it expands has an alternative to take, none
is as deep as the depth limit and the greatest least height together, and from the limit on no
random word is drawn. -/
theorem growth_bounded (hword : ∃ w, g.Generates start w) (position : Nat) :
    ∃ greatest, (∃ name, g.LeastHeight name greatest) ∧
      (∀ name height, g.LeastHeight name height → height ≤ greatest) ∧
      (chooser.Answers → ∃ expansions ds next,
        (ofGrammar g chooser maxDepth).Grows 0 [.nonterminal start] position expansions ds next) ∧
      ∀ expansions ds next, (ofGrammar g chooser maxDepth).Grows 0 [.nonterminal start] position
        expansions ds next →
          (ofGrammar g chooser maxDepth).sentence start position =
              some (.ok (layOut (words ds), next)) ∧
            ∀ e ∈ expansions, e.Bounded (ofGrammar g chooser maxDepth) greatest := by
  obtain ⟨height, hheight⟩ := Grammar.exists_height_iff.mpr hword
  have hleast := Grammar.get?_heights_iff.mp hheight
  obtain ⟨greatest, hattained, hgreatest⟩ := exists_greatest_leastHeight hleast
  refine ⟨greatest, hattained, hgreatest, fun hanswers => ?_, fun expansions ds next h => ?_⟩
  · obtain ⟨ds, next, hgrow, _⟩ := exists_grow_levels hanswers hheight position
    obtain ⟨expansions, hgrows⟩ := exists_grows_of_grow hgrow
    exact ⟨expansions, ds, next, hgrows⟩
  · have hle := hgreatest start height hleast
    have hfits : Fits g (maxDepth + greatest) 0 [.nonterminal start] :=
      fits_singleton hheight (by omega)
    refine ⟨sentence_of_grows g chooser maxDepth hheight h, h.bounded ?_ hfits⟩
    exact fun name known hknown => hgreatest name known (Grammar.get?_heights_iff.mp hknown)

theorem growth_bounded_nestedPairs :
    (Random.Chooser.ofWords [0, 4294967295]).Answers ∧ ∃ expansions ds next,
      (ofGrammar Grammar.nestedPairs (.ofWords [0, 4294967295]) 3).Grows 0 [.nonterminal "S"] 0
          expansions ds next ∧
        (ofGrammar Grammar.nestedPairs (.ofWords [0, 4294967295]) 3).sentence "S" 0 =
          some (.ok (layOut (words ds), next)) ∧
        ∀ e ∈ expansions,
          e.Bounded (ofGrammar Grammar.nestedPairs (.ofWords [0, 4294967295]) 3) 1 := by
  have hanswers := Random.Chooser.answers_ofWords [0, 4294967295]
  have hempty : Grammar.nestedPairs.Generates "S" [] :=
    .single (.expand [] [] ⟨"S", 1, [.epsilon]⟩ (by decide))
  obtain ⟨greatest, ⟨name, hleast⟩, _, hends, hall⟩ :=
    growth_bounded Grammar.nestedPairs (.ofWords [0, 4294967295]) 3 ⟨[], hempty⟩ 0
  obtain ⟨expansions, ds, next, hgrows⟩ := hends hanswers
  have hheights : Grammar.nestedPairs.heights = ⟨[("S", 1)]⟩ := by decide
  obtain rfl : greatest = 1 := by
    have hknown := Grammar.get?_heights_iff.mpr hleast
    rw [hheights, NameMap.get?, NameMap.lookup_cons_ite] at hknown
    split at hknown
    · exact (Option.some.inj hknown).symm
    · cases hknown
  obtain ⟨hsentence, hbounded⟩ := hall expansions ds next hgrows
  exact ⟨hanswers, expansions, ds, next, hgrows, hsentence, hbounded⟩

end Outcome

end TopDown.Sampler
