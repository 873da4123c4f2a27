import TopDown.Height
import TopDown.Proofs.Forests

/-!
The heights found by the passes are the least heights of derivation trees. A known height is never
below that of some tree, and only falls. As long as a pass changes anything some nonterminal does
not have its least height yet; of these the pass settles one whose least height is lowest, so every
pass but the last settles a nonterminal more and the passes end within their bound.
-/
namespace TopDown

open TopDown.Derivation

namespace Heights

variable {heights : Heights} {body : Body} {height : Nat}

private theorem go_spec {deepest : Nat} (h : ofBody.go heights deepest body = some height) :
    deepest < height ∧
      ∀ name, .nonterminal name ∈ body → ∃ k, heights.get? name = some k ∧ k < height := by
  induction body generalizing deepest with
  | nil =>
    rw [ofBody.go, Option.some.injEq] at h
    exact ⟨by omega, fun _ hname => absurd hname List.not_mem_nil⟩
  | cons symbol rest ih =>
    cases symbol with
    | terminal t =>
      obtain ⟨hlt, hrest⟩ := ih h
      exact ⟨hlt, fun name hname => hrest name (List.mem_of_ne_of_mem Symbol.noConfusion hname)⟩
    | epsilon =>
      obtain ⟨hlt, hrest⟩ := ih h
      exact ⟨hlt, fun name hname => hrest name (List.mem_of_ne_of_mem Symbol.noConfusion hname)⟩
    | nonterminal first =>
      rw [ofBody.go] at h
      cases hfirst : heights.get? first with
      | none =>
        rw [hfirst] at h
        cases h
      | some k =>
        rw [hfirst] at h
        obtain ⟨hlt, hrest⟩ := ih h
        refine ⟨by omega, fun name hname => ?_⟩
        rcases List.mem_cons.mp hname with heq | hname
        · rw [Symbol.nonterminal.inj heq]
          exact ⟨k, hfirst, by omega⟩
        · exact hrest name hname

/-- The nonterminals of a body that has a height are lower. -/
theorem exists_lt_of_ofBody (h : heights.ofBody body = some height) {name : String}
    (hname : .nonterminal name ∈ body) : ∃ k, heights.get? name = some k ∧ k < height :=
  (go_spec h).2 name hname

private theorem exists_go_le {deepest bound : Nat} (hdeepest : deepest ≤ bound)
    (h : ∀ name, .nonterminal name ∈ body → ∃ k, heights.get? name = some k ∧ k ≤ bound) :
    ∃ height, ofBody.go heights deepest body = some height ∧ height ≤ bound + 1 := by
  induction body generalizing deepest with
  | nil => exact ⟨deepest + 1, rfl, Nat.succ_le_succ hdeepest⟩
  | cons symbol rest ih =>
    have hrest : ∀ name, .nonterminal name ∈ rest → ∃ k, heights.get? name = some k ∧ k ≤ bound :=
      fun name hname => h name (List.mem_cons_of_mem _ hname)
    cases symbol with
    | terminal t => exact ih hdeepest hrest
    | epsilon => exact ih hdeepest hrest
    | nonterminal first =>
      obtain ⟨k, hk, hle⟩ := h first List.mem_cons_self
      rw [ofBody.go, hk]
      exact ih (by omega) hrest

/-- A body has a height once its nonterminals have one, and is at most one higher. -/
theorem exists_ofBody_le {bound : Nat}
    (h : ∀ name, .nonterminal name ∈ body → ∃ k, heights.get? name = some k ∧ k ≤ bound) :
    ∃ height, heights.ofBody body = some height ∧ height ≤ bound + 1 :=
  exists_go_le (Nat.zero_le bound) h

end Heights

namespace Height

variable {heights : Heights} {rule : Rule}

theorem best_eq_some_iff {height : Nat} :
    best heights rule = some height ↔
      (∃ p ∈ rule.productions, heights.ofBody p.body = some height) ∧
        ∀ p ∈ rule.productions, ∀ other, heights.ofBody p.body = some other → height ≤ other := by
  rw [best, List.min?_eq_some_iff]
  simp only [List.mem_filterMap]
  constructor
  · intro hbest
    obtain ⟨⟨body, hbody, hheight⟩, hle⟩ := hbest
    obtain ⟨p, hp, rfl⟩ := Grammar.exists_production_of_mem hbody
    exact ⟨⟨p, hp, hheight⟩, fun q hq other hother =>
      hle other ⟨q.body, Grammar.body_of_mem_rule hq, hother⟩⟩
  · intro hfound
    obtain ⟨⟨p, hp, hheight⟩, hle⟩ := hfound
    refine ⟨⟨p.body, Grammar.body_of_mem_rule hp, hheight⟩, ?_⟩
    intro other hother
    obtain ⟨body, hbody, hother⟩ := hother
    obtain ⟨q, hq, rfl⟩ := Grammar.exists_production_of_mem hbody
    exact hle q hq other hother

/-- Some alternative of the rule is best as soon as one has a height. -/
theorem exists_best {p : Production} (hp : p ∈ rule.productions) {height : Nat}
    (h : heights.ofBody p.body = some height) :
    ∃ least, best heights rule = some least ∧ least ≤ height := by
  cases hbest : best heights rule with
  | none =>
    have hmem : height ∈ rule.alternatives.filterMap heights.ofBody :=
      List.mem_filterMap.mpr ⟨p.body, Grammar.body_of_mem_rule hp, h⟩
    rw [List.min?_eq_none_iff.mp hbest] at hmem
    exact absurd hmem List.not_mem_nil
  | some least => exact ⟨least, rfl, (best_eq_some_iff.mp hbest).2 p hp height h⟩

/-- A rule leaves the heights as they are, or it has a height that is lower than the known one. -/
theorem improve_cases (heights : Heights) (rule : Rule) :
    (improve heights rule = heights ∧ ∀ least, best heights rule = some least →
        ∃ known, heights.get? rule.name = some known ∧ known ≤ least) ∨
      ∃ least, best heights rule = some least ∧
        improve heights rule = heights.insert rule.name least ∧
        ∀ known, heights.get? rule.name = some known → least < known := by
  unfold improve
  cases hbest : best heights rule with
  | none => exact Or.inl ⟨rfl, fun least h => nomatch h⟩
  | some least =>
    cases hknown : heights.get? rule.name with
    | none => exact Or.inr ⟨least, rfl, rfl, fun known h => nomatch h⟩
    | some known =>
      by_cases hlt : least < known
      · right
        refine ⟨least, rfl, if_pos hlt, fun other h => ?_⟩
        rw [← Option.some.inj h]
        exact hlt
      · left
        refine ⟨if_neg hlt, fun other h => ⟨known, rfl, ?_⟩⟩
        rw [← Option.some.inj h]
        exact Nat.le_of_not_lt hlt

end Height

namespace Grammar

variable {g : Grammar} {heights : Heights} {name : String} {height : Nat}

/-- Some derivation tree of the nonterminal is no higher. -/
def HasTree (g : Grammar) (name : String) (bound : Nat) : Prop :=
  ∃ d, Valid g d ∧ d.label = .nonterminal name ∧ d.height ≤ bound

/-- Some derivation tree with the production at its root is no higher. -/
def HasTreeBy (g : Grammar) (p : Production) (bound : Nat) : Prop :=
  ∃ children, Valid g (.node p children) ∧ (Derivation.node p children).height ≤ bound

/-- The least height of the nonterminal's derivation trees. -/
def LeastHeight (g : Grammar) (name : String) (height : Nat) : Prop :=
  g.HasTree name height ∧ ∀ bound, g.HasTree name bound → height ≤ bound

theorem HasTreeBy.hasTree {p : Production} {bound : Nat} (h : g.HasTreeBy p bound) :
    g.HasTree p.lhs bound := by
  obtain ⟨children, hvalid, hheight⟩ := h
  exact ⟨.node p children, hvalid, rfl, hheight⟩

theorem HasTreeBy.mem_productions {p : Production} {bound : Nat} (h : g.HasTreeBy p bound) :
    p ∈ g.productions := by
  obtain ⟨children, hvalid, _⟩ := h
  cases hvalid with
  | node _ _ hp _ _ => exact hp

theorem HasTreeBy.mono {p : Production} {bound other : Nat} (h : g.HasTreeBy p bound)
    (hle : bound ≤ other) : g.HasTreeBy p other := by
  obtain ⟨children, hvalid, hheight⟩ := h
  exact ⟨children, hvalid, Nat.le_trans hheight hle⟩

theorem LeastHeight.unique {other : Nat} (h : g.LeastHeight name height)
    (h' : g.LeastHeight name other) : height = other :=
  Nat.le_antisymm (h.2 other h'.1) (h'.2 height h.1)

theorem HasTree.exists_leastHeight {bound : Nat} (h : g.HasTree name bound) :
    ∃ height, g.LeastHeight name height ∧ height ≤ bound := by
  induction bound with
  | zero => exact ⟨0, ⟨h, fun _ _ => Nat.zero_le _⟩, Nat.le_refl 0⟩
  | succ bound ih =>
    by_cases hlower : g.HasTree name bound
    · obtain ⟨height, hleast, hle⟩ := ih hlower
      exact ⟨height, hleast, Nat.le_succ_of_le hle⟩
    · refine ⟨bound + 1, ⟨h, fun other hother => ?_⟩, Nat.le_refl _⟩
      by_cases hle : bound + 1 ≤ other
      · exact hle
      · obtain ⟨d, hvalid, hlabel, hheight⟩ := hother
        exact absurd ⟨d, hvalid, hlabel, by omega⟩ hlower

theorem height_le_heights {d : Derivation} {ds : List Derivation} (h : d ∈ ds) :
    d.height ≤ Derivation.heights ds := by
  induction ds with
  | nil => exact absurd h List.not_mem_nil
  | cons first rest ih =>
    rw [Derivation.heights]
    rcases List.mem_cons.mp h with rfl | h
    · exact Nat.le_max_left _ _
    · exact Nat.le_trans (ih h) (Nat.le_max_right _ _)

/-- A production whose nonterminals have trees makes a tree one higher. -/
theorem hasTreeBy_of_body {p : Production} (hp : p ∈ g.productions) {bound : Nat}
    (h : ∀ name, .nonterminal name ∈ p.body → g.HasTree name bound) :
    g.HasTreeBy p (bound + 1) := by
  suffices hbody : ∀ body : Body, (∀ name, .nonterminal name ∈ body → g.HasTree name bound) →
      ∃ ds, Forest g body ds ∧ Derivation.heights ds ≤ bound by
    obtain ⟨ds, hforest, hheights⟩ := hbody p.body h
    exact ⟨ds, .node p ds hp hforest.labels hforest.valid, Nat.succ_le_succ hheights⟩
  intro body hbody
  induction body with
  | nil => exact ⟨[], .nil, Nat.zero_le bound⟩
  | cons symbol rest ih =>
    obtain ⟨ds, hrest, hheights⟩ := ih fun name hname => hbody name (List.mem_cons_of_mem _ hname)
    cases symbol with
    | terminal t =>
      exact ⟨.leaf t :: ds, .terminal t hrest, Nat.max_le.mpr ⟨Nat.zero_le _, hheights⟩⟩
    | epsilon => exact ⟨ds, .epsilon hrest, hheights⟩
    | nonterminal first =>
      obtain ⟨d, hvalid, hlabel, hheight⟩ := hbody first List.mem_cons_self
      have hfirst : Forest g [.nonterminal first] [d] := forest_singleton_iff.mpr ⟨hvalid, hlabel⟩
      exact ⟨d :: ds, hfirst.append hrest, Nat.max_le.mpr ⟨hheight, hheights⟩⟩

/-- The tree of a production has lower ones for the nonterminals of the body. -/
theorem exists_lower_of_valid {p : Production} {children : List Derivation}
    (h : Valid g (.node p children)) {name : String} (hname : .nonterminal name ∈ p.body) :
    ∃ d ∈ children, Valid g d ∧ d.label = .nonterminal name ∧
      d.height < (Derivation.node p children).height := by
  cases h with
  | node _ _ hp hlabels hchildren =>
    have hvisible : .nonterminal name ∈ children.map label := by
      rw [hlabels]
      exact List.mem_filter.mpr ⟨hname, rfl⟩
    obtain ⟨d, hd, hlabel⟩ := List.mem_map.mp hvisible
    exact ⟨d, hd, hchildren d hd, hlabel, Nat.lt_succ_of_le (height_le_heights hd)⟩

theorem HasTree.exists_rule {bound : Nat} (h : g.HasTree name bound) :
    ∃ rule ∈ g.rules, rule.name = name := by
  obtain ⟨d, hvalid, hlabel, _⟩ := h
  cases hvalid with
  | leaf t => cases hlabel
  | node p children hp _ _ =>
    rw [← Symbol.nonterminal.inj hlabel]
    exact List.mem_map.mp (lhs_mem_nonterminals hp)

/-- Every known height is reached by a tree. -/
def Attained (g : Grammar) (heights : Heights) : Prop :=
  ∀ name height, heights.get? name = some height → g.HasTree name height

/-- The known height of the nonterminal is its least. -/
def Settled (g : Grammar) (heights : Heights) (name : String) : Prop :=
  ∃ height, heights.get? name = some height ∧ g.LeastHeight name height

namespace Attained

variable {rule : Rule}

theorem hasTreeBy_of_ofBody (h : g.Attained heights) {p : Production} (hp : p ∈ g.productions)
    (hheight : heights.ofBody p.body = some height) : g.HasTreeBy p height := by
  have hpos : height - 1 + 1 = height := by
    have := (Heights.go_spec hheight).1
    omega
  rw [← hpos]
  apply hasTreeBy_of_body hp
  intro name hname
  obtain ⟨k, hk, hlt⟩ := Heights.exists_lt_of_ofBody hheight hname
  obtain ⟨d, hvalid, hlabel, hle⟩ := h name k hk
  exact ⟨d, hvalid, hlabel, by omega⟩

theorem hasTree_of_best (h : g.Attained heights) (hrule : rule ∈ g.rules)
    (hbest : Height.best heights rule = some height) : g.HasTree rule.name height := by
  obtain ⟨p, hp, hheight⟩ := (Height.best_eq_some_iff.mp hbest).1
  rw [← lhs_of_mem_rule hp]
  exact (h.hasTreeBy_of_ofBody (mem_productions_iff.mpr ⟨rule, hrule, hp⟩) hheight).hasTree

theorem improve (h : g.Attained heights) (hrule : rule ∈ g.rules) :
    g.Attained (Height.improve heights rule) := by
  rcases Height.improve_cases heights rule with ⟨heq, _⟩ | ⟨least, hbest, heq, _⟩
  · rw [heq]
    exact h
  · intro name height hheight
    rw [heq, NameMap.get?_insert] at hheight
    by_cases hname : name = rule.name
    · rw [if_pos hname, Option.some.injEq] at hheight
      rw [hname, ← hheight]
      exact h.hasTree_of_best hrule hbest
    · rw [if_neg hname] at hheight
      exact h name height hheight

/-- A least height that is known stays. -/
theorem settled_improve (h : g.Attained heights) (hrule : rule ∈ g.rules)
    (hname : g.Settled heights name) : g.Settled (Height.improve heights rule) name := by
  obtain ⟨height, hheight, hleast⟩ := hname
  rcases Height.improve_cases heights rule with ⟨heq, _⟩ | ⟨least, hbest, heq, hlt⟩
  · rw [heq]
    exact ⟨height, hheight, hleast⟩
  · by_cases hname : name = rule.name
    · subst hname
      have hle := hleast.2 least (h.hasTree_of_best hrule hbest)
      have hlt := hlt height hheight
      omega
    · refine ⟨height, ?_, hleast⟩
      rw [heq, NameMap.get?_insert, if_neg hname]
      exact hheight

end Attained

/-- A production with a tree has a height that is no higher, once the nonterminals of lower least
height are settled. -/
theorem HasTreeBy.exists_ofBody {p : Production} {bound : Nat} (h : g.HasTreeBy p bound)
    (hlower : ∀ other k, g.LeastHeight other k → k < bound → g.Settled heights other) :
    ∃ k, heights.ofBody p.body = some k ∧ k ≤ bound := by
  obtain ⟨children, hvalid, hheight⟩ := h
  have hbody : ∀ name, .nonterminal name ∈ p.body →
      ∃ k, heights.get? name = some k ∧ k ≤ bound - 1 := by
    intro name hname
    obtain ⟨e, _, hevalid, helabel, helt⟩ := exists_lower_of_valid hvalid hname
    obtain ⟨k, hk, hkle⟩ := HasTree.exists_leastHeight ⟨e, hevalid, helabel, Nat.le_refl e.height⟩
    obtain ⟨known, hknown, hknownLeast⟩ := hlower name k hk (by omega)
    rw [← hk.unique hknownLeast] at hknown
    exact ⟨k, hknown, by omega⟩
  obtain ⟨k, hk, hle⟩ := Heights.exists_ofBody_le hbody
  rw [Derivation.height] at hheight
  exact ⟨k, hk, by omega⟩

/-- A nonterminal has a candidate of its least height once those of lower least height are
settled. -/
theorem exists_best_le {rule : Rule} (hrule : rule ∈ g.rules)
    (hleast : g.LeastHeight rule.name height)
    (hlower : ∀ other k, g.LeastHeight other k → k < height → g.Settled heights other) :
    ∃ least, Height.best heights rule = some least ∧ least ≤ height := by
  obtain ⟨⟨d, hvalid, hlabel, hheight⟩, _⟩ := hleast
  cases d with
  | leaf t => cases hlabel
  | node p children =>
    have htree : g.HasTreeBy p height := ⟨children, hvalid, hheight⟩
    have hp : p ∈ rule.productions := by
      rw [← productionsOf_name hrule, mem_productionsOf_iff]
      exact ⟨htree.mem_productions, Symbol.nonterminal.inj hlabel⟩
    obtain ⟨k, hk, hkle⟩ := htree.exists_ofBody hlower
    obtain ⟨least, hbest, hle⟩ := Height.exists_best hp hk
    exact ⟨least, hbest, Nat.le_trans hle hkle⟩

/-- A nonterminal settles when all those of lower least height have. -/
theorem Attained.settled_improve_self {rule : Rule} (h : g.Attained heights)
    (hrule : rule ∈ g.rules) (hleast : g.LeastHeight rule.name height)
    (hlower : ∀ other k, g.LeastHeight other k → k < height → g.Settled heights other) :
    g.Settled (Height.improve heights rule) rule.name := by
  obtain ⟨least, hbest, hle⟩ := exists_best_le hrule hleast hlower
  obtain ⟨known, hknown, hknownle⟩ :
      ∃ known, (Height.improve heights rule).get? rule.name = some known ∧ known ≤ least := by
    rcases Height.improve_cases heights rule with ⟨heq, hknown⟩ | ⟨other, hother, heq, _⟩
    · rw [heq]
      exact hknown least hbest
    · rw [hbest, Option.some.injEq] at hother
      rw [heq, NameMap.get?_insert, if_pos rfl, hother]
      exact ⟨other, rfl, Nat.le_refl other⟩
  have hexact : height ≤ known := hleast.2 known (h.improve hrule rule.name known hknown)
  obtain rfl : known = height := by omega
  exact ⟨known, hknown, hleast⟩

/-- What every rule of the grammar keeps, a run over some of the rules keeps. -/
theorem foldl_improve_induction {P : Heights → Prop}
    (hstep : ∀ rule ∈ g.rules, ∀ heights, P heights → P (Height.improve heights rule))
    {rules : List Rule} (hrules : ∀ rule ∈ rules, rule ∈ g.rules) (h : P heights) :
    P (rules.foldl Height.improve heights) := by
  induction rules generalizing heights with
  | nil => exact h
  | cons rule rest ih =>
    have hrest : ∀ rule ∈ rest, rule ∈ g.rules :=
      fun other hother => hrules other (List.mem_cons_of_mem _ hother)
    exact ih hrest (hstep rule (hrules rule List.mem_cons_self) heights h)

namespace Attained

theorem pass (h : g.Attained heights) : g.Attained (Height.pass g heights) :=
  foldl_improve_induction (P := g.Attained) (fun _ hrule _ h => h.improve hrule)
    (fun _ hrule => hrule) h

/-- Further rules keep what is attained and what is settled. -/
theorem foldl_settled (h : g.Attained heights) {rules : List Rule}
    (hrules : ∀ rule ∈ rules, rule ∈ g.rules) (hname : g.Settled heights name) :
    g.Settled (rules.foldl Height.improve heights) name := by
  refine (foldl_improve_induction (P := fun heights => g.Attained heights ∧
    g.Settled heights name) ?_ hrules ⟨h, hname⟩).2
  intro rule hrule heights hkept
  obtain ⟨hattained, hsettled⟩ := hkept
  exact ⟨hattained.improve hrule, hattained.settled_improve hrule hsettled⟩

/-- A pass settles a nonterminal when all those of lower least height are settled. -/
theorem settled_pass (h : g.Attained heights) (hleast : g.LeastHeight name height)
    (hlower : ∀ other k, g.LeastHeight other k → k < height → g.Settled heights other) :
    g.Settled (Height.pass g heights) name := by
  obtain ⟨rule, hrule, rfl⟩ := hleast.1.exists_rule
  obtain ⟨before, after, hrules⟩ := List.append_of_mem hrule
  have hbefore : ∀ rule ∈ before, rule ∈ g.rules := by
    intro other hother
    rw [hrules]
    exact List.mem_append_left _ hother
  have hafter : ∀ rule ∈ after, rule ∈ g.rules := by
    intro other hother
    rw [hrules]
    exact List.mem_append_right _ (List.mem_cons_of_mem _ hother)
  have hreached : g.Attained (before.foldl Height.improve heights) :=
    foldl_improve_induction (fun _ hrule _ h => h.improve hrule) hbefore h
  have hself := hreached.settled_improve_self hrule hleast fun other k hk hlt =>
    h.foldl_settled hbefore (hlower other k hk hlt)
  have hlast := (hreached.improve hrule).foldl_settled hafter hself
  rw [Height.pass, hrules, List.foldl_append, List.foldl_cons]
  exact hlast

/-- When every nonterminal that has a tree is settled, a pass finds nothing to change. -/
theorem pass_eq (h : g.Attained heights)
    (hall : ∀ name height, g.LeastHeight name height → g.Settled heights name) :
    Height.pass g heights = heights := by
  refine foldl_improve_induction (P := fun found => found = heights) ?_ (fun _ hrule => hrule) rfl
  intro rule hrule found hfound
  subst hfound
  rcases Height.improve_cases found rule with ⟨heq, _⟩ | ⟨least, hbest, _, hlt⟩
  · exact heq
  · have htree := h.hasTree_of_best hrule hbest
    obtain ⟨height, hleast, hle⟩ := htree.exists_leastHeight
    obtain ⟨known, hknown, hknownLeast⟩ := hall rule.name height hleast
    have hexact := hleast.unique hknownLeast
    have hlower := hlt known hknown
    omega

end Attained

open Classical in
/-- How many nonterminals have their least height. -/
noncomputable def settledCount (g : Grammar) (heights : Heights) : Nat :=
  g.nonterminals.countP fun name => decide (g.Settled heights name)

private theorem countP_lt {α : Type} {p q : α → Bool} {as : List α}
    (himp : ∀ a ∈ as, p a = true → q a = true) {a : α} (ha : a ∈ as) (hp : p a = false)
    (hq : q a = true) : as.countP p < as.countP q := by
  induction as with
  | nil => exact absurd ha List.not_mem_nil
  | cons first rest ih =>
    have himpRest : ∀ a ∈ rest, p a = true → q a = true :=
      fun b hb => himp b (List.mem_cons_of_mem _ hb)
    have hle : rest.countP p ≤ rest.countP q := List.countP_mono_left himpRest
    rw [List.countP_cons, List.countP_cons]
    rcases List.mem_cons.mp ha with rfl | ha
    · rw [hp, hq, if_neg Bool.false_ne_true, if_pos rfl]
      omega
    · have hlt := ih himpRest ha
      by_cases hfirst : p first = true
      · rw [if_pos hfirst, if_pos (himp first List.mem_cons_self hfirst)]
        omega
      · rw [if_neg hfirst]
        omega

open Classical in
/-- The least nonterminal that is not settled is so after the next pass. -/
theorem settledCount_lt (h : g.Attained heights) (hne : Height.pass g heights ≠ heights) :
    g.settledCount heights < g.settledCount (Height.pass g heights) := by
  obtain ⟨name, height, hleast, hunsettled, hlower⟩ : ∃ name height,
      g.LeastHeight name height ∧ ¬ g.Settled heights name ∧
        ∀ other k, g.LeastHeight other k → k < height → g.Settled heights other := by
    apply Classical.byContradiction
    intro hnone
    apply hne
    apply h.pass_eq
    intro name height
    induction height using Nat.strongRecOn generalizing name with
    | ind height ih =>
      intro hleast
      apply Classical.byContradiction
      intro hunsettled
      exact hnone ⟨name, height, hleast, hunsettled, fun other k hk hlt => ih k hlt other hk⟩
  have hmem : name ∈ g.nonterminals := List.mem_map.mpr hleast.1.exists_rule
  refine countP_lt ?_ hmem (decide_eq_false hunsettled)
    (decide_eq_true (h.settled_pass hleast hlower))
  intro other _ hother
  exact decide_eq_true (h.foldl_settled (fun _ hrule => hrule) (of_decide_eq_true hother))

theorem attained_empty (g : Grammar) : g.Attained .empty := by
  intro name height hheight
  cases hheight

/-- The passes for the heights end by themselves. -/
theorem settles_heights (g : Grammar) :
    Settles (Height.pass g) .empty g.heights g.heightsSettled.passes := by
  refine settles_settle (P := g.Attained) (fun _ h => h.pass) g.settledCount (Height.passBound g)
    g.nonterminals.length (fun _ _ => List.countP_le_length)
    (fun _ h hne => settledCount_lt h hne) (attained_empty g) ?_
  simp only [Height.passBound, nonterminals, List.length_map]
  omega

theorem attained_heights (g : Grammar) : g.Attained g.heights :=
  settle_induction (P := g.Attained) (fun _ h => h.pass) (Height.passBound g) (attained_empty g)

theorem settled_heights (hleast : g.LeastHeight name height) : g.Settled g.heights name := by
  induction height using Nat.strongRecOn generalizing name with
  | ind height ih =>
    have hpass := (attained_heights g).settled_pass hleast fun other k hk hlt => ih k hlt hk
    rw [(settles_heights g).fixed] at hpass
    exact hpass

/-- A production with a tree has a height, and that is no higher. -/
theorem HasTreeBy.exists_heights_ofBody {p : Production} {bound : Nat} (h : g.HasTreeBy p bound) :
    ∃ k, g.heights.ofBody p.body = some k ∧ k ≤ bound :=
  h.exists_ofBody fun _ _ hleast _ => settled_heights hleast

/-- The heights that are found are the least heights of derivation trees. -/
theorem get?_heights_iff : g.heights.get? name = some height ↔ g.LeastHeight name height := by
  constructor
  · intro hheight
    obtain ⟨least, hleast, _⟩ := (attained_heights g name height hheight).exists_leastHeight
    obtain ⟨known, hknown, hknownLeast⟩ := settled_heights hleast
    rw [hheight, Option.some.injEq] at hknown
    rw [hknown]
    exact hknownLeast
  · intro hleast
    obtain ⟨known, hknown, hknownLeast⟩ := settled_heights hleast
    rw [hleast.unique hknownLeast]
    exact hknown

theorem height_pos (hheight : g.heights.get? name = some height) : 0 < height := by
  obtain ⟨d, _, hlabel, hle⟩ := attained_heights g name height hheight
  cases d with
  | leaf t => cases hlabel
  | node p children =>
    rw [Derivation.height] at hle
    omega

/-- A nonterminal has a height just when it derives a word of terminals. -/
theorem exists_height_iff :
    (∃ height, g.heights.get? name = some height) ↔ ∃ w, g.Generates name w := by
  constructor
  · intro hfound
    obtain ⟨height, hheight⟩ := hfound
    obtain ⟨d, hvalid, hlabel, _⟩ := attained_heights g name height hheight
    exact ⟨_, generates_iff_forest.mpr ⟨[d], forest_singleton_iff.mpr ⟨hvalid, hlabel⟩, rfl⟩⟩
  · intro hfound
    obtain ⟨w, hw⟩ := hfound
    obtain ⟨ds, hforest, _⟩ := generates_iff_forest.mp hw
    cases hforest with
    | nonterminal hp hbody _ =>
      have hvalid : Valid g (.node _ _) := .node _ _ hp hbody.labels hbody.valid
      obtain ⟨height, hleast, _⟩ := HasTree.exists_leastHeight ⟨_, hvalid, rfl, Nat.le_refl _⟩
      exact ⟨height, get?_heights_iff.mpr hleast⟩

/-- A production whose body has a height belongs to a nonterminal that is no higher. -/
theorem exists_height_le_of_ofBody {p : Production} (hp : p ∈ g.productions)
    (hheight : g.heights.ofBody p.body = some height) :
    ∃ least, g.heights.get? p.lhs = some least ∧ least ≤ height := by
  have htree := ((attained_heights g).hasTreeBy_of_ofBody hp hheight).hasTree
  obtain ⟨least, hleast, hle⟩ := htree.exists_leastHeight
  exact ⟨least, get?_heights_iff.mpr hleast, hle⟩

/-- Some production of a nonterminal that has a height is as low as the nonterminal. -/
theorem exists_production_of_height (hheight : g.heights.get? name = some height) :
    ∃ p ∈ g.productionsOf name, ∃ k, g.heights.ofBody p.body = some k ∧ k ≤ height := by
  have hleast := get?_heights_iff.mp hheight
  obtain ⟨rule, hrule, rfl⟩ := hleast.1.exists_rule
  obtain ⟨least, hbest, hle⟩ := exists_best_le hrule hleast fun _ _ hk _ => settled_heights hk
  obtain ⟨p, hp, hk⟩ := (Height.best_eq_some_iff.mp hbest).1
  rw [productionsOf_name hrule]
  exact ⟨p, hp, least, hk, hle⟩

/-- The least height is that of some tree of the nonterminal and of none that is lower. -/
theorem leastHeight_iff : g.LeastHeight name height ↔
    (∃ d, Valid g d ∧ d.label = .nonterminal name ∧ d.height = height) ∧
      ∀ d, Valid g d → d.label = .nonterminal name → height ≤ d.height := by
  constructor
  · intro hleast
    obtain ⟨⟨d, hvalid, hlabel, hle⟩, hlowest⟩ := hleast
    have hbelow : ∀ e, Valid g e → e.label = .nonterminal name → height ≤ e.height :=
      fun e he helabel => hlowest e.height ⟨e, he, helabel, Nat.le_refl e.height⟩
    exact ⟨⟨d, hvalid, hlabel, Nat.le_antisymm hle (hbelow d hvalid hlabel)⟩, hbelow⟩
  · intro hfound
    obtain ⟨⟨d, hvalid, hlabel, hheight⟩, hlowest⟩ := hfound
    refine ⟨⟨d, hvalid, hlabel, Nat.le_of_eq hheight⟩, fun bound htree => ?_⟩
    obtain ⟨e, he, helabel, hle⟩ := htree
    exact Nat.le_trans (hlowest e he helabel) hle

open Classical in
theorem unproductive_eq (g : Grammar) :
    g.unproductive = g.nonterminals.filter fun name => decide (¬ ∃ w, g.Generates name w) := by
  apply List.filter_congr
  intro name _
  rw [NameMap.contains]
  cases hheight : g.heights.get? name with
  | none =>
    have hnot : ¬ ∃ w, g.Generates name w := by
      intro hword
      obtain ⟨height, hsome⟩ := exists_height_iff.mpr hword
      rw [hheight] at hsome
      cases hsome
    exact (decide_eq_true hnot).symm
  | some height =>
    have hword : ∃ w, g.Generates name w := exists_height_iff.mp ⟨height, hheight⟩
    exact (decide_eq_false fun hnot => hnot hword).symm

open Classical in
/-- The passes end by themselves, with a height for just those nonterminals that derive a word: the
least height of all their derivation trees. The others are listed in the order of their rules. -/
theorem heights_exact (g : Grammar) :
    Settles (Height.pass g) .empty g.heights g.heightsSettled.passes ∧
      (∀ name, (∃ height, g.heights.get? name = some height) ↔ ∃ w, g.Generates name w) ∧
      (∀ name height, g.heights.get? name = some height ↔
        (∃ d, Valid g d ∧ d.label = .nonterminal name ∧ d.height = height) ∧
          ∀ d, Valid g d → d.label = .nonterminal name → height ≤ d.height) ∧
      g.unproductive = g.nonterminals.filter fun name => decide (¬ ∃ w, g.Generates name w) :=
  ⟨settles_heights g, fun _ => exists_height_iff,
    fun _ _ => get?_heights_iff.trans leastHeight_iff, unproductive_eq g⟩

end Grammar

end TopDown
