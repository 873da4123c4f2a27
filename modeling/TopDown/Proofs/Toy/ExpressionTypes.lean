import TopDown.Proofs.Toy.Inference
import TopDown.Proofs.Toy.Occurrences

/-!
The types found in the tree are those of the typing rules, for every construct of an expression.
-/
namespace TopDown.Toy

open Phrase

theorem Construct.ofNonterminal_chain (level : Level) :
    ofNonterminal (Category.chain level).nonterminal = .chain := by
  cases level <;> rfl

namespace View

variable {view : View} {env : Environment} {tree : SyntaxTree} {id : NodeId} {type : ValueType}

/-- The names that are visible have the types that the environment gives them. -/
def Sees (view : View) (env : Environment) : Prop :=
  ∀ name, (view.resolve? name).map SymbolEntry.type = env.get? name

theorem Sees.typeOfName_iff (hview : view.Sees env) {leaf : LeafNode} :
    view.typeOfName tree leaf = .ok type ↔ env.get? leaf.token.lexeme = some type := by
  rw [← hview, typeOfName]
  cases view.resolve? leaf.token.lexeme <;> simp

theorem Sees.callType_iff (hview : view.Sees env) {leaf : LeafNode}
    (hname : childLeaf tree id "ID" = .ok leaf) :
    view.callType tree id = .ok type ↔ env.get? leaf.token.lexeme = some (.function type) := by
  simp only [← hview leaf.token.lexeme, callType, hname, bind_eq_ok_iff, Except.ok.injEq]
  constructor
  · rintro ⟨_, rfl, h⟩
    split at h
    next hfound =>
      cases h
      rw [hfound]
      rfl
    next => cases h
  · intro h
    refine ⟨leaf, rfl, ?_⟩
    obtain ⟨⟨name, actual, scope, line, column⟩, hfound, htype⟩ := Option.map_eq_some_iff.mp h
    subst htype
    rw [hfound]
    rfl

/-- A node has a type, or is the tail of a chain of operands of the type. -/
def Carries (view : View) (tree : SyntaxTree) : Category → NodeId → ValueType → Prop
  | .chain _, id, type => view.type? tree id = .ok (some type)
  | .tail _, id, type => view.tail tree type id = .ok ()
  | .factor, id, type => view.type? tree id = .ok (some type)

theorem carries_operand {level : Level} :
    view.Carries tree level.operand id type ↔ view.type? tree id = .ok (some type) := by
  cases level <;> exact Iff.rfl

section Found

variable {f : NodeId → Verdict (Option ValueType)} {ids : List NodeId}

theorem findSomeM?_skip (h : f id = .ok none) : (id :: ids).findSomeM? f = ids.findSomeM? f := by
  rw [List.findSomeM?, h]
  rfl

/-- Where nothing else carries a type, the first node decides. -/
theorem findSomeM?_first (h : ids.findSomeM? f = .ok none) : (id :: ids).findSomeM? f = f id := by
  rw [List.findSomeM?]
  cases f id with
  | error e => rfl
  | ok found =>
    cases found with
    | none => exact h
    | some type => rfl

end Found

end View

namespace Phrase.Stands

variable {tree : SyntaxTree} {id : NodeId} {after : List Phrase} {index : Option Expression}

/-- The expression between brackets is found where there is one, and no other is. -/
theorem indexExpression?_cases (before : List Phrase)
    (h : Stands tree (tree.children id) (before ++ indexPhrase (index.map Expr.phrase) :: after))
    (hbefore : ∀ phrase ∈ before, phrase.nonterminal? ≠ some "IndexSuffix") :
    match index with
    | none => indexExpression? tree id = none
    | some e =>
      ∃ child, indexExpression? tree id = some child ∧ Stands tree [child] [e.phrase] := by
  obtain ⟨suffix, hsuffix, hstands⟩ :=
    h.exists_childNode before (nonterminal?_indexPhrase _) hbefore
  unfold indexExpression?
  rw [hsuffix, Option.bind_some]
  cases index with
  | none => exact hstands.parts.childNode?_eq_none fun _ hphrase => absurd hphrase List.not_mem_nil
  | some e =>
    exact hstands.parts.exists_childNode [plain "LBRACKET"] e.nonterminal?_phrase (by simp)

end Phrase.Stands

namespace View

variable {view : View} {env : Environment} {tree : SyntaxTree}

theorem type?_plain {kind : String} {id : NodeId} (h : Stands tree [id] [plain kind])
    (hkind : ∀ leaf : LeafNode, leaf.token.kind = kind → view.leafType tree leaf = .ok none) :
    view.type? tree id = .ok none := by
  obtain ⟨found, hnode, hfits⟩ := h.leaf
  rw [type?_leaf h.founded hnode]
  exact hkind _ hfits.1

theorem type?_callPhrase (hview : view.Sees env) {id : NodeId} {type : ValueType} {name : String}
    (h : Stands tree [id] [callPhrase name]) :
    view.type? tree id = .ok (some type) ↔ env.get? name = some (.function type) := by
  obtain ⟨leaf, hleaf, hfits⟩ := h.parts.exists_childLeaf [plain "CALL"] (by simp)
  rw [type?_call h.founded h.constructOf_eq, hview.callType_iff (childLeaf_eq_ok_iff.mpr hleaf),
    hfits.2 name rfl]

/-- A name, with an index or without. -/
theorem type?_variablePhrase (hview : view.Sees env) {id : NodeId} {type : ValueType}
    {name : String} (index : Option Expression)
    (h : Stands tree [id]
      [.node "Variable" 0 [spelled "ID" name, indexPhrase (index.map Expr.phrase)]])
    (hindex : ∀ e, index = some e → ∀ child, Stands tree [child] [e.phrase] →
      (view.type? tree child = .ok (some .int) ↔ HasType env e .int)) :
    view.type? tree id = .ok (some type) ↔
      match index with
      | none => env.get? name = some type
      | some e => HasType env e .int ∧ ∃ size, env.get? name = some (.array size type) := by
  obtain ⟨leaf, hleaf, hfits⟩ := h.parts.exists_childLeaf [] (by simp)
  have hcases := h.parts.indexExpression?_cases [spelled "ID" name] (by simp)
  rw [type?_variable h.founded h.constructOf_eq (childLeaf_eq_ok_iff.mpr hleaf)]
  simp only [hview.typeOfName_iff, hfits.2 name rfl]
  cases index with
  | none => simp only [show indexExpression? tree id = none from hcases]
  | some e =>
    obtain ⟨child, hchild, hstands⟩ := hcases
    simp only [hchild, hindex e rfl child hstands]

theorem type?_groupPhrase {id : NodeId} {inner : Expression}
    (h : Stands tree [id] [(Expr.group inner).phrase]) :
    ∃ child, Stands tree [child] [inner.phrase] ∧
      view.type? tree id = view.type? tree child := by
  obtain ⟨left, _, hchildren, hleft, hparts⟩ := h.parts.split
  obtain ⟨child, _, rfl, hchild, hparts⟩ := hparts.split
  obtain ⟨right, _, rfl, hright, hparts⟩ := hparts.split
  rw [hparts.eq_nil] at hchildren
  have hbefore : view.type? tree left = .ok none :=
    type?_plain hleft fun leaf hkind => by rw [leafType, hkind]; rfl
  have hafter : view.type? tree right = .ok none :=
    type?_plain hright fun leaf hkind => by rw [leafType, hkind]; rfl
  refine ⟨child, hchild, ?_⟩
  rw [type?_composite h.founded h.constructOf_eq, hchildren, findSomeM?_skip hbefore]
  exact findSomeM?_first (findSomeM?_skip hafter)

/-- A node with one child has the child's type. -/
theorem type?_only {id : NodeId} {name : String} {alternative : Nat} {phrase : Phrase}
    (h : Stands tree [id] [.node name alternative [phrase]])
    (hname : Construct.ofNonterminal name = .composite) :
    ∃ child, Stands tree [child] [phrase] ∧ view.type? tree id = view.type? tree child := by
  obtain ⟨child, _, hchildren, hchild, hparts⟩ := h.parts.split
  rw [hparts.eq_nil] at hchildren
  refine ⟨child, hchild, ?_⟩
  rw [type?_composite h.founded (h.constructOf_eq.trans hname), hchildren]
  exact findSomeM?_first rfl

theorem type?_literal {kind : Scalar} {id : NodeId} {type : ValueType}
    (h : Stands tree [id] [plain kind.literal]) :
    view.type? tree id = .ok (some type) ↔ kind.type = type := by
  obtain ⟨found, hnode, hkind, _⟩ := h.leaf
  rw [type?_leaf h.founded hnode, leafType, hkind]
  cases kind with
  | int => simp [Scalar.literal, Scalar.type, pure, Except.pure]
  | float => simp [Scalar.literal, Scalar.type, pure, Except.pure]
  | char => simp [Scalar.literal, Scalar.type, pure, Except.pure]

/-- The type of an expression in the tree is the one that the rules give it. -/
theorem carries_iff (hview : view.Sees env) {category : Category} (e : Expr category) {id : NodeId}
    {type : ValueType} (h : Stands tree [id] [e.phrase]) :
    view.Carries tree category id type ↔ HasType env e type := by
  induction e generalizing id type with
  | @chain level operand rest ihoperand ihrest =>
    have hconstruct := h.constructOf_eq.trans (Construct.ofNonterminal_chain level)
    obtain ⟨first, _, hchildren, hfirst, hparts⟩ := h.parts.split
    obtain ⟨tail, _, rfl, htail, _⟩ := hparts.split
    rw [Carries, type?_chain h.founded hconstruct hchildren, ← carries_operand, ihoperand hfirst]
    constructor
    · intro h
      exact .chain h.1 ((ihrest htail).mp h.2)
    · intro h
      cases h with
      | chain hoperand hrest => exact ⟨hoperand, (ihrest htail).mpr hrest⟩
  | @done level =>
    have hchildren := h.parts.eq_nil
    exact iff_of_true (tail_done h.founded hchildren) (.done type)
  | @more level operator operand rest ihoperand ihrest =>
    obtain ⟨sign, _, hchildren, _, hparts⟩ := h.parts.split
    obtain ⟨first, _, rfl, hfirst, hparts⟩ := hparts.split
    obtain ⟨tail, _, rfl, htail, hparts⟩ := hparts.split
    rw [hparts.eq_nil] at hchildren
    rw [Carries, tail_more h.founded hchildren, ← carries_operand, ihoperand hfirst]
    constructor
    · intro h
      exact .more h.1 ((ihrest htail).mp h.2)
    · intro h
      cases h with
      | more hoperand hrest => exact ⟨hoperand, (ihrest htail).mpr hrest⟩
  | name x =>
    obtain ⟨child, hchild, heq⟩ := type?_only h rfl
    rw [Carries, heq, type?_variablePhrase hview none hchild fun _ h => nomatch h]
    constructor
    · exact .name
    · intro h
      cases h with
      | name hname => exact hname
  | element x index ih =>
    obtain ⟨child, hchild, heq⟩ := type?_only h rfl
    have hindex : ∀ e, some index = some e → ∀ child, Stands tree [child] [e.phrase] →
        (view.type? tree child = .ok (some .int) ↔ HasType env e .int) := by
      intro e he child hchild
      cases he
      exact ih hchild
    rw [Carries, heq, type?_variablePhrase hview (some index) hchild hindex]
    constructor
    · rintro ⟨hint, size, hname⟩
      exact .element hname hint
    · intro h
      cases h with
      | element hname hint => exact ⟨hint, _, hname⟩
  | literal kind =>
    obtain ⟨child, hchild, heq⟩ := type?_only h rfl
    obtain ⟨leaf, hleaf, heq'⟩ := type?_only hchild rfl
    rw [Carries, heq, heq', type?_literal hleaf]
    constructor
    · rintro rfl
      exact .literal kind
    · intro h
      cases h with
      | literal => rfl
  | group inner ih =>
    obtain ⟨child, hchild, heq⟩ := type?_groupPhrase h
    rw [Carries, heq]
    constructor
    · intro h
      exact .group ((ih hchild).mp h)
    · intro h
      cases h with
      | group h => exact (ih hchild).mpr h
  | call x =>
    obtain ⟨child, hchild, heq⟩ := type?_only h rfl
    rw [Carries, heq, type?_callPhrase hview hchild]
    constructor
    · exact .call
    · intro h
      cases h with
      | call hname => exact hname

/-- An expression has a type in the tree just when the rules give it that type. -/
theorem type_iff (hview : view.Sees env) (e : Expression) {id : NodeId} {type : ValueType}
    (h : Stands tree [id] [e.phrase]) : view.type tree id = .ok type ↔ HasType env e type := by
  rw [type_eq_ok_iff]
  exact carries_iff hview e h

end View

end TopDown.Toy
