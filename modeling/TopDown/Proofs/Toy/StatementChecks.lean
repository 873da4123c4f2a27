import TopDown.Proofs.Toy.ExpressionTypes
import TopDown.Proofs.Toy.Visiting

/-!
The visit of a function body succeeds just when the body keeps the rules, and it leaves the state as
it was: statements declare nothing.
-/
namespace TopDown.Toy

open Phrase

namespace Visit

variable {tree : SyntaxTree} {id : NodeId} {name kind : String} {alternative : Nat}
  {phrase : Phrase} {phrases : List Phrase} {returns : Option ValueType} {s t : State}

theorem node_composite (h : Stands tree [id] [.node name alternative phrases])
    (hname : Construct.ofNonterminal name = .composite) :
    node tree returns id = forM (tree.children id) (node tree returns) := by
  rw [node_eq h.founded, nodeOver, h.constructOf_eq.trans hname]

/-- The visit of a node with one child is that of the child. -/
theorem node_only (h : Stands tree [id] [.node name alternative [phrase]])
    (hname : Construct.ofNonterminal name = .composite) :
    ∃ child, Stands tree [child] [phrase] ∧ node tree returns id = node tree returns child := by
  obtain ⟨child, _, hchildren, hchild, hparts⟩ := h.parts.split
  rw [hparts.eq_nil] at hchildren
  refine ⟨child, hchild, ?_⟩
  rw [node_composite h hname, hchildren, List.forM_cons, List.forM_nil, bind_pure_unit]

theorem node_leaf (h : Stands tree [id] [.token kind none]) : node tree returns id = pure () := by
  obtain ⟨token, hnode, _⟩ := h.leaf
  have hconstruct : constructOf tree id = .leaf token := by rw [constructOf, hnode]
  rw [node_eq h.founded, nodeOver, hconstruct]

/-- A list is visited element by element. -/
theorem exists_node_list (hname : Construct.ofNonterminal name = .composite)
    (h : Stands tree [id] [listPhrase name phrases]) :
    ∃ ids, Stands tree ids phrases ∧
      ∀ returns, node tree returns id = forM ids (node tree returns) := by
  induction phrases generalizing id with
  | nil =>
    have hchildren := h.parts.eq_nil
    refine ⟨[], .nil, fun returns => ?_⟩
    rw [node_composite h hname, hchildren]
  | cons phrase phrases ih =>
    obtain ⟨first, _, hchildren, hfirst, hparts⟩ := h.parts.split
    obtain ⟨rest, _, rfl, hrest, hparts⟩ := hparts.split
    rw [hparts.eq_nil] at hchildren
    obtain ⟨ids, hids, heq⟩ := ih hrest
    refine ⟨first :: ids, hfirst.cons hids, fun returns => ?_⟩
    rw [node_composite h hname, hchildren, List.forM_cons, List.forM_cons, List.forM_nil,
      bind_pure_unit, heq, List.forM_cons]

/-- A call that is a statement is visited as a call. -/
theorem exists_node_call {callee : String}
    (h : Stands tree [id] [(Statement.call callee).phrase]) :
    ∃ call, Stands tree [call] [callPhrase callee] ∧
      node tree returns id = node tree returns call := by
  obtain ⟨outer, houter, heq⟩ := node_only h rfl
  obtain ⟨call, _, hchildren, hcall, hparts⟩ := houter.parts.split
  obtain ⟨last, _, rfl, hlast, hparts⟩ := hparts.split
  rw [hparts.eq_nil] at hchildren
  refine ⟨call, hcall, ?_⟩
  rw [heq, node_composite houter rfl, hchildren, List.forM_cons, List.forM_cons, List.forM_nil,
    node_leaf hlast, bind_pure_unit, bind_pure_unit]

/-- A body is visited statement by statement. -/
theorem exists_node_block {body : List Statement} (h : Stands tree [id] [blockPhrase body]) :
    ∃ ids, Stands tree ids (body.map Statement.phrase) ∧
      node tree returns id = forM ids (node tree returns) := by
  obtain ⟨left, _, hchildren, hleft, hparts⟩ := h.parts.split
  obtain ⟨list, _, rfl, hlist, hparts⟩ := hparts.split
  obtain ⟨right, _, rfl, hright, hparts⟩ := hparts.split
  rw [hparts.eq_nil] at hchildren
  obtain ⟨ids, hids, heq⟩ := exists_node_list rfl hlist
  refine ⟨ids, hids, ?_⟩
  rw [node_composite h rfl, hchildren, List.forM_cons, List.forM_cons, List.forM_cons,
    List.forM_nil, node_leaf hleft, node_leaf hright, pure_bind, bind_pure_unit, bind_pure_unit,
    heq]

section Statements

variable {env : Environment} {expected : ValueType}

theorem node_call_iff (hview : s.view.Sees env) {callee : String}
    (h : Stands tree [id] [callPhrase callee]) :
    node tree returns id s = .ok () t ↔
      s = t ∧ ∃ type, env.get? callee = some (.function type) := by
  obtain ⟨leaf, hleaf, hfits⟩ := h.parts.exists_childLeaf [plain "CALL"] (by simp)
  have hcall : ∀ type, s.view.callType tree id = .ok type ↔
      env.get? callee = some (.function type) := by
    intro type
    rw [hview.callType_iff (childLeaf_eq_ok_iff.mpr hleaf), hfits.2 callee rfl]
  rw [node_eq h.founded, nodeOver, h.constructOf_eq]
  simp only [Construct.ofNonterminal, bind_eq_ok_iff, get_eq_ok_iff, check_eq_ok_iff,
    pure_eq_ok_iff]
  constructor
  · rintro ⟨_, _, ⟨rfl, rfl⟩, type, _, ⟨htype, rfl⟩, _, rfl⟩
    exact ⟨rfl, type, (hcall type).mp htype⟩
  · rintro ⟨rfl, type, htype⟩
    exact ⟨s, s, ⟨rfl, rfl⟩, type, s, ⟨(hcall type).mpr htype, rfl⟩, trivial, rfl⟩

theorem node_assignment_iff (hview : s.view.Sees env) {target : String} {index : Option Expression}
    {value : Expression}
    (h : Stands tree [id] [.node "Assignment" 0 [spelled "ID" target,
      indexPhrase (index.map Expr.phrase), plain "ARROW", value.phrase, plain "SEMICOLON"]]) :
    node tree returns id s = .ok () t ↔
      s = t ∧ (Statement.assignment target index value).Typed env expected := by
  obtain ⟨leaf, hleaf, hfits⟩ := h.parts.exists_childLeaf [] (by simp)
  obtain ⟨right, (hright : childNode? tree id "Expression" = some right), hvalue⟩ :=
    h.parts.exists_childNode
      [spelled "ID" target, indexPhrase (index.map Expr.phrase), plain "ARROW"]
      value.nonterminal?_phrase (by simp)
  have hcases := h.parts.indexExpression?_cases [spelled "ID" target] (by simp)
  have htarget : ∀ type, s.view.typeOfName tree leaf = .ok type ↔ env.get? target = some type := by
    intro type
    rw [hview.typeOfName_iff, hfits.2 target rfl]
  rw [node_eq h.founded, nodeOver, h.constructOf_eq]
  simp only [Construct.ofNonterminal, assignment_eq_ok_iff, childLeaf_eq_ok_iff, hleaf,
    childNode_eq_ok_iff, hright, Option.some.injEq]
  refine and_congr_right fun _ => ?_
  cases index with
  | none =>
    simp only [show indexExpression? tree id = none from hcases]
    constructor
    · rintro ⟨_, type, _, _, rfl, htype, rfl, hactual, rfl⟩
      exact .assignment ((htarget _).mp htype) ((View.type_iff hview value hvalue).mp hactual)
    · intro htyped
      cases htyped with
      | @assignment _ _ type hname hactual =>
        exact ⟨leaf, type, right, type, rfl, (htarget _).mpr hname, rfl,
          (View.type_iff hview value hvalue).mpr hactual, rfl⟩
  | some e =>
    obtain ⟨child, hchild, hindex⟩ := hcases
    simp only [hchild]
    constructor
    · rintro ⟨_, _, _, type, rfl, htype, rfl, hactual, hint, size, rfl⟩
      exact .element ((htarget _).mp htype) ((View.type_iff hview e hindex).mp hint)
        ((View.type_iff hview value hvalue).mp hactual)
    · intro htyped
      cases htyped with
      | @element _ _ _ size type hname hint hactual =>
        exact ⟨leaf, _, right, type, rfl, (htarget _).mpr hname, rfl,
          (View.type_iff hview value hvalue).mpr hactual, (View.type_iff hview e hindex).mpr hint,
          size, rfl⟩

theorem node_return_iff (hview : s.view.Sees env) {value : Option Expression}
    (h : Stands tree [id]
      [.node "Return" 0 [plain "RETURN", valuePhrase value, plain "SEMICOLON"]]) :
    node tree (some expected) id s = .ok () t ↔
      s = t ∧ (Statement.returning value).Typed env expected := by
  obtain ⟨right, hright, hvalue⟩ :=
    h.parts.exists_childNode [plain "RETURN"] (nonterminal?_valuePhrase value) (by simp)
  rw [node_eq h.founded, nodeOver, h.constructOf_eq]
  simp only [Construct.ofNonterminal, returning_eq_ok_iff, returnedExpression?, hright,
    Option.bind_some, Option.some.injEq]
  refine and_congr_right fun _ => ?_
  cases value with
  | none =>
    have hnone : childNode? tree right "Expression" = none :=
      hvalue.parts.childNode?_eq_none fun _ hphrase => absurd hphrase List.not_mem_nil
    simp only [hnone]
    constructor
    · rintro ⟨_, _, rfl, hallowed, rfl⟩
      exact .returningNothing (hallowed.elim (fun h => h) Eq.symm)
    · intro htyped
      cases htyped with
      | returningNothing hvoid => exact ⟨expected, .void, rfl, Or.inl hvoid, rfl⟩
  | some e =>
    obtain ⟨child, (hchild : childNode? tree right "Expression" = some child), hstands⟩ :=
      hvalue.parts.exists_childNode [] e.nonterminal?_phrase (by simp)
    simp only [hchild]
    constructor
    · rintro ⟨_, type, rfl, hallowed, hactual⟩
      exact .returning ((View.type_iff hview e hstands).mp hactual) hallowed
    · intro htyped
      cases htyped with
      | @returning _ type hactual hallowed =>
        exact ⟨expected, type, rfl, hallowed, (View.type_iff hview e hstands).mpr hactual⟩

theorem node_declaration (h : Stands tree [id] [.node "Declaration" alternative phrases]) :
    node tree (some expected) id s ≠ .ok () t := by
  rw [node_eq h.founded, nodeOver, h.constructOf_eq]
  intro hok
  obtain ⟨_, _, _, _, hreturns, _⟩ := declaration_eq_ok_iff.mp hok
  cases hreturns

/-- A statement in a function declares nothing and keeps the rules. -/
theorem node_statement_iff (hview : s.view.Sees env) {statement : Statement}
    (h : Stands tree [id] [statement.phrase]) :
    node tree (some expected) id s = .ok () t ↔
      s = t ∧ ¬ statement.isDeclaration ∧ statement.Typed env expected := by
  cases statement with
  | declaration declared =>
    obtain ⟨child, hchild, heq⟩ := node_only h rfl
    rw [heq]
    refine iff_of_false (node_declaration hchild) fun hfound => ?_
    exact hfound.2.1 rfl
  | assignment target index value =>
    obtain ⟨child, hchild, heq⟩ := node_only h rfl
    rw [heq, node_assignment_iff hview hchild]
    exact and_congr_right fun _ => (and_iff_right Bool.false_ne_true).symm
  | returning value =>
    obtain ⟨child, hchild, heq⟩ := node_only h rfl
    rw [heq, node_return_iff hview hchild]
    exact and_congr_right fun _ => (and_iff_right Bool.false_ne_true).symm
  | call callee =>
    obtain ⟨call, hcall, heq⟩ := exists_node_call h
    rw [heq, node_call_iff hview hcall]
    refine and_congr_right fun _ => ?_
    constructor
    · rintro ⟨type, htype⟩
      exact ⟨Bool.false_ne_true, .call htype⟩
    · rintro ⟨_, htyped⟩
      cases htyped with
      | call htype => exact ⟨_, htype⟩

/-- The statements of a body are checked one after the other, all in the same state. -/
theorem forM_statements_iff (hview : s.view.Sees env) {body : List Statement} {ids : List NodeId}
    (h : Stands tree ids (body.map Statement.phrase)) :
    forM ids (node tree (some expected)) s = .ok () t ↔
      s = t ∧ ∀ statement ∈ body, ¬ statement.isDeclaration ∧ statement.Typed env expected := by
  induction body generalizing ids with
  | nil =>
    rw [h.eq_nil, List.forM_nil, pure_eq_ok_iff]
    simp
  | cons statement body ih =>
    obtain ⟨first, rest, rfl, hfirst, hrest⟩ := h.split
    rw [List.forM_cons, bind_eq_ok_iff, List.forall_mem_cons]
    constructor
    · rintro ⟨_, _, hfound, hlater⟩
      obtain ⟨rfl, hstatement⟩ := (node_statement_iff hview hfirst).mp hfound
      obtain ⟨rfl, hbody⟩ := (ih hrest).mp hlater
      exact ⟨rfl, hstatement, hbody⟩
    · rintro ⟨rfl, hstatement, hbody⟩
      exact ⟨(), s, (node_statement_iff hview hfirst).mpr ⟨rfl, hstatement⟩,
        (ih hrest).mpr ⟨rfl, hbody⟩⟩

theorem node_block_iff (hview : s.view.Sees env) {body : List Statement}
    (h : Stands tree [id] [blockPhrase body]) :
    node tree (some expected) id s = .ok () t ↔
      s = t ∧ ∀ statement ∈ body, ¬ statement.isDeclaration ∧ statement.Typed env expected := by
  obtain ⟨ids, hids, heq⟩ := exists_node_block h
  rw [heq]
  exact forM_statements_iff hview hids

end Statements

end Visit

end TopDown.Toy
