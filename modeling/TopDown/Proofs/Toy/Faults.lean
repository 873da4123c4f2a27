import TopDown.Proofs.Toy.ExpressionTypes
import TopDown.Proofs.Toy.Visiting

/-!
Faults that a program is blamed for. In the tree of a program no part is missing, so what is wrong
is never the shape of the tree, and every fault is found at a node with some text under it, so that
it has a place among the tokens. Both are kept by every step of inference: a step gives a value with
a property that the next steps rely on, or it ends in a proper fault.
-/
namespace TopDown.Toy

open Phrase

/-- Neither the shape of the tree is to blame nor a return outside of functions, and what is wrong
is not that a main function is missing. -/
def SemanticError.Proper : SemanticError → Prop
  | malformedTree _ _ => False
  | returnOutsideFunction => False
  | missingMain => False
  | _ => True

/-- The text under the node begins with a token of the tree. -/
def Placed (tree : SyntaxTree) (id : NodeId) : Prop :=
  ∃ leaf token, tree.node? leaf = some (.leaf token) ∧ tree.locationOf id = token.location

/-- A proper fault, at a place where some token of the tree begins. -/
structure ProperFault (tree : SyntaxTree) (e : Located SemanticError) : Prop where
  proper : e.error.Proper
  placed : ∃ leaf token, tree.node? leaf = some (.leaf token) ∧ e.location = token.location

section Places

variable {tree : SyntaxTree} {id : NodeId}

theorem ProperFault.violation {error : SemanticError} (herror : error.Proper)
    (hid : Placed tree id) : ProperFault tree (violation tree error id) := ⟨herror, hid⟩

theorem placed_of_firstToken {token : Token} (h : tree.firstToken id = some token) :
    Placed tree id := by
  obtain ⟨leaf, hleaf⟩ := SyntaxTree.exists_leaf_of_search h
  refine ⟨leaf, token, hleaf, ?_⟩
  rw [SyntaxTree.locationOf, h]

/-- A token comes first in the phrase. -/
inductive Phrase.Leads : Phrase → Prop where
  | token {kind : String} {text : Option String} : Leads (.token kind text)
  | node {name : String} {alternative : Nat} {first : Phrase} {rest : List Phrase} :
      Leads first → Leads (.node name alternative (first :: rest))

theorem Phrase.Leads.exists_firstToken {phrase : Phrase} (h : phrase.Leads)
    (hstands : Stands tree [id] [phrase]) : ∃ token, tree.firstToken id = some token := by
  induction h generalizing id with
  | token =>
    obtain ⟨token, hnode, _⟩ := hstands.leaf
    refine ⟨token, ?_⟩
    rw [SyntaxTree.firstToken_eq hstands.founded, SyntaxTree.token?, hnode]
  | node _ ih =>
    obtain ⟨child, rest, hchildren, hchild, _⟩ := hstands.parts.split
    obtain ⟨token, htoken⟩ := ih hchild
    have hnone : tree.token? id = none := by simp only [SyntaxTree.token?, hstands.node?_eq]
    refine ⟨token, ?_⟩
    rw [SyntaxTree.firstToken_eq hstands.founded, hnone, hchildren]
    simp only [List.findSome?_cons, htoken]

theorem Phrase.Leads.placed {phrase : Phrase} (h : phrase.Leads)
    (hstands : Stands tree [id] [phrase]) : Placed tree id := by
  obtain ⟨token, htoken⟩ := h.exists_firstToken hstands
  exact placed_of_firstToken htoken

theorem Operator.leads {level : Level} (operator : Operator level) : operator.phrase.Leads := by
  cases operator <;> exact .node .token

/-- Expressions and their operands begin with a token; the tail of a chain may be empty. -/
theorem Expr.leads {category : Category} (e : Expr category)
    (hcategory : ∀ level, category ≠ .tail level) : e.phrase.Leads := by
  induction e with
  | @chain level operand rest ihoperand _ =>
    refine .node (ihoperand fun other heq => ?_)
    cases level <;> cases heq
  | done => exact absurd rfl (hcategory _)
  | more => exact absurd rfl (hcategory _)
  | name => exact .node (.node .token)
  | element => exact .node (.node .token)
  | literal => exact .node (.node .token)
  | group => exact .node .token
  | call => exact .node (.node .token)

theorem Expression.leads (e : Expression) : e.phrase.Leads := Expr.leads e fun _ => nofun

theorem Scalar.leads (type : Scalar) : type.phrase.Leads := .node .token

theorem TypeSpec.leads (spec : TypeSpec) : spec.phrase.Leads := by
  cases spec with
  | scalar type => exact .node type.leads
  | array size element => exact .node .token

end Places

section Verdicts

variable {tree : SyntaxTree} {α β : Type} {Q : α → Prop} {R : β → Prop}

/-- The verdict is a value with the property, or a proper fault. -/
def Verdict.Delivers (tree : SyntaxTree) (Q : α → Prop) (v : Verdict α) : Prop :=
  match v with
  | .ok a => Q a
  | .error e => ProperFault tree e

theorem Verdict.Delivers.bind {v : Verdict α} {f : α → Verdict β} (hv : Verdict.Delivers tree Q v)
    (hf : ∀ a, Q a → Verdict.Delivers tree R (f a)) : Verdict.Delivers tree R (v >>= f) := by
  cases v with
  | ok a => exact hf a hv
  | error e => exact hv

theorem Verdict.Delivers.map {v : Verdict α} {f : α → β} (hv : Verdict.Delivers tree Q v)
    (hf : ∀ a, Q a → R (f a)) : Verdict.Delivers tree R (f <$> v) := by
  cases v with
  | ok a => exact hf a hv
  | error e => exact hv

end Verdicts

section Parts

variable {tree : SyntaxTree} {id : NodeId} {phrase : Phrase} {after : List Phrase}
  {name kind : String} {text : Option String}

/-- The token of a leaf node is the one in the tree. -/
def LeafNode.In (tree : SyntaxTree) (leaf : LeafNode) : Prop :=
  tree.node? leaf.id = some (.leaf leaf.token)

/-- A leaf is where its token begins. -/
theorem LeafNode.In.locationOf_eq {leaf : LeafNode} (h : leaf.In tree) :
    tree.locationOf leaf.id = leaf.token.location := by
  have hsize : leaf.id < tree.size := (Array.getElem?_eq_some_iff.mp h).1
  obtain ⟨visits, hvisits⟩ := Nat.exists_eq_succ_of_ne_zero (Nat.ne_zero_of_lt hsize)
  have hfirst : tree.firstToken leaf.id = some leaf.token := by
    rw [SyntaxTree.firstToken, hvisits]
    exact SyntaxTree.search_leaf h
  rw [SyntaxTree.locationOf, hfirst]

theorem LeafNode.In.placed {leaf : LeafNode} (h : leaf.In tree) : Placed tree leaf.id :=
  ⟨leaf.id, leaf.token, h, h.locationOf_eq⟩

theorem in_of_childLeaf? {leaf : LeafNode} (h : childLeaf? tree id kind = some leaf) :
    leaf.In tree := by
  obtain ⟨child, _, hfound⟩ := List.exists_of_findSome?_eq_some h
  split at hfound
  next token htoken =>
    split at hfound
    · cases hfound
      unfold SyntaxTree.token? at htoken
      split at htoken
      next hnode =>
        cases htoken
        exact hnode
      next => cases htoken
    · cases hfound
  next => cases hfound

theorem childLeaf_delivers (before : List Phrase)
    (h : Stands tree (tree.children id) (before ++ .token kind text :: after))
    (hbefore : ∀ phrase ∈ before, phrase.kind? ≠ some kind) :
    Verdict.Delivers tree (LeafNode.In tree) (childLeaf tree id kind) := by
  obtain ⟨leaf, hleaf, _⟩ := h.exists_childLeaf before hbefore
  rw [childLeaf_eq_ok_iff.mpr hleaf]
  exact in_of_childLeaf? hleaf

theorem childNode_delivers (before : List Phrase)
    (h : Stands tree (tree.children id) (before ++ phrase :: after))
    (hphrase : phrase.nonterminal? = some name)
    (hbefore : ∀ phrase ∈ before, phrase.nonterminal? ≠ some name) :
    Verdict.Delivers tree (fun child => Stands tree [child] [phrase]) (childNode tree id name) := by
  obtain ⟨child, hchild, hstands⟩ := h.exists_childNode before hphrase hbefore
  rw [childNode_eq_ok_iff.mpr hchild]
  exact hstands

end Parts

namespace View

variable {tree : SyntaxTree} {view : View} {id : NodeId}

theorem typeOfName_delivers {leaf : LeafNode} (h : leaf.In tree) :
    Verdict.Delivers tree (fun _ => True) (view.typeOfName tree leaf) := by
  unfold typeOfName
  cases view.resolve? leaf.token.lexeme with
  | none => exact .violation trivial h.placed
  | some e => trivial

theorem callType_delivers {callee : String} (h : Stands tree [id] [callPhrase callee]) :
    Verdict.Delivers tree (fun _ => True) (view.callType tree id) := by
  refine (childLeaf_delivers [plain "CALL"] h.parts (by simp)).bind fun name hname => ?_
  split
  · trivial
  · exact .violation trivial hname.placed

theorem elementType_delivers {leaf : LeafNode} (h : leaf.In tree) (type : ValueType) :
    Verdict.Delivers tree (fun _ => True) (View.elementType tree leaf type) := by
  cases type with
  | array size element => trivial
  | _ => exact .violation trivial h.placed

theorem requireIndex_delivers (h : Placed tree id) (actual : ValueType) :
    Verdict.Delivers tree (fun _ => True) (View.requireIndex tree id actual) := by
  unfold View.requireIndex
  split
  · trivial
  · exact .violation trivial h

theorem require_delivers {found : Option ValueType} (h : found ≠ none) :
    Verdict.Delivers tree (fun _ => True) (View.require tree id found) := by
  cases found with
  | none => exact absurd rfl h
  | some type => trivial

/-- An expression and its operands have a type, and the tail of a chain fits or does not. -/
def ProperAt (view : View) (tree : SyntaxTree) : Category → NodeId → Prop
  | .chain _, id => Verdict.Delivers tree (· ≠ none) (view.type? tree id)
  | .tail _, id => ∀ left, Verdict.Delivers tree (fun _ => True) (view.tail tree left id)
  | .factor, id => Verdict.Delivers tree (· ≠ none) (view.type? tree id)

theorem properAt_operand {level : Level} :
    view.ProperAt tree level.operand id ↔
      Verdict.Delivers tree (· ≠ none) (view.type? tree id) := by
  cases level <;> exact Iff.rfl

/-- A name, with an index or without. -/
theorem variable_delivers {name : String} (index : Option Expression)
    (h : Stands tree [id]
      [.node "Variable" 0 [spelled "ID" name, indexPhrase (index.map Expr.phrase)]])
    (hindex : ∀ e, index = some e → ∀ child, Stands tree [child] [e.phrase] →
      Verdict.Delivers tree (· ≠ none) (view.type? tree child)) :
    Verdict.Delivers tree (· ≠ none) (view.type? tree id) := by
  have hcases := h.parts.indexExpression?_cases [spelled "ID" name] (by simp)
  rw [type?_eq h.founded, typeOver, h.constructOf_eq]
  refine (childLeaf_delivers [] h.parts (by simp)).bind fun leaf hleaf => ?_
  refine (typeOfName_delivers hleaf).bind fun type _ => ?_
  cases index with
  | none =>
    rw [show indexExpression? tree id = none from hcases]
    exact Option.some_ne_none type
  | some e =>
    obtain ⟨child, hchild, hstands⟩ := hcases
    rw [hchild]
    refine (hindex e rfl child hstands).bind fun found hfound => ?_
    refine (require_delivers hfound).bind fun actual _ => ?_
    refine (requireIndex_delivers (e.leads.placed hstands) actual).bind fun _ _ => ?_
    refine (elementType_delivers hleaf type).bind fun element _ => ?_
    exact Option.some_ne_none element

/-- Inference never misses a part of an expression. -/
theorem properAt {category : Category} (e : Expr category) {id : NodeId}
    (h : Stands tree [id] [e.phrase]) : view.ProperAt tree category id := by
  induction e generalizing id with
  | @chain level operand rest ihoperand ihrest =>
    have hconstruct := h.constructOf_eq.trans (Construct.ofNonterminal_chain level)
    obtain ⟨first, _, hchildren, hfirst, hparts⟩ := h.parts.split
    obtain ⟨tail, _, rfl, htail, _⟩ := hparts.split
    rw [ProperAt, type?_eq h.founded, typeOver, hconstruct, hchildren]
    refine (properAt_operand.mp (ihoperand hfirst)).bind fun found hfound => ?_
    refine (require_delivers hfound).bind fun left _ => ?_
    refine (ihrest htail left).bind fun _ _ => ?_
    exact Option.some_ne_none left
  | @done level =>
    intro left
    rw [tail_done h.founded h.parts.eq_nil]
    trivial
  | @more level operator operand rest ihoperand ihrest =>
    obtain ⟨sign, _, hchildren, hsign, hparts⟩ := h.parts.split
    obtain ⟨first, _, rfl, hfirst, hparts⟩ := hparts.split
    obtain ⟨tail, _, rfl, htail, hparts⟩ := hparts.split
    rw [hparts.eq_nil] at hchildren
    intro left
    rw [tail_eq h.founded, tailOver, hchildren]
    refine (properAt_operand.mp (ihoperand hfirst)).bind fun found hfound => ?_
    refine (require_delivers hfound).bind fun right _ => ?_
    split
    · exact ihrest htail left
    · exact .violation trivial (operator.leads.placed hsign)
  | name x =>
    obtain ⟨child, hchild, heq⟩ := type?_only h rfl
    rw [ProperAt, heq]
    exact variable_delivers none hchild fun e he => absurd he (Option.some_ne_none e).symm
  | element x index ih =>
    obtain ⟨child, hchild, heq⟩ := type?_only h rfl
    rw [ProperAt, heq]
    refine variable_delivers (some index) hchild fun e he child hchild => ?_
    cases he
    exact ih hchild
  | literal kind =>
    obtain ⟨child, hchild, heq⟩ := type?_only h rfl
    obtain ⟨leaf, hleaf, heq'⟩ := type?_only hchild rfl
    have htype : view.type? tree leaf = .ok (some kind.type) := (type?_literal hleaf).mpr rfl
    rw [ProperAt, heq, heq', htype]
    exact Option.some_ne_none kind.type
  | group inner ih =>
    obtain ⟨child, hchild, heq⟩ := type?_groupPhrase h
    rw [ProperAt, heq]
    exact ih hchild
  | call x =>
    obtain ⟨child, hchild, heq⟩ := type?_only h rfl
    rw [ProperAt, heq, type?_eq hchild.founded, typeOver, hchild.constructOf_eq]
    exact (callType_delivers hchild).map fun type _ => Option.some_ne_none type

theorem type_delivers (e : Expression) (h : Stands tree [id] [e.phrase]) :
    Verdict.Delivers tree (fun _ => True) (view.type tree id) :=
  Verdict.Delivers.bind (properAt e h) fun _ hfound => require_delivers hfound

end View

end TopDown.Toy
