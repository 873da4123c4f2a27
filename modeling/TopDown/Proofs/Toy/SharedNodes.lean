import Mathlib.Data.List.Find
import TopDown.Proofs.Toy.Visiting

/-!
Nodes that two trees share. What the analysis makes of a node depends on the node and on what lies
below it and on nothing else in the tree: at a node that two trees share with all that is below it,
both give the same parts, the same types and the same violations, and the visits are the same.
-/
namespace TopDown

namespace SyntaxTree

/-- The node and all nodes below it are the same in both trees, which can be walked down from it. -/
inductive Shared (tree tree' : SyntaxTree) : NodeId → Prop where
  | intro {id : NodeId} (hnode : tree'.node? id = tree.node? id) (hfounded : tree.Founded [id])
      (hfounded' : tree'.Founded [id])
      (hbelow : ∀ child ∈ tree.children id, Shared tree tree' child) : Shared tree tree' id

theorem findSome?_congr {α β : Type} {f g : α → Option β} {as : List α}
    (h : ∀ a ∈ as, f a = g a) : as.findSome? f = as.findSome? g := by
  induction as with
  | nil => rfl
  | cons a as ih =>
    rw [List.findSome?_cons, List.findSome?_cons, h a List.mem_cons_self,
      ih fun b hb => h b (List.mem_cons_of_mem _ hb)]

namespace Shared

variable {tree tree' : SyntaxTree} {id : NodeId}

theorem node?_eq (h : Shared tree tree' id) : tree'.node? id = tree.node? id := by
  cases h with
  | intro hnode _ _ _ => exact hnode

theorem founded (h : Shared tree tree' id) : tree.Founded [id] := by
  cases h with
  | intro _ hfounded _ _ => exact hfounded

theorem founded' (h : Shared tree tree' id) : tree'.Founded [id] := by
  cases h with
  | intro _ _ hfounded' _ => exact hfounded'

theorem child (h : Shared tree tree' id) {child : NodeId} (hchild : child ∈ tree.children id) :
    Shared tree tree' child := by
  cases h with
  | intro _ _ _ hbelow => exact hbelow child hchild

theorem children_eq (h : Shared tree tree' id) : tree'.children id = tree.children id := by
  rw [children, children, h.node?_eq]

theorem nonterminal?_eq (h : Shared tree tree' id) :
    tree'.nonterminal? id = tree.nonterminal? id := by
  rw [nonterminal?, nonterminal?, h.node?_eq]

theorem token?_eq (h : Shared tree tree' id) : tree'.token? id = tree.token? id := by
  rw [token?, token?, h.node?_eq]

theorem firstToken_eq (h : Shared tree tree' id) : tree'.firstToken id = tree.firstToken id := by
  induction h with
  | @intro id hnode hfounded hfounded' hbelow ih =>
    have hshared : Shared tree tree' id := .intro hnode hfounded hfounded' hbelow
    rw [SyntaxTree.firstToken_eq hfounded', SyntaxTree.firstToken_eq hfounded, hshared.token?_eq,
      hshared.children_eq, findSome?_congr ih]

theorem locationOf_eq (h : Shared tree tree' id) : tree'.locationOf id = tree.locationOf id := by
  rw [locationOf, locationOf, h.firstToken_eq]

end Shared

end SyntaxTree

namespace Toy

open SyntaxTree (Shared)

variable {tree tree' : SyntaxTree} {id : NodeId}

section Parts

theorem mem_children_of_childLeaf? {kind : String} {leaf : LeafNode}
    (h : childLeaf? tree id kind = some leaf) : leaf.id ∈ tree.children id := by
  obtain ⟨child, hchild, hfound⟩ := List.exists_of_findSome?_eq_some h
  split at hfound
  · split at hfound
    · cases hfound
      exact hchild
    · cases hfound
  · cases hfound

section Lookups

variable (h : Shared tree tree' id)
include h

theorem shared_childNode {name : String} {child : NodeId}
    (hchild : childNode? tree id name = some child) : Shared tree tree' child :=
  h.child (mem_children_of_childNode? hchild)

theorem shared_childLeaf {kind : String} {leaf : LeafNode}
    (hleaf : childLeaf? tree id kind = some leaf) : Shared tree tree' leaf.id :=
  h.child (mem_children_of_childLeaf? hleaf)

theorem shared_indexExpression {index : NodeId} (hindex : indexExpression? tree id = some index) :
    Shared tree tree' index := by
  obtain ⟨suffix, hsuffix, hmem⟩ := exists_of_indexExpression? hindex
  exact (h.child hsuffix).child hmem

theorem constructOf_shared : constructOf tree' id = constructOf tree id := by
  rw [constructOf, constructOf, h.node?_eq]

theorem violation_shared (e : SemanticError) : violation tree' e id = violation tree e id := by
  rw [violation, violation, h.locationOf_eq]

theorem malformed_shared (part : String) : malformed tree' id part = malformed tree id part := by
  rw [malformed, malformed, h.nonterminal?_eq, violation_shared h]

theorem childNode?_shared (name : String) : childNode? tree' id name = childNode? tree id name := by
  rw [childNode?, childNode?, h.children_eq]
  refine List.find?_congr fun child hchild => ?_
  rw [(h.child hchild).nonterminal?_eq]

theorem childNode_shared (name : String) : childNode tree' id name = childNode tree id name := by
  rw [childNode, childNode, childNode?_shared h, malformed_shared h]

theorem childLeaf?_shared (kind : String) : childLeaf? tree' id kind = childLeaf? tree id kind := by
  rw [childLeaf?, childLeaf?, h.children_eq]
  refine SyntaxTree.findSome?_congr fun child hchild => ?_
  rw [(h.child hchild).token?_eq]

theorem childLeaf_shared (kind : String) : childLeaf tree' id kind = childLeaf tree id kind := by
  rw [childLeaf, childLeaf, childLeaf?_shared h, malformed_shared h]

theorem nestedNode?_shared (outer inner : String) :
    ((childNode? tree' id outer).bind fun child => childNode? tree' child inner) =
      (childNode? tree id outer).bind fun child => childNode? tree child inner := by
  rw [childNode?_shared h]
  cases hchild : childNode? tree id outer with
  | none => rfl
  | some child => exact childNode?_shared (shared_childNode h hchild) inner

theorem indexExpression?_shared : indexExpression? tree' id = indexExpression? tree id :=
  nestedNode?_shared h "IndexSuffix" "Expression"

theorem returnedExpression?_shared : returnedExpression? tree' id = returnedExpression? tree id :=
  nestedNode?_shared h "ReturnValue" "Expression"

theorem scalarType_shared : scalarType tree' id = scalarType tree id := by
  simp only [scalarType, h.firstToken_eq, malformed_shared h]

theorem shared_last : Shared tree tree' ((tree.children id).getLastD id) := by
  rw [List.getLastD_eq_getLast?]
  cases hlast : (tree.children id).getLast? with
  | none => exact h
  | some last => exact h.child (List.mem_of_getLast? hlast)

theorem declaredType_shared : declaredType tree' id = declaredType tree id := by
  unfold declaredType
  rw [childLeaf?_shared h, scalarType_shared h, childLeaf_shared h, h.children_eq,
    scalarType_shared (shared_last h)]
  cases childLeaf? tree id "ARRAY" with
  | none => rfl
  | some _ =>
    cases hsize : childLeaf tree id "INT_LITERAL" with
    | error e => rfl
    | ok size =>
      have hleaf := shared_childLeaf h (childLeaf_eq_ok_iff.mp hsize)
      simp only [bind, Except.bind, violation_shared hleaf]

end Lookups

end Parts

namespace View

variable {view : View}

/-- What comes next only matters as far as there is a value to go on with. -/
theorem bind_congr_of_ok {α β : Type} {v : Verdict α} {f g : α → Verdict β}
    (h : ∀ a, v = .ok a → f a = g a) : v >>= f = v >>= g := by
  cases v with
  | ok a => exact h a rfl
  | error e => rfl

section Names

variable {leaf : LeafNode} (h : Shared tree tree' leaf.id)
include h

theorem typeOfName_shared : view.typeOfName tree' leaf = view.typeOfName tree leaf := by
  rw [typeOfName, typeOfName, violation_shared h]

theorem leafType_shared : view.leafType tree' leaf = view.leafType tree leaf := by
  rw [leafType, leafType, typeOfName_shared h]

theorem elementType_shared (type : ValueType) :
    View.elementType tree' leaf type = View.elementType tree leaf type := by
  cases type with
  | array size element => rfl
  | _ => exact congrArg Except.error (violation_shared h _)

end Names

section Nodes

variable (h : Shared tree tree' id)
include h

theorem callType_shared : view.callType tree' id = view.callType tree id := by
  unfold callType
  rw [childLeaf_shared h]
  refine bind_congr_of_ok fun name hname => ?_
  rw [violation_shared (shared_childLeaf h (childLeaf_eq_ok_iff.mp hname))]

theorem require_shared (found : Option ValueType) :
    View.require tree' id found = View.require tree id found := by
  cases found with
  | none => exact congrArg Except.error (malformed_shared h _)
  | some type => rfl

theorem requireIndex_shared (actual : ValueType) :
    View.requireIndex tree' id actual = View.requireIndex tree id actual := by
  rw [View.requireIndex, View.requireIndex, violation_shared h]

variable {below : NodeId → Verdict (Option ValueType)}
  {tailBelow : ValueType → NodeId → Verdict Unit}

theorem tailOver_shared (left : ValueType) :
    tailOver tree' below tailBelow left id = tailOver tree below tailBelow left id := by
  unfold tailOver
  rw [h.children_eq]
  split
  next operator operand next hchildren =>
    have hmem : ∀ child ∈ [operator, operand, next], Shared tree tree' child :=
      fun child hchild => h.child (hchildren ▸ hchild)
    simp only [violation_shared (hmem operator (by simp)), require_shared (hmem operand (by simp))]
  next => rfl

/-- With the same types below it a node has the same type. -/
theorem typeOver_shared :
    view.typeOver tree' below tailBelow id = view.typeOver tree below tailBelow id := by
  unfold typeOver
  rw [constructOf_shared h]
  cases hconstruct : constructOf tree id with
  | leaf token => exact leafType_shared h
  | call => rw [callType_shared h]
  | «variable» =>
    rw [childLeaf_shared h, indexExpression?_shared h]
    refine bind_congr_of_ok fun name hname => ?_
    have hleaf := shared_childLeaf h (childLeaf_eq_ok_iff.mp hname)
    rw [typeOfName_shared hleaf]
    cases hindex : indexExpression? tree id with
    | none => rfl
    | some index =>
      have hbelow := shared_indexExpression h hindex
      simp only [require_shared hbelow, requireIndex_shared hbelow, elementType_shared hleaf]
  | chain =>
    rw [h.children_eq, malformed_shared h]
    cases hchildren : tree.children id with
    | nil => rfl
    | cons operand rest =>
      have hoperand : Shared tree tree' operand := h.child (hchildren ▸ List.mem_cons_self)
      simp only [require_shared hoperand]
  | composite => exact congrArg (List.findSomeM? below) h.children_eq
  | _ => exact congrArg Except.error (malformed_shared h _)

end Nodes

/-- Within any number of levels a shared node has the same type and the same tail in both trees. -/
theorem within_shared (levels : Nat) (h : Shared tree tree' id) :
    view.typeWithin tree' levels id = view.typeWithin tree levels id ∧
      ∀ left, view.checkTail tree' levels left id = view.checkTail tree levels left id := by
  induction levels generalizing id with
  | zero => exact ⟨rfl, fun _ => rfl⟩
  | succ levels ih =>
    constructor
    · rw [typeWithin_succ, typeWithin_succ, ← typeOver_shared h]
      exact typeOver_congr (fun _ hid => (ih hid).1) (fun _ hid => (ih hid).2)
        (fun child hchild => h.child (h.children_eq ▸ hchild))
        (fun _ hid child hchild => hid.child (hid.children_eq ▸ hchild))
    · intro left
      rw [checkTail_succ, checkTail_succ, ← tailOver_shared h]
      exact tailOver_congr (fun _ hid => (ih hid).1) (fun _ hid => (ih hid).2)
        (fun child hchild => h.child (h.children_eq ▸ hchild)) left

theorem type?_shared (h : Shared tree tree' id) : view.type? tree' id = view.type? tree id := by
  have hmore : tree.size ≤ tree.size + tree'.size := Nat.le_add_right _ _
  have hmore' : tree'.size ≤ tree.size + tree'.size := Nat.le_add_left _ _
  calc view.type? tree' id
    _ = view.typeWithin tree' (tree.size + tree'.size) id :=
      (within_eq h.founded' (Nat.le_refl _) hmore').1
    _ = view.typeWithin tree (tree.size + tree'.size) id := (within_shared _ h).1
    _ = view.type? tree id := (within_eq h.founded hmore (Nat.le_refl _)).1

theorem type_shared (h : Shared tree tree' id) : view.type tree' id = view.type tree id := by
  simp only [View.type, type?_shared h, require_shared h]

end View

namespace Visit

variable {returns : Option ValueType}

/-- What comes next only matters as far as the verdict is favourable. -/
theorem check_bind_congr {α β : Type} {v : Verdict α} {f g : α → Visit β}
    (h : ∀ a, v = .ok a → f a = g a) : check v >>= f = check v >>= g := by
  cases v with
  | ok a => exact h a rfl
  | error e => rfl

theorem declare_shared {leaf : LeafNode} (h : Shared tree tree' leaf.id) (type : ValueType) :
    declare tree' leaf type = declare tree leaf type := by
  unfold declare
  rw [violation_shared h]

section Constructs

variable (h : Shared tree tree' id)
include h

theorem type_shared : Visit.type tree' id = Visit.type tree id := by
  funext s
  exact congrFun (congrArg check (View.type_shared h)) s

theorem initializer_shared (expected : ValueType) :
    initializer tree' id expected = initializer tree id expected := by
  unfold initializer
  rw [childNode_shared h]
  refine check_bind_congr fun initial hinitial => ?_
  have hchild := shared_childNode h (childNode_eq_ok_iff.mp hinitial)
  rw [childNode?_shared hchild]
  cases hvalue : childNode? tree initial "Expression" with
  | none => rfl
  | some value =>
    have hbelow := shared_childNode hchild hvalue
    simp only [type_shared hbelow, violation_shared hbelow]

/-- What is read off a child of some nonterminal is the same in both trees. -/
theorem check_childNode_shared {α β : Type} {name : String} {f f' : NodeId → Verdict α}
    (hf : ∀ child, Shared tree tree' child → f' child = f child) (g : α → Visit β) :
    (check (childNode tree id name) >>= fun child => check (f' child) >>= g) =
      check (childNode tree id name) >>= fun child => check (f child) >>= g := by
  refine check_bind_congr fun child hchild => ?_
  rw [hf child (shared_childNode h (childNode_eq_ok_iff.mp hchild))]

theorem declaration_shared : declaration tree' returns id = declaration tree returns id := by
  unfold declaration
  rw [childLeaf_shared h, childNode_shared h]
  refine check_bind_congr fun name hname => ?_
  have hleaf := shared_childLeaf h (childLeaf_eq_ok_iff.mp hname)
  simp only [violation_shared h, violation_shared hleaf, initializer_shared h,
    declare_shared hleaf, check_childNode_shared h fun _ => declaredType_shared]

theorem functionHead_shared : functionHead tree' id = functionHead tree id := by
  unfold functionHead
  rw [childLeaf_shared h, childNode_shared h, childNode_shared h]
  refine check_bind_congr fun name hname => ?_
  have hleaf := shared_childLeaf h (childLeaf_eq_ok_iff.mp hname)
  simp only [violation_shared h, declare_shared hleaf,
    check_childNode_shared h fun _ => scalarType_shared]

theorem mainHead_shared : mainHead tree' id = mainHead tree id := by
  unfold mainHead
  simp only [childNode_shared h, violation_shared h]

theorem assignment_shared : assignment tree' id = assignment tree id := by
  unfold assignment
  rw [childLeaf_shared h, childNode_shared h, indexExpression?_shared h]
  refine check_bind_congr fun name hname => ?_
  have hleaf := shared_childLeaf h (childLeaf_eq_ok_iff.mp hname)
  refine bind_congr fun s => ?_
  rw [View.typeOfName_shared hleaf]
  refine bind_congr fun target => ?_
  refine check_bind_congr fun value hvalue => ?_
  have hvalue := shared_childNode h (childNode_eq_ok_iff.mp hvalue)
  rw [type_shared hvalue]
  refine bind_congr fun actual => ?_
  cases hindex : indexExpression? tree id with
  | none => simp only [violation_shared hvalue]
  | some index =>
    have hindex := shared_indexExpression h hindex
    simp only [type_shared hindex, View.requireIndex_shared hindex, View.elementType_shared hleaf,
      violation_shared hvalue]

theorem returning_shared : returning tree' returns id = returning tree returns id := by
  cases returns with
  | none => exact congrArg throw (violation_shared h _)
  | some expected =>
    unfold returning
    rw [returnedExpression?_shared h]
    cases hvalue : returnedExpression? tree id with
    | none => simp only [violation_shared h]
    | some value =>
      obtain ⟨parent, hparent, hchild⟩ := Option.bind_eq_some_iff.mp hvalue
      have hbelow := shared_childNode (shared_childNode h hparent) hchild
      simp only [violation_shared h, type_shared hbelow]

/-- With the same visits below it a node is visited alike. -/
theorem nodeOver_shared {below : Option ValueType → NodeId → Visit Unit} :
    nodeOver tree' below returns id = nodeOver tree below returns id := by
  unfold nodeOver
  rw [constructOf_shared h]
  cases constructOf tree id with
  | composite => exact congrArg (forM · (below returns)) h.children_eq
  | declaration => exact declaration_shared h
  | functionDefinition => simp only [functionHead_shared h]
  | mainDefinition => simp only [mainHead_shared h]
  | assignment => exact assignment_shared h
  | returning => exact returning_shared h
  | call => simp only [View.callType_shared h]
  | leaf token => rfl
  | _ => simp only [View.type?_shared h]

end Constructs

/-- A shared node is visited alike in both trees. -/
theorem node_shared (h : Shared tree tree' id) (returns : Option ValueType) :
    node tree' returns id = node tree returns id := by
  induction h generalizing returns with
  | @intro id hnode hfounded hfounded' hbelow ih =>
    have hshared : Shared tree tree' id := .intro hnode hfounded hfounded' hbelow
    rw [node_eq hfounded', node_eq hfounded, ← nodeOver_shared hshared]
    exact nodeOver_congr fun child hchild => ih child (hshared.children_eq ▸ hchild)

end Visit

end Toy

end TopDown
