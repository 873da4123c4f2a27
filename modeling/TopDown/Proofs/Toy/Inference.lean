import TopDown.Proofs.TreeWalks
import TopDown.Toy.Typing

/-!
Inference as a recursion over the tree. The type of a node is computed from the types of the nodes
below it, whatever the number of levels that is allowed, as long as it reaches down the tree.
-/
namespace TopDown.Toy

section Parts

variable {tree : SyntaxTree} {id child : NodeId}

theorem mem_children_of_childNode? {name : String} (h : childNode? tree id name = some child) :
    child ∈ tree.children id :=
  List.mem_of_find?_eq_some h

theorem childNode_eq_ok_iff {name : String} :
    childNode tree id name = .ok child ↔ childNode? tree id name = some child := by
  unfold childNode
  cases childNode? tree id name <;> simp

theorem childLeaf_eq_ok_iff {kind : String} {leaf : LeafNode} :
    childLeaf tree id kind = .ok leaf ↔ childLeaf? tree id kind = some leaf := by
  unfold childLeaf
  cases childLeaf? tree id kind <;> simp

theorem exists_of_indexExpression? (h : indexExpression? tree id = some child) :
    ∃ suffix ∈ tree.children id, child ∈ tree.children suffix := by
  obtain ⟨suffix, hsuffix, hchild⟩ := Option.bind_eq_some_iff.mp h
  exact ⟨suffix, mem_children_of_childNode? hsuffix, mem_children_of_childNode? hchild⟩

end Parts

namespace View

variable (tree : SyntaxTree) (view : View)

/-- Checks the tail of a chain as far down as it goes. -/
def tail (left : ValueType) (id : NodeId) : Verdict Unit := view.checkTail tree tree.size left id

/-- The type of a node, from the types and the tails below it. -/
def typeOver (below : NodeId → Verdict (Option ValueType))
    (tailBelow : ValueType → NodeId → Verdict Unit) (id : NodeId) : Verdict (Option ValueType) :=
  match constructOf tree id with
  | .leaf token => view.leafType tree ⟨id, token⟩
  | .call => some <$> view.callType tree id
  | .variable => do
    let name ← childLeaf tree id "ID"
    let type ← view.typeOfName tree name
    match indexExpression? tree id with
    | none => return some type
    | some index =>
      requireIndex tree index (← require tree index (← below index))
      return some (← elementType tree name type)
  | .chain =>
    match tree.children id with
    | [] => .error (malformed tree id "operand")
    | operand :: rest => do
      let left ← require tree operand (← below operand)
      match rest with
      | [] => return some left
      | tail :: _ =>
        tailBelow left tail
        return some left
  | .composite => (tree.children id).findSomeM? below
  | _ => .error (malformed tree id "value")

/-- The check of a tail, from the type of its operand and the check of the next tail. -/
def tailOver (below : NodeId → Verdict (Option ValueType))
    (tailBelow : ValueType → NodeId → Verdict Unit) (left : ValueType) (tail : NodeId) :
    Verdict Unit :=
  match tree.children tail with
  | [operator, operand, next] => do
    let right ← require tree operand (← below operand)
    if right = left then tailBelow left next
    else .error (violation tree (.expressionTypeMismatch left right) operator)
  | _ => .ok ()

variable {tree view}

theorem typeWithin_succ (levels : Nat) (id : NodeId) :
    view.typeWithin tree (levels + 1) id =
      view.typeOver tree (view.typeWithin tree levels) (view.checkTail tree levels) id := by
  rw [typeWithin]
  rfl

theorem checkTail_succ (levels : Nat) (left : ValueType) (id : NodeId) :
    view.checkTail tree (levels + 1) left id =
      tailOver tree (view.typeWithin tree levels) (view.checkTail tree levels) left id := by
  rw [checkTail]
  rfl

section Congruence

variable {below below' : NodeId → Verdict (Option ValueType)}
  {tailBelow tailBelow' : ValueType → NodeId → Verdict Unit} {Lower : NodeId → Prop}
  (hbelow : ∀ id, Lower id → below id = below' id)
  (htail : ∀ id, Lower id → ∀ left, tailBelow left id = tailBelow' left id)
  {id : NodeId} (hid : ∀ child ∈ tree.children id, Lower child)

include hbelow in
theorem findSomeM?_congr {ids : List NodeId} (hids : ∀ id ∈ ids, Lower id) :
    ids.findSomeM? below = ids.findSomeM? below' := by
  induction ids with
  | nil => rfl
  | cons id ids ih =>
    rw [List.findSomeM?, List.findSomeM?, hbelow id (hids id List.mem_cons_self),
      ih fun other hother => hids other (List.mem_cons_of_mem _ hother)]

include hbelow htail hid

theorem tailOver_congr (left : ValueType) :
    tailOver tree below tailBelow left id = tailOver tree below' tailBelow' left id := by
  unfold tailOver
  split
  next operator operand next hchildren =>
    rw [hchildren] at hid
    rw [hbelow operand (hid operand (by simp)), htail next (hid next (by simp))]
  next => rfl

/-- Only what lies below the node matters: its children, and theirs for an index. -/
theorem typeOver_congr (hclosed : ∀ id, Lower id → ∀ child ∈ tree.children id, Lower child) :
    view.typeOver tree below tailBelow id = view.typeOver tree below' tailBelow' id := by
  unfold typeOver
  cases constructOf tree id with
  | «variable» =>
    cases hindex : indexExpression? tree id with
    | none => rfl
    | some index =>
      obtain ⟨suffix, hsuffix, hmem⟩ := exists_of_indexExpression? hindex
      simp only [hbelow index (hclosed suffix (hid suffix hsuffix) index hmem)]
  | chain =>
    cases hchildren : tree.children id with
    | nil => rfl
    | cons operand rest =>
      rw [hchildren] at hid
      simp only [hbelow operand (hid operand List.mem_cons_self)]
      cases rest with
      | nil => rfl
      | cons tail _ => simp only [htail tail (hid tail (by simp))]
  | composite => exact findSomeM?_congr hbelow hid
  | _ => rfl

end Congruence

/-- As many levels as there are nodes under a node are as good as any higher number. -/
theorem within_eq {n a b : Nat} {id : NodeId} (h : tree.Spans [id] n) (ha : n ≤ a) (hb : n ≤ b) :
    view.typeWithin tree a id = view.typeWithin tree b id ∧
      ∀ left, view.checkTail tree a left id = view.checkTail tree b left id := by
  induction n generalizing a b id with
  | zero => exact absurd h.pos (Nat.lt_irrefl 0)
  | succ n ih =>
    obtain ⟨a, rfl⟩ : ∃ k, a = k + 1 := ⟨a - 1, by omega⟩
    obtain ⟨b, rfl⟩ : ∃ k, b = k + 1 := ⟨b - 1, by omega⟩
    have hlower : ∀ id, tree.Spans [id] n →
        view.typeWithin tree a id = view.typeWithin tree b id ∧
          ∀ left, view.checkTail tree a left id = view.checkTail tree b left id :=
      fun id hid => ih hid (by omega) (by omega)
    constructor
    · rw [typeWithin_succ, typeWithin_succ]
      exact typeOver_congr (fun id hid => (hlower id hid).1) (fun id hid => (hlower id hid).2)
        (fun _ hchild => h.child hchild) (fun _ hid _ hchild => hid.closed hchild)
    · intro left
      rw [checkTail_succ, checkTail_succ]
      exact tailOver_congr (fun id hid => (hlower id hid).1) (fun id hid => (hlower id hid).2)
        (fun _ hchild => h.child hchild) left

section Founded

variable {id : NodeId}

/-- Below a node one level less is enough. -/
theorem lower_eq {levels : Nat} (hsize : tree.size = levels + 1) (h : tree.Spans [id] levels) :
    view.typeWithin tree levels id = view.type? tree id ∧
      ∀ left, view.checkTail tree levels left id = view.tail tree left id :=
  within_eq h (Nat.le_refl _) (by omega)

/-- The type of a node is computed from those below it. -/
theorem type?_eq (h : tree.Founded [id]) :
    view.type? tree id = view.typeOver tree (view.type? tree) (view.tail tree) id := by
  obtain ⟨levels, hsize, hspans⟩ := h.exists_spans
  change view.typeWithin tree tree.size id = _
  rw [hsize, typeWithin_succ]
  exact typeOver_congr (fun _ hid => (lower_eq hsize hid).1) (fun _ hid => (lower_eq hsize hid).2)
    (fun _ hchild => hspans.child hchild) (fun _ hid _ hchild => hid.closed hchild)

theorem tail_eq (h : tree.Founded [id]) (left : ValueType) :
    view.tail tree left id = tailOver tree (view.type? tree) (view.tail tree) left id := by
  obtain ⟨levels, hsize, hspans⟩ := h.exists_spans
  change view.checkTail tree tree.size left id = _
  rw [hsize, checkTail_succ]
  exact tailOver_congr (fun _ hid => (lower_eq hsize hid).1) (fun _ hid => (lower_eq hsize hid).2)
    (fun _ hchild => hspans.child hchild) left

end Founded

section Verdicts

variable {id : NodeId} {type left : ValueType}

/-- Both parts of a verdict in sequence are favourable. -/
theorem bind_eq_ok_iff {α β : Type} {v : Verdict α} {f : α → Verdict β} {b : β} :
    v >>= f = .ok b ↔ ∃ a, v = .ok a ∧ f a = .ok b := by
  cases v with
  | ok a =>
    constructor
    · intro h
      exact ⟨a, rfl, h⟩
    · rintro ⟨_, h, hrest⟩
      cases h
      exact hrest
  | error e =>
    constructor
    · intro h
      cases h
    · rintro ⟨_, h, hrest⟩
      cases h

theorem require_eq_ok_iff {actual : Option ValueType} :
    require tree id actual = .ok type ↔ actual = some type := by
  cases actual <;> simp [require]

theorem elementType_eq_ok_iff {name : LeafNode} {type element : ValueType} :
    View.elementType tree name type = .ok element ↔ ∃ size, type = .array size element := by
  cases type <;> simp [View.elementType]

theorem requireIndex_eq_ok_iff {actual : ValueType} {u : Unit} :
    View.requireIndex tree id actual = .ok u ↔ actual = .int := by
  unfold View.requireIndex
  split <;> simp_all

/-- A node carries a type. -/
theorem type_eq_ok_iff : view.type tree id = .ok type ↔ view.type? tree id = .ok (some type) := by
  simp [View.type, bind_eq_ok_iff, require_eq_ok_iff]

variable (hfounded : tree.Founded [id])
include hfounded

theorem type?_chain (hconstruct : constructOf tree id = .chain) {operand tail : NodeId}
    {more : List NodeId} (hchildren : tree.children id = operand :: tail :: more) :
    view.type? tree id = .ok (some type) ↔
      view.type? tree operand = .ok (some type) ∧ view.tail tree type tail = .ok () := by
  simp only [type?_eq hfounded, typeOver, hconstruct, hchildren, bind_eq_ok_iff, require_eq_ok_iff]
  constructor
  · rintro ⟨_, htype, left, rfl, _, htail, hleft⟩
    cases hleft
    exact ⟨htype, htail⟩
  · rintro ⟨htype, htail⟩
    exact ⟨_, htype, type, rfl, (), htail, rfl⟩

theorem tail_more {operator operand next : NodeId}
    (hchildren : tree.children id = [operator, operand, next]) :
    view.tail tree left id = .ok () ↔
      view.type? tree operand = .ok (some left) ∧ view.tail tree left next = .ok () := by
  simp only [tail_eq hfounded, tailOver, hchildren, bind_eq_ok_iff, require_eq_ok_iff]
  constructor
  · rintro ⟨_, htype, right, rfl, h⟩
    by_cases heq : right = left
    · subst heq
      rw [if_pos rfl] at h
      exact ⟨htype, h⟩
    · rw [if_neg heq] at h
      cases h
  · rintro ⟨htype, htail⟩
    refine ⟨_, htype, left, rfl, ?_⟩
    rwa [if_pos rfl]

theorem tail_done (hchildren : tree.children id = []) : view.tail tree left id = .ok () := by
  simp only [tail_eq hfounded, tailOver, hchildren]

theorem type?_variable (hconstruct : constructOf tree id = .variable) {name : LeafNode}
    (hname : childLeaf tree id "ID" = .ok name) :
    view.type? tree id = .ok (some type) ↔
      match indexExpression? tree id with
      | none => view.typeOfName tree name = .ok type
      | some index =>
        view.type? tree index = .ok (some .int) ∧
          ∃ size, view.typeOfName tree name = .ok (.array size type) := by
  simp only [type?_eq hfounded, typeOver, hconstruct, hname, bind_eq_ok_iff, Except.ok.injEq]
  cases indexExpression? tree id with
  | none =>
    constructor
    · rintro ⟨_, rfl, actual, hactual, htype⟩
      cases htype
      exact hactual
    · intro hactual
      exact ⟨name, rfl, type, hactual, rfl⟩
  | some index =>
    simp only [bind_eq_ok_iff, require_eq_ok_iff, requireIndex_eq_ok_iff, elementType_eq_ok_iff]
    constructor
    · rintro ⟨_, rfl, actual, hactual, _, hindex, _, rfl, _, rfl, _, ⟨size, rfl⟩, htype⟩
      cases htype
      exact ⟨hindex, size, hactual⟩
    · rintro ⟨hindex, size, hactual⟩
      exact ⟨name, rfl, _, hactual, _, hindex, _, rfl, (), rfl, type, ⟨size, rfl⟩, rfl⟩

theorem type?_call (hconstruct : constructOf tree id = .call) :
    view.type? tree id = .ok (some type) ↔ view.callType tree id = .ok type := by
  rw [type?_eq hfounded, typeOver, hconstruct]
  cases view.callType tree id <;> simp [Functor.map, Except.map]

theorem type?_leaf {token : Token} (hid : tree.node? id = some (.leaf token)) :
    view.type? tree id = view.leafType tree ⟨id, token⟩ := by
  rw [type?_eq hfounded, typeOver, constructOf, hid]

theorem type?_composite (hconstruct : constructOf tree id = .composite) :
    view.type? tree id = (tree.children id).findSomeM? (view.type? tree) := by
  rw [type?_eq hfounded, typeOver, hconstruct]

end Verdicts

end View

end TopDown.Toy
