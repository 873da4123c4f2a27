import TopDown.Proofs.Toy.Handlers

/-!
Visits as a recursion over the tree. A visit with pending nodes and a bound visits the nodes one
after the other, each in the state that the one before it left, and a composite node stands for its
children in order.
-/
namespace TopDown.Toy

namespace Visit

variable {tree : SyntaxTree} {id : NodeId}

/-- The visit of a node, from the visits of the nodes below it. -/
def nodeOver (tree : SyntaxTree) (below : Option ValueType → NodeId → Visit Unit)
    (returns : Option ValueType) (id : NodeId) : Visit Unit :=
  match constructOf tree id with
  | .composite => forM (tree.children id) (below returns)
  | .declaration => declaration tree returns id
  | .functionDefinition => do
    let (returned, body) ← functionHead tree id
    within (below (some returned) body)
  | .mainDefinition => do
    let body ← mainHead tree id
    within (below (some .int) body)
  | .assignment => assignment tree id
  | .returning => returning tree returns id
  | .call => do
    let _ ← check ((← get).view.callType tree id)
  | .chain | .variable => do
    let _ ← check ((← get).view.type? tree id)
  | .leaf _ => return

variable {returns : Option ValueType} {visits : Nat} {pending : List NodeId}

theorem nodes_nil : nodes tree visits returns [] = pure () := by
  cases visits <;> rfl

theorem nodes_composite (h : constructOf tree id = .composite) :
    nodes tree (visits + 1) returns (id :: pending) =
      nodes tree visits returns (tree.children id ++ pending) := by
  rw [nodes, h]

theorem nodes_cons (h : constructOf tree id ≠ .composite) :
    nodes tree (visits + 1) returns (id :: pending) =
      (do
        nodeOver tree (fun returns id => nodes tree visits returns [id]) returns id
        nodes tree visits returns pending) := by
  rw [nodes, nodeOver]
  cases hconstruct : constructOf tree id with
  | composite => exact absurd hconstruct h
  | _ => simp only [bind_assoc, pure_bind]

theorem forM_congr {f g : NodeId → Visit Unit} {ids : List NodeId} (h : ∀ id ∈ ids, f id = g id) :
    forM ids f = forM ids g := by
  induction ids with
  | nil => rfl
  | cons id ids ih =>
    rw [List.forM_cons, List.forM_cons, h id List.mem_cons_self,
      ih fun other hother => h other (List.mem_cons_of_mem _ hother)]

/-- Only the visits of the children matter. -/
theorem nodeOver_congr {below below' : Option ValueType → NodeId → Visit Unit}
    (h : ∀ child ∈ tree.children id, ∀ returns, below returns child = below' returns child) :
    nodeOver tree below returns id = nodeOver tree below' returns id := by
  unfold nodeOver
  cases constructOf tree id with
  | composite => exact forM_congr fun child hchild => h child hchild returns
  | functionDefinition =>
    funext s
    refine bind_congr_of_ok ?_
    rintro ⟨returned, body⟩ u hhead
    obtain ⟨_, _, _, _, _, _, _, hbody⟩ := functionHead_eq_ok_iff.mp hhead
    have hchild := mem_children_of_childNode? (childNode_eq_ok_iff.mp hbody)
    simp only [h body hchild]
  | mainDefinition =>
    funext s
    refine bind_congr_of_ok ?_
    intro body u hhead
    obtain ⟨_, hbody, _⟩ := mainHead_eq_ok_iff.mp hhead
    have hchild := mem_children_of_childNode? (childNode_eq_ok_iff.mp hbody)
    simp only [h body hchild]
  | _ => rfl

/-- Pending nodes are visited one after the other, with as many visits as there are nodes. -/
theorem nodes_eq {ids : List NodeId} {n enough : Nat} (h : tree.Spans ids n) (hvisits : n ≤ visits)
    (henough : n ≤ enough) :
    nodes tree visits returns ids = forM ids fun id => nodes tree enough returns [id] := by
  induction n using Nat.strongRecOn generalizing ids visits returns with
  | ind n ih =>
    cases h with
    | nil => exact nodes_nil
    | @cons id ids below beside _ hn hbelow hbeside =>
      obtain ⟨visits, rfl⟩ : ∃ v, visits = v + 1 := ⟨visits - 1, by omega⟩
      obtain ⟨fewer, rfl⟩ : ∃ v, enough = v + 1 := ⟨enough - 1, by omega⟩
      rw [List.forM_cons]
      by_cases hcomposite : constructOf tree id = .composite
      · rw [nodes_composite hcomposite, nodes_composite hcomposite, List.append_nil,
          ih (below + beside) hn (hbelow.append hbeside) (by omega) (by omega),
          ih below (by omega) hbelow (by omega) (by omega), List.forM_append]
      · have hchildren : ∀ child ∈ tree.children id, ∀ returns,
            nodes tree visits returns [child] = nodes tree fewer returns [child] := by
          intro child hchild returns
          have hone := hbelow.of_mem hchild
          rw [ih below (by omega) hone (by omega) (by omega),
            ih below (by omega) hone (by omega) (by omega)]
        rw [nodes_cons hcomposite, nodes_cons hcomposite, nodes_nil, nodeOver_congr hchildren,
          ih beside (by omega) hbeside (by omega) (by omega)]
        simp only [bind_assoc, pure_bind]

/-- Visits a node and what is below it. -/
def node (tree : SyntaxTree) (returns : Option ValueType) (id : NodeId) : Visit Unit :=
  nodes tree tree.size returns [id]

/-- The visit of a node is made of the visits of its children. -/
theorem node_eq (h : tree.Founded [id]) :
    node tree returns id = nodeOver tree (node tree) returns id := by
  obtain ⟨visits, hsize, hspans⟩ := h.exists_spans
  have hchildren : ∀ child ∈ tree.children id, ∀ returns,
      nodes tree visits returns [child] = node tree returns child := by
    intro child hchild returns
    have hone := hspans.child hchild
    have hsome : nodes tree visits returns [child] =
        forM [child] fun id => nodes tree visits returns [id] :=
      nodes_eq hone (Nat.le_refl visits) (Nat.le_refl visits)
    have hall : nodes tree (visits + 1) returns [child] =
        forM [child] fun id => nodes tree visits returns [id] :=
      nodes_eq hone (Nat.le_succ visits) (Nat.le_refl visits)
    rw [hsome, node, hsize, hall]
  rw [← nodeOver_congr hchildren]
  change nodes tree tree.size returns [id] = _
  rw [hsize]
  by_cases hcomposite : constructOf tree id = .composite
  · rw [nodes_composite hcomposite, List.append_nil, nodeOver, hcomposite]
    exact nodes_eq hspans.children (Nat.le_refl _) (Nat.le_refl _)
  · rw [nodes_cons hcomposite, nodes_nil, bind_pure_unit]

/-- A program is visited from its root, and then a main function must have been found. -/
theorem program_eq (s : State) :
    program tree s =
      match node tree none SyntaxTree.root s with
      | .ok _ t =>
        if t.mainDefined = true then .ok t.symbols t else .error ⟨.missingMain, .nowhere⟩ t
      | .error e t => .error e t := by
  change EStateM.bind (node tree none SyntaxTree.root) _ s = _
  unfold EStateM.bind
  cases node tree none SyntaxTree.root s with
  | ok _ t =>
    change (if t.mainDefined = true then pure t.symbols else throw _ : Visit SymbolTable) t =
      if t.mainDefined = true then _ else _
    by_cases hmain : t.mainDefined = true
    · rw [if_pos hmain, if_pos hmain]
      rfl
    · rw [if_neg hmain, if_neg hmain]
      rfl
  | error e t => rfl

end Visit

theorem analyze_eq (tree : SyntaxTree) :
    analyze tree =
      match Visit.node tree none SyntaxTree.root .initial with
      | .ok _ t => if t.mainDefined = true then .ok t.symbols else .error ⟨.missingMain, .nowhere⟩
      | .error e _ => .error e := by
  unfold analyze analysis
  rw [Visit.program_eq]
  cases Visit.node tree none SyntaxTree.root .initial with
  | ok _ t =>
    by_cases hmain : t.mainDefined = true
    · simp only [if_pos hmain]
    · simp only [if_neg hmain]
  | error e t => rfl

end TopDown.Toy
