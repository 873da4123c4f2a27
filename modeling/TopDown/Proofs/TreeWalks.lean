import TopDown.Proofs.Layout

/-!
Walks over trees. A walk over a list of pending nodes with a bound on its visits is a recursion over
the tree as soon as the bound reaches the number of nodes under the pending ones. In a laid out tree
the nodes under any one are no more than the array holds.
-/
namespace TopDown

namespace SyntaxTree

variable {tree : SyntaxTree}

/-- No more than so many nodes lie under the given ones, themselves included, a node counting as
often as it is reached. -/
inductive Spans (tree : SyntaxTree) : List NodeId → Nat → Prop where
  | nil (n : Nat) : Spans tree [] n
  | cons {id : NodeId} {ids : List NodeId} {below beside n : Nat} (hn : below + beside < n) :
      Spans tree (tree.children id) below → Spans tree ids beside → Spans tree (id :: ids) n

namespace Spans

variable {id : NodeId} {ids others : List NodeId} {n m : Nat}

theorem mono (h : tree.Spans ids n) (hle : n ≤ m) : tree.Spans ids m := by
  cases h with
  | nil => exact .nil m
  | cons hn hbelow hbeside => exact .cons (Nat.lt_of_lt_of_le hn hle) hbelow hbeside

theorem append (h : tree.Spans ids n) (h' : tree.Spans others m) :
    tree.Spans (ids ++ others) (n + m) := by
  induction h with
  | nil n => exact h'.mono (Nat.le_add_left m n)
  | cons hn hbelow _ _ ih => exact .cons (by omega) hbelow ih

theorem of_mem (h : tree.Spans ids n) (hid : id ∈ ids) : tree.Spans [id] n := by
  induction h with
  | nil => exact absurd hid List.not_mem_nil
  | cons hn hbelow hbeside _ ih =>
    rcases List.mem_cons.mp hid with rfl | hid
    · exact .cons (by omega) hbelow (.nil 0)
    · exact (ih hid).mono (by omega)

theorem children (h : tree.Spans [id] (n + 1)) : tree.Spans (tree.children id) n := by
  cases h with
  | cons hn hbelow _ => exact hbelow.mono (by omega)

theorem child (h : tree.Spans [id] (n + 1)) {below : NodeId} (hbelow : below ∈ tree.children id) :
    tree.Spans [below] n :=
  h.children.of_mem hbelow

theorem pos (h : tree.Spans [id] n) : 0 < n := by
  cases h with
  | cons hn _ _ => omega

theorem closed (h : tree.Spans [id] n) {below : NodeId} (hbelow : below ∈ tree.children id) :
    tree.Spans [below] n := by
  cases n with
  | zero => exact absurd h.pos (Nat.lt_irrefl 0)
  | succ n => exact (h.child hbelow).mono (Nat.le_succ n)

end Spans

/-- Under the given nodes lie no more than the array holds. -/
def Founded (tree : SyntaxTree) (ids : List NodeId) : Prop := tree.Spans ids tree.size

namespace Founded

variable {id : NodeId} {ids : List NodeId}

theorem of_mem (h : tree.Founded ids) (hid : id ∈ ids) : tree.Founded [id] := Spans.of_mem h hid

/-- What lies below a node is at least one node less. -/
theorem exists_spans (h : tree.Founded [id]) :
    ∃ n, tree.size = n + 1 ∧ tree.Spans [id] (n + 1) := by
  have hpos := Spans.pos h
  have hsize : tree.size = tree.size - 1 + 1 := by omega
  refine ⟨tree.size - 1, hsize, ?_⟩
  rw [← hsize]
  exact h

theorem children (h : tree.Founded [id]) : tree.Founded (tree.children id) := by
  obtain ⟨n, hsize, hspans⟩ := h.exists_spans
  exact hspans.children.mono (by omega)

end Founded

theorem children_of_inner {id : NodeId} {name : String} {ids : List NodeId}
    (h : tree.node? id = some (.inner name ids)) : tree.children id = ids := by
  simp only [children, h]

theorem children_of_leaf {id : NodeId} {token : Token} (h : tree.node? id = some (.leaf token)) :
    tree.children id = [] := by
  simp only [children, h]

theorem Founded.of_inner {id child : NodeId} {name : String} {ids : List NodeId}
    (h : tree.Founded [id]) (hid : tree.node? id = some (.inner name ids)) (hchild : child ∈ ids) :
    tree.Founded [child] := by
  rw [← children_of_inner hid] at hchild
  exact h.children.of_mem hchild

section Search

variable {arrange : List NodeId → List NodeId} {visits : Nat} {id : NodeId}
  {pending : List NodeId}

theorem search_none (h : tree.node? id = none) :
    tree.search arrange (visits + 1) (id :: pending) = tree.search arrange visits pending := by
  simp only [search, h]

theorem search_leaf {token : Token} (h : tree.node? id = some (.leaf token)) :
    tree.search arrange (visits + 1) (id :: pending) = some token := by
  simp only [search, h]

theorem search_inner {name : String} {ids : List NodeId}
    (h : tree.node? id = some (.inner name ids)) :
    tree.search arrange (visits + 1) (id :: pending) =
      tree.search arrange visits (arrange ids ++ pending) := by
  simp only [search, h]

theorem search_nil : tree.search arrange visits [] = none := by
  cases visits <;> rfl

/-- The first token of a walk is the first token of the first pending node that has one. -/
theorem search_eq (harrange : ∀ ids n, tree.Spans ids n → tree.Spans (arrange ids) n)
    {ids : List NodeId} {n enough : Nat} (h : tree.Spans ids n) (hvisits : n ≤ visits)
    (henough : n ≤ enough) :
    tree.search arrange visits ids = ids.findSome? fun id => tree.search arrange enough [id] := by
  induction n using Nat.strongRecOn generalizing ids visits with
  | ind n ih =>
    cases h with
    | nil => exact search_nil
    | @cons id ids below beside _ hn hbelow hbeside =>
      obtain ⟨visits, rfl⟩ : ∃ v, visits = v + 1 := ⟨visits - 1, by omega⟩
      obtain ⟨fewer, rfl⟩ : ∃ v, enough = v + 1 := ⟨enough - 1, by omega⟩
      rw [List.findSome?_cons]
      cases hnode : tree.node? id with
      | none =>
        rw [search_none hnode, search_none hnode, search_nil]
        exact ih beside (by omega) hbeside (by omega) (by omega)
      | some node =>
        cases node with
        | leaf token => rw [search_leaf hnode, search_leaf hnode]
        | inner name children =>
          rw [children_of_inner hnode] at hbelow
          have harranged := harrange children below hbelow
          rw [search_inner hnode, search_inner hnode, List.append_nil,
            ih (below + beside) (by omega) (harranged.append hbeside) (by omega) (by omega),
            ih below (by omega) harranged (by omega) (by omega), List.findSome?_append]
          cases List.findSome? _ (arrange children) <;> rfl

end Search

/-- What a search finds is at a leaf. -/
theorem exists_leaf_of_search {arrange : List NodeId → List NodeId} {visits : Nat}
    {pending : List NodeId} {token : Token} (h : tree.search arrange visits pending = some token) :
    ∃ id, tree.node? id = some (.leaf token) := by
  induction visits generalizing pending with
  | zero => cases h
  | succ visits ih =>
    cases pending with
    | nil => cases h
    | cons id pending =>
      rw [search] at h
      cases hnode : tree.node? id with
      | none =>
        rw [hnode] at h
        exact ih h
      | some node =>
        rw [hnode] at h
        cases node with
        | leaf found =>
          rw [← Option.some.inj h]
          exact ⟨id, hnode⟩
        | inner name children => exact ih h

/-- The first token under an inner node is the first one under its children. -/
theorem firstToken_eq {id : NodeId} (h : tree.Founded [id]) :
    tree.firstToken id =
      match tree.token? id with
      | some token => some token
      | none => (tree.children id).findSome? tree.firstToken := by
  obtain ⟨visits, hsize, hspans⟩ := h.exists_spans
  have hchildren := hspans.children
  unfold firstToken
  rw [hsize]
  cases hnode : tree.node? id with
  | none => simp only [search_none hnode, search_nil, token?, children, hnode, List.findSome?_nil]
  | some node =>
    cases node with
    | leaf token => simp only [search_leaf hnode, token?, hnode]
    | inner name ids =>
      rw [children_of_inner hnode] at hchildren
      simp only [search_inner hnode, token?, children, hnode, List.append_nil]
      exact search_eq (fun _ _ hids => hids) hchildren (Nat.le_refl _) (Nat.le_succ _)

end SyntaxTree

namespace Layout

variable {tree : SyntaxTree} {next stop : Nat} {ids : List NodeId} {ds : List Derivation}
  {tokens : List Token}

/-- A layout reaches the ids and every place of its range once. -/
theorem spans (h : Layout tree.node? next ids ds tokens stop) :
    tree.Spans ids (stop - next + ids.length) := by
  induction h with
  | nil next => exact .nil _
  | @leaf next stop id ids ds tokens token hid hrest ih =>
    have hnone : tree.children id = [] := SyntaxTree.children_of_leaf hid
    have hbelow : tree.Spans (tree.children id) 0 := by
      rw [hnone]
      exact .nil 0
    refine .cons ?_ hbelow ih
    simp only [List.length_cons]
    omega
  | @node next mid stop id ids children ds inner tokens p hid hinner hrest ihinner ihrest =>
    have hmid := hinner.next_le
    have hstop := hrest.next_le
    have hbelow : tree.Spans (tree.children id) (mid - next) := by
      rw [SyntaxTree.children_of_inner hid]
      refine ihinner.mono ?_
      simp only [List.length_range']
      omega
    refine .cons ?_ hbelow ihrest
    simp only [List.length_cons]
    omega

/-- Under a node of a layout lie no more nodes than the layout has, and it itself. -/
theorem spans_of_mem (h : Layout tree.node? next ids ds tokens stop) {i : NodeId}
    (hi : i ∈ ids ∨ (next ≤ i ∧ i < stop)) : tree.Spans [i] (stop - next + 1) := by
  induction h with
  | nil next =>
    rcases hi with hi | ⟨hlow, hhigh⟩
    · exact absurd hi List.not_mem_nil
    · exact absurd (Nat.lt_of_le_of_lt hlow hhigh) (Nat.lt_irrefl next)
  | @leaf next stop id ids ds tokens token hid hrest ih =>
    rcases hi with hi | hi
    · rcases List.mem_cons.mp hi with rfl | hi
      · have hroot : Layout tree.node? next [i] [.leaf token.kind] [token] next :=
          .leaf hid (.nil next)
        exact hroot.spans.mono (by rw [List.length_singleton]; omega)
      · exact ih (Or.inl hi)
    · exact ih (Or.inr hi)
  | @node next mid stop id ids children ds inner tokens p hid hinner hrest ihinner ihrest =>
    have hmid := hinner.next_le
    have hstop := hrest.next_le
    rcases hi with hi | ⟨hlow, hhigh⟩
    · rcases List.mem_cons.mp hi with rfl | hi
      · have hroot : Layout tree.node? next [i] [.node p children] (inner ++ []) mid :=
          .node hid hinner (.nil mid)
        exact hroot.spans.mono (by rw [List.length_singleton]; omega)
      · exact (ihrest (Or.inl hi)).mono (by omega)
    · by_cases hrange : i < mid
      · by_cases hnear : i < next + children.length
        · exact (ihinner (Or.inl (List.mem_range'_1.mpr ⟨hlow, hnear⟩))).mono (by omega)
        · exact (ihinner (Or.inr ⟨Nat.le_of_not_lt hnear, hrange⟩)).mono (by omega)
      · exact (ihrest (Or.inr ⟨Nat.le_of_not_lt hrange, hhigh⟩)).mono (by omega)

/-- A tree that fills its array has no more nodes than the array under any of them. -/
theorem founded_of_lt {d : Derivation}
    (h : Layout tree.node? 1 [SyntaxTree.root] [d] tokens tree.size) {i : NodeId}
    (hi : i < tree.size) : tree.Founded [i] := by
  have hsize : tree.size - 1 + 1 = tree.size := Nat.sub_add_cancel (Nat.zero_lt_of_lt hi)
  exact (h.spans_of_mem (root_or_later hi)).mono (Nat.le_of_eq hsize)

theorem founded {d : Derivation} (h : Layout tree.node? 1 [SyntaxTree.root] [d] tokens tree.size)
    (hsize : 1 ≤ tree.size) : tree.Founded [SyntaxTree.root] :=
  h.founded_of_lt hsize

end Layout

end TopDown
