import TopDown.Proofs.TreeWalks
import Mathlib.Data.List.Nodup

/-!
Who owns the nodes of a layout. The children of a node are numbered one after the other and come
after their parent, they lie within the range of the layout, and every node of the range is the
child of one node only. In a tree that fills its array this is so of all nodes but the root.
-/
namespace TopDown.Layout

variable {tree : SyntaxTree} {next stop i : Nat} {ids : List NodeId} {ds : List Derivation}
  {tokens : List Token}

/-- The places of a node and what comes after it: the node itself, those of its children and of all
below them, and those of the rest. -/
theorem place_cons_iff {mid k : Nat} (id : Nat) (ids : List NodeId) (hmid : next + k ≤ mid)
    (hstop : mid ≤ stop) :
    (i ∈ id :: ids ∨ (next ≤ i ∧ i < stop)) ↔
      i = id ∨ (i ∈ List.range' next k ∨ (next + k ≤ i ∧ i < mid)) ∨
        (i ∈ ids ∨ (mid ≤ i ∧ i < stop)) := by
  rw [List.mem_cons, List.mem_range'_1]
  by_cases hids : i ∈ ids
  · simp [hids]
  · by_cases hid : i = id
    · simp [hid]
    · simp only [hids, hid, false_or]
      omega

/-- What is laid out beside a node is older than what comes after the node. -/
theorem lt_of_mem_rest {id mid k : Nat} (hids : ∀ i : Nat, i ∈ id :: ids → i < next)
    (hmid : next + k ≤ mid) : ∀ i : Nat, i ∈ ids → i < mid := by
  intro i hi
  have hold := hids i (List.mem_cons_of_mem _ hi)
  omega

theorem lt_of_mem_range (next k : Nat) : ∀ i : Nat, i ∈ List.range' next k → i < next + k :=
  fun _ hi => (List.mem_range'_1.mp hi).2

/-- The children of a node in a layout are consecutive, later than the node itself and within the
range. -/
theorem exists_children_eq (h : Layout tree.node? next ids ds tokens stop)
    (hids : ∀ i : Nat, i ∈ ids → i < next) (hi : i ∈ ids ∨ (next ≤ i ∧ i < stop)) :
    ∃ first, tree.children i = List.range' first (tree.children i).length ∧ i < first ∧
      next ≤ first ∧ first + (tree.children i).length ≤ stop := by
  induction h with
  | nil next =>
    rcases hi with hi | ⟨hlow, hhigh⟩
    · exact absurd hi List.not_mem_nil
    · omega
  | @leaf next stop id ids ds tokens token hid hrest ih =>
    have hlater : ∀ i : Nat, i ∈ ids → i < next := fun i hi => hids i (List.mem_cons_of_mem _ hi)
    have hnext := hrest.next_le
    rcases hi with hi | hi
    · rcases List.mem_cons.mp hi with rfl | hi
      · have hnone : tree.children i = [] := SyntaxTree.children_of_leaf hid
        have hold := hids i List.mem_cons_self
        exact ⟨stop, by simp [hnone], by omega, hnext, by simp [hnone]⟩
      · exact ih hlater (Or.inl hi)
    · exact ih hlater (Or.inr hi)
  | @node next mid stop id ids children ds inner tokens p hid hinner hrest ihinner ihrest =>
    have hmid := hinner.next_le
    have hstop := hrest.next_le
    have hlater := lt_of_mem_rest hids hmid
    have hnew := lt_of_mem_range next children.length
    rcases (place_cons_iff id ids hmid hstop).mp hi with rfl | hi | hi
    · have hchildren : tree.children i = List.range' next children.length :=
        SyntaxTree.children_of_inner hid
      have hold := hids i List.mem_cons_self
      exact ⟨next, by simp [hchildren], hold, Nat.le_refl next, by simp [hchildren]; omega⟩
    · obtain ⟨first, heq, hparent, hlow, hhigh⟩ := ihinner hnew hi
      exact ⟨first, heq, hparent, by omega, by omega⟩
    · obtain ⟨first, heq, hparent, hlow, hhigh⟩ := ihrest hlater hi
      exact ⟨first, heq, hparent, by omega, hhigh⟩

/-- Children come later than their parent, and within the range. -/
theorem bounds_of_mem_children (h : Layout tree.node? next ids ds tokens stop)
    (hids : ∀ i : Nat, i ∈ ids → i < next) (hi : i ∈ ids ∨ (next ≤ i ∧ i < stop)) {child : Nat}
    (hchild : child ∈ tree.children i) : i < child ∧ next ≤ child ∧ child < stop := by
  obtain ⟨first, heq, hparent, hlow, hhigh⟩ := h.exists_children_eq hids hi
  rw [heq] at hchild
  have hbounds := List.mem_range'_1.mp hchild
  omega

/-- Every node of the range is the child of one node of the layout and of no other. -/
theorem exists_owner (h : Layout tree.node? next ids ds tokens stop)
    (hids : ∀ i : Nat, i ∈ ids → i < next) (hlow : next ≤ i) (hhigh : i < stop) :
    ∃ parent, (parent ∈ ids ∨ (next ≤ parent ∧ parent < stop)) ∧ i ∈ tree.children parent ∧
      ∀ other, other ∈ ids ∨ (next ≤ other ∧ other < stop) →
        i ∈ tree.children other → other = parent := by
  induction h with
  | nil next => omega
  | @leaf next stop id ids ds tokens token hid hrest ih =>
    have hnone : tree.children id = [] := SyntaxTree.children_of_leaf hid
    obtain ⟨parent, hparent, howns, honly⟩ :=
      ih (fun i hi => hids i (List.mem_cons_of_mem _ hi)) hlow hhigh
    refine ⟨parent, hparent.imp_left (List.mem_cons_of_mem _), howns, ?_⟩
    rintro other (hother | hother) hchild
    · rcases List.mem_cons.mp hother with rfl | hother
      · rw [hnone] at hchild
        exact absurd hchild List.not_mem_nil
      · exact honly other (Or.inl hother) hchild
    · exact honly other (Or.inr hother) hchild
  | @node next mid stop id ids children ds inner tokens p hid hinner hrest ihinner ihrest =>
    have hmid := hinner.next_le
    have hstop := hrest.next_le
    have hlater := lt_of_mem_rest hids hmid
    have hnew := lt_of_mem_range next children.length
    have hroot : tree.children id = List.range' next children.length :=
      SyntaxTree.children_of_inner hid
    -- The children of the node, of the nodes below it and of those beside it lie in three ranges.
    have hown {other : NodeId} (hother : other = id) (hchild : i ∈ tree.children other) :
        next ≤ i ∧ i < next + children.length := by
      rw [hother, hroot] at hchild
      exact List.mem_range'_1.mp hchild
    have hbelow {other : NodeId} (hother : other ∈ List.range' next children.length ∨
        (next + children.length ≤ other ∧ other < mid)) (hchild : i ∈ tree.children other) :
        next + children.length ≤ i ∧ i < mid :=
      (hinner.bounds_of_mem_children hnew hother hchild).2
    have hbeside {other : NodeId} (hother : other ∈ ids ∨ (mid ≤ other ∧ other < stop))
        (hchild : i ∈ tree.children other) : mid ≤ i ∧ i < stop :=
      (hrest.bounds_of_mem_children hlater hother hchild).2
    have hplace (other : Nat) := place_cons_iff (i := other) id ids hmid hstop
    by_cases hchild : i < next + children.length
    · refine ⟨id, Or.inl List.mem_cons_self, ?_, fun other hother howned => ?_⟩
      · rw [hroot]
        exact List.mem_range'_1.mpr ⟨hlow, hchild⟩
      · rcases (hplace other).mp hother with heq | hother | hother
        · exact heq
        · have hrange := hbelow hother howned
          omega
        · have hrange := hbeside hother howned
          omega
    · by_cases hinside : i < mid
      · obtain ⟨parent, hparent, howns, honly⟩ := ihinner hnew (by omega) hinside
        refine ⟨parent, (hplace parent).mpr (Or.inr (Or.inl hparent)), howns, ?_⟩
        intro other hother howned
        rcases (hplace other).mp hother with heq | hother | hother
        · have hrange := hown heq howned
          omega
        · exact honly other hother howned
        · have hrange := hbeside hother howned
          omega
      · obtain ⟨parent, hparent, howns, honly⟩ := ihrest hlater (by omega) hhigh
        refine ⟨parent, (hplace parent).mpr (Or.inr (Or.inr hparent)), howns, ?_⟩
        intro other hother howned
        rcases (hplace other).mp hother with heq | hother | hother
        · have hrange := hown heq howned
          omega
        · have hrange := hbelow hother howned
          omega
        · exact honly other hother howned

section Whole

theorem root_lt_one (i : Nat) (hi : i ∈ [SyntaxTree.root]) : i < 1 := by
  rw [List.mem_singleton.mp hi]
  exact Nat.one_pos

theorem children_cases (tree : SyntaxTree) (i : Nat) :
    tree.children i = [] ∨ (i ∈ [SyntaxTree.root] ∨ (1 ≤ i ∧ i < tree.size)) := by
  by_cases hi : i < tree.size
  · exact Or.inr (root_or_later hi)
  · have hnone : tree.node? i = none := Array.getElem?_eq_none (Nat.le_of_not_lt hi)
    exact Or.inl (by simp only [SyntaxTree.children, hnone])

variable {d : Derivation} (h : Layout tree.node? 1 [SyntaxTree.root] [d] tokens tree.size)
include h

theorem lt_of_mem_children {child : Nat} (hchild : child ∈ tree.children i) :
    i < child ∧ child < tree.size := by
  rcases children_cases tree i with hnone | hplace
  · rw [hnone] at hchild
    exact absurd hchild List.not_mem_nil
  · have hrange := h.bounds_of_mem_children root_lt_one hplace hchild
    exact ⟨hrange.1, hrange.2.2⟩

theorem exists_first_child (i : Nat) :
    ∃ first, tree.children i = List.range' first (tree.children i).length := by
  rcases children_cases tree i with hnone | hplace
  · exact ⟨0, by rw [hnone]; rfl⟩
  · obtain ⟨first, heq, _⟩ := h.exists_children_eq root_lt_one hplace
    exact ⟨first, heq⟩

/-- Every node but the root is once among the children of one earlier node, and of no other. -/
theorem exists_parent (hi : i < tree.size) (hroot : i ≠ SyntaxTree.root) :
    ∃ parent, parent < i ∧ (tree.children parent).count i = 1 ∧
      ∀ other, i ∈ tree.children other → other = parent := by
  have hlow : 1 ≤ i := Nat.one_le_iff_ne_zero.mpr hroot
  obtain ⟨parent, _, hchild, honly⟩ := h.exists_owner root_lt_one hlow hi
  obtain ⟨first, heq⟩ := h.exists_first_child parent
  have hnodup : (tree.children parent).Nodup := by
    rw [heq]
    exact List.nodup_range'
  refine ⟨parent, (h.lt_of_mem_children hchild).1, List.count_eq_one_of_mem hnodup hchild, ?_⟩
  intro other hother
  exact honly other (root_or_later (Nat.lt_trans (h.lt_of_mem_children hother).1 hi)) hother

end Whole

end TopDown.Layout
