import TopDown.Derivation
import TopDown.SyntaxTree

/-!
Derivation trees laid out in an array of nodes. The children of a node are numbered one after the
other when the node is expanded, and the trees below them are laid out from left to right after
that, so a layout uses every number of its range once. A walk that has as many visits as the layout
has nodes collects exactly the tokens at its leaves.
-/
namespace TopDown

open TopDown.Derivation

/-- The nodes found under the ids are the given trees with the given tokens at their leaves; all
nodes further down are those from `next` on, up to `stop`. -/
inductive Layout (node? : NodeId → Option Node) :
    Nat → List NodeId → List Derivation → List Token → Nat → Prop where
  | nil (next : Nat) : Layout node? next [] [] [] next
  | leaf {next stop id : Nat} {ids : List NodeId} {ds : List Derivation} {tokens : List Token}
      {token : Token} (hid : node? id = some (.leaf token)) :
      Layout node? next ids ds tokens stop →
      Layout node? next (id :: ids) (.leaf token.kind :: ds) (token :: tokens) stop
  | node {next mid stop id : Nat} {ids : List NodeId} {children ds : List Derivation}
      {inner tokens : List Token} {p : Production}
      (hid : node? id = some (.inner p.lhs (List.range' next children.length))) :
      Layout node? (next + children.length) (List.range' next children.length) children inner mid →
      Layout node? mid ids ds tokens stop →
      Layout node? next (id :: ids) (.node p children :: ds) (inner ++ tokens) stop

namespace Layout

variable {node? : NodeId → Option Node} {next stop : Nat} {ids : List NodeId}
  {ds : List Derivation} {tokens : List Token}

theorem next_le (h : Layout node? next ids ds tokens stop) : next ≤ stop := by
  induction h with
  | nil => exact Nat.le_refl _
  | leaf _ _ ih => exact ih
  | node _ _ _ ihinner ihrest => omega

theorem length_eq (h : Layout node? next ids ds tokens stop) : ids.length = ds.length := by
  induction h with
  | nil => rfl
  | leaf _ _ ih => simp only [List.length_cons, ih]
  | node _ _ _ _ ih => simp only [List.length_cons, ih]

theorem kinds_eq (h : Layout node? next ids ds tokens stop) :
    Token.kinds tokens = words ds := by
  induction h with
  | nil => rfl
  | leaf _ _ ih => exact congrArg (_ :: ·) ih
  | node _ _ _ ihinner ihrest =>
    simp only [Token.kinds, List.map_append, words, word] at ihinner ihrest ⊢
    rw [ihinner, ihrest]

/-- The same trees take as many tokens in any two layouts. -/
theorem append_inj {look : NodeId → Option Node} {start finish : Nat} {others : List NodeId}
    {tokens' after after' : List Token} (h : Layout node? next ids ds tokens stop)
    (h' : Layout look start others ds tokens' finish) (heq : tokens ++ after = tokens' ++ after') :
    tokens = tokens' ∧ after = after' := by
  have hkinds : Token.kinds tokens = Token.kinds tokens' := h.kinds_eq.trans h'.kinds_eq.symm
  have hlength : tokens.length = tokens'.length := by
    simpa [Token.kinds] using congrArg List.length hkinds
  exact List.append_inj heq hlength

/-- The first tree is laid out before the others. -/
theorem uncons {id : NodeId} {d : Derivation}
    (h : Layout node? next (id :: ids) (d :: ds) tokens stop) :
    ∃ mid first second, tokens = first ++ second ∧ Layout node? next [id] [d] first mid ∧
      Layout node? mid ids ds second stop := by
  cases h with
  | leaf hid hrest => exact ⟨next, [_], _, rfl, .leaf hid (.nil next), hrest⟩
  | @node _ mid _ _ _ _ _ inner _ _ hid hinner hrest =>
    refine ⟨mid, inner ++ [], _, ?_, .node hid hinner (.nil mid), hrest⟩
    rw [List.append_nil]

/-- A layout can be parted between any two of its roots. -/
theorem split (left : List NodeId) {right : List NodeId}
    (h : Layout node? next (left ++ right) ds tokens stop) :
    ∃ mid before after first second, ds = before ++ after ∧ tokens = first ++ second ∧
      Layout node? next left before first mid ∧ Layout node? mid right after second stop := by
  induction left generalizing next ds tokens with
  | nil => exact ⟨next, [], ds, [], tokens, rfl, rfl, .nil next, h⟩
  | cons id left ih =>
    cases h with
    | leaf hid hrest =>
      obtain ⟨mid, before, after, first, second, rfl, rfl, hleft, hright⟩ := ih hrest
      exact ⟨mid, _ :: before, after, _ :: first, second, rfl, rfl, .leaf hid hleft, hright⟩
    | @node _ last _ _ _ children _ inner _ p hid hinner hrest =>
      obtain ⟨mid, before, after, first, second, rfl, rfl, hleft, hright⟩ := ih hrest
      exact ⟨mid, _ :: before, after, inner ++ first, second, rfl, (List.append_assoc ..).symm,
        .node hid hinner hleft, hright⟩

/-- Only the nodes under the ids and those of the range matter. -/
theorem congr {look : NodeId → Option Node} (h : Layout node? next ids ds tokens stop)
    (hids : ∀ i : Nat, i ∈ ids → look i = node? i)
    (hrange : ∀ i : Nat, next ≤ i → i < stop → look i = node? i) :
    Layout look next ids ds tokens stop := by
  induction h with
  | nil => exact .nil _
  | leaf hid _ ih =>
    refine .leaf ((hids _ List.mem_cons_self).trans hid) ?_
    exact ih (fun i hi => hids i (List.mem_cons_of_mem _ hi)) hrange
  | @node next mid stop id ids children ds inner tokens p hid hinner hrest ihinner ihrest =>
    have hmid := hinner.next_le
    have hstop := hrest.next_le
    refine .node ((hids _ List.mem_cons_self).trans hid) (ihinner ?_ ?_) (ihrest ?_ ?_)
    · intro i hi
      have hbounds := List.mem_range'_1.mp hi
      exact hrange i (by omega) (by omega)
    · intro i hlow hhigh
      exact hrange i (by omega) (by omega)
    · intro i hi
      exact hids i (List.mem_cons_of_mem _ hi)
    · intro i hlow hhigh
      exact hrange i (by omega) hhigh

/-- Every node of the layout is the root of a tree of its own in it. What holds of the given trees
and passes to the children of a node holds of that tree. -/
theorem exists_subtree {P : Derivation → Prop}
    (hchild : ∀ p children, P (.node p children) → ∀ d ∈ children, P d)
    (h : Layout node? next ids ds tokens stop) (hds : ∀ d ∈ ds, P d) {i : Nat}
    (hi : i ∈ ids ∨ (next ≤ i ∧ i < stop)) :
    ∃ d start inner finish, Layout node? start [i] [d] inner finish ∧ P d := by
  induction h with
  | nil next =>
    rcases hi with hi | ⟨hlow, hhigh⟩
    · exact absurd hi List.not_mem_nil
    · omega
  | leaf hid _ ih =>
    have hrest : ∀ d ∈ _, P d := fun d hd => hds d (List.mem_cons_of_mem _ hd)
    rcases hi with hi | hi
    · rcases List.mem_cons.mp hi with rfl | hi
      · exact ⟨_, 0, _, 0, .leaf hid (.nil 0), hds _ List.mem_cons_self⟩
      · exact ih hrest (Or.inl hi)
    · exact ih hrest (Or.inr hi)
  | @node next mid stop id ids children ds inner tokens p hid hinner hrest ihinner ihrest =>
    have hroot : P (.node p children) := hds _ List.mem_cons_self
    have hrestP : ∀ d ∈ ds, P d := fun d hd => hds d (List.mem_cons_of_mem _ hd)
    have hinnerP : ∀ d ∈ children, P d := hchild p children hroot
    rcases hi with hi | ⟨hlow, hhigh⟩
    · rcases List.mem_cons.mp hi with rfl | hi
      · exact ⟨_, next, _, mid, .node hid hinner (.nil mid), hroot⟩
      · exact ihrest hrestP (Or.inl hi)
    · by_cases hmid : i < mid
      · by_cases hnear : i < next + children.length
        · exact ihinner hinnerP (Or.inl (List.mem_range'_1.mpr ⟨hlow, hnear⟩))
        · exact ihinner hinnerP (Or.inr ⟨by omega, hmid⟩)
      · exact ihrest hrestP (Or.inr ⟨by omega, hhigh⟩)

/-- Every place of a layout holds a node. -/
theorem isSome (h : Layout node? next ids ds tokens stop) {i : Nat}
    (hi : i ∈ ids ∨ (next ≤ i ∧ i < stop)) : (node? i).isSome := by
  obtain ⟨d, start, inner, finish, hroot, _⟩ :=
    h.exists_subtree (P := fun _ => True) (fun _ _ _ _ _ => trivial) (fun _ _ => trivial) hi
  cases hroot with
  | leaf hid _ => rw [hid]; rfl
  | node hid _ _ => rw [hid]; rfl

/-- Every leaf of the layout holds one of its tokens. -/
theorem token_mem (h : Layout node? next ids ds tokens stop) {i : Nat} {token : Token}
    (hi : i ∈ ids ∨ (next ≤ i ∧ i < stop)) (hleaf : node? i = some (.leaf token)) :
    token ∈ tokens := by
  induction h with
  | nil next =>
    rcases hi with hi | ⟨hlow, hhigh⟩
    · exact absurd hi List.not_mem_nil
    · omega
  | leaf hid _ ih =>
    rcases hi with hi | hi
    · rcases List.mem_cons.mp hi with rfl | hi
      · rw [hid] at hleaf
        cases hleaf
        exact List.mem_cons_self
      · exact List.mem_cons_of_mem _ (ih (Or.inl hi))
    · exact List.mem_cons_of_mem _ (ih (Or.inr hi))
  | @node next mid stop id ids children ds inner tokens p hid hinner hrest ihinner ihrest =>
    rw [List.mem_append]
    rcases hi with hi | ⟨hlow, hhigh⟩
    · rcases List.mem_cons.mp hi with rfl | hi
      · rw [hid] at hleaf
        cases hleaf
      · exact Or.inr (ihrest (Or.inl hi))
    · by_cases hmid : i < mid
      · by_cases hnear : i < next + children.length
        · exact Or.inl (ihinner (Or.inl (List.mem_range'_1.mpr ⟨hlow, hnear⟩)))
        · exact Or.inl (ihinner (Or.inr ⟨by omega, hmid⟩))
      · exact Or.inr (ihrest (Or.inr ⟨by omega, hhigh⟩))

/-- In a tree that fills its array every place is that of the root or is laid out below it. -/
theorem root_or_later {tree : SyntaxTree} {i : NodeId} (hi : i < tree.size) :
    i ∈ [SyntaxTree.root] ∨ (1 ≤ i ∧ i < tree.size) := by
  rcases Nat.eq_zero_or_pos i with rfl | hpos
  · exact Or.inl List.mem_cons_self
  · exact Or.inr ⟨hpos, hi⟩

/-- With a visit for every node the walk gives the tokens of the layout, then goes on with what was
pending. -/
theorem collect_eq {tree : SyntaxTree} (h : Layout tree.node? next ids ds tokens stop)
    (visits : Nat) (pending : List NodeId) :
    tree.collect (stop - next + ids.length + visits) (ids ++ pending) =
      tokens ++ tree.collect visits pending := by
  induction h generalizing visits pending with
  | nil next => simp
  | @leaf next stop id ids ds tokens token hid hrest ih =>
    have hvisits : stop - next + (id :: ids).length + visits =
        (stop - next + ids.length + visits) + 1 := by
      simp only [List.length_cons]
      omega
    rw [hvisits]
    simp only [List.cons_append, SyntaxTree.collect, hid]
    rw [ih]
  | @node next mid stop id ids children ds inner tokens p hid hinner hrest ihinner ihrest =>
    have hmid := hinner.next_le
    have hstop := hrest.next_le
    have hvisits : stop - next + (id :: ids).length + visits =
        (mid - (next + children.length) + (List.range' next children.length).length +
          (stop - mid + ids.length + visits)) + 1 := by
      simp only [List.length_cons, List.length_range']
      omega
    rw [hvisits]
    simp only [List.cons_append, SyntaxTree.collect, hid]
    rw [ihinner, ihrest, List.append_assoc]

/-- The leaves of a tree that fills its array are the tokens of its layout. -/
theorem leaves_eq {tree : SyntaxTree} {d : Derivation}
    (h : Layout tree.node? 1 [SyntaxTree.root] [d] tokens tree.size) (hsize : 1 ≤ tree.size) :
    tree.leaves = tokens := by
  have hcollect := h.collect_eq 0 []
  have hvisits : tree.size - 1 + [SyntaxTree.root].length + 0 = tree.size := by
    simp only [List.length_singleton]
    omega
  rw [hvisits] at hcollect
  simpa [SyntaxTree.leaves, SyntaxTree.leavesUnder, SyntaxTree.collect] using hcollect

end Layout

end TopDown
