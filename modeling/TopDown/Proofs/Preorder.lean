import TopDown.Proofs.ParsedTrees

/-!
Walks against recursion. A walk takes the first of the nodes that are pending and puts its children
in its place. Taken without a bound it ends, and it has met the nodes in preorder, or in the mirror
image of that order when children are taken from the right. The tokens under a node, the first and
the last of them and the printed lines are read off these orders, so they are what a recursion over
the tree makes of it.
-/
namespace TopDown

/-- What a walk takes from first to last when no bound cuts it short. What is taken gives way to
others, which go before all that is still pending; a walk does not get past what gives way to
nothing known. -/
inductive Walks {α : Type} (below? : α → Option (List α)) : List α → List α → Prop where
  | done : Walks below? [] []
  | visit {a : α} {below pending order : List α} (ha : below? a = some below) :
      Walks below? (below ++ pending) order → Walks below? (a :: pending) (a :: order)

namespace Walks

variable {α β : Type} {below? : α → Option (List α)} {pending others order rest : List α}

theorem append (h : Walks below? pending order) (h' : Walks below? others rest) :
    Walks below? (pending ++ others) (order ++ rest) := by
  induction h with
  | done => exact h'
  | visit ha _ ih =>
    rw [List.append_assoc] at ih
    exact .visit ha ih

/-- A walk can be told by other names. -/
theorem map {f : α → β} {renamed? : β → Option (List β)}
    (hf : ∀ a below, below? a = some below → renamed? (f a) = some (below.map f))
    (h : Walks below? pending order) : Walks renamed? (pending.map f) (order.map f) := by
  induction h with
  | done => exact .done
  | visit ha _ ih =>
    rw [List.map_append] at ih
    exact .visit (hf _ _ ha) ih

end Walks

namespace SyntaxTree

section Definitions

variable (tree : SyntaxTree)

/-- A node that the array holds gives way to its children, in the order that `arrange` gives
them. -/
def below? (arrange : List NodeId → List NodeId) (id : NodeId) : Option (List NodeId) :=
  if id < tree.size then some (arrange (tree.children id)) else none

/-- A node at a depth gives way to its children one level deeper. -/
def deeper? (place : NodeId × Nat) : Option (List (NodeId × Nat)) :=
  if place.1 < tree.size then
    some ((tree.children place.1).map fun child => (child, place.2 + 1))
  else none

/-- What is printed for a node: its nonterminal, or its token with the token's place. -/
def label (id : NodeId) : String :=
  match tree.node? id with
  | some (.inner nonterminal _) => nonterminal
  | some (.leaf token) =>
    token.kind ++ " `" ++ token.lexeme ++ "` " ++ toString token.line ++ ":" ++
      toString token.column
  | none => ""

/-- The nodes under the given ones, each with its depth: a node, then all that is below it, then the
nodes beside it. -/
inductive Preorder : List NodeId → Nat → List (NodeId × Nat) → Prop where
  | nil (depth : Nat) : Preorder [] depth []
  | cons {id : NodeId} {ids : List NodeId} {depth : Nat} {below beside : List (NodeId × Nat)}
      (hid : id < tree.size) : Preorder (tree.children id) (depth + 1) below →
      Preorder ids depth beside → Preorder (id :: ids) depth ((id, depth) :: (below ++ beside))

end Definitions

variable {tree : SyntaxTree} {id : NodeId} {ids : List NodeId} {depth : Nat}
  {order : List (NodeId × Nat)}

theorem exists_node?_of_lt (h : id < tree.size) : ∃ node, tree.node? id = some node :=
  ⟨tree.nodes[id], Array.getElem?_eq_getElem h⟩

theorem children_of_token? {token : Token} (h : tree.token? id = some token) :
    tree.children id = [] := by
  unfold token? at h
  split at h
  · rename_i hid
    exact children_of_leaf hid
  · cases h

theorem indent_eq (depth : Nat) :
    indent depth = String.ofList (List.replicate (2 * depth) ' ') := by
  unfold indent
  induction depth with
  | zero => rfl
  | succ depth ih =>
    rw [List.replicate_succ, String.join_cons, ih, Nat.mul_succ, Nat.add_comm, List.replicate_add,
      String.ofList_append]
    rfl

section Bounded

variable {visits : Nat}

/-- With enough visits the tokens met are those at the nodes of the walk. -/
theorem collect_of_walks {pending order : List NodeId}
    (h : Walks (tree.below? fun ids => ids) pending order) (hvisits : order.length ≤ visits) :
    tree.collect visits pending = order.filterMap tree.token? := by
  induction h generalizing visits with
  | done => cases visits <;> rfl
  | @visit id below pending order hbelow _ ih =>
    obtain ⟨hid, hchildren⟩ := Option.ite_none_right_eq_some.mp hbelow
    cases hchildren
    rw [List.length_cons] at hvisits
    obtain ⟨visits, rfl⟩ : ∃ v, visits = v + 1 := ⟨visits - 1, by omega⟩
    have hrest := ih (Nat.le_of_succ_le_succ hvisits)
    obtain ⟨node, hnode⟩ := exists_node?_of_lt hid
    cases node with
    | leaf token =>
      rw [children_of_leaf hnode, List.nil_append] at hrest
      simp only [collect, List.filterMap_cons, token?, hnode, hrest]
    | inner name children =>
      rw [children_of_inner hnode] at hrest
      simp only [collect, List.filterMap_cons, token?, hnode, hrest]

/-- With enough visits a search finds the first token on the walk. -/
theorem search_of_walks {arrange : List NodeId → List NodeId} {pending order : List NodeId}
    (h : Walks (tree.below? arrange) pending order) (hvisits : order.length ≤ visits) :
    tree.search arrange visits pending = order.findSome? tree.token? := by
  induction h generalizing visits with
  | done => exact search_nil
  | @visit id below pending order hbelow _ ih =>
    obtain ⟨hid, hchildren⟩ := Option.ite_none_right_eq_some.mp hbelow
    cases hchildren
    rw [List.length_cons] at hvisits
    obtain ⟨visits, rfl⟩ : ∃ v, visits = v + 1 := ⟨visits - 1, by omega⟩
    have hrest := ih (Nat.le_of_succ_le_succ hvisits)
    obtain ⟨node, hnode⟩ := exists_node?_of_lt hid
    cases node with
    | leaf token => simp only [search_leaf hnode, List.findSome?_cons, token?, hnode]
    | inner name children =>
      rw [children_of_inner hnode] at hrest
      simp only [search_inner hnode, List.findSome?_cons, token?, hnode, hrest]

/-- With enough visits there is a line for every node of the walk. -/
theorem outline_of_walks {pending : List (NodeId × Nat)} (h : Walks tree.deeper? pending order)
    (hvisits : order.length ≤ visits) :
    tree.outline visits pending = order.map fun (id, depth) => indent depth ++ tree.label id := by
  induction h generalizing visits with
  | done => cases visits <;> rfl
  | @visit place below pending order hbelow _ ih =>
    obtain ⟨hid, hchildren⟩ := Option.ite_none_right_eq_some.mp hbelow
    cases hchildren
    obtain ⟨id, depth⟩ := place
    rw [List.length_cons] at hvisits
    obtain ⟨visits, rfl⟩ : ∃ v, visits = v + 1 := ⟨visits - 1, by omega⟩
    have hrest := ih (Nat.le_of_succ_le_succ hvisits)
    obtain ⟨node, hnode⟩ := exists_node?_of_lt hid
    cases node with
    | leaf token =>
      rw [children_of_leaf hnode, List.map_nil, List.nil_append] at hrest
      simp only [outline, List.map_cons, label, hnode, hrest, String.append_assoc]
    | inner name children =>
      rw [children_of_inner hnode] at hrest
      simp only [outline, List.map_cons, label, hnode, hrest]

end Bounded

/-- A number of visits that bounds the nodes under the given ones bounds their preorder. -/
theorem Spans.exists_preorder {n : Nat} (h : tree.Spans ids n)
    (hchildren : ∀ id, ∀ child ∈ tree.children id, child < tree.size)
    (hids : ∀ id ∈ ids, id < tree.size) (depth : Nat) :
    ∃ order, tree.Preorder ids depth order ∧ order.length ≤ n := by
  induction h generalizing depth with
  | nil n => exact ⟨[], .nil depth, Nat.zero_le n⟩
  | @cons id ids below beside n hn _ _ ihbelow ihbeside =>
    obtain ⟨lower, hlower, hlowerLength⟩ := ihbelow (hchildren id) (depth + 1)
    obtain ⟨rest, hrest, hrestLength⟩ :=
      ihbeside (fun i hi => hids i (List.mem_cons_of_mem _ hi)) depth
    refine ⟨_, .cons (hids id List.mem_cons_self) hlower hrest, ?_⟩
    simp only [List.length_cons, List.length_append]
    omega

namespace Preorder

/-- Walking with the depths at hand follows the preorder. -/
theorem walks (h : tree.Preorder ids depth order) :
    Walks tree.deeper? (ids.map fun id => (id, depth)) order := by
  induction h with
  | nil depth => exact .done
  | @cons id ids depth below beside hid _ _ ihbelow ihbeside =>
    have hdeeper : tree.deeper? (id, depth) =
        some ((tree.children id).map fun child => (child, depth + 1)) := if_pos hid
    exact .visit hdeeper (ihbelow.append ihbeside)

/-- Walking from the left follows the preorder. -/
theorem walks_left (h : tree.Preorder ids depth order) :
    Walks (tree.below? fun ids => ids) ids (order.map Prod.fst) := by
  have hwalks : Walks (tree.below? fun ids => ids) ((ids.map fun id => (id, depth)).map Prod.fst)
      (order.map Prod.fst) := by
    refine h.walks.map ?_
    intro place below hbelow
    obtain ⟨hid, hchildren⟩ := Option.ite_none_right_eq_some.mp hbelow
    cases hchildren
    rw [List.map_map, Function.comp_def, List.map_id']
    exact if_pos hid
  rwa [List.map_map, Function.comp_def, List.map_id'] at hwalks

/-- Walking from the right meets as many nodes, and the tokens at them in reverse. -/
theorem exists_walks_right (h : tree.Preorder ids depth order) :
    ∃ mirrored, Walks (tree.below? List.reverse) ids.reverse mirrored ∧
      mirrored.length = order.length ∧
      mirrored.filterMap tree.token? = ((order.map Prod.fst).filterMap tree.token?).reverse := by
  induction h with
  | nil depth => exact ⟨[], .done, rfl, rfl⟩
  | @cons id ids depth below beside hid hbelow _ ihbelow ihbeside =>
    obtain ⟨lower, hlower, hlowerLength, hlowerTokens⟩ := ihbelow
    obtain ⟨rest, hrest, hrestLength, hrestTokens⟩ := ihbeside
    have hnode : Walks (tree.below? List.reverse) [id] (id :: lower) := by
      refine .visit (if_pos hid) ?_
      rwa [List.append_nil]
    refine ⟨rest ++ id :: lower, ?_, ?_, ?_⟩
    · rw [List.reverse_cons]
      exact hrest.append hnode
    · simp only [List.length_append, List.length_cons, hlowerLength, hrestLength]
      omega
    · -- A node that has a token has nothing below it, so the two may change places.
      have hself : (id :: lower).filterMap tree.token? =
          (((id, depth) :: below).map Prod.fst |>.filterMap tree.token?).reverse := by
        rw [List.map_cons, List.filterMap_cons, List.filterMap_cons]
        cases htoken : tree.token? id with
        | none => exact hlowerTokens
        | some token =>
          rw [children_of_token? htoken] at hbelow
          cases hbelow
          rw [List.eq_nil_of_length_eq_zero hlowerLength]
          rfl
      rw [List.filterMap_append, hrestTokens, hself, ← List.reverse_append,
        ← List.filterMap_append, ← List.map_append]
      rfl

/-- The tokens along the preorder are those under the nodes it starts from. -/
theorem tokens_eq (h : tree.Preorder ids depth order) (hlength : order.length ≤ tree.size) :
    (order.map Prod.fst).filterMap tree.token? = ids.flatMap tree.leavesUnder := by
  induction h with
  | nil depth => rfl
  | @cons id ids depth below beside hid hbelow _ _ ih =>
    rw [List.length_cons, List.length_append] at hlength
    have hnode : tree.Preorder [id] depth ((id, depth) :: (below ++ [])) :=
      .cons hid hbelow (.nil depth)
    have hleaves : tree.leavesUnder id =
        (((id, depth) :: (below ++ [])).map Prod.fst).filterMap tree.token? := by
      refine collect_of_walks hnode.walks_left ?_
      simp only [List.length_map, List.length_cons, List.append_nil]
      omega
    rw [List.flatMap_cons, hleaves, ← ih (by omega), ← List.filterMap_append, ← List.map_append,
      List.append_nil, List.cons_append]

end Preorder

end SyntaxTree

/-- A preorder of a layout meets the roots and every place of the range once. -/
theorem Layout.nodes_perm {tree : SyntaxTree} {next stop depth : Nat} {ids : List NodeId}
    {ds : List Derivation} {tokens : List Token} {order : List (NodeId × Nat)}
    (h : Layout tree.node? next ids ds tokens stop) (horder : tree.Preorder ids depth order) :
    (order.map Prod.fst).Perm (ids ++ List.range' next (stop - next)) := by
  induction h generalizing depth order with
  | nil next =>
    cases horder
    rw [Nat.sub_self]
    exact .refl _
  | leaf hid _ ih =>
    cases horder with
    | cons _ hbelow hbeside =>
      rw [SyntaxTree.children_of_leaf hid] at hbelow
      cases hbelow
      exact (ih hbeside).cons _
  | @node next mid stop id ids children ds inner tokens p hid hinner hrest ihinner ihrest =>
    cases horder with
    | @cons _ _ _ below beside _ hbelow hbeside =>
      rw [SyntaxTree.children_of_inner hid] at hbelow
      have hmid := hinner.next_le
      have hstop := hrest.next_le
      have hinside : List.range' next children.length ++
          List.range' (next + children.length) (mid - (next + children.length)) =
            List.range' next (mid - next) := by
        rw [List.range'_append_1]
        congr 1
        omega
      have hwhole : List.range' next (mid - next) ++ List.range' mid (stop - mid) =
          List.range' next (stop - next) := by
        have happend := List.range'_append_1 (s := next) (m := mid - next) (n := stop - mid)
        rw [Nat.add_sub_cancel' (by omega)] at happend
        rw [happend]
        congr 1
        omega
      have hlower := ihinner hbelow
      rw [hinside] at hlower
      have hparts : (below.map Prod.fst ++ beside.map Prod.fst).Perm
          (List.range' next (mid - next) ++ (ids ++ List.range' mid (stop - mid))) :=
        hlower.append (ihrest hbeside)
      rw [List.map_cons, List.map_append, ← hwhole]
      exact (hparts.trans (List.perm_append_comm_assoc ..)).cons id

namespace SyntaxTree

variable {tree : SyntaxTree} {id : NodeId} {order : List (NodeId × Nat)}

/-- What is met under a node is what a recursion over the nodes below it makes of them: its own
token, or the tokens under its children from left to right. The first and the last token under it
are the ends of that list. The walks that find them out come to an end. -/
structure Walked (tree : SyntaxTree) (id : NodeId) : Prop where
  leaves_eq : tree.leavesUnder id =
    match tree.token? id with
    | some token => [token]
    | none => (tree.children id).flatMap tree.leavesUnder
  first_eq : tree.firstToken id = (tree.leavesUnder id).head?
  last_eq : tree.lastToken id = (tree.leavesUnder id).getLast?
  first_none_iff : tree.firstToken id = none ↔ tree.leavesUnder id = []
  last_none_iff : tree.lastToken id = none ↔ tree.leavesUnder id = []
  from_left : ∃ order, Walks (tree.below? fun ids => ids) [id] order ∧ order.length ≤ tree.size ∧
    tree.leavesUnder id = order.filterMap tree.token? ∧
    tree.firstToken id = order.findSome? tree.token?
  from_right : ∃ order, Walks (tree.below? List.reverse) [id] order ∧ order.length ≤ tree.size ∧
    tree.lastToken id = order.findSome? tree.token?

namespace Preorder

theorem leavesUnder_eq (h : tree.Preorder [id] 0 order) (hlength : order.length ≤ tree.size) :
    tree.leavesUnder id =
      match tree.token? id with
      | some token => [token]
      | none => (tree.children id).flatMap tree.leavesUnder := by
  have hleaves := h.tokens_eq hlength
  rw [List.flatMap_singleton] at hleaves
  cases h with
  | @cons _ _ _ below beside hid hbelow hbeside =>
    cases hbeside
    rw [List.append_nil] at hleaves hlength
    rw [← hleaves, List.map_cons, List.filterMap_cons]
    cases htoken : tree.token? id with
    | none => exact hbelow.tokens_eq (Nat.le_of_succ_le hlength)
    | some token =>
      rw [children_of_token? htoken] at hbelow
      cases hbelow
      rfl

theorem walked (h : tree.Preorder [id] 0 order) (hlength : order.length ≤ tree.size) :
    tree.Walked id := by
  obtain ⟨mirrored, hright, hsame, htokens⟩ := h.exists_walks_right
  have hleft : (order.map Prod.fst).length ≤ tree.size := by rwa [List.length_map]
  have hmirrored : mirrored.length ≤ tree.size := by rwa [hsame]
  have hleaves : tree.leavesUnder id = (order.map Prod.fst).filterMap tree.token? :=
    collect_of_walks h.walks_left hleft
  have hfirst : tree.firstToken id = (order.map Prod.fst).findSome? tree.token? :=
    search_of_walks h.walks_left hleft
  have hlast : tree.lastToken id = mirrored.findSome? tree.token? :=
    search_of_walks hright hmirrored
  have hhead : tree.firstToken id = (tree.leavesUnder id).head? := by
    rw [hfirst, hleaves, List.head?_filterMap]
  have hend : tree.lastToken id = (tree.leavesUnder id).getLast? := by
    rw [hlast, hleaves, ← List.head?_filterMap, htokens, List.head?_reverse]
  exact
    { leaves_eq := h.leavesUnder_eq hlength
      first_eq := hhead
      last_eq := hend
      first_none_iff := by rw [hhead, List.head?_eq_none_iff]
      last_none_iff := by rw [hend, List.getLast?_eq_none_iff]
      from_left := ⟨_, h.walks_left, hleft, hleaves, hfirst⟩
      from_right := ⟨mirrored, hright, hmirrored, hlast⟩ }

end Preorder

/-- In a parsed tree the walks from any node end, with what recursion over the tree gives. The tree
is printed node by node in preorder, every node of the array once, and each line is indented by two
blanks for every level that its node is below the root. -/
theorem walks_exact {table : Table} {start : String} {tokens : List Token}
    (hparse : table.parse start tokens = some (.ok tree)) :
    (∀ id, id < tree.size → tree.Walked id) ∧
      ∃ order, tree.Preorder [root] 0 order ∧ Walks tree.deeper? [(root, 0)] order ∧
        (order.map Prod.fst).Perm (List.range tree.size) ∧
        tree.render = String.join (order.map fun (id, depth) =>
          String.ofList (List.replicate (2 * depth) ' ') ++ tree.label id ++ "\n") := by
  obtain ⟨hsize, d, _, hlayout⟩ := Grammar.exists_layout_of_parse hparse
  have hpreorder : ∀ id, id < tree.size →
      ∃ order, tree.Preorder [id] 0 order ∧ order.length ≤ tree.size := by
    intro id hid
    refine Spans.exists_preorder (hlayout.founded_of_lt hid)
      (fun _ _ hchild => (hlayout.lt_of_mem_children hchild).2) (fun i hi => ?_) 0
    rwa [List.mem_singleton.mp hi]
  refine ⟨fun id hid => ?_, ?_⟩
  · obtain ⟨order, horder, hlength⟩ := hpreorder id hid
    exact horder.walked hlength
  · obtain ⟨order, horder, hlength⟩ := hpreorder root hsize
    have hwalks : Walks tree.deeper? [(root, 0)] order := horder.walks
    refine ⟨order, horder, hwalks, ?_, ?_⟩
    · have hnodes := hlayout.nodes_perm horder
      have hrange : List.range tree.size = [root] ++ List.range' 1 (tree.size - 1) := by
        rw [List.range_eq_range', ← Nat.sub_add_cancel hsize, List.range'_succ]
        rfl
      rwa [hrange]
    · rw [render, outline_of_walks hwalks hlength, List.map_map]
      congr 1
      apply List.map_congr_left
      rintro ⟨id, depth⟩ _
      simp only [Function.comp_apply, indent_eq]

/-- Nothing stands under the first child of the root, so a search has to back out of it. -/
def paddedTree : SyntaxTree := ⟨#[.inner "S" [1, 2], .inner "T" [], .leaf ⟨"a", "a", 1, 1⟩]⟩

theorem walks_exact_padded :
    paddedTable.parse "S" [⟨"a", "a", 1, 1⟩] = some (.ok paddedTree) ∧
      paddedTree.Walked root ∧ paddedTree.Walked 1 := by
  have hparse : paddedTable.parse "S" [⟨"a", "a", 1, 1⟩] = some (.ok paddedTree) :=
    Parse.parse_of_run (n := 8) (by decide +kernel)
  exact ⟨hparse, (walks_exact hparse).1 root (by decide), (walks_exact hparse).1 1 (by decide)⟩

example : paddedTree.render = "S\n  T\n  a `a` 1:1\n" := by cbv

end SyntaxTree

end TopDown
