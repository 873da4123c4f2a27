import Mathlib.Data.List.Forall2
import TopDown.Proofs.Recasting
import TopDown.Proofs.Recognition
import TopDown.Proofs.Toy.Inference

/-!
Trees that differ in the texts and the places of their tokens only. All names are renamed alike,
the texts of integer literals are kept because sizes of arrays are read from them, and what the
other texts and all places are is left open. What the analysis looks up in one of the trees it finds
at the same node of the other.
-/
namespace TopDown

variable {f : String → String} {tree tree' : SyntaxTree} {id : NodeId}

structure Token.Renamed (f : String → String) (token token' : Token) : Prop where
  kind_eq : token'.kind = token.kind
  name_eq : token.kind = "ID" → token'.lexeme = f token.lexeme
  number_eq : token.kind = "INT_LITERAL" → token'.lexeme = token.lexeme

inductive Node.Renamed (f : String → String) : Node → Node → Prop where
  | inner (name : String) (children : List NodeId) :
      Renamed f (.inner name children) (.inner name children)
  | leaf {token token' : Token} (h : token.Renamed f token') :
      Renamed f (.leaf token) (.leaf token')

namespace SyntaxTree

structure Renamed (f : String → String) (tree tree' : SyntaxTree) : Prop where
  size_eq : tree'.size = tree.size
  node : ∀ id, Option.Rel (Node.Renamed f) (tree.node? id) (tree'.node? id)

theorem renamed_mapTokens {g : Token → Token} (hg : ∀ token : Token, token.Renamed f (g token))
    (tree : SyntaxTree) : tree.Renamed f (tree.mapTokens g) where
  size_eq := Array.size_map
  node := by
    intro id
    simp only [node?, mapTokens, Array.getElem?_map]
    cases tree.nodes[id]? with
    | none => exact .none
    | some node =>
      cases node with
      | inner name children => exact .some (.inner name children)
      | leaf token => exact .some (.leaf (hg token))

/-- The children of a node are nodes of the tree. -/
def Closed (tree : SyntaxTree) : Prop := ∀ id, ∀ child ∈ tree.children id, child < tree.size

theorem lt_size_of_node? {node : Node} (h : tree.node? id = some node) : id < tree.size :=
  (Array.getElem?_eq_some_iff.mp h).1

theorem lt_size_of_nonterminal? {name : String} (h : tree.nonterminal? id = some name) :
    id < tree.size := by
  unfold nonterminal? at h
  split at h
  · exact lt_size_of_node? ‹_›
  · cases h

namespace Renamed

/-- What stands at one place in both trees. -/
theorem node_cases (h : tree.Renamed f tree') (id : NodeId) :
    (tree.node? id = none ∧ tree'.node? id = none) ∨
      (∃ name children, tree.node? id = some (.inner name children) ∧
        tree'.node? id = some (.inner name children)) ∨
      ∃ token token', tree.node? id = some (.leaf token) ∧ tree'.node? id = some (.leaf token') ∧
        token.Renamed f token' := by
  have hnode := h.node id
  generalize tree.node? id = node at hnode ⊢
  generalize tree'.node? id = node' at hnode ⊢
  cases hnode with
  | none => exact Or.inl ⟨rfl, rfl⟩
  | some hsame =>
    cases hsame with
    | inner name children => exact Or.inr (Or.inl ⟨name, children, rfl, rfl⟩)
    | leaf htoken => exact Or.inr (Or.inr ⟨_, _, rfl, rfl, htoken⟩)

theorem children_eq (h : tree.Renamed f tree') (id : NodeId) :
    tree'.children id = tree.children id := by
  unfold children
  rcases h.node_cases id with ⟨hid, hid'⟩ | ⟨_, _, hid, hid'⟩ | ⟨_, _, hid, hid', _⟩ <;>
    rw [hid, hid']

theorem nonterminal?_eq (h : tree.Renamed f tree') (id : NodeId) :
    tree'.nonterminal? id = tree.nonterminal? id := by
  unfold nonterminal?
  rcases h.node_cases id with ⟨hid, hid'⟩ | ⟨_, _, hid, hid'⟩ | ⟨_, _, hid, hid', _⟩ <;>
    rw [hid, hid']

/-- A walk finds tokens of one kind in both trees. -/
theorem kind_search (h : tree.Renamed f tree') (arrange : List NodeId → List NodeId)
    (visits : Nat) (pending : List NodeId) :
    (tree'.search arrange visits pending).map Token.kind =
      (tree.search arrange visits pending).map Token.kind := by
  induction visits generalizing pending with
  | zero => rfl
  | succ visits ih =>
    cases pending with
    | nil => rfl
    | cons id pending =>
      rcases h.node_cases id with ⟨hid, hid'⟩ | ⟨_, _, hid, hid'⟩ | ⟨_, _, hid, hid', htoken⟩
      · rw [search_none hid, search_none hid']
        exact ih pending
      · rw [search_inner hid, search_inner hid']
        exact ih _
      · rw [search_leaf hid, search_leaf hid', Option.map_some, Option.map_some, htoken.kind_eq]

theorem kind_firstToken (h : tree.Renamed f tree') (id : NodeId) :
    (tree'.firstToken id).map Token.kind = (tree.firstToken id).map Token.kind := by
  unfold firstToken
  rw [h.size_eq]
  exact h.kind_search _ _ _

end Renamed

end SyntaxTree

namespace Layout

variable {next stop : Nat} {ids : List NodeId} {ds : List Derivation} {tokens : List Token}

/-- The children of a laid out node are laid out. -/
theorem child_isSome (h : Layout tree.node? next ids ds tokens stop) {i child : NodeId}
    (hi : i ∈ ids ∨ (next ≤ i ∧ i < stop)) (hchild : child ∈ tree.children i) :
    (tree.node? child).isSome := by
  obtain ⟨d, start, inner, finish, hroot, _⟩ :=
    h.exists_subtree (P := fun _ => True) (fun _ _ _ _ _ => trivial) (fun _ _ => trivial) hi
  cases hroot with
  | leaf hid _ =>
    simp only [SyntaxTree.children, hid] at hchild
    exact absurd hchild List.not_mem_nil
  | node hid hinner _ =>
    rw [SyntaxTree.children_of_inner hid] at hchild
    exact hinner.isSome (Or.inl hchild)

theorem closed {d : Derivation} (h : Layout tree.node? 1 [SyntaxTree.root] [d] tokens tree.size) :
    tree.Closed := by
  intro id child hchild
  have hid : id < tree.size := by
    refine Nat.lt_of_not_le fun hle => ?_
    have hnone : tree.node? id = none := Array.getElem?_eq_none hle
    simp only [SyntaxTree.children, hnone] at hchild
    exact absurd hchild List.not_mem_nil
  obtain ⟨node, hnode⟩ := Option.isSome_iff_exists.mp (h.child_isSome (root_or_later hid) hchild)
  exact SyntaxTree.lt_size_of_node? hnode

end Layout

namespace Toy

/-- Two leaves at one place, and their tokens. -/
structure LeafNode.Renamed (f : String → String) (tree tree' : SyntaxTree)
    (leaf leaf' : LeafNode) : Prop where
  id_eq : leaf'.id = leaf.id
  node_eq : tree.node? leaf.id = some (.leaf leaf.token)
  node_eq' : tree'.node? leaf.id = some (.leaf leaf'.token)
  token : leaf.token.Renamed f leaf'.token

theorem LeafNode.Renamed.lt_size {leaf leaf' : LeafNode} (h : leaf.Renamed f tree tree' leaf') :
    leaf.id < tree.size :=
  SyntaxTree.lt_size_of_node? h.node_eq

theorem Construct.ofNonterminal_ne_leaf (name : String) (token : Token) :
    Construct.ofNonterminal name ≠ .leaf token := by
  intro heq
  unfold ofNonterminal at heq
  split at heq <;> cases heq

section Parts

variable (h : tree.Renamed f tree')
include h

theorem constructOf_cases (id : NodeId) :
    (∃ token token', constructOf tree id = .leaf token ∧ constructOf tree' id = .leaf token' ∧
        LeafNode.Renamed f tree tree' ⟨id, token⟩ ⟨id, token'⟩) ∨
      (constructOf tree' id = constructOf tree id ∧
        ∀ token, constructOf tree id ≠ .leaf token) := by
  unfold constructOf
  rcases h.node_cases id with ⟨hid, hid'⟩ | ⟨name, children, hid, hid'⟩ | ⟨_, _, hid, hid', htoken⟩
  · rw [hid, hid']
    exact Or.inr ⟨rfl, fun _ => Construct.noConfusion⟩
  · rw [hid, hid']
    exact Or.inr ⟨rfl, Construct.ofNonterminal_ne_leaf name⟩
  · rw [hid, hid']
    exact Or.inl ⟨_, _, rfl, rfl, rfl, hid, hid', htoken⟩

theorem childNode?_eq (id : NodeId) (name : String) :
    childNode? tree' id name = childNode? tree id name := by
  unfold childNode?
  rw [h.children_eq, funext h.nonterminal?_eq]

theorem indexExpression?_eq (id : NodeId) :
    indexExpression? tree' id = indexExpression? tree id := by
  unfold indexExpression?
  rw [childNode?_eq h, funext fun suffix => childNode?_eq h suffix "Expression"]

theorem returnedExpression?_eq (id : NodeId) :
    returnedExpression? tree' id = returnedExpression? tree id := by
  unfold returnedExpression?
  rw [childNode?_eq h, funext fun value => childNode?_eq h value "Expression"]

/-- The first child of a kind is the same one in both trees. -/
theorem childLeaf?_renamed (id : NodeId) (kind : String) :
    Option.Rel (fun leaf leaf' => leaf.token.kind = kind ∧ LeafNode.Renamed f tree tree' leaf leaf')
      (childLeaf? tree id kind) (childLeaf? tree' id kind) := by
  unfold childLeaf?
  rw [h.children_eq]
  induction tree.children id with
  | nil => exact .none
  | cons child children ih =>
    rw [List.findSome?_cons, List.findSome?_cons]
    unfold SyntaxTree.token?
    rcases h.node_cases child with
      ⟨hid, hid'⟩ | ⟨_, _, hid, hid'⟩ | ⟨token, token', hid, hid', htoken⟩
    · rw [hid, hid']
      exact ih
    · rw [hid, hid']
      exact ih
    · rw [hid, hid']
      simp only [htoken.kind_eq]
      by_cases hkind : token.kind = kind
      · rw [if_pos hkind, if_pos hkind]
        exact .some ⟨hkind, rfl, hid, hid', htoken⟩
      · rw [if_neg hkind, if_neg hkind]
        exact ih

end Parts

end Toy

end TopDown
