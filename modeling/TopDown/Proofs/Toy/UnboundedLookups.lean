import TopDown.Proofs.Toy.ScopeTrees
import TopDown.Proofs.Toy.Inference

/-!
Lookups without bounds. The walks and the inference are written with a bound on their steps; the
relations here follow the same steps with no bound, so that a lookup is related to an answer only if
it comes to an end. Where no node lies below itself and the scopes form a tree, every bounded lookup
is related to its own answer.
-/
namespace TopDown

namespace SyntaxTree

/-- What a search through the pending nodes ends with when no bound cuts it short. -/
inductive Finds (tree : SyntaxTree) (arrange : List NodeId → List NodeId) :
    List NodeId → Option Token → Prop where
  | nothing : Finds tree arrange [] none
  | absent {id : NodeId} {pending : List NodeId} {found : Option Token}
      (hid : tree.node? id = none) :
      Finds tree arrange pending found → Finds tree arrange (id :: pending) found
  | leaf {id : NodeId} {pending : List NodeId} {token : Token}
      (hid : tree.node? id = some (.leaf token)) : Finds tree arrange (id :: pending) (some token)
  | inner {id : NodeId} {name : String} {children pending : List NodeId} {found : Option Token}
      (hid : tree.node? id = some (.inner name children)) :
      Finds tree arrange (arrange children ++ pending) found →
      Finds tree arrange (id :: pending) found

variable {tree : SyntaxTree}

/-- As many visits as there are nodes under the pending ones take a search to its end. -/
theorem finds_search {arrange : List NodeId → List NodeId}
    (harrange : ∀ ids n, tree.Spans ids n → tree.Spans (arrange ids) n) {ids : List NodeId}
    {n visits : Nat} (h : tree.Spans ids n) (hvisits : n ≤ visits) :
    tree.Finds arrange ids (tree.search arrange visits ids) := by
  induction n using Nat.strongRecOn generalizing ids visits with
  | ind n ih =>
    cases h with
    | nil =>
      rw [search_nil]
      exact .nothing
    | @cons id ids below beside _ hn hbelow hbeside =>
      obtain ⟨visits, rfl⟩ : ∃ v, visits = v + 1 := ⟨visits - 1, by omega⟩
      cases hnode : tree.node? id with
      | none =>
        rw [search_none hnode]
        exact .absent hnode (ih beside (by omega) hbeside (by omega))
      | some node =>
        cases node with
        | leaf token =>
          rw [search_leaf hnode]
          exact .leaf hnode
        | inner name children =>
          rw [children_of_inner hnode] at hbelow
          have hpending := (harrange children below hbelow).append hbeside
          rw [search_inner hnode]
          exact .inner hnode (ih (below + beside) hn hpending (by omega))

theorem finds_firstToken {id : NodeId} (h : tree.Founded [id]) :
    tree.Finds (fun ids => ids) [id] (tree.firstToken id) :=
  finds_search (fun _ _ hids => hids) h (Nat.le_refl _)

/-- A node that the inference comes to from another: a child, or the child of one. -/
def Below (tree : SyntaxTree) (id lower : NodeId) : Prop :=
  lower ∈ tree.children id ∨ ∃ child ∈ tree.children id, lower ∈ tree.children child

end SyntaxTree

namespace Toy.View

/-- The type of a node and what its check as a tail says, computed from those of the nodes below it
and so on down, with no bound on the levels. -/
inductive Infers (tree : SyntaxTree) (view : View) :
    NodeId → Verdict (Option ValueType) → (ValueType → Verdict Unit) → Prop where
  | over {id : NodeId} (types : NodeId → Verdict (Option ValueType))
      (tails : ValueType → NodeId → Verdict Unit)
      (hbelow : ∀ lower, tree.Below id lower →
        Infers tree view lower (types lower) fun left => tails left lower) :
      Infers tree view id (view.typeOver tree types tails id) fun left =>
        tailOver tree types tails left id

/-- Every lookup that starts from the view ends: of a name and of the type of a node. -/
structure Settles (tree : SyntaxTree) (view : View) : Prop where
  names : ∀ name, view.symbols.Resolves name view.scope (view.resolve? name)
  types : ∀ id, id < tree.size → ∃ tails, Infers tree view id (view.type? tree id) tails

variable {tree : SyntaxTree} {view : View}

/-- As many levels as there are nodes take the inference to its end. -/
theorem infers {id : NodeId} {n : Nat} (h : tree.Spans [id] n) (hn : n ≤ tree.size) :
    view.Infers tree id (view.type? tree id) fun left => view.tail tree left id := by
  induction n using Nat.strongRecOn generalizing id with
  | ind n ih =>
    have hfounded : tree.Founded [id] := h.mono hn
    obtain ⟨n, rfl⟩ := Nat.exists_eq_succ_of_ne_zero (Nat.ne_of_gt h.pos)
    rw [type?_eq hfounded, funext (tail_eq hfounded)]
    refine .over _ _ fun lower hlower => ?_
    -- The index of an element stands two levels down, in the suffix of the name.
    rcases hlower with hchild | ⟨child, hchild, hgrandchild⟩
    · exact ih n (Nat.lt_succ_self n) (h.child hchild) (by omega)
    · exact ih n (Nat.lt_succ_self n) ((h.child hchild).closed hgrandchild) (by omega)

end Toy.View

end TopDown
