import TopDown.Proofs.Ownership
import TopDown.Proofs.Toy.UnboundedVisits

/-!
The analysis as plain recursion. A visit keeps a list of pending nodes, and the operands of a chain
are gone through in a loop over its tails; both are bounded. The recursive definitions here have no
bound and keep nothing pending: they call themselves on nodes further on in the array, which is
where all that is below a node of a parsed tree stands. On parsed trees both ways leave the same
state, the same types and the same first violation.
-/
namespace TopDown

namespace SyntaxTree

/-- The other node is one of the array and stands further on. -/
def Later (tree : SyntaxTree) (id lower : NodeId) : Prop := id < lower ∧ lower < tree.size

instance (tree : SyntaxTree) (id lower : NodeId) : Decidable (tree.Later id lower) :=
  inferInstanceAs (Decidable (_ ∧ _))

/-- Goes on at a node further on; there is nothing to go on with anywhere else. -/
def descend {α : Type} (tree : SyntaxTree) (id : NodeId) (otherwise : α)
    (go : (lower : NodeId) → tree.Later id lower → α) (lower : NodeId) : α :=
  if h : tree.Later id lower then go lower h else otherwise

variable {tree : SyntaxTree} {id lower : NodeId}

theorem Later.lt (h : tree.Later id lower) : tree.size - lower < tree.size - id :=
  Nat.sub_lt_sub_left (Nat.lt_trans h.1 h.2) h.1

theorem descend_of_later {α : Type} {otherwise : α}
    {go : (lower : NodeId) → tree.Later id lower → α} (h : tree.Later id lower) :
    tree.descend id otherwise go lower = go lower h := dif_pos h

/-- Children stand further on in the array than their parents. -/
def ParentsFirst (tree : SyntaxTree) : Prop := ∀ id, ∀ child ∈ tree.children id, tree.Later id child

theorem ParentsFirst.closed (hlater : tree.ParentsFirst) (h : tree.Later id lower) {child : NodeId}
    (hchild : child ∈ tree.children lower) : tree.Later id child :=
  ⟨Nat.lt_trans h.1 (hlater lower child hchild).1, (hlater lower child hchild).2⟩

end SyntaxTree

namespace Toy

namespace View

section Definitions

variable (tree : SyntaxTree) (view : View)

/-- The type of a chain: the first operand is inferred, and its type goes down the tail. -/
def chainOver (below : NodeId → Verdict (Option ValueType))
    (tailBelow : ValueType → NodeId → Verdict ValueType) (id : NodeId) :
    Verdict (Option ValueType) :=
  match tree.children id with
  | [] => .error (malformed tree id "operand")
  | [operand] => do
    let left ← require tree operand (← below operand)
    return some left
  | operand :: tail :: _ => do
    let left ← require tree operand (← below operand)
    return some (← tailBelow left tail)

/-- What a tail makes of the type of the first operand: the operand of a tail with three children
must have the same type, or its operator is to blame, and the third child goes on; a tail of any
other shape answers that type. -/
def linkOver (below : NodeId → Verdict (Option ValueType))
    (tailBelow : ValueType → NodeId → Verdict ValueType) (left : ValueType) (tail : NodeId) :
    Verdict ValueType :=
  match tree.children tail with
  | [operator, operand, next] => do
    let right ← require tree operand (← below operand)
    if right ≠ left then .error (violation tree (.expressionTypeMismatch left right) operator)
    else tailBelow left next
  | _ => .ok left

mutual

/-- The type of a node, by recursion on the nodes below it. -/
def typeBelow (id : NodeId) : Verdict (Option ValueType) :=
  if constructOf tree id = .chain then
    chainOver tree (tree.descend id (.ok none) fun lower _ => typeBelow lower)
      (fun left => tree.descend id (.ok left) fun lower _ => tailBelow left lower) id
  else
    view.typeOver tree (tree.descend id (.ok none) fun lower _ => typeBelow lower)
      (fun _ _ => .ok ()) id
termination_by tree.size - id
decreasing_by all_goals exact SyntaxTree.Later.lt ‹_›

/-- What a tail makes of the type of the first operand, by recursion on the nodes below it. -/
def tailBelow (left : ValueType) (id : NodeId) : Verdict ValueType :=
  linkOver tree (tree.descend id (.ok none) fun lower _ => typeBelow lower)
    (fun left => tree.descend id (.ok left) fun lower _ => tailBelow left lower) left id
termination_by tree.size - id
decreasing_by all_goals exact SyntaxTree.Later.lt ‹_›

end

/-- What the loop over the tails of a chain ends with when no bound cuts it short: it goes on from
tail to tail for as long as the operands have the type of the first one. -/
inductive Loops (left : ValueType) : NodeId → Verdict ValueType → Prop where
  | done {tail : NodeId}
      (hother : ∀ operator operand next, tree.children tail ≠ [operator, operand, next]) :
      Loops left tail (.ok left)
  | refused {tail operator operand next : NodeId} {e : Located SemanticError}
      (htail : tree.children tail = [operator, operand, next])
      (hoperand : view.type tree operand = .error e) : Loops left tail (.error e)
  | differs {tail operator operand next : NodeId} {right : ValueType}
      (htail : tree.children tail = [operator, operand, next])
      (hoperand : view.type tree operand = .ok right) (hne : right ≠ left) :
      Loops left tail (.error (violation tree (.expressionTypeMismatch left right) operator))
  | next {tail operator operand next : NodeId} {v : Verdict ValueType}
      (htail : tree.children tail = [operator, operand, next])
      (hoperand : view.type tree operand = .ok left) :
      Loops left next v → Loops left tail v

end Definitions

section Agreement

variable {tree : SyntaxTree} {view : View} {id : NodeId}
  {below below' : NodeId → Verdict (Option ValueType)}

/-- The loop over the tails keeps the type of the first operand at hand; the recursion hands it down
and gets it back. -/
theorem typeOver_chain {tailBelow : ValueType → NodeId → Verdict Unit}
    (hchain : constructOf tree id = .chain) :
    view.typeOver tree below tailBelow id =
      chainOver tree below (fun left tail => tailBelow left tail >>= fun _ => .ok left) id := by
  rw [typeOver, hchain, chainOver]
  cases tree.children id with
  | nil => rfl
  | cons operand rest =>
    cases rest with
    | nil => rfl
    | cons tail _ =>
      simp only [bind_assoc]
      rfl

/-- Tails belong to chains. -/
theorem typeOver_of_ne_chain {tailBelow tailBelow' : ValueType → NodeId → Verdict Unit}
    (hchain : constructOf tree id ≠ .chain) :
    view.typeOver tree below tailBelow id = view.typeOver tree below tailBelow' id := by
  unfold typeOver
  cases hconstruct : constructOf tree id with
  | chain => exact absurd hconstruct hchain
  | _ => rfl

theorem tailOver_link {tailBelow : ValueType → NodeId → Verdict Unit} (left : ValueType) :
    (tailOver tree below tailBelow left id >>= fun _ => .ok left) =
      linkOver tree below (fun left tail => tailBelow left tail >>= fun _ => .ok left) left id := by
  unfold tailOver linkOver
  generalize tree.children id = ids
  match ids with
  | [operator, operand, next] =>
    simp only [bind_assoc]
    apply bind_congr
    intro actual
    apply bind_congr
    intro right
    by_cases heq : right = left
    · rw [if_pos heq, if_neg (not_not_intro heq)]
    · rw [if_neg heq, if_pos heq]
      rfl
  | [] | [_] | [_, _] | _ :: _ :: _ :: _ :: _ => rfl

section Congruence

variable {tailBelow tailBelow' : ValueType → NodeId → Verdict ValueType}
  (hbelow : ∀ child ∈ tree.children id, below child = below' child)
  (htail : ∀ child ∈ tree.children id, ∀ left, tailBelow left child = tailBelow' left child)

include hbelow htail

theorem chainOver_congr :
    chainOver tree below tailBelow id = chainOver tree below' tailBelow' id := by
  unfold chainOver
  split
  next => rfl
  next operand hchildren =>
    rw [hbelow operand (by rw [hchildren]; exact List.mem_cons_self)]
  next operand tail rest hchildren =>
    have htailMem : tail ∈ tree.children id := by
      rw [hchildren]
      exact List.mem_cons_of_mem _ List.mem_cons_self
    rw [hbelow operand (by rw [hchildren]; exact List.mem_cons_self)]
    simp only [htail tail htailMem]

theorem linkOver_congr (left : ValueType) :
    linkOver tree below tailBelow left id = linkOver tree below' tailBelow' left id := by
  unfold linkOver
  split
  next operator operand next hchildren =>
    rw [hbelow operand (by rw [hchildren]; simp), htail next (by rw [hchildren]; simp)]
  next => rfl

end Congruence

variable (hfirst : tree.ParentsFirst)
include hfirst

theorem typeBelow_chain (hchain : constructOf tree id = .chain) :
    view.typeBelow tree id =
      chainOver tree (view.typeBelow tree) (view.tailBelow tree) id := by
  rw [typeBelow, if_pos hchain]
  refine chainOver_congr (fun child hchild => ?_) (fun child hchild left => ?_)
  · exact SyntaxTree.descend_of_later (hfirst id child hchild)
  · exact SyntaxTree.descend_of_later (hfirst id child hchild)

theorem tailBelow_eq (left : ValueType) :
    view.tailBelow tree left id =
      linkOver tree (view.typeBelow tree) (view.tailBelow tree) left id := by
  rw [tailBelow]
  refine linkOver_congr (fun child hchild => ?_) (fun child hchild left => ?_) left
  · exact SyntaxTree.descend_of_later (hfirst id child hchild)
  · exact SyntaxTree.descend_of_later (hfirst id child hchild)

/-- Bounded inference and the check of tails give what the recursion gives. The induction is on the
number of nodes further on in the array. -/
theorem agrees (hall : ∀ i, i < tree.size → tree.Founded [i]) (hid : id < tree.size) :
    view.type? tree id = view.typeBelow tree id ∧
      ∀ left, (view.tail tree left id >>= fun _ => .ok left) = view.tailBelow tree left id := by
  induction hn : tree.size - id using Nat.strongRecOn generalizing id with
  | ind n ih =>
    have hlower : ∀ lower, tree.Later id lower →
        view.type? tree lower = view.typeBelow tree lower ∧
          ∀ left, (view.tail tree left lower >>= fun _ => .ok left) =
            view.tailBelow tree left lower :=
      fun lower h => ih _ (hn ▸ h.lt) h.2 rfl
    have hchildren : ∀ child ∈ tree.children id, tree.Later id child := hfirst id
    constructor
    · rw [type?_eq (hall id hid)]
      by_cases hchain : constructOf tree id = .chain
      · rw [typeOver_chain hchain, typeBelow_chain hfirst hchain]
        exact chainOver_congr (fun child hchild => (hlower child (hchildren child hchild)).1)
          (fun child hchild => (hlower child (hchildren child hchild)).2)
      · have htypes : ∀ lower, tree.Later id lower → view.type? tree lower =
            tree.descend id (.ok none) (fun lower _ => view.typeBelow tree lower) lower := by
          intro lower hlater
          rw [SyntaxTree.descend_of_later hlater, (hlower lower hlater).1]
        rw [typeBelow, if_neg hchain, typeOver_of_ne_chain hchain]
        exact typeOver_congr htypes (fun _ _ _ => rfl) hchildren
          fun _ hlater _ hchild => hfirst.closed hlater hchild
    · intro left
      rw [tail_eq (hall id hid), tailOver_link, tailBelow_eq hfirst]
      exact linkOver_congr (fun child hchild => (hlower child (hchildren child hchild)).1)
        (fun child hchild => (hlower child (hchildren child hchild)).2) left

/-- The loop over the tails ends with what the recursion gives. -/
theorem loops (hall : ∀ i, i < tree.size → tree.Founded [i]) (hid : id < tree.size)
    (left : ValueType) : view.Loops tree left id (view.tailBelow tree left id) := by
  induction hn : tree.size - id using Nat.strongRecOn generalizing id with
  | ind n ih =>
    rw [tailBelow_eq hfirst, linkOver]
    split
    next operator operand next htail =>
      have hchild : ∀ child ∈ [operator, operand, next], tree.Later id child :=
        htail ▸ hfirst id
      have hoperand := hchild operand (by simp)
      have hnext := hchild next (by simp)
      rw [← (agrees hfirst hall hoperand.2).1, ← bind_assoc]
      change view.Loops tree left id (view.type tree operand >>= _)
      cases htype : view.type tree operand with
      | error e => exact .refused htail htype
      | ok right =>
        by_cases heq : right = left
        · subst heq
          have hrest := ih _ (hn ▸ hnext.lt) hnext.2 rfl
          change view.Loops tree right id (if right ≠ right then _ else _)
          rw [if_neg (not_not_intro rfl)]
          exact .next htail htype hrest
        · change view.Loops tree left id (if right ≠ left then _ else _)
          rw [if_pos heq]
          exact .differs htail htype heq
    next hother => exact .done hother

end Agreement

end View

namespace Visit

/-- Visits a node and what is below it, by recursion on the nodes below it. -/
def recursively (tree : SyntaxTree) (returns : Option ValueType) (id : NodeId) : Visit Unit :=
  nodeOver tree (fun returned =>
    tree.descend id (return) fun lower _ => recursively tree returned lower) returns id
termination_by tree.size - id
decreasing_by exact SyntaxTree.Later.lt ‹_›

/-- Visits one node after the other, each in the state that the one before it left, up to the first
violation. -/
def inTurn (visit : NodeId → Visit Unit) : List NodeId → State → Outcome
  | [], s => .ok () s
  | id :: ids, s =>
    match visit id s with
    | .ok _ t => inTurn visit ids t
    | .error e t => .error e t

variable {tree : SyntaxTree} {id : NodeId} {returns : Option ValueType}

theorem forM_eq_inTurn (visit : NodeId → Visit Unit) (ids : List NodeId) (s : State) :
    forM ids visit s = inTurn visit ids s := by
  induction ids generalizing s with
  | nil => rfl
  | cons id ids ih =>
    rw [List.forM_cons, inTurn]
    cases hvisit : visit id s with
    | ok _ t => rw [bind_of_ok hvisit, ih]
    | error e t => rw [bind_of_error hvisit]

theorem recursively_eq (hfirst : tree.ParentsFirst) :
    recursively tree returns id = nodeOver tree (recursively tree) returns id := by
  rw [recursively]
  exact nodeOver_congr fun child hchild _ =>
    SyntaxTree.descend_of_later (hfirst id child hchild)

/-- The visit with pending nodes is the recursive one. The induction is on the number of nodes
further on in the array. -/
theorem node_eq_recursively (hall : ∀ i, i < tree.size → tree.Founded [i])
    (hfirst : tree.ParentsFirst) (hid : id < tree.size) :
    node tree returns id = recursively tree returns id := by
  induction hn : tree.size - id using Nat.strongRecOn generalizing id returns with
  | ind n ih =>
    rw [node_eq (hall id hid), recursively_eq hfirst]
    refine nodeOver_congr fun child hchild _ => ?_
    have hlater := hfirst id child hchild
    exact ih _ (hn ▸ hlater.lt) hlater.2 rfl

theorem recursively_composite (hfirst : tree.ParentsFirst)
    (hcomposite : constructOf tree id = .composite) (s : State) :
    recursively tree returns id s = inTurn (recursively tree returns) (tree.children id) s := by
  rw [recursively_eq hfirst, nodeOver, hcomposite]
  exact forM_eq_inTurn _ _ s

end Visit

/-- The analysis of the tree goes by recursion: the visits with pending nodes and the bounded
inference are the recursive ones at every node, composites are visited child by child and chains are
inferred operand by operand. Without bounds the loop over the tails of a chain and the run from the
root end as the recursion does. -/
structure Recursive (tree : SyntaxTree) : Prop where
  visits : ∀ id, id < tree.size → ∀ returns, Visit.node tree returns id =
    Visit.recursively tree returns id
  composites : ∀ id, constructOf tree id = .composite → ∀ returns s,
    Visit.recursively tree returns id s =
      Visit.inTurn (Visit.recursively tree returns) (tree.children id) s
  types : ∀ view : View, ∀ id, id < tree.size → view.type? tree id = view.typeBelow tree id
  chains : ∀ view : View, ∀ id, constructOf tree id = .chain →
    view.typeBelow tree id = View.chainOver tree (view.typeBelow tree) (view.tailBelow tree) id
  tails : ∀ view : View, ∀ left id,
    view.tailBelow tree left id =
      View.linkOver tree (view.typeBelow tree) (view.tailBelow tree) left id
  loops : ∀ view : View, ∀ left id, id < tree.size →
    view.Loops tree left id (view.tailBelow tree left id)
  run : Visit.Runs tree none [SyntaxTree.root] .initial
    (Visit.recursively tree none SyntaxTree.root .initial)
  verdict : analyze tree = Visit.verdict (Visit.recursively tree none SyntaxTree.root .initial)

theorem analysis_recursive {table : Table} {start : String} {tokens : List Token}
    {tree : SyntaxTree} (hparse : table.parse start tokens = some (.ok tree)) :
    Recursive tree := by
  obtain ⟨hsize, d, _, hlayout⟩ := Grammar.exists_layout_of_parse hparse
  have hall : ∀ i, i < tree.size → tree.Founded [i] := fun i hi => hlayout.founded_of_lt hi
  have hfirst : tree.ParentsFirst := fun _ _ hchild => hlayout.lt_of_mem_children hchild
  have hroot : Visit.node tree none SyntaxTree.root = Visit.recursively tree none SyntaxTree.root :=
    Visit.node_eq_recursively hall hfirst hsize
  have hrun : Visit.Runs tree none [SyntaxTree.root] .initial
      (Visit.node tree none SyntaxTree.root .initial) := by
    have hforM := Visit.runs_forM hall (hall _ hsize) (Nat.le_refl _) State.Scoped.initial
      fun _ : none = none => rfl
    rwa [List.forM_cons, List.forM_nil, bind_pure_unit] at hforM
  have hverdict : analyze tree = Visit.verdict (Visit.node tree none SyntaxTree.root .initial) :=
    analyze_eq tree
  rw [hroot] at hrun hverdict
  exact
    { visits := fun _ hid _ => Visit.node_eq_recursively hall hfirst hid
      composites := fun _ hcomposite _ => Visit.recursively_composite hfirst hcomposite
      types := fun _ _ hid => (View.agrees hfirst hall hid).1
      chains := fun _ _ hchain => View.typeBelow_chain hfirst hchain
      tails := fun _ left _ => View.tailBelow_eq hfirst left
      loops := fun _ left _ hid => View.loops hfirst hall hid left
      run := hrun
      verdict := hverdict }

/-- A table for a list of sums, the list being a composite and each sum a chain. -/
def sumsTable : Table where
  cells :=
    [⟨.terminal "INT_LITERAL", ⟨"Sums", 0, [.nonterminal "Expression", .nonterminal "Sums"]⟩⟩,
      ⟨.endOfInput, ⟨"Sums", 1, []⟩⟩,
      ⟨.terminal "INT_LITERAL", ⟨"Expression", 0, [.terminal "INT_LITERAL", .nonterminal "Tail"]⟩⟩,
      ⟨.terminal "+", ⟨"Tail", 0, [.terminal "+", .terminal "FLOAT_LITERAL", .nonterminal "Tail"]⟩⟩,
      ⟨.endOfInput, ⟨"Tail", 1, []⟩⟩]

/-- The sum of an integer and a number that is none. -/
def mixedSum : List Token :=
  [⟨"INT_LITERAL", "1", 1, 1⟩, ⟨"+", "+", 1, 3⟩, ⟨"FLOAT_LITERAL", "2.5", 1, 5⟩]

def mixedSumTree : SyntaxTree :=
  ⟨#[.inner "Sums" [1, 2], .inner "Expression" [3, 4], .inner "Sums" [],
    .leaf ⟨"INT_LITERAL", "1", 1, 1⟩, .inner "Tail" [5, 6, 7], .leaf ⟨"+", "+", 1, 3⟩,
    .leaf ⟨"FLOAT_LITERAL", "2.5", 1, 5⟩, .inner "Tail" []]⟩

theorem analysis_recursive_mixedSum :
    sumsTable.parse "Sums" mixedSum = some (.ok mixedSumTree) ∧
      Visit.verdict (Visit.recursively mixedSumTree none SyntaxTree.root .initial) =
        .error ⟨.expressionTypeMismatch .int .float, .inStream 1 3⟩ := by
  have hparse : sumsTable.parse "Sums" mixedSum = some (.ok mixedSumTree) :=
    Parse.parse_of_run (n := 16) (by decide +kernel)
  refine ⟨hparse, ?_⟩
  rw [← (analysis_recursive hparse).verdict]
  rfl

end Toy

end TopDown
