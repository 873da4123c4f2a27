import TopDown.Proofs.Layout
import TopDown.Proofs.Machine

/-!
What the machine builds while it reads. Frames on the stack await their nodes: a terminal's node is
empty, a nonterminal's has no children yet. Working the frames of a form off lays out the forest
that is read, gives it all the nodes made meanwhile, and touches no other node. A run that reads all
of its tokens ends with a tree that fills its array.
-/
namespace TopDown.Parse

open TopDown.Derivation

/-- The node in a slot that exists and is filled. -/
def nodeAt (nodes : Array (Option Node)) (id : NodeId) : Option Node := nodes[id]?.join

/-- The frames hold the symbols of the form, and the nodes of those that stand for something are as
expansion makes them. -/
inductive Awaits (nodes : Array (Option Node)) :
    List Frame → List Symbol → List NodeId → Prop where
  | nil : Awaits nodes [] [] []
  | epsilon (node : NodeId) {frames : List Frame} {form : List Symbol} {ids : List NodeId} :
      Awaits nodes frames form ids →
      Awaits nodes (.symbol .epsilon node :: frames) (.epsilon :: form) ids
  | terminal (t : String) {id : NodeId} {frames : List Frame} {form : List Symbol}
      {ids : List NodeId} (hid : nodes[id]? = some none) : Awaits nodes frames form ids →
      Awaits nodes (.symbol (.terminal t) id :: frames) (.terminal t :: form) (id :: ids)
  | nonterminal (name : String) {id : NodeId} {frames : List Frame} {form : List Symbol}
      {ids : List NodeId} (hid : nodes[id]? = some (some (.inner name []))) :
      Awaits nodes frames form ids →
      Awaits nodes (.symbol (.nonterminal name) id :: frames) (.nonterminal name :: form)
        (id :: ids)

namespace Awaits

variable {nodes : Array (Option Node)} {frames : List Frame} {form : List Symbol}
  {ids : List NodeId}

theorem lt_size (h : Awaits nodes frames form ids) : ∀ i : Nat, i ∈ ids → i < nodes.size := by
  induction h with
  | nil =>
    intro i hi
    exact absurd hi List.not_mem_nil
  | epsilon node _ ih => exact ih
  | terminal t hid _ ih =>
    intro i hi
    rcases List.mem_cons.mp hi with rfl | hi
    · exact (Array.getElem?_eq_some_iff.mp hid).1
    · exact ih i hi
  | nonterminal name hid _ ih =>
    intro i hi
    rcases List.mem_cons.mp hi with rfl | hi
    · exact (Array.getElem?_eq_some_iff.mp hid).1
    · exact ih i hi

theorem congr {others : Array (Option Node)} (h : Awaits nodes frames form ids)
    (hids : ∀ i : Nat, i ∈ ids → others[i]? = nodes[i]?) : Awaits others frames form ids := by
  induction h with
  | nil => exact .nil
  | epsilon node _ ih => exact .epsilon node (ih hids)
  | terminal t hid _ ih =>
    refine .terminal t ((hids _ List.mem_cons_self).trans hid) (ih ?_)
    intro i hi
    exact hids i (List.mem_cons_of_mem _ hi)
  | nonterminal name hid _ ih =>
    refine .nonterminal name ((hids _ List.mem_cons_self).trans hid) (ih ?_)
    intro i hi
    exact hids i (List.mem_cons_of_mem _ hi)

/-- Filling a node that is not awaited changes nothing. -/
theorem fill {id : Nat} (h : Awaits nodes frames form ids) (hnotin : id ∉ ids)
    (node : Option Node) : Awaits (nodes.setIfInBounds id node) frames form ids := by
  apply h.congr
  intro i hi
  apply Array.getElem?_setIfInBounds_ne
  intro heq
  subst heq
  exact hnotin hi

end Awaits

section Expand

theorem length_nodes_expand (parent : NodeId) (next : Nat) (body : Body) :
    (expand parent next body).nodes.length = (expand parent next body).children.length := by
  induction body generalizing next with
  | nil => rfl
  | cons symbol rest ih =>
    cases symbol with
    | epsilon => exact ih next
    | terminal t => exact congrArg Nat.succ (ih (next + 1))
    | nonterminal name => exact congrArg Nat.succ (ih (next + 1))

/-- The new nodes are numbered one after the other. -/
theorem children_expand (parent : NodeId) (next : Nat) (body : Body) :
    (expand parent next body).children =
      List.range' next (expand parent next body).children.length := by
  induction body generalizing next with
  | nil => rfl
  | cons symbol rest ih =>
    cases symbol with
    | epsilon => exact ih next
    | terminal t => exact congrArg (next :: ·) (ih (next + 1))
    | nonterminal name => exact congrArg (next :: ·) (ih (next + 1))

/-- The new frames await the new nodes. -/
theorem awaits_expand {nodes : Array (Option Node)} (parent : NodeId) (next : Nat) (body : Body)
    (hnodes : ∀ i : Nat, i < (expand parent next body).nodes.length →
      nodes[next + i]? = (expand parent next body).nodes[i]?) :
    Awaits nodes (expand parent next body).frames body (expand parent next body).children := by
  induction body generalizing next with
  | nil => exact .nil
  | cons symbol rest ih =>
    cases symbol with
    | epsilon => exact .epsilon parent (ih next hnodes)
    | terminal t =>
      have hnext : nodes[next]? = some none := hnodes 0 (Nat.succ_pos _)
      refine .terminal t hnext (ih (next + 1) ?_)
      intro i hi
      have hlater := hnodes (i + 1) (Nat.succ_lt_succ hi)
      rwa [← Nat.add_assoc, Nat.add_right_comm] at hlater
    | nonterminal name =>
      have hnext : nodes[next]? = some (some (.inner name [])) := hnodes 0 (Nat.succ_pos _)
      refine .nonterminal name hnext (ih (next + 1) ?_)
      intro i hi
      have hlater := hnodes (i + 1) (Nat.succ_lt_succ hi)
      rwa [← Nat.add_assoc, Nat.add_right_comm] at hlater

end Expand

/-- From one state to the other the nodes under the ids have become the forest, with all the nodes
made meanwhile below them; the other nodes are as they were. -/
structure Builds (table : Table) (s s' : State) (ids : List NodeId) (ds : List Derivation)
    (tokens : List Token) : Prop where
  trace : ∃ n, Trace table n s s'
  remaining_eq : s.remaining = tokens ++ s'.remaining
  layout : Layout (nodeAt s'.nodes) s.nodes.size ids ds tokens s'.nodes.size
  frame : ∀ i : Nat, i < s.nodes.size → i ∉ ids → s'.nodes[i]? = s.nodes[i]?

namespace Builds

variable {table : Table} {s s' : State} {ids : List NodeId} {ds : List Derivation}
  {tokens : List Token}

theorem kinds_remaining (h : Builds table s s' ids ds tokens) {w v : List String}
    {form : List Symbol} (hreads : table.Reads form w ds v)
    (hw : Token.kinds s.remaining = w) : Token.kinds s'.remaining = v := by
  have hkinds : Token.kinds tokens ++ Token.kinds s'.remaining = words ds ++ v := by
    rw [← hreads.word_eq, ← hw, h.remaining_eq]
    exact (List.map_append ..).symm
  rw [h.layout.kinds_eq] at hkinds
  exact List.append_cancel_left hkinds

/-- Nothing to read leaves the state as it is. -/
theorem refl (s : State) : Builds table s s [] [] [] :=
  ⟨⟨0, .refl s⟩, rfl, .nil _, fun _ _ _ => rfl⟩

theorem skip {node : NodeId} {stack : List Frame} {nodes : Array (Option Node)}
    {previous : Option Token} {remaining : List Token}
    (h : Builds table ⟨stack, nodes, previous, remaining⟩ s' ids ds tokens) :
    Builds table ⟨.symbol .epsilon node :: stack, nodes, previous, remaining⟩ s' ids ds tokens := by
  obtain ⟨n, htrace⟩ := h.trace
  exact ⟨⟨n + 1, .head .skip htrace⟩, h.remaining_eq, h.layout, h.frame⟩

theorem take {id : Nat} {stack : List Frame} {nodes : Array (Option Node)}
    {previous : Option Token} {remaining : List Token} (token : Token)
    (hid : id < nodes.size) (hnotin : id ∉ ids)
    (h : Builds table
      ⟨stack, nodes.setIfInBounds id (some (.leaf token)), some token, remaining⟩ s' ids ds
      tokens) :
    Builds table ⟨.symbol (.terminal token.kind) id :: stack, nodes, previous, token :: remaining⟩
      s' (id :: ids) (.leaf token.kind :: ds) (token :: tokens) := by
  obtain ⟨n, htrace⟩ := h.trace
  have hsize : (nodes.setIfInBounds id (some (.leaf token))).size = nodes.size :=
    Array.size_setIfInBounds
  have hframe := h.frame
  have hlayout := h.layout
  simp only [hsize] at hframe hlayout
  refine ⟨⟨n + 1, .head (.take token) htrace⟩, congrArg (token :: ·) h.remaining_eq, ?_, ?_⟩
  · have hleaf : s'.nodes[id]? = some (some (.leaf token)) := by
      rw [hframe id hid hnotin, Array.getElem?_setIfInBounds_self_of_lt hid]
    exact .leaf (by rw [nodeAt, hleaf]; rfl) hlayout
  · intro i hi hne
    rw [List.mem_cons, not_or] at hne
    rw [hframe i hi hne.2, Array.getElem?_setIfInBounds_ne (Ne.symm hne.1)]

end Builds

/-- The nodes after an expansion. -/
def grown (nodes : Array (Option Node)) (id : NodeId) (body : Body) : Array (Option Node) :=
  nodes.modify id (attach (expand id nodes.size body).children) ++
    (expand id nodes.size body).nodes

section Grown

variable {nodes : Array (Option Node)} {id : Nat} {body : Body}

theorem grown_eq : grown nodes id body =
    nodes.modify id (attach (expand id nodes.size body).children) ++
      (expand id nodes.size body).nodes.toArray := by
  apply Array.ext'
  simp [grown]

theorem size_grown : (grown nodes id body).size =
    nodes.size + (expand id nodes.size body).children.length := by
  have hlength := length_nodes_expand id nodes.size body
  rw [grown_eq, Array.size_append, Array.size_modify, ← hlength]
  rfl

theorem grown_of_lt {i : Nat} (hi : i < nodes.size) (hne : i ≠ id) :
    (grown nodes id body)[i]? = nodes[i]? := by
  have hsize : i < (nodes.modify id (attach (expand id nodes.size body).children)).size := by
    rw [Array.size_modify]
    exact hi
  rw [grown_eq, Array.getElem?_append_left hsize, Array.getElem?_modify, if_neg (Ne.symm hne)]

theorem grown_self {name : String} (hid : nodes[id]? = some (some (.inner name []))) :
    (grown nodes id body)[id]? =
      some (some (.inner name (expand id nodes.size body).children)) := by
  have hlt : id < nodes.size := (Array.getElem?_eq_some_iff.mp hid).1
  have hsize : id < (nodes.modify id (attach (expand id nodes.size body).children)).size := by
    rw [Array.size_modify]
    exact hlt
  rw [grown_eq, Array.getElem?_append_left hsize, Array.getElem?_modify, if_pos rfl, hid]
  rfl

theorem grown_new (i : Nat) :
    (grown nodes id body)[nodes.size + i]? = (expand id nodes.size body).nodes[i]? := by
  have hsize : (nodes.modify id (attach (expand id nodes.size body).children)).size ≤
      nodes.size + i := by
    rw [Array.size_modify]
    omega
  rw [grown_eq, Array.getElem?_append_right hsize, Array.size_modify, Nat.add_sub_cancel_left,
    List.getElem?_toArray]

end Grown

section Inner

variable {table : Table} {stack : List Frame} {nodes : Array (Option Node)}
  {previous : Option Token} {remaining inner : List Token} {id : Nat} {p : Production}
  {children : List Derivation} {s₁ : State}

/-- The children are built where the expansion put them. -/
theorem Builds.layout_children
    (h : Builds table
      ⟨(Parse.expand id nodes.size p.body).frames ++ stack, grown nodes id p.body, previous,
        remaining⟩ s₁ (Parse.expand id nodes.size p.body).children children inner) :
    (Parse.expand id nodes.size p.body).children = List.range' nodes.size children.length ∧
      Layout (nodeAt s₁.nodes) (nodes.size + children.length)
        (List.range' nodes.size children.length) children inner s₁.nodes.size := by
  have hlength : (Parse.expand id nodes.size p.body).children.length = children.length :=
    h.layout.length_eq
  have hchildren : (Parse.expand id nodes.size p.body).children =
      List.range' nodes.size children.length := by
    rw [children_expand, hlength]
  have hsize : (grown nodes id p.body).size = nodes.size + children.length := by
    rw [size_grown, hlength]
  refine ⟨hchildren, ?_⟩
  rw [← hsize, ← hchildren]
  exact h.layout

/-- Nodes made before the expansion are not among the children. -/
theorem Builds.keeps_older
    (h : Builds table
      ⟨(Parse.expand id nodes.size p.body).frames ++ stack, grown nodes id p.body, previous,
        remaining⟩ s₁ (Parse.expand id nodes.size p.body).children children inner)
    {i : Nat} (hi : i < nodes.size) : s₁.nodes[i]? = (grown nodes id p.body)[i]? := by
  apply h.frame i
  · change i < (grown nodes id p.body).size
    rw [size_grown]
    omega
  · rw [children_expand]
    intro hmem
    have hbounds := List.mem_range'_1.mp hmem
    omega

/-- What was awaited beside the expanded node still is. -/
theorem Awaits.beside {frames : List Frame} {form : List Symbol} {ids : List NodeId}
    (hawaits : Awaits nodes frames form ids) (hnotin : id ∉ ids)
    (h : Builds table
      ⟨(Parse.expand id nodes.size p.body).frames ++ stack, grown nodes id p.body, previous,
        remaining⟩ s₁ (Parse.expand id nodes.size p.body).children children inner) :
    Awaits s₁.nodes frames form ids := by
  apply hawaits.congr
  intro i hi
  have hlt : i < nodes.size := hawaits.lt_size i hi
  have hne : i ≠ id := by
    intro heq
    subst heq
    exact hnotin hi
  rw [h.keeps_older hlt, grown_of_lt hlt hne]

/-- The children of an expanded node and then the nodes beside it make one longer forest. -/
theorem Builds.expand {ids : List NodeId} {name : String} {ds : List Derivation}
    {tokens : List Token} {s₂ : State}
    (hp : table.get? name (.ofWord (Token.kinds remaining)) = some p)
    (hid : nodes[id]? = some (some (.inner name []))) (hnotin : id ∉ ids)
    (hids : ∀ i : Nat, i ∈ ids → i < nodes.size)
    (hinner : Builds table
      ⟨(Parse.expand id nodes.size p.body).frames ++ stack, grown nodes id p.body, previous,
        remaining⟩ s₁ (Parse.expand id nodes.size p.body).children children inner)
    (hrest : Builds table s₁ s₂ ids ds tokens) :
    Builds table ⟨.symbol (.nonterminal name) id :: stack, nodes, previous, remaining⟩ s₂
      (id :: ids) (.node p children :: ds) (inner ++ tokens) := by
  have hlt : id < nodes.size := (Array.getElem?_eq_some_iff.mp hid).1
  obtain ⟨hchildren, hlayout⟩ := hinner.layout_children
  have hgrowth : nodes.size + children.length ≤ s₁.nodes.size := hlayout.next_le
  have hlater : ∀ i : Nat, nodes.size ≤ i → i < s₁.nodes.size →
      nodeAt s₂.nodes i = nodeAt s₁.nodes i := by
    intro i hlow hhigh
    have hfresh : i ∉ ids := by
      intro hmem
      have hold := hids i hmem
      omega
    rw [nodeAt, nodeAt, hrest.frame i hhigh hfresh]
  have hroot : nodeAt s₂.nodes id =
      some (.inner p.lhs (List.range' nodes.size children.length)) := by
    have hkept := hrest.frame id (by omega) hnotin
    rw [nodeAt, hkept, hinner.keeps_older hlt, grown_self hid, hchildren, Table.lhs_of_get? hp]
    rfl
  refine ⟨?_, ?_, ?_, ?_⟩
  · obtain ⟨m, hm⟩ := hinner.trace
    obtain ⟨n, hn⟩ := hrest.trace
    exact ⟨m + n + 1, .head (.expand hp) (hm.trans hn)⟩
  · have hremaining := hinner.remaining_eq
    simp only at hremaining ⊢
    rw [hremaining, hrest.remaining_eq, List.append_assoc]
  · refine .node hroot (hlayout.congr ?_ ?_) hrest.layout
    · intro i hi
      have hbounds := List.mem_range'_1.mp hi
      exact hlater i hbounds.1 (by omega)
    · intro i hlow hhigh
      exact hlater i (by omega) hhigh
  · intro i hi hne
    rw [List.mem_cons, not_or] at hne
    simp only at hi
    rw [hrest.frame i (by omega) hne.2, hinner.keeps_older hi, grown_of_lt hi hne.1]

end Inner

/-- Frames that await what is read off the tokens are worked off, and the forest is built. -/
theorem exists_builds {table : Table} {form : List Symbol} {w v : List String}
    {ds : List Derivation} (h : table.Reads form w ds v) {s : State} {frames stack : List Frame}
    {ids : List NodeId} (hstack : s.stack = frames ++ stack)
    (hawaits : Awaits s.nodes frames form ids) (hnodup : ids.Nodup)
    (hw : Token.kinds s.remaining = w) :
    ∃ s' tokens, s'.stack = stack ∧ Builds table s s' ids ds tokens := by
  induction h generalizing s frames stack ids with
  | nil w =>
    cases hawaits with
    | nil => exact ⟨s, [], hstack, .refl s⟩
  | epsilon _ ih =>
    obtain ⟨sstack, nodes, previous, remaining⟩ := s
    cases hawaits with
    | epsilon node hawaits =>
      simp only [List.cons_append] at hstack
      subst hstack
      obtain ⟨s', tokens, hs', hbuilds⟩ :=
        ih (s := ⟨_, nodes, previous, remaining⟩) rfl hawaits hnodup hw
      exact ⟨s', tokens, hs', hbuilds.skip⟩
  | @terminal t rest w v ds _ ih =>
    obtain ⟨sstack, nodes, previous, remaining⟩ := s
    cases hawaits with
    | @terminal _ id frames _ ids hid hawaits =>
      simp only [List.cons_append] at hstack
      subst hstack
      obtain ⟨token, remaining, rfl, rfl, hkinds⟩ := List.map_eq_cons_iff.mp hw
      obtain ⟨hnotin, hnodup⟩ := List.nodup_cons.mp hnodup
      have hlt : id < nodes.size := (Array.getElem?_eq_some_iff.mp hid).1
      have hfilled := hawaits.fill hnotin (some (.leaf token))
      obtain ⟨s', tokens, hs', hbuilds⟩ :=
        ih (s := ⟨_, _, some token, remaining⟩) rfl hfilled hnodup hkinds
      exact ⟨s', token :: tokens, hs', hbuilds.take token hlt hnotin⟩
  | @nonterminal name rest w u v p children ds hp hbody hrest ihbody ihrest =>
    obtain ⟨sstack, nodes, previous, remaining⟩ := s
    cases hawaits with
    | @nonterminal _ id frames _ ids hid hawaits =>
      simp only [List.cons_append] at hstack
      subst hstack
      simp only at hw
      subst hw
      obtain ⟨hnotin, hnodup⟩ := List.nodup_cons.mp hnodup
      have hnew : Awaits (grown nodes id p.body) (Parse.expand id nodes.size p.body).frames p.body
          (Parse.expand id nodes.size p.body).children :=
        awaits_expand id nodes.size p.body fun i _ => grown_new i
      have hnewNodup : (Parse.expand id nodes.size p.body).children.Nodup := by
        rw [children_expand]
        exact List.nodup_range'
      obtain ⟨s₁, inner, hs₁, hinner⟩ :=
        ihbody (s := ⟨_, grown nodes id p.body, previous, remaining⟩) rfl hnew hnewNodup rfl
      have hkinds := hinner.kinds_remaining hbody rfl
      obtain ⟨s₂, tokens, hs₂, hbuilds⟩ :=
        ihrest hs₁ (hawaits.beside hnotin hinner) hnodup hkinds
      exact ⟨s₂, inner ++ tokens, hs₂, .expand hp hid hnotin hawaits.lt_size hinner hbuilds⟩

private theorem map_some_filterMap {α : Type} {slots : List (Option α)}
    (h : ∀ slot ∈ slots, slot.isSome) :
    (slots.filterMap fun slot => slot).map some = slots := by
  induction slots with
  | nil => rfl
  | cons slot rest ih =>
    have hrest := ih fun s hs => h s (List.mem_cons_of_mem _ hs)
    obtain ⟨a, rfl⟩ := Option.isSome_iff_exists.mp (h slot List.mem_cons_self)
    simp only [List.filterMap_cons, List.map_cons, hrest]

/-- Once every slot is filled, the tree has the nodes of the array. -/
theorem complete_of_filled {nodes : Array (Option Node)}
    (h : ∀ i : Nat, i < nodes.size → (nodeAt nodes i).isSome) :
    ∃ tree, complete nodes = some tree ∧ tree.size = nodes.size ∧ tree.node? = nodeAt nodes := by
  have hslots : ∀ slot ∈ nodes.toList, slot.isSome := by
    intro slot hslot
    obtain ⟨i, hi, rfl⟩ := List.mem_iff_getElem.mp hslot
    have hfilled := h i hi
    rw [nodeAt, Array.getElem?_eq_getElem hi] at hfilled
    exact hfilled
  have hall : nodes.all Option.isSome = true := by
    rw [← Array.all_toList, List.all_eq_true]
    exact hslots
  have hmap := map_some_filterMap hslots
  refine ⟨⟨nodes.filterMap fun node => node⟩, ?_, ?_, ?_⟩
  · rw [complete, if_pos hall]
  · have hlength := congrArg List.length hmap
    rw [List.length_map, ← Array.toList_filterMap] at hlength
    exact hlength
  · funext i
    have hslot := congrArg (fun slots : List (Option Node) => slots[i]?.join) hmap
    simp only [List.getElem?_map, ← Array.toList_filterMap, Array.getElem?_toList] at hslot
    rw [nodeAt, ← hslot, SyntaxTree.node?]
    cases (nodes.filterMap fun node => node)[i]? <;> rfl

/-- When the tokens are read to their end, the run answers with a tree that fills its array. -/
theorem run_of_reads {table : Table} {start : String} {tokens : List Token}
    {ds : List Derivation}
    (h : table.Reads [.nonterminal start] (Token.kinds tokens) ds []) :
    ∃ n tree, run table n (.initial start tokens) = some (.ok tree) ∧ 1 ≤ tree.size ∧
      Layout tree.node? 1 [SyntaxTree.root] ds tokens tree.size := by
  have hawaits : Awaits (State.initial start tokens).nodes
      [.symbol (.nonterminal start) SyntaxTree.root] [.nonterminal start] [SyntaxTree.root] :=
    .nonterminal start rfl .nil
  have hinitial : (State.initial start tokens).stack =
      [.symbol (.nonterminal start) SyntaxTree.root] ++ [.bottom] := rfl
  have hnodup : [SyntaxTree.root].Nodup := List.nodup_cons.mpr ⟨List.not_mem_nil, List.nodup_nil⟩
  obtain ⟨s, read, hstack, hbuilds⟩ := exists_builds h hinitial hawaits hnodup rfl
  have hremaining : s.remaining = [] :=
    List.map_eq_nil_iff.mp (hbuilds.kinds_remaining h rfl)
  have hread : tokens = read := by
    have heq := hbuilds.remaining_eq
    rw [hremaining, List.append_nil] at heq
    exact heq
  subst hread
  have haccepts : Accepts s := by
    obtain ⟨stack, nodes, previous, remaining⟩ := s
    simp only at hstack hremaining
    subst hstack hremaining
    exact .bottom
  have hlayout : Layout (nodeAt s.nodes) 1 [SyntaxTree.root] ds tokens s.nodes.size :=
    hbuilds.layout
  have hone : 1 ≤ s.nodes.size := hlayout.next_le
  have hfilled : ∀ i : Nat, i < s.nodes.size → (nodeAt s.nodes i).isSome := by
    intro i hi
    apply hlayout.isSome
    cases i with
    | zero => exact Or.inl List.mem_cons_self
    | succ i => exact Or.inr ⟨Nat.succ_pos i, hi⟩
  obtain ⟨tree, hcomplete, hsize, hnodes⟩ := complete_of_filled hfilled
  obtain ⟨n, htrace⟩ := hbuilds.trace
  refine ⟨n + 1, tree, ?_, ?_, ?_⟩
  · rw [run_of_accepts htrace haccepts, finish, hcomplete]
  · rw [hsize]
    exact hone
  · rw [hnodes, hsize]
    exact hlayout

end TopDown.Parse
