import TopDown.Proofs.CorrectPrefix
import TopDown.Proofs.Ownership

/-!
The trees that a parse gives, whatever the table. A run that accepts has filled every slot of its
array. The array is one tree with the start symbol at its first node and the tokens at its leaves;
its nodes are numbered parents first, the children of each node in a row; and under every inner node
stand the symbols of the production in the cell of its nonterminal and of the token that comes next
after all leaves before the node.
-/
namespace TopDown

open TopDown.Derivation

namespace SyntaxTree

/-- These tokens stand at the leaves to the left of the node: those to the left of its parent, then
those under the children before it. -/
inductive Precede (tree : SyntaxTree) : List Token → NodeId → Prop where
  | root : Precede tree [] SyntaxTree.root
  | child {before : List Token} {id child : NodeId} {left right : List NodeId}
      (hparent : Precede tree before id) (hchildren : tree.children id = left ++ child :: right) :
      Precede tree (before ++ left.flatMap tree.leavesUnder) child

/-- The tree is one that parsing the tokens with the table builds. -/
structure BuiltBy (tree : SyntaxTree) (table : Table) (start : String) (tokens : List Token) :
    Prop where
  root_label : tree.nonterminal? root = some start
  leaves_eq : tree.leaves = tokens
  later : ∀ id, ∀ child ∈ tree.children id, id < child ∧ child < tree.size
  consecutive : ∀ id, ∃ first, tree.children id = List.range' first (tree.children id).length
  owned : ∀ id, id < tree.size → id ≠ root →
    ∃ parent, parent < id ∧ (tree.children parent).count id = 1 ∧
      ∀ other, id ∈ tree.children other → other = parent
  placed : ∀ id, id < tree.size → ∃ before, tree.Precede before id
  expanded : ∀ before id name, tree.Precede before id → tree.nonterminal? id = some name →
    ∃ after p, tokens = before ++ after ∧
      table.get? name (.ofWord (Token.kinds after)) = some p ∧
      (tree.children id).map tree.symbol? = p.visible.map some

end SyntaxTree

namespace Table.Reads

variable {table : Table} {form : List Symbol} {w v : List String} {ds after : List Derivation}

/-- What is read stands for the symbols of the form. -/
theorem labels (h : table.Reads form w ds v) : ds.map label = form.filter (· ≠ .epsilon) := by
  induction h with
  | nil _ => rfl
  | epsilon _ ih => exact ih
  | terminal t _ ih => exact congrArg (Symbol.terminal t :: ·) ih
  | nonterminal hp _ _ _ ih =>
    rw [List.map_cons, ih, label, lhs_of_get? hp]
    rfl

/-- Reading can be parted between any two trees. -/
theorem split_trees (before : List Derivation) (h : table.Reads form w (before ++ after) v) :
    ∃ left right u, table.Reads left w before u ∧ table.Reads right u after v := by
  generalize hds : before ++ after = ds at h
  induction h generalizing before with
  | nil w =>
    obtain ⟨rfl, rfl⟩ := List.append_eq_nil_iff.mp hds
    exact ⟨[], [], w, .nil w, .nil w⟩
  | epsilon _ ih =>
    obtain ⟨left, right, u, hleft, hright⟩ := ih before hds
    exact ⟨.epsilon :: left, right, u, .epsilon hleft, hright⟩
  | terminal t hrest ih =>
    cases before with
    | nil =>
      subst hds
      exact ⟨[], _, _, .nil _, .terminal t hrest⟩
    | cons d before =>
      obtain ⟨rfl, htail⟩ := List.cons.inj hds
      obtain ⟨left, right, u, hleft, hright⟩ := ih before htail
      exact ⟨.terminal t :: left, right, u, .terminal t hleft, hright⟩
  | @nonterminal name _ _ _ _ _ _ _ hp hbody hrest _ ih =>
    cases before with
    | nil =>
      subst hds
      exact ⟨[], _, _, .nil _, .nonterminal hp hbody hrest⟩
    | cons d before =>
      obtain ⟨rfl, htail⟩ := List.cons.inj hds
      obtain ⟨left, right, u, hleft, hright⟩ := ih before htail
      exact ⟨.nonterminal name :: left, right, u, .nonterminal hp hbody hleft, hright⟩

/-- The root of a tree uses the production in the cell of the next lookahead. -/
theorem cell {p : Production} {children : List Derivation}
    (h : table.Reads form w [.node p children] v) :
    table.get? p.lhs (.ofWord w) = some p ∧ table.Reads p.body w children v := by
  generalize hds : [Derivation.node p children] = ds at h
  induction h with
  | nil w => cases hds
  | epsilon _ ih => exact ih hds
  | terminal t _ _ => cases hds
  | nonterminal hp hbody hrest _ _ =>
    obtain ⟨hroot, rfl⟩ := List.cons.inj hds
    cases hroot
    have hword := hrest.word_eq
    rw [words, List.nil_append] at hword
    subst hword
    exact ⟨lhs_of_get? hp ▸ hp, hbody⟩

end Table.Reads

namespace Layout

variable {tree : SyntaxTree} {next stop : Nat} {ids : List NodeId} {ds : List Derivation}
  {tokens : List Token}

theorem leavesUnder_eq {id : NodeId} {d : Derivation}
    (h : Layout tree.node? next [id] [d] tokens stop) (hnext : 1 ≤ next)
    (hstop : stop ≤ tree.size) : tree.leavesUnder id = tokens := by
  have hle := h.next_le
  have hcollect := h.collect_eq (tree.size - (stop - next + 1)) []
  have hvisits : stop - next + [id].length + (tree.size - (stop - next + 1)) = tree.size := by
    simp only [List.length_singleton]
    omega
  have hnone : ∀ visits, tree.collect visits [] = [] := by
    intro visits
    cases visits <;> rfl
  rwa [hvisits, hnone, List.append_nil, List.append_nil] at hcollect

/-- The leaves under the roots of a layout are its tokens. -/
theorem flatMap_leavesUnder (h : Layout tree.node? next ids ds tokens stop) (hnext : 1 ≤ next)
    (hstop : stop ≤ tree.size) : ids.flatMap tree.leavesUnder = tokens := by
  induction h with
  | nil => rfl
  | @leaf next stop id ids ds tokens token hid hrest ih =>
    have hroot : Layout tree.node? next [id] [.leaf token.kind] [token] next :=
      .leaf hid (.nil next)
    have hle := hrest.next_le
    rw [List.flatMap_cons, hroot.leavesUnder_eq hnext (by omega), ih hnext hstop]
    rfl
  | @node next mid stop id ids children ds inner tokens p hid hinner hrest _ ih =>
    have hroot : Layout tree.node? next [id] [.node p children] (inner ++ []) mid :=
      .node hid hinner (.nil mid)
    have hmid := hinner.next_le
    have hle := hrest.next_le
    rw [List.flatMap_cons, hroot.leavesUnder_eq hnext (by omega), List.append_nil,
      ih (by omega) hstop]

end Layout

/-- With the table the tokens are read in front of the rest, and what is read of them is laid out
under the nodes. -/
def SyntaxTree.ReadAt (tree : SyntaxTree) (table : Table) (ids : List NodeId)
    (tokens rest : List Token) : Prop :=
  ∃ next stop ds form, 1 ≤ next ∧ stop ≤ tree.size ∧ Layout tree.node? next ids ds tokens stop ∧
    table.Reads form (Token.kinds (tokens ++ rest)) ds (Token.kinds rest)

namespace SyntaxTree.ReadAt

variable {tree : SyntaxTree} {table : Table} {ids left right : List NodeId} {id : NodeId}
  {name : String} {tokens rest : List Token}

theorem leaves (h : tree.ReadAt table ids tokens rest) : ids.flatMap tree.leavesUnder = tokens := by
  obtain ⟨next, stop, ds, form, hnext, hstop, hlayout, _⟩ := h
  exact hlayout.flatMap_leavesUnder hnext hstop

theorem split (h : tree.ReadAt table (left ++ right) tokens rest) :
    ∃ first second, tokens = first ++ second ∧ tree.ReadAt table left first (second ++ rest) ∧
      tree.ReadAt table right second rest := by
  obtain ⟨next, stop, ds, form, hnext, hstop, hlayout, hreads⟩ := h
  obtain ⟨mid, before, after, first, second, rfl, rfl, hleft, hright⟩ := hlayout.split
  obtain ⟨lform, rform, u, hbefore, hafter⟩ := hreads.split_trees
  have hu : u = Token.kinds (second ++ rest) := by
    have hword := hbefore.word_eq
    rw [← hleft.kinds_eq, List.append_assoc, Token.kinds, List.map_append] at hword
    exact (List.append_cancel_left hword).symm
  subst hu
  rw [List.append_assoc] at hbefore
  have hlow := hleft.next_le
  have hhigh := hright.next_le
  exact ⟨first, second, rfl,
    ⟨next, mid, before, lform, hnext, by omega, hleft, hbefore⟩,
    ⟨mid, stop, after, rform, by omega, hstop, hright, hafter⟩⟩

/-- An inner node is expanded by the cell of its nonterminal and of the next token, and its children
are read where it is. -/
theorem children (h : tree.ReadAt table [id] tokens rest)
    (hname : tree.nonterminal? id = some name) :
    tree.ReadAt table (tree.children id) tokens rest ∧
      ∃ p, table.get? name (.ofWord (Token.kinds (tokens ++ rest))) = some p ∧
        (tree.children id).map tree.symbol? = p.visible.map some := by
  obtain ⟨next, stop, ds, form, hnext, hstop, hlayout, hreads⟩ := h
  cases hlayout with
  | leaf hid _ =>
    simp only [SyntaxTree.nonterminal?, hid] at hname
    cases hname
  | @node _ mid _ _ _ below _ inner _ p hid hinner hrest =>
    cases hrest with
    | nil =>
      simp only [SyntaxTree.nonterminal?, hid, Option.some.injEq] at hname
      subst hname
      obtain ⟨hcell, hbody⟩ := hreads.cell
      simp only [SyntaxTree.children, hid, List.append_nil] at hcell hbody ⊢
      refine ⟨⟨_, _, below, p.body, by omega, hstop, hinner, hbody⟩, p, hcell, ?_⟩
      rw [hinner.symbols_eq, hbody.labels]
      rfl

end SyntaxTree.ReadAt

namespace SyntaxTree

variable {tree : SyntaxTree} {table : Table} {start : String} {tokens before : List Token}
  {id : NodeId}

theorem nonterminal?_of_children {left right : List NodeId} {child : NodeId}
    (h : tree.children id = left ++ child :: right) : ∃ name, tree.nonterminal? id = some name := by
  unfold children at h
  split at h
  · rename_i name _ hid
    exact ⟨name, by simp only [nonterminal?, hid]⟩
  · simp at h

/-- A node is read after the tokens before it. The induction follows the way down from the root. -/
theorem Precede.readAt (h : tree.Precede before id)
    (hroot : tree.ReadAt table [SyntaxTree.root] tokens []) :
    ∃ inner rest, tokens = before ++ (inner ++ rest) ∧ tree.ReadAt table [id] inner rest := by
  induction h with
  | root => exact ⟨tokens, [], by simp, hroot⟩
  | @child before id child left right _ hchildren ih =>
    obtain ⟨inner, rest, htokens, hread⟩ := ih
    obtain ⟨name, hname⟩ := nonterminal?_of_children hchildren
    obtain ⟨hbelow, _⟩ := hread.children hname
    rw [hchildren] at hbelow
    obtain ⟨first, second, rfl, hleft, hright⟩ := hbelow.split
    have hright : tree.ReadAt table ([child] ++ right) second rest := hright
    obtain ⟨own, later, rfl, hchild, _⟩ := hright.split
    refine ⟨own, later ++ rest, ?_, hchild⟩
    rw [htokens, hleft.leaves]
    simp only [List.append_assoc]

/-- Every node comes after some of the tokens. The induction goes up from the node to the root. -/
theorem exists_precede {d : Derivation} (h : Layout tree.node? 1 [root] [d] tokens tree.size)
    (hid : id < tree.size) : ∃ before, tree.Precede before id := by
  induction id using Nat.strongRecOn with
  | ind id ih =>
    by_cases hroot : id = root
    · exact ⟨[], hroot ▸ .root⟩
    · obtain ⟨parent, hlt, hcount, _⟩ := h.exists_parent hid hroot
      obtain ⟨before, hbefore⟩ := ih parent hlt (Nat.lt_trans hlt hid)
      have hchild : id ∈ tree.children parent :=
        List.count_pos_iff.mp (Nat.lt_of_lt_of_eq Nat.one_pos hcount.symm)
      obtain ⟨left, right, hchildren⟩ := List.append_of_mem hchild
      exact ⟨_, .child hbefore hchildren⟩

/-- What is read and laid out in the whole array of a tree makes it one that is built. -/
theorem builtBy_of_layout {d : Derivation} (hsize : 1 ≤ tree.size)
    (hreads : table.Reads [.nonterminal start] (Token.kinds tokens) [d] [])
    (hlayout : Layout tree.node? 1 [root] [d] tokens tree.size) :
    tree.BuiltBy table start tokens where
  root_label := by
    have hlabels : [d].map label = [.nonterminal start] := hreads.labels
    exact hlayout.nonterminal?_eq (List.cons.inj hlabels).1
  leaves_eq := hlayout.leaves_eq hsize
  later := fun _ _ hchild => hlayout.lt_of_mem_children hchild
  consecutive := hlayout.exists_first_child
  owned := fun _ hid hroot => hlayout.exists_parent hid hroot
  placed := fun _ hid => exists_precede hlayout hid
  expanded := by
    intro before id name hbefore hname
    have hroot : tree.ReadAt table [root] tokens [] := by
      rw [← List.append_nil tokens] at hreads
      exact ⟨1, tree.size, [d], _, Nat.le_refl 1, Nat.le_refl _, hlayout, hreads⟩
    obtain ⟨inner, rest, htokens, hread⟩ := hbefore.readAt hroot
    obtain ⟨_, p, hcell, hsymbols⟩ := hread.children hname
    exact ⟨inner ++ rest, p, htokens, hcell, hsymbols⟩

/-- Whatever the table, a parse answers what its loop answers after any number of steps, it never
finds an unmatched terminal in the end, and a tree that it gives is one tree over all tokens that
takes every production from its cell. -/
theorem parse_builds (table : Table) (start : String) (tokens : List Token) :
    (∀ steps answer, Parse.run table steps (.initial start tokens) = some answer →
      table.parse start tokens = some answer) ∧
    (∀ e, table.parse start tokens = some (.error e) → e.error ≠ .unmatchedTerminal) ∧
    ∀ tree, table.parse start tokens = some (.ok tree) → tree.BuiltBy table start tokens := by
  refine ⟨fun _ _ hrun => Parse.parse_of_run hrun, ?_, ?_⟩
  · intro e herror
    obtain ⟨_, _, error, _, hrejects, rfl⟩ := Grammar.exists_rejects_of_parse herror
    change error ≠ .unmatchedTerminal
    cases hrejects with
    | trailing => exact nofun
    | mismatch => exact nofun
    | missing => exact nofun
  · intro tree hparse
    obtain ⟨hsize, d, hreads, hlayout⟩ := Grammar.exists_layout_of_parse hparse
    exact builtBy_of_layout hsize hreads hlayout

/-- A table of no grammar: its productions have places that no grammar gives them, and their bodies
are padded with empty words. -/
def paddedTable : Table where
  cells :=
    [⟨.terminal "a", ⟨"S", 7, [.epsilon, .nonterminal "T", .terminal "a"]⟩⟩,
      ⟨.terminal "a", ⟨"T", 7, [.epsilon, .epsilon]⟩⟩]

theorem parse_builds_padded :
    (⟨#[.inner "S" [1, 2], .inner "T" [], .leaf ⟨"a", "a", 1, 1⟩]⟩ : SyntaxTree).BuiltBy
      paddedTable "S" [⟨"a", "a", 1, 1⟩] :=
  (parse_builds paddedTable "S" [⟨"a", "a", 1, 1⟩]).2.2 _
    (Parse.parse_of_run (n := 8) (by decide +kernel))

end SyntaxTree

end TopDown
