import TopDown.Proofs.StepBound
import TopDown.Proofs.TreeBuilding

/-!
With the table of a grammar a parse succeeds on the sentences of the grammar and on nothing else,
and the tree it gives is a derivation tree: under every node stand the symbols of one production of
its nonterminal, and the leaves are the tokens.
-/
namespace TopDown

open TopDown.Derivation

/-- The symbol a node stands for. -/
def SyntaxTree.symbol? (tree : SyntaxTree) (id : NodeId) : Option Symbol :=
  match tree.node? id with
  | some (.inner nonterminal _) => some (.nonterminal nonterminal)
  | some (.leaf token) => some (.terminal token.kind)
  | none => none

/-- The tree derives the tokens from the start symbol. Every node of the array is checked against
the productions, and the array as a whole is one derivation tree laid out from its first node. -/
structure SyntaxTree.IsDerivation (tree : SyntaxTree) (g : Grammar) (tokens : List Token) :
    Prop where
  root : tree.nonterminal? SyntaxTree.root = some g.start
  inner : ∀ id name, tree.nonterminal? id = some name →
    ∃ p ∈ g.productions, p.lhs = name ∧ (tree.children id).map tree.symbol? = p.visible.map some
  leaves : tree.leaves = tokens
  shape : ∃ d, Valid g d ∧ d.label = .nonterminal g.start ∧
    Layout tree.node? 1 [SyntaxTree.root] [d] tokens tree.size

namespace Layout

variable {tree : SyntaxTree} {g : Grammar} {next stop : Nat} {ids : List NodeId}
  {ds : List Derivation} {tokens : List Token}

theorem symbols_eq (h : Layout tree.node? next ids ds tokens stop) :
    ids.map tree.symbol? = (ds.map label).map some := by
  induction h with
  | nil => rfl
  | leaf hid _ ih => simp only [List.map_cons, ih, SyntaxTree.symbol?, hid, label]
  | node hid _ _ _ ih => simp only [List.map_cons, ih, SyntaxTree.symbol?, hid, label]

theorem nonterminal?_eq {id : NodeId} {name : String} {d : Derivation}
    (h : Layout tree.node? next [id] [d] tokens stop) (hlabel : d.label = .nonterminal name) :
    tree.nonterminal? id = some name := by
  cases h with
  | leaf hid _ => cases hlabel
  | node hid _ _ =>
    rw [← Symbol.nonterminal.inj hlabel]
    simp only [SyntaxTree.nonterminal?, hid]

/-- The children of a node are the symbols of a production of its nonterminal. -/
theorem children_eq {id : NodeId} {name : String} {d : Derivation}
    (h : Layout tree.node? next [id] [d] tokens stop) (hvalid : Valid g d)
    (hname : tree.nonterminal? id = some name) :
    ∃ p ∈ g.productions, p.lhs = name ∧
      (tree.children id).map tree.symbol? = p.visible.map some := by
  cases h with
  | leaf hid _ =>
    simp only [SyntaxTree.nonterminal?, hid] at hname
    cases hname
  | node hid hinner _ =>
    cases hvalid with
    | node p children hp hlabels _ =>
      simp only [SyntaxTree.nonterminal?, hid] at hname
      refine ⟨_, hp, Option.some.inj hname, ?_⟩
      simp only [SyntaxTree.children, hid]
      rw [hinner.symbols_eq, hlabels]

/-- A layout that fills the array of a tree makes it a derivation. -/
theorem isDerivation {d : Derivation} (hsize : 1 ≤ tree.size) (hvalid : Valid g d)
    (hlabel : d.label = .nonterminal g.start)
    (h : Layout tree.node? 1 [SyntaxTree.root] [d] tokens tree.size) :
    tree.IsDerivation g tokens where
  root := h.nonterminal?_eq hlabel
  inner := by
    intro id name hname
    have hlt : id < tree.size := by
      by_cases hlt : id < tree.size
      · exact hlt
      · have hnone : tree.node? id = none := Array.getElem?_eq_none (Nat.le_of_not_lt hlt)
        simp only [SyntaxTree.nonterminal?, hnone] at hname
        cases hname
    have hplace : id ∈ [SyntaxTree.root] ∨ (1 ≤ id ∧ id < tree.size) := by
      cases id with
      | zero => exact Or.inl List.mem_cons_self
      | succ id => exact Or.inr ⟨Nat.succ_pos id, hlt⟩
    have hbelow : ∀ p children, Valid g (.node p children) → ∀ d ∈ children, Valid g d := by
      intro p children hnode
      cases hnode with
      | node _ _ _ _ hchildren => exact hchildren
    have hroots : ∀ e ∈ [d], Valid g e := by
      intro e he
      rw [List.mem_singleton.mp he]
      exact hvalid
    obtain ⟨e, start, inner, finish, hsub, he⟩ := h.exists_subtree hbelow hroots hplace
    exact hsub.children_eq he hname
  leaves := h.leaves_eq hsize
  shape := ⟨d, hvalid, hlabel, h⟩

end Layout

namespace Grammar

variable {g : Grammar} {table : Table} {tokens : List Token}

/-- A parse that succeeds has read the tokens to their end. -/
theorem reads_of_parse {start : String} {tree : SyntaxTree}
    (h : table.parse start tokens = some (.ok tree)) :
    ∃ ds, table.Reads [.nonterminal start] (Token.kinds tokens) ds [] := by
  obtain ⟨n, s, htrace, ⟨haccepts, _⟩ | ⟨error, _, hanswer⟩⟩ := Parse.exists_trace_of_run h
  · exact Parse.reads_of_trace htrace haccepts (Parse.Stacked.initial start tokens)
  · cases hanswer

/-- Tokens that are read to their end are parsed into a tree that lays out what was read. -/
theorem parse_of_reads {start : String} {ds : List Derivation}
    (h : table.Reads [.nonterminal start] (Token.kinds tokens) ds []) :
    ∃ tree, table.parse start tokens = some (.ok tree) ∧ 1 ≤ tree.size ∧
      Layout tree.node? 1 [SyntaxTree.root] ds tokens tree.size := by
  obtain ⟨n, tree, hrun, hsize, hlayout⟩ := Parse.run_of_reads h
  exact ⟨tree, Parse.parse_of_run hrun, hsize, hlayout⟩

/-- The parsed tree lays out what was read, whatever the table. -/
theorem exists_layout_of_parse {start : String} {tree : SyntaxTree}
    (h : table.parse start tokens = some (.ok tree)) :
    1 ≤ tree.size ∧ ∃ d, table.Reads [.nonterminal start] (Token.kinds tokens) [d] [] ∧
      Layout tree.node? 1 [SyntaxTree.root] [d] tokens tree.size := by
  obtain ⟨ds, hreads⟩ := reads_of_parse h
  obtain ⟨built, hbuilt, hsize, hlayout⟩ := parse_of_reads hreads
  rw [h] at hbuilt
  obtain rfl := Except.ok.inj (Option.some.inj hbuilt)
  obtain ⟨d, rfl⟩ := List.length_eq_one_iff.mp hlayout.length_eq.symm
  exact ⟨hsize, d, hreads, hlayout⟩

/-- Every leaf of the parsed tree holds one of the tokens. -/
theorem token_mem_of_parse {start : String} {tree : SyntaxTree}
    (h : table.parse start tokens = some (.ok tree)) {leaf : NodeId} {token : Token}
    (hleaf : tree.node? leaf = some (.leaf token)) : token ∈ tokens := by
  obtain ⟨_, d, _, hlayout⟩ := exists_layout_of_parse h
  have hsize : leaf < tree.size := (Array.getElem?_eq_some_iff.mp hleaf).1
  exact hlayout.token_mem (Layout.root_or_later hsize) hleaf

theorem isDerivation_of_parse (htable : g.table = .ok table) {tree : SyntaxTree}
    (h : table.parse g.start tokens = some (.ok tree)) : tree.IsDerivation g tokens := by
  obtain ⟨hsize, d, hreads, hlayout⟩ := exists_layout_of_parse h
  obtain ⟨hvalid, hlabel⟩ := forest_singleton_iff.mp (forest_of_reads htable hreads)
  exact hlayout.isDerivation hsize hvalid hlabel

/-- The parse succeeds exactly on the sentences of the grammar, with a derivation tree. -/
theorem parse_recognizes (htable : g.table = .ok table) (tokens : List Token) :
    ((∃ tree, table.parse g.start tokens = some (.ok tree)) ↔
        g.Generates g.start (Token.kinds tokens)) ∧
      ∀ tree, table.parse g.start tokens = some (.ok tree) → tree.IsDerivation g tokens := by
  refine ⟨?_, fun tree h => isDerivation_of_parse htable h⟩
  rw [generates_iff_reads htable]
  constructor
  · intro hfound
    obtain ⟨tree, htree⟩ := hfound
    exact reads_of_parse htree
  · intro hfound
    obtain ⟨ds, hreads⟩ := hfound
    obtain ⟨tree, htree, _, _⟩ := parse_of_reads hreads
    exact ⟨tree, htree⟩

theorem parse_recognizes_nestedPairs :
    (∃ tree, nestedPairsTable.parse "S" [⟨"a", "(", 1, 1⟩, ⟨"b", ")", 1, 2⟩] = some (.ok tree)) ↔
      nestedPairs.Generates "S" ["a", "b"] :=
  (parse_recognizes table_nestedPairs [⟨"a", "(", 1, 1⟩, ⟨"b", ")", 1, 2⟩]).1

end Grammar

end TopDown
