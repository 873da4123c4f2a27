import TopDown.Proofs.Recognition
import TopDown.Proofs.Toy.ConcreteSyntax
import TopDown.Proofs.TreeWalks
import TopDown.Toy.Construct

/-!
Phrases in trees. In the tree of a parse every phrase of the program has a node of its own, with the
phrases it is made of as children.
-/
namespace TopDown.Toy

open TopDown.Derivation

namespace Phrase

/-- The nodes stand for the phrases, and their children for the parts of these. -/
inductive Occurs (tree : SyntaxTree) : List NodeId → List Phrase → Prop where
  | nil : Occurs tree [] []
  | token {id : NodeId} {ids : List NodeId} {kind : String} {text : Option String}
      {phrases : List Phrase} {token : Token} (hid : tree.node? id = some (.leaf token))
      (hfits : Fits kind text token) :
      Occurs tree ids phrases → Occurs tree (id :: ids) (.token kind text :: phrases)
  | node {id : NodeId} {ids children : List NodeId} {name : String} {alternative : Nat}
      {parts phrases : List Phrase} (hid : tree.node? id = some (.inner name children)) :
      Occurs tree children parts → Occurs tree ids phrases →
      Occurs tree (id :: ids) (.node name alternative parts :: phrases)

/-- A layout of written phrases is made of their occurrences. -/
theorem Written.occurs {tree : SyntaxTree} {phrases : List Phrase} {tokens : List Token}
    {next stop : Nat} {ids : List NodeId} (h : Written phrases tokens)
    (hlayout : Layout tree.node? next ids (derivations phrases) tokens stop) :
    Occurs tree ids phrases := by
  induction h generalizing next stop ids with
  | nil =>
    cases hlayout with
    | nil => exact .nil
  | token hfits _ ih =>
    cases hlayout with
    | leaf hid hrest => exact .token hid hfits (ih hrest)
  | @node name alternative parts phrases inner tokens hparts hphrases ihparts ih =>
    generalize htokens : inner ++ tokens = all at hlayout
    cases hlayout with
    | @node _ mid _ id ids _ _ below beside _ hid hinner hrest =>
      have hkinds : Token.kinds below = Token.kinds inner := by
        rw [hinner.kinds_eq, hparts.words_eq]
      have hlength : inner.length = below.length := by
        simpa [Token.kinds] using (congrArg List.length hkinds).symm
      obtain ⟨rfl, rfl⟩ := List.append_inj htokens hlength
      exact .node hid (ihparts hinner) (ih hrest)

/-- The nodes stand for the phrases in a tree that can be walked down from them. -/
structure Stands (tree : SyntaxTree) (ids : List NodeId) (phrases : List Phrase) : Prop where
  occurs : Occurs tree ids phrases
  walkable : ∀ id ∈ ids, tree.Founded [id]

namespace Stands

variable {tree : SyntaxTree} {id : NodeId} {ids : List NodeId} {phrase : Phrase}
  {phrases pieces after : List Phrase} {name kind : String} {text : Option String}
  {alternative : Nat}

theorem nil : Stands tree [] [] := ⟨.nil, fun _ hid => absurd hid List.not_mem_nil⟩

theorem eq_nil (h : Stands tree ids []) : ids = [] := by
  cases h.occurs with
  | nil => rfl

theorem founded (h : Stands tree [id] [phrase]) : tree.Founded [id] :=
  h.walkable id List.mem_cons_self

theorem cons (h : Stands tree [id] [phrase]) (h' : Stands tree ids phrases) :
    Stands tree (id :: ids) (phrase :: phrases) := by
  refine ⟨?_, List.forall_mem_cons.mpr ⟨h.founded, h'.walkable⟩⟩
  cases h.occurs with
  | token hid hfits _ => exact .token hid hfits h'.occurs
  | node hid hparts _ => exact .node hid hparts h'.occurs

theorem split (h : Stands tree ids (phrase :: phrases)) :
    ∃ id rest, ids = id :: rest ∧ Stands tree [id] [phrase] ∧ Stands tree rest phrases := by
  obtain ⟨hoccurs, hwalkable⟩ := h
  cases hoccurs with
  | @token id rest _ _ _ _ hid hfits hrest =>
    obtain ⟨hfirst, hlater⟩ := List.forall_mem_cons.mp hwalkable
    exact ⟨id, rest, rfl, ⟨.token hid hfits .nil, List.forall_mem_singleton.mpr hfirst⟩,
      hrest, hlater⟩
  | @node id rest _ _ _ _ _ hid hparts hrest =>
    obtain ⟨hfirst, hlater⟩ := List.forall_mem_cons.mp hwalkable
    exact ⟨id, rest, rfl, ⟨.node hid hparts .nil, List.forall_mem_singleton.mpr hfirst⟩,
      hrest, hlater⟩

theorem node?_eq (h : Stands tree [id] [.node name alternative pieces]) :
    tree.node? id = some (.inner name (tree.children id)) := by
  cases h.occurs with
  | node hid _ _ => rw [SyntaxTree.children_of_inner hid, hid]

/-- The children of a node stand for the parts of its phrase. -/
theorem parts (h : Stands tree [id] [.node name alternative pieces]) :
    Stands tree (tree.children id) pieces := by
  refine ⟨?_, fun _ hchild => h.founded.children.of_mem hchild⟩
  cases h.occurs with
  | node hid hparts _ => rwa [SyntaxTree.children_of_inner hid]

theorem leaf (h : Stands tree [id] [.token kind text]) :
    ∃ token, tree.node? id = some (.leaf token) ∧ Fits kind text token := by
  cases h.occurs with
  | token hid hfits _ => exact ⟨_, hid, hfits⟩

theorem nonterminal?_eq (h : Stands tree [id] [phrase]) :
    tree.nonterminal? id = phrase.nonterminal? := by
  cases h.occurs with
  | token hid _ _ => simp only [SyntaxTree.nonterminal?, hid, Phrase.nonterminal?]
  | node hid _ _ => simp only [SyntaxTree.nonterminal?, hid, Phrase.nonterminal?]

theorem constructOf_eq (h : Stands tree [id] [.node name alternative pieces]) :
    constructOf tree id = .ofNonterminal name := by
  simp only [constructOf, h.node?_eq]

theorem exists_of_mem (h : Stands tree ids phrases) (hid : id ∈ ids) :
    ∃ phrase ∈ phrases, Stands tree [id] [phrase] := by
  induction phrases generalizing ids with
  | nil =>
    rw [h.eq_nil] at hid
    exact absurd hid List.not_mem_nil
  | cons phrase phrases ih =>
    obtain ⟨first, rest, rfl, hfirst, hrest⟩ := h.split
    rcases List.mem_cons.mp hid with rfl | hid
    · exact ⟨phrase, List.mem_cons_self, hfirst⟩
    · obtain ⟨other, hother, hstands⟩ := ih hrest hid
      exact ⟨other, List.mem_cons_of_mem _ hother, hstands⟩

theorem exists_append (before : List Phrase) (h : Stands tree ids (before ++ phrase :: after)) :
    ∃ left child right, ids = left ++ child :: right ∧ Stands tree left before ∧
      Stands tree [child] [phrase] ∧ Stands tree right after := by
  induction before generalizing ids with
  | nil =>
    obtain ⟨child, right, rfl, hchild, hright⟩ := h.split
    exact ⟨[], child, right, rfl, nil, hchild, hright⟩
  | cons first before ih =>
    obtain ⟨id, rest, rfl, hid, hrest⟩ := h.split
    obtain ⟨left, child, right, rfl, hleft, hchild, hright⟩ := ih hrest
    exact ⟨id :: left, child, right, rfl, hid.cons hleft, hchild, hright⟩

section Children

theorem find?_eq_none (h : Stands tree ids phrases)
    (hname : ∀ phrase ∈ phrases, phrase.nonterminal? ≠ some name) :
    ids.find? (fun child => tree.nonterminal? child = some name) = none := by
  refine List.find?_eq_none.mpr fun child hchild => ?_
  obtain ⟨phrase, hphrase, hstands⟩ := h.exists_of_mem hchild
  rw [decide_eq_true_iff, hstands.nonterminal?_eq]
  exact hname phrase hphrase

theorem childNode?_eq_none (h : Stands tree (tree.children id) phrases)
    (hname : ∀ phrase ∈ phrases, phrase.nonterminal? ≠ some name) :
    childNode? tree id name = none :=
  h.find?_eq_none hname

/-- A child is found by its nonterminal when no child before it has the same. -/
theorem exists_childNode (before : List Phrase)
    (h : Stands tree (tree.children id) (before ++ phrase :: after))
    (hphrase : phrase.nonterminal? = some name)
    (hbefore : ∀ phrase ∈ before, phrase.nonterminal? ≠ some name) :
    ∃ child, childNode? tree id name = some child ∧ Stands tree [child] [phrase] := by
  obtain ⟨left, child, right, hchildren, hleft, hchild, _⟩ := h.exists_append before
  have hfound : tree.nonterminal? child = some name := by rw [hchild.nonterminal?_eq, hphrase]
  refine ⟨child, ?_, hchild⟩
  rw [childNode?, hchildren, List.find?_append, hleft.find?_eq_none hbefore, List.find?_cons,
    decide_eq_true hfound]
  rfl

theorem kind_ne (h : Stands tree ids phrases)
    (hkind : ∀ phrase ∈ phrases, phrase.kind? ≠ some kind) {child : NodeId} (hchild : child ∈ ids)
    {found : Token} (hfound : tree.token? child = some found) : found.kind ≠ kind := by
  obtain ⟨phrase, hphrase, hstands⟩ := h.exists_of_mem hchild
  have hother := hkind phrase hphrase
  cases hstands.occurs with
  | token hnode hfits _ =>
    simp only [SyntaxTree.token?, hnode, Option.some.injEq] at hfound
    rw [← hfound, hfits.1]
    exact fun heq => hother (congrArg some heq)
  | node hnode _ _ =>
    simp only [SyntaxTree.token?, hnode] at hfound
    cases hfound

theorem childLeaf?_eq_none (h : Stands tree (tree.children id) phrases)
    (hkind : ∀ phrase ∈ phrases, phrase.kind? ≠ some kind) : childLeaf? tree id kind = none := by
  refine List.findSome?_eq_none_iff.mpr fun child hchild => ?_
  cases hfound : tree.token? child with
  | none => rfl
  | some found => exact if_neg (h.kind_ne hkind hchild hfound)

/-- A token is found by its kind when no child before it is of the same. -/
theorem exists_childLeaf (before : List Phrase)
    (h : Stands tree (tree.children id) (before ++ .token kind text :: after))
    (hbefore : ∀ phrase ∈ before, phrase.kind? ≠ some kind) :
    ∃ leaf, childLeaf? tree id kind = some leaf ∧ Fits kind text leaf.token := by
  obtain ⟨left, child, right, hchildren, hleft, hchild, _⟩ := h.exists_append before
  obtain ⟨found, hnode, hfits⟩ := hchild.leaf
  refine ⟨⟨child, found⟩, ?_, hfits⟩
  refine List.findSome?_eq_some_iff.mpr ⟨left, child, right, hchildren, ?_, fun other hother => ?_⟩
  · simp only [SyntaxTree.token?, hnode, if_pos hfits.1]
  · cases hfound : tree.token? other with
    | none => rfl
    | some found => exact if_neg (hleft.kind_ne hbefore hother hfound)

end Children

end Stands

end Phrase

open Phrase

variable {table : Table} {tokens : List Token} {program : Program}

/-- The tokens of a program are read as its derivation. -/
theorem Program.reads_of_writtenAs (htable : grammar.table = .ok table)
    (h : program.WrittenAs tokens) :
    table.Reads [.nonterminal grammar.start] (Token.kinds tokens)
      (derivations [Program.phrase program]) [] := by
  have hforest : Forest grammar [.nonterminal grammar.start]
      (derivations [Program.phrase program]) :=
    Program.formed program
  have hreads := Grammar.reads_of_forest htable hforest (Grammar.Coherent.start grammar) .nil
  simpa [h.words_eq, words] using hreads

/-- The tokens of a program are parsed, and every phrase of the program has its node in the tree. -/
theorem Program.parse_of_writtenAs (htable : grammar.table = .ok table)
    (h : program.WrittenAs tokens) :
    ∃ tree, table.parse grammar.start tokens = some (.ok tree) ∧
      Stands tree [SyntaxTree.root] [Program.phrase program] := by
  obtain ⟨tree, hparse, hsize, hlayout⟩ := Grammar.parse_of_reads (reads_of_writtenAs htable h)
  exact ⟨tree, hparse, h.occurs hlayout, List.forall_mem_singleton.mpr (hlayout.founded hsize)⟩

/-- In the tree that the tokens of a program are parsed into, the program has its node. -/
theorem Program.stands_of_parse (htable : grammar.table = .ok table) (h : program.WrittenAs tokens)
    {tree : SyntaxTree} (hparse : table.parse grammar.start tokens = some (.ok tree)) :
    Stands tree [SyntaxTree.root] [Program.phrase program] := by
  obtain ⟨built, hbuilt, hstands⟩ := parse_of_writtenAs htable h
  rw [hparse] at hbuilt
  obtain rfl := Except.ok.inj (Option.some.inj hbuilt)
  exact hstands

end TopDown.Toy
