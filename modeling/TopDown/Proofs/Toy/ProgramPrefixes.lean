import Mathlib.Data.List.Forall2
import TopDown.Proofs.Toy.FaultPlaces
import TopDown.Proofs.Toy.SharedNodes

/-!
The first items of a program. In the tree of a program the first items have the nodes that they have
in the tree of a program of just these items, so the visit of that smaller program is the beginning
of the visit of the whole one. A violation among the first items is therefore the violation of the
whole program, whatever comes after them.
-/
namespace TopDown

open TopDown.Derivation

/-- Two layouts of the same trees with the same tokens, both from the same place on, share their
nodes. -/
theorem Layout.shared {tree tree' : SyntaxTree} {next stop stop' : Nat} {ids : List NodeId}
    {ds : List Derivation} {tokens : List Token} (h : Layout tree.node? next ids ds tokens stop)
    (h' : Layout tree'.node? next ids ds tokens stop') (hfounded : ∀ id ∈ ids, tree.Founded [id])
    (hfounded' : ∀ id ∈ ids, tree'.Founded [id]) :
    stop' = stop ∧ ∀ id ∈ ids, tree.Shared tree' id := by
  induction h generalizing stop' with
  | nil next =>
    cases h' with
    | nil => exact ⟨rfl, fun _ hid => absurd hid List.not_mem_nil⟩
  | @leaf _ _ _ _ ds tokens token hid _ ih =>
    generalize hds : .leaf token.kind :: ds = trees at h'
    generalize htokens : token :: tokens = all at h'
    cases h' with
    | node => cases hds
    | leaf hid' hrest' =>
      obtain ⟨_, rfl⟩ := List.cons.inj hds
      obtain ⟨rfl, rfl⟩ := List.cons.inj htokens
      obtain ⟨hfirst, hlater⟩ := List.forall_mem_cons.mp hfounded
      obtain ⟨hfirst', hlater'⟩ := List.forall_mem_cons.mp hfounded'
      obtain ⟨hstop, hshared⟩ := ih hrest' hlater hlater'
      refine ⟨hstop, List.forall_mem_cons.mpr ⟨?_, hshared⟩⟩
      refine .intro (hid'.trans hid.symm) hfirst hfirst' fun child hchild => ?_
      rw [SyntaxTree.children_of_leaf hid] at hchild
      exact absurd hchild List.not_mem_nil
  | @node next mid stop id ids children ds inner tokens p hid hinner hrest ihinner ih =>
    generalize htokens : inner ++ tokens = all at h'
    cases h' with
    | @node _ mid' _ _ _ _ _ inner' _ _ hid' hinner' hrest' =>
      obtain ⟨rfl, rfl⟩ := hinner.append_inj hinner' htokens
      obtain ⟨hfirst, hlater⟩ := List.forall_mem_cons.mp hfounded
      obtain ⟨hfirst', hlater'⟩ := List.forall_mem_cons.mp hfounded'
      obtain ⟨rfl, hinside⟩ := ihinner hinner' (fun _ hchild => hfirst.of_inner hid hchild)
        (fun _ hchild => hfirst'.of_inner hid' hchild)
      obtain ⟨hstop, hshared⟩ := ih hrest' hlater hlater'
      refine ⟨hstop, List.forall_mem_cons.mpr ⟨?_, hshared⟩⟩
      refine .intro (hid'.trans hid.symm) hfirst hfirst' fun child hchild => ?_
      rw [SyntaxTree.children_of_inner hid] at hchild
      exact hinside child hchild

namespace Toy

open Phrase

section Trees

variable {tree tree' : SyntaxTree} {next stop stop' : Nat} {id : NodeId} {name : String}
  {alternative : Nat} {parts phrases : List Phrase} {tokens more : List Token}

theorem Phrase.length_derivations : (derivations phrases).length = phrases.length := by
  induction phrases with
  | nil => rfl
  | cons phrase phrases ih => rw [derivations, List.length_cons, List.length_cons, ih]

/-- The parts of a phrase are laid out under its node. -/
theorem Phrase.layout_parts
    (h : Layout tree.node? next [id] [derivation (.node name alternative parts)] tokens stop) :
    tree.node? id = some (.inner name (List.range' next parts.length)) ∧
      Layout tree.node? (next + parts.length) (List.range' next parts.length) (derivations parts)
        tokens stop := by
  rw [derivation] at h
  cases h with
  | node hid hinner hrest =>
    rw [length_derivations] at hid hinner
    cases hrest with
    | nil => exact ⟨hid, (List.append_nil _).symm ▸ hinner⟩

/-- The visit of a composite is that of its children. -/
theorem Visit.node_inner {children : List NodeId} {returns : Option ValueType}
    (hfounded : tree.Founded [id]) (hid : tree.node? id = some (.inner name children))
    (hname : Construct.ofNonterminal name = .composite) :
    Visit.node tree returns id = forM children (Visit.node tree returns) := by
  have hconstruct : constructOf tree id = .composite := by
    simp only [constructOf, hid, hname]
  rw [Visit.node_eq hfounded, Visit.nodeOver, hconstruct, SyntaxTree.children_of_inner hid]

/-- The visit of the whole list goes on where that of its first elements ends. -/
theorem Visit.exists_shared_list (rest : List Phrase)
    (hname : Construct.ofNonterminal name = .composite)
    (h : Layout tree.node? next [id] [derivation (listPhrase name (phrases ++ rest))]
      (tokens ++ more) stop)
    (h' : Layout tree'.node? next [id] [derivation (listPhrase name phrases)] tokens stop')
    (hfounded : tree.Founded [id]) (hfounded' : tree'.Founded [id]) :
    ∃ (ids : List NodeId) (last : NodeId),
      Visit.node tree' none id = forM ids (Visit.node tree none) ∧
      Visit.node tree none id =
        forM ids (Visit.node tree none) >>= fun _ => Visit.node tree none last := by
  induction phrases generalizing next id tokens with
  | nil =>
    obtain ⟨hid', _⟩ := layout_parts h'
    refine ⟨[], id, ?_, ?_⟩
    · rw [Visit.node_inner hfounded' hid' hname, List.length_nil, List.range'_zero, List.forM_nil,
        List.forM_nil]
    · rw [List.forM_nil, pure_bind]
  | cons phrase phrases ih =>
    obtain ⟨hid, hparts⟩ := layout_parts h
    obtain ⟨hid', hparts'⟩ := layout_parts h'
    obtain ⟨mid, first, second, htokens, hfirst, hlist⟩ := hparts.uncons
    obtain ⟨mid', first', second', rfl, hfirst', hlist'⟩ := hparts'.uncons
    rw [List.append_assoc] at htokens
    obtain ⟨rfl, rfl⟩ := hfirst'.append_inj hfirst htokens
    have hbelow : ∀ child ∈ [next, next + 1], tree.Founded [child] :=
      fun _ hchild => hfounded.of_inner hid hchild
    have hbelow' : ∀ child ∈ [next, next + 1], tree'.Founded [child] :=
      fun _ hchild => hfounded'.of_inner hid' hchild
    obtain ⟨rfl, hshared⟩ := hfirst.shared hfirst'
      (List.forall_mem_singleton.mpr (hbelow next List.mem_cons_self))
      (List.forall_mem_singleton.mpr (hbelow' next List.mem_cons_self))
    have hhead := Visit.node_shared (hshared next List.mem_cons_self) none
    obtain ⟨ids, last, hprefix, hwhole⟩ :=
      ih hlist hlist' (hbelow _ (by simp)) (hbelow' _ (by simp))
    refine ⟨next :: ids, last, ?_, ?_⟩
    · rw [Visit.node_inner hfounded' hid' hname]
      change forM [next, next + 1] _ = _
      rw [List.forM_cons, List.forM_cons, List.forM_nil, bind_pure_unit, hhead, hprefix,
        List.forM_cons]
    · rw [Visit.node_inner hfounded hid hname]
      change forM [next, next + 1] _ = _
      rw [List.forM_cons, List.forM_cons, List.forM_nil, bind_pure_unit, hwhole, List.forM_cons,
        bind_assoc]

variable {items rest : Program}

/-- The visit of a program goes on where that of its first items ends. -/
theorem Program.exists_shared_visit (hsize : 1 ≤ tree.size) (hsize' : 1 ≤ tree'.size)
    (h : Layout tree.node? 1 [SyntaxTree.root] (derivations [Program.phrase (items ++ rest)])
      (tokens ++ more) tree.size)
    (h' : Layout tree'.node? 1 [SyntaxTree.root] (derivations [Program.phrase items]) tokens
      tree'.size) :
    ∃ (ids : List NodeId) (last : NodeId),
      Visit.node tree' none SyntaxTree.root = forM ids (Visit.node tree none) ∧
      Visit.node tree none SyntaxTree.root =
        forM ids (Visit.node tree none) >>= fun _ => Visit.node tree none last := by
  have hfounded : tree.Founded [SyntaxTree.root] := h.founded hsize
  have hfounded' : tree'.Founded [SyntaxTree.root] := h'.founded hsize'
  obtain ⟨hid, hlist⟩ := layout_parts h
  obtain ⟨hid', hlist'⟩ := layout_parts h'
  rw [List.map_append] at hlist
  have hbelow : tree.Founded [1] := hfounded.of_inner hid List.mem_cons_self
  have hbelow' : tree'.Founded [1] := hfounded'.of_inner hid' List.mem_cons_self
  obtain ⟨ids, last, hprefix, hwhole⟩ :=
    Visit.exists_shared_list (rest.map Item.phrase) rfl hlist hlist' hbelow hbelow'
  refine ⟨ids, last, ?_, ?_⟩
  · rw [Visit.node_inner hfounded' hid' rfl]
    change forM [1] _ = _
    rw [List.forM_cons, List.forM_nil, bind_pure_unit, hprefix]
  · rw [Visit.node_inner hfounded hid rfl]
    change forM [1] _ = _
    rw [List.forM_cons, List.forM_nil, bind_pure_unit, hwhole]

/-- A violation among the first items is that of the whole program. -/
theorem analyze_error_of_items (hsize : 1 ≤ tree.size) (hsize' : 1 ≤ tree'.size)
    (h : Layout tree.node? 1 [SyntaxTree.root] (derivations [Program.phrase (items ++ rest)])
      (tokens ++ more) tree.size)
    (h' : Layout tree'.node? 1 [SyntaxTree.root] (derivations [Program.phrase items]) tokens
      tree'.size)
    {e : Located SemanticError} (herror : analyze tree' = .error e)
    (hmain : e.error ≠ .missingMain) : analyze tree = .error e := by
  obtain ⟨ids, last, hprefix, hwhole⟩ := Program.exists_shared_visit hsize hsize' h h'
  rw [analyze_eq, hprefix] at herror
  rw [analyze_eq, hwhole]
  cases hrun : forM ids (Visit.node tree none) .initial with
  | ok _ t =>
    simp only [hrun] at herror
    split at herror
    · cases herror
    · cases herror
      exact absurd rfl hmain
  | error found t =>
    rw [hrun] at herror
    rw [Visit.bind_of_error hrun]
    exact herror

end Trees

section Main

variable {tree : SyntaxTree} {program : Program}

/-- Items that are visited to their end have defined a main function just when one of them is. -/
theorem Visit.mainDefined_of_items {env : Environment} {main : Bool} {s t : State}
    (hs : s.Holds env main) {items : List Item} {ids : List NodeId}
    (h : Stands tree ids (items.map Item.phrase))
    (hrun : forM ids (Visit.node tree none) s = .ok () t) :
    t.mainDefined = (main || items.any Item.isMain) := by
  induction items generalizing ids s env main with
  | nil =>
    rw [h.eq_nil, List.forM_nil] at hrun
    rw [← (Visit.pure_eq_ok_iff.mp hrun).2, hs.main_eq, List.any_nil, Bool.or_false]
  | cons item items ih =>
    obtain ⟨first, rest, rfl, hfirst, hrest⟩ := h.split
    obtain ⟨next, hnext, hvisit⟩ := Visit.item_leadsOn hs hfirst
    rw [List.forM_cons, Visit.bind_eq_ok_iff] at hrun
    obtain ⟨_, u, hitem, hlater⟩ := hrun
    obtain ⟨hadmitted, rfl⟩ := (hvisit u).mp hitem
    rw [ih (hnext hadmitted) hrest hlater, List.any_cons, Bool.or_assoc]

/-- A program without violations is analysed well if it has a main function. -/
theorem analyze_of_no_violation (h : Stands tree [SyntaxTree.root] [Program.phrase program])
    (hnone : ∀ e, analyze tree = .error e → e.error = .missingMain) :
    ((∃ item ∈ program, item.isMain) → ∃ symbols, analyze tree = .ok symbols) ∧
      ((∀ item ∈ program, ¬ item.isMain) → analyze tree = .error ⟨.missingMain, .nowhere⟩) := by
  obtain ⟨list, hlist, heq⟩ := Visit.node_only h rfl
  obtain ⟨ids, hids, hnodes⟩ := Visit.exists_node_list rfl hlist
  have hroot : Visit.node tree none SyntaxTree.root = forM ids (Visit.node tree none) :=
    heq.trans (hnodes none)
  rw [analyze_eq] at hnone ⊢
  cases hrun : Visit.node tree none SyntaxTree.root .initial with
  | ok _ t =>
    have hmain : t.mainDefined = program.any Item.isMain := by
      rw [hroot] at hrun
      exact Visit.mainDefined_of_items State.Holds.initial hids hrun
    simp only [hmain, List.any_eq_true]
    constructor
    · intro hsome
      exact ⟨t.symbols, if_pos hsome⟩
    · intro hall
      refine if_neg fun hsome => ?_
      obtain ⟨item, hitem, htrue⟩ := hsome
      exact hall item hitem htrue
  | error e t =>
    have hvisit : Visit.Delivers tree (fun _ => True) (Visit.node tree none SyntaxTree.root) :=
      Visit.program_delivers h
    have hfault := hvisit .initial
    rw [hrun] at hnone hfault
    have hproper := hfault.proper
    rw [hnone e rfl] at hproper
    exact hproper.elim

end Main

section Chunks

variable {tokens : List Token} {program : Program} {chunks : List (List Token)}

/-- The items are written in these chunks of tokens, one chunk for each. -/
def Program.WrittenIn (program : Program) (chunks : List (List Token)) : Prop :=
  List.Forall₂ (fun item chunk => Written [item.phrase] chunk) program chunks

theorem Phrase.Written.uncons {phrase : Phrase} {phrases : List Phrase}
    (h : Written (phrase :: phrases) tokens) :
    ∃ first second, tokens = first ++ second ∧ Written [phrase] first ∧
      Written phrases second := by
  cases h with
  | token hfits hrest => exact ⟨[_], _, rfl, .token hfits .nil, hrest⟩
  | node hparts hrest => exact ⟨_, _, rfl, .single hparts, hrest⟩

/-- The parts of a written phrase are written. -/
theorem Phrase.Written.parts {name : String} {alternative : Nat} {pieces : List Phrase}
    (h : Written [.node name alternative pieces] tokens) : Written pieces tokens := by
  cases h with
  | node hparts hrest =>
    cases hrest with
    | nil => rwa [List.append_nil]

theorem Program.writtenAs_flatten (h : program.WrittenIn chunks) :
    program.WrittenAs chunks.flatten := by
  refine .single ?_
  induction h with
  | nil => exact .single .nil
  | cons hitem _ ih => exact .single (hitem.append ih)

theorem Program.exists_chunks (h : program.WrittenAs tokens) :
    ∃ chunks, program.WrittenIn chunks ∧ chunks.flatten = tokens := by
  replace h := h.parts
  induction program generalizing tokens with
  | nil =>
    have hnil : Written [] tokens := h.parts
    cases hnil with
    | nil => exact ⟨[], .nil, rfl⟩
  | cons item items ih =>
    obtain ⟨first, second, rfl, hfirst, hsecond⟩ := h.parts.uncons
    obtain ⟨chunks, hchunks, rfl⟩ := ih hsecond
    exact ⟨first :: chunks, .cons hfirst hchunks, rfl⟩

/-- So many of the items, parsed and analysed by themselves, have a violation, and it is not that a
main function is missing. -/
def FailsAt (table : Table) (chunks : List (List Token)) (count : Nat)
    (e : Located SemanticError) : Prop :=
  ∃ tree, table.parse grammar.start (chunks.take count).flatten = some (.ok tree) ∧
    analyze tree = .error e ∧ e.error ≠ .missingMain

variable {table : Table} {tree : SyntaxTree}

/-- The first items of a program are parsed by themselves. -/
theorem Program.exists_parse_take (htable : grammar.table = .ok table)
    (h : program.WrittenIn chunks) (count : Nat) :
    ∃ part, table.parse grammar.start (chunks.take count).flatten = some (.ok part) := by
  have htake : Program.WrittenIn (program.take count) (chunks.take count) :=
    List.forall₂_take count h
  obtain ⟨part, hparse, _⟩ :=
    Program.parse_of_writtenAs htable (Program.writtenAs_flatten htake)
  exact ⟨part, hparse⟩

/-- Where the first items fail, the whole program fails alike. -/
theorem FailsAt.analyze_eq (htable : grammar.table = .ok table) (h : program.WrittenIn chunks)
    (hparse : table.parse grammar.start chunks.flatten = some (.ok tree)) {count : Nat}
    {e : Located SemanticError} (hfails : FailsAt table chunks count e) :
    analyze tree = .error e := by
  obtain ⟨part, hpart, herror, hmain⟩ := hfails
  have htake : Program.WrittenIn (program.take count) (chunks.take count) :=
    List.forall₂_take count h
  have hwhole := Program.reads_of_writtenAs htable (Program.writtenAs_flatten h)
  have hitems := Program.reads_of_writtenAs htable (Program.writtenAs_flatten htake)
  obtain ⟨built, hbuilt, hsize, hlayout⟩ := Grammar.parse_of_reads hwhole
  rw [hparse] at hbuilt
  obtain rfl := Except.ok.inj (Option.some.inj hbuilt)
  obtain ⟨built, hbuilt, hsize', hlayout'⟩ := Grammar.parse_of_reads hitems
  rw [hpart] at hbuilt
  obtain rfl := Except.ok.inj (Option.some.inj hbuilt)
  have hprogram : program = program.take count ++ program.drop count :=
    (List.take_append_drop count program).symm
  have htokens : chunks.flatten = (chunks.take count).flatten ++ (chunks.drop count).flatten := by
    rw [← List.flatten_append, List.take_append_drop]
  rw [hprogram, htokens] at hlayout
  exact analyze_error_of_items hsize hsize' hlayout hlayout' herror hmain

end Chunks

/-- The tokens of a parsed program are those of its items. If the first so many items by themselves
have a violation, other than that a main function is missing, then that is what the analysis of the
whole program finds, whatever the other items are; if no number of first items has one, the analysis
succeeds just when there is a main function, and its absence is all it finds otherwise. -/
theorem analyze_first_violation {table : Table} {tokens : List Token} {tree : SyntaxTree}
    (htable : grammar.table = .ok table)
    (hparse : table.parse grammar.start tokens = some (.ok tree)) :
    (∃ (program : Program) (chunks : List (List Token)),
      program.WrittenIn chunks ∧ chunks.flatten = tokens) ∧
    ∀ (program : Program) (chunks : List (List Token)), program.WrittenIn chunks →
      chunks.flatten = tokens →
      (∀ count, ∃ part,
        table.parse grammar.start (chunks.take count).flatten = some (.ok part)) ∧
      (∀ count e, FailsAt table chunks count e → analyze tree = .error e) ∧
      ((∀ count ≤ program.length, ∀ e, ¬ FailsAt table chunks count e) →
        ((∃ item ∈ program, item.isMain) → ∃ symbols, analyze tree = .ok symbols) ∧
        ((∀ item ∈ program, ¬ item.isMain) →
          analyze tree = .error ⟨.missingMain, .nowhere⟩)) := by
  constructor
  · obtain ⟨program, hprogram⟩ := (parses_iff_program htable).mp ⟨tree, hparse⟩
    obtain ⟨chunks, hchunks, hflatten⟩ := Program.exists_chunks hprogram
    exact ⟨program, chunks, hchunks, hflatten⟩
  · rintro program chunks hchunks rfl
    refine ⟨Program.exists_parse_take htable hchunks,
      fun _ _ hfails => hfails.analyze_eq htable hchunks hparse, fun hnone => ?_⟩
    have hstands :=
      Program.stands_of_parse htable (Program.writtenAs_flatten hchunks) hparse
    refine analyze_of_no_violation hstands fun e herror => ?_
    by_contra hmain
    -- All items together are the last of the first so many.
    refine hnone program.length (Nat.le_refl _) e ⟨tree, ?_, herror, hmain⟩
    rwa [List.Forall₂.length_eq hchunks, List.take_length]

/-- The program `INT n; INT n; MAIN() {}`. -/
def repeatedName : Program :=
  [.declaration ⟨.scalar .int, "n", none⟩, .declaration ⟨.scalar .int, "n", none⟩, .main []]

theorem not_lawful_repeatedName : ¬ repeatedName.Lawful := by
  rw [Program.lawful_iff_accepted]
  intro haccepted
  obtain ⟨_, hsecond, _⟩ := haccepted
  obtain ⟨hfresh, _⟩ := Item.admitted_declaration_iff.mp hsecond
  cases hfresh

/-- Some of the first items of `INT n; INT n; MAIN() {}` fail, and so does the program. -/
theorem analyze_first_violation_repeatedName :
    ∃ table tree chunks count e, grammar.table = .ok table ∧
      table.parse grammar.start (spell (Program.phrase repeatedName)) = some (.ok tree) ∧
      Program.WrittenIn repeatedName chunks ∧ FailsAt table chunks count e ∧
      analyze tree = .error e := by
  obtain ⟨table, htable⟩ := exists_table
  have hwritten := Program.writtenAs_spell repeatedName
  obtain ⟨tree, hparse, hstands⟩ := Program.parse_of_writtenAs htable hwritten
  obtain ⟨chunks, hchunks, hflatten⟩ := Program.exists_chunks hwritten
  obtain ⟨_, hfails, hnone⟩ := (analyze_first_violation htable hparse).2 _ chunks hchunks hflatten
  have hsome : ∃ count e, FailsAt table chunks count e := by
    by_contra hall
    have hok := (hnone fun count _ e hcount => hall ⟨count, e, hcount⟩).1
      ⟨.main [], by simp [repeatedName], rfl⟩
    exact not_lawful_repeatedName ((exists_analyze_iff_lawful hstands).mp hok)
  obtain ⟨count, e, hcount⟩ := hsome
  exact ⟨table, tree, chunks, count, e, htable, hparse, hchunks, hcount, hfails count e hcount⟩

end Toy

end TopDown
