import TopDown.Proofs.Toy.Faults
import TopDown.Proofs.Toy.LawfulPrograms

/-!
Where the analysis finds fault. Whatever the state of the analysis, the visit of a construct ends
well or in a proper fault: statements are only visited inside functions, and every node that a fault
is found at begins with a token. So an analysis that fails points at a token of the input, unless
all that is missing is a main function.
-/
namespace TopDown.Toy

open Phrase

variable {tree : SyntaxTree} {id : NodeId}

theorem declaredType_delivers {spec : TypeSpec} (h : Stands tree [id] [spec.phrase]) :
    Verdict.Delivers tree (fun _ => True) (declaredType tree id) := by
  cases spec with
  | scalar type =>
    rw [declaredType_scalar h]
    trivial
  | array size element =>
    obtain ⟨leaf, hleaf, _, heq⟩ := exists_declaredType_array h
    rw [heq]
    cases Text.readUnsigned Text.wordBound size.toList with
    | none => exact .violation trivial (in_of_childLeaf? hleaf).placed
    | some n => trivial

namespace Visit

section Rules

variable {α β : Type} {Q : α → Prop} {R : β → Prop}

/-- In every state the visit gives a value with the property, or ends in a proper fault. -/
def Delivers (tree : SyntaxTree) (Q : α → Prop) (v : Visit α) : Prop :=
  ∀ s, match v s with
    | .ok a _ => Q a
    | .error e _ => ProperFault tree e

theorem Delivers.bind {v : Visit α} {f : α → Visit β} (hv : Delivers tree Q v)
    (hf : ∀ a, Q a → Delivers tree R (f a)) : Delivers tree R (v >>= f) := by
  intro s
  have hs := hv s
  change match EStateM.bind v f s with
    | .ok b _ => R b
    | .error e _ => ProperFault tree e
  unfold EStateM.bind
  cases hrun : v s with
  | ok a t =>
    rw [hrun] at hs
    exact hf a hs t
  | error e t =>
    rw [hrun] at hs
    exact hs

theorem delivers_pure {a : α} (h : Q a) : Delivers tree Q (pure a) := fun _ => h

theorem delivers_throw {e : Located SemanticError} (h : ProperFault tree e) :
    Delivers tree Q (throw e) := fun _ => h

theorem delivers_get : Delivers tree (fun _ => True) (get : Visit State) := fun _ => trivial

theorem delivers_modify (f : State → State) :
    Delivers tree (fun _ => True) (modify f : Visit PUnit) := fun _ => trivial

theorem delivers_check {v : Verdict α} (h : Verdict.Delivers tree Q v) :
    Delivers tree Q (check v) := by
  cases v with
  | ok a => exact delivers_pure h
  | error e => exact delivers_throw h

theorem delivers_ite {p : Prop} [Decidable p] {v w : Visit α} (hv : p → Delivers tree Q v)
    (hw : ¬p → Delivers tree Q w) : Delivers tree Q (if p then v else w) := by
  by_cases hp : p
  · rw [if_pos hp]
    exact hv hp
  · rw [if_neg hp]
    exact hw hp

/-- A condition that ends the visit in a fault, or else the visit goes on. -/
theorem delivers_unless {p : Prop} [Decidable p] {e : Located SemanticError} {f : β → Visit α}
    {v : Visit α} (he : ProperFault tree e) (hv : Delivers tree Q v) :
    Delivers tree Q (if p then throw e >>= f else v) :=
  delivers_ite (fun _ => (delivers_throw (Q := fun _ => False) he).bind fun _ h => h.elim)
    fun _ => hv

/-- A condition that ends the visit in a fault, or else well. -/
theorem delivers_refusal {p : Prop} [Decidable p] {e : Located SemanticError}
    (he : ProperFault tree e) :
    Delivers tree (fun _ => True) (if p then throw e else pure () : Visit Unit) :=
  delivers_ite (fun _ => delivers_throw he) fun _ => delivers_pure trivial

/-- Nodes that stand for the phrases of a list are visited one after the other. -/
theorem delivers_forM {α : Type} {phrase : α → Phrase} {items : List α} {ids : List NodeId}
    {f : NodeId → Visit Unit} (hids : Stands tree ids (items.map phrase))
    (hf : ∀ item child, Stands tree [child] [phrase item] →
      Delivers tree (fun _ => True) (f child)) :
    Delivers tree (fun _ => True) (forM ids f) := by
  induction items generalizing ids with
  | nil =>
    rw [hids.eq_nil]
    exact delivers_pure trivial
  | cons item items ih =>
    obtain ⟨first, rest, rfl, hfirst, hrest⟩ := hids.split
    rw [List.forM_cons]
    exact (hf item first hfirst).bind fun _ _ => ih hrest

theorem delivers_within {body : Visit Unit} (h : Delivers tree (fun _ => True) body) :
    Delivers tree (fun _ => True) (within body) := by
  intro s
  have hs := h s.enter
  unfold within
  cases hrun : body s.enter with
  | ok _ t => trivial
  | error e t =>
    rw [hrun] at hs
    exact hs

end Rules

section Constructs

variable {returns : Option ValueType} {expected : ValueType}

theorem type_delivers (e : Expression) (h : Stands tree [id] [e.phrase]) :
    Delivers tree (fun _ => True) (Visit.type tree id) :=
  fun s => delivers_check (View.type_delivers e h) s

theorem declare_delivers {name : LeafNode} (h : name.In tree) (type : ValueType) :
    Delivers tree (fun _ => True) (declare tree name type) := by
  intro s
  simp only [declare]
  cases s.symbols.declare
      ⟨name.token.lexeme, type, s.scope, name.token.line, name.token.column⟩ with
  | ok symbols => trivial
  | error existing => exact .violation trivial h.placed

theorem initializer_delivers {declared : Declaration} (h : Stands tree [id] [declared.phrase]) :
    Delivers tree (fun _ => True) (initializer tree id expected) := by
  have hfound := childNode_delivers [declared.spec.phrase, spelled "ID" declared.name] h.parts
    (nonterminal?_initialPhrase _) (by simp)
  refine (delivers_check hfound).bind fun initial hinitial => ?_
  cases hvalue : declared.initial with
  | none =>
    rw [hvalue] at hinitial
    have hnone : childNode? tree initial "Expression" = none :=
      hinitial.parts.childNode?_eq_none fun _ hphrase => absurd hphrase List.not_mem_nil
    rw [hnone]
    exact delivers_pure trivial
  | some value =>
    rw [hvalue] at hinitial
    obtain ⟨child, (hchild : childNode? tree initial "Expression" = some child), hstands⟩ :=
      hinitial.parts.exists_childNode [plain "ARROW"] value.nonterminal?_phrase (by simp)
    have hplaced := value.leads.placed hstands
    rw [hchild]
    refine (type_delivers value hstands).bind fun actual _ => ?_
    exact delivers_refusal (.violation trivial hplaced)

theorem declaration_delivers {declared : Declaration} (h : Stands tree [id] [declared.phrase]) :
    Delivers tree (fun _ => True) (declaration tree returns id) := by
  have hplaced : Placed tree id := (Leads.node declared.spec.leads).placed h
  have hname := childLeaf_delivers [declared.spec.phrase] h.parts (by simp)
  have hspec := childNode_delivers [] h.parts (TypeSpec.nonterminal?_phrase _) (by simp)
  refine (delivers_check hname).bind fun name hin => ?_
  refine delivers_unless (.violation trivial hplaced) ?_
  refine (delivers_check hspec).bind fun spec htype => ?_
  refine (delivers_check (declaredType_delivers htype)).bind fun type _ => ?_
  refine delivers_get.bind fun s _ => ?_
  refine delivers_unless (.violation trivial hin.placed) ?_
  exact (initializer_delivers h).bind fun _ _ => declare_delivers hin type

theorem assignment_delivers {target : String} {index : Option Expression} {value : Expression}
    (h : Stands tree [id] [.node "Assignment" 0 [spelled "ID" target,
      indexPhrase (index.map Expr.phrase), plain "ARROW", value.phrase, plain "SEMICOLON"]]) :
    Delivers tree (fun _ => True) (assignment tree id) := by
  have hname := childLeaf_delivers [] h.parts (by simp)
  have hvalue := childNode_delivers
    [spelled "ID" target, indexPhrase (index.map Expr.phrase), plain "ARROW"] h.parts
    value.nonterminal?_phrase (by simp)
  have hcases := h.parts.indexExpression?_cases [spelled "ID" target] (by simp)
  refine (delivers_check hname).bind fun name hin => ?_
  refine delivers_get.bind fun s _ => ?_
  refine (delivers_check (View.typeOfName_delivers hin)).bind fun declared _ => ?_
  refine (delivers_check hvalue).bind fun right hright => ?_
  refine (type_delivers value hright).bind fun actual _ => ?_
  have hplaced := value.leads.placed hright
  cases index with
  | none =>
    rw [show indexExpression? tree id = none from hcases]
    exact delivers_refusal (.violation trivial hplaced)
  | some e =>
    obtain ⟨child, hchild, hindex⟩ := hcases
    rw [hchild]
    refine (type_delivers e hindex).bind fun found _ => ?_
    have hint := View.requireIndex_delivers (e.leads.placed hindex) found
    refine (delivers_check hint).bind fun _ _ => ?_
    refine (delivers_check (View.elementType_delivers hin declared)).bind fun element _ => ?_
    exact delivers_refusal (.violation trivial hplaced)

/-- A return inside a function. -/
theorem returning_delivers {value : Option Expression}
    (h : Stands tree [id]
      [.node "Return" 0 [plain "RETURN", valuePhrase value, plain "SEMICOLON"]]) :
    Delivers tree (fun _ => True) (returning tree (some expected) id) := by
  obtain ⟨right, hright, hvalue⟩ :=
    h.parts.exists_childNode [plain "RETURN"] (nonterminal?_valuePhrase value) (by simp)
  have hplaced : Placed tree id := (Leads.node .token).placed h
  have hcompare : ∀ actual, Delivers tree (fun _ => True)
      (if expected ≠ .void ∧ actual ≠ expected then
        throw (violation tree (.returnTypeMismatch actual expected) id)
      else pure ()) := fun actual => delivers_refusal (.violation trivial hplaced)
  cases value with
  | none =>
    have hnone : returnedExpression? tree id = none := by
      rw [returnedExpression?, hright, Option.bind_some]
      exact hvalue.parts.childNode?_eq_none fun _ hphrase => absurd hphrase List.not_mem_nil
    simp only [returning, hnone]
    exact (delivers_pure (Q := fun _ => True) trivial).bind fun actual _ => hcompare actual
  | some e =>
    obtain ⟨child, hchild, hstands⟩ :=
      hvalue.parts.exists_childNode [] e.nonterminal?_phrase (by simp)
    have hsome : returnedExpression? tree id = some child := by
      rw [returnedExpression?, hright, Option.bind_some]
      exact hchild
    simp only [returning, hsome]
    exact (type_delivers e hstands).bind fun actual _ => hcompare actual

/-- The head of a function leads to its body. -/
theorem functionHead_delivers {result : Option Scalar} {name : String} {body : List Statement}
    (h : Stands tree [id] [.node "FunctionDefinition" 0 [plain "FUNC", returnPhrase result,
      spelled "ID" name, plain "LPAREN", plain "RPAREN", blockPhrase body]]) :
    Delivers tree (fun head => Stands tree [head.2] [blockPhrase body])
      (functionHead tree id) := by
  have hname := childLeaf_delivers [plain "FUNC", returnPhrase result] h.parts (by simp)
  have hresult := childNode_delivers [plain "FUNC"] h.parts (nonterminal?_returnPhrase _) (by simp)
  have hblock : Verdict.Delivers tree (fun block => Stands tree [block] [blockPhrase body])
      (childNode tree id "Block") :=
    childNode_delivers [plain "FUNC", returnPhrase result, spelled "ID" name, plain "LPAREN",
      plain "RPAREN"] h.parts rfl (by simp)
  refine (delivers_check hname).bind fun leaf hin => ?_
  refine delivers_get.bind fun s _ => ?_
  refine delivers_unless (.violation trivial ((Leads.node .token).placed h)) ?_
  refine (delivers_check hresult).bind fun node htype => ?_
  rw [scalarType_returnPhrase htype]
  refine (declare_delivers hin (.function (returnType result))).bind fun _ _ => ?_
  exact (delivers_check hblock).bind fun block hstands => delivers_pure hstands

theorem mainHead_delivers {body : List Statement}
    (h : Stands tree [id] [.node "MainDefinition" 0 [plain "MAIN", plain "LPAREN", plain "RPAREN",
      blockPhrase body]]) :
    Delivers tree (fun block => Stands tree [block] [blockPhrase body]) (mainHead tree id) := by
  have hblock : Verdict.Delivers tree (fun block => Stands tree [block] [blockPhrase body])
      (childNode tree id "Block") :=
    childNode_delivers [plain "MAIN", plain "LPAREN", plain "RPAREN"] h.parts rfl (by simp)
  refine delivers_get.bind fun s _ => ?_
  refine delivers_unless (.violation trivial ((Leads.node .token).placed h)) ?_
  refine (delivers_modify _).bind fun _ _ => ?_
  exact delivers_check hblock

end Constructs

section Nodes

variable {returns : Option ValueType} {expected : ValueType}

theorem statement_delivers {statement : Statement}
    (h : Stands tree [id] [statement.phrase]) :
    Delivers tree (fun _ => True) (node tree (some expected) id) := by
  cases statement with
  | declaration declared =>
    obtain ⟨child, hchild, heq⟩ := node_only h rfl
    rw [heq, node_eq hchild.founded, nodeOver, hchild.constructOf_eq]
    exact declaration_delivers hchild
  | assignment target index value =>
    obtain ⟨child, hchild, heq⟩ := node_only h rfl
    rw [heq, node_eq hchild.founded, nodeOver, hchild.constructOf_eq]
    exact assignment_delivers hchild
  | returning value =>
    obtain ⟨child, hchild, heq⟩ := node_only h rfl
    rw [heq, node_eq hchild.founded, nodeOver, hchild.constructOf_eq]
    exact returning_delivers hchild
  | call callee =>
    obtain ⟨call, hcall, heq⟩ := exists_node_call h
    rw [heq, node_eq hcall.founded, nodeOver, hcall.constructOf_eq]
    refine delivers_get.bind fun s _ => ?_
    exact (delivers_check (View.callType_delivers hcall)).bind fun _ _ => delivers_pure trivial

theorem block_delivers {body : List Statement} (h : Stands tree [id] [blockPhrase body]) :
    Delivers tree (fun _ => True) (node tree (some expected) id) := by
  obtain ⟨ids, hids, heq⟩ := exists_node_block h
  rw [heq]
  exact delivers_forM hids fun _ _ hstands => statement_delivers hstands

theorem item_delivers {item : Item} (h : Stands tree [id] [item.phrase]) :
    Delivers tree (fun _ => True) (node tree returns id) := by
  cases item with
  | declaration declared =>
    obtain ⟨child, hchild, heq⟩ := node_only h rfl
    rw [heq, node_eq hchild.founded, nodeOver, hchild.constructOf_eq]
    exact declaration_delivers hchild
  | function result name body =>
    obtain ⟨child, hchild, heq⟩ := node_only h rfl
    rw [heq, node_eq hchild.founded, nodeOver, hchild.constructOf_eq]
    exact (functionHead_delivers hchild).bind fun head hbody =>
      delivers_within (block_delivers hbody)
  | main body =>
    obtain ⟨child, hchild, heq⟩ := node_only h rfl
    rw [heq, node_eq hchild.founded, nodeOver, hchild.constructOf_eq]
    exact (mainHead_delivers hchild).bind fun block hbody =>
      delivers_within (block_delivers hbody)

theorem program_delivers {program : Program}
    (h : Stands tree [id] [Program.phrase program]) :
    Delivers tree (fun _ => True) (node tree returns id) := by
  obtain ⟨list, hlist, heq⟩ := node_only h rfl
  obtain ⟨ids, hids, hnodes⟩ := exists_node_list rfl hlist
  rw [heq, hnodes]
  exact delivers_forM hids fun _ _ hstands => item_delivers hstands

end Nodes

end Visit

/-- On the tree of a program the analysis ends well, in a proper fault, or for want of a main
function. -/
theorem analyze_cases {program : Program}
    (h : Stands tree [SyntaxTree.root] [Program.phrase program]) {e : Located SemanticError}
    (herror : analyze tree = .error e) : ProperFault tree e ∨ e = ⟨.missingMain, .nowhere⟩ := by
  have hvisit : Visit.Delivers tree (fun _ => True) (Visit.node tree none SyntaxTree.root) :=
    Visit.program_delivers h
  have hinitial := hvisit .initial
  rw [analyze_eq] at herror
  cases hrun : Visit.node tree none SyntaxTree.root .initial with
  | ok _ t =>
    simp only [hrun] at herror
    split at herror
    · cases herror
    · cases herror
      exact Or.inr rfl
  | error e t =>
    rw [hrun] at herror hinitial
    cases herror
    exact Or.inl hinitial

/-- The visit of an array whose size is no number ends at the size. -/
theorem Visit.declaration_invalidArraySize {size name : String} {element : Scalar}
    {initial : Option Expression}
    (h : Stands tree [id] [Declaration.phrase ⟨.array size element, name, initial⟩])
    (hsize : Text.readUnsigned Text.wordBound size.toList = none) (s : State) :
    ∃ leaf : LeafNode, leaf.In tree ∧ Fits "INT_LITERAL" (some size) leaf.token ∧
      node tree none id s = .error (violation tree (.invalidArraySize size) leaf.id) s := by
  obtain ⟨spec, hspec, htype⟩ :=
    h.parts.exists_childNode [] (TypeSpec.nonterminal?_phrase _) (by simp)
  obtain ⟨leaf, hleaf, _⟩ :=
    h.parts.exists_childLeaf [(TypeSpec.array size element).phrase] (by simp)
  obtain ⟨literal, hliteral, hfits, hdeclared⟩ := exists_declaredType_array htype
  refine ⟨literal, in_of_childLeaf? hliteral, hfits, ?_⟩
  have hname : check (childLeaf tree id "ID") s = .ok leaf s :=
    check_eq_ok_iff.mpr ⟨childLeaf_eq_ok_iff.mpr hleaf, rfl⟩
  have hnode : check (childNode tree id "TypeSpec") s = .ok spec s :=
    check_eq_ok_iff.mpr ⟨childNode_eq_ok_iff.mpr hspec, rfl⟩
  have hfault : check (declaredType tree spec) s =
      .error (violation tree (.invalidArraySize size) literal.id) s := by
    rw [hdeclared, hsize]
    rfl
  rw [node_eq h.founded, nodeOver, h.constructOf_eq]
  change declaration tree none id s = _
  rw [declaration, bind_of_ok hname]
  change (check (childNode tree id "TypeSpec") >>= _) s = _
  rw [bind_of_ok hnode, bind_of_error hfault]

/-- An array that is declared first and has a size that is no number is the fault that the analysis
finds, and it points at the size. -/
theorem analyze_invalidArraySize {table : Table} {tokens : List Token}
    (htable : grammar.table = .ok table)
    (hparse : table.parse grammar.start tokens = some (.ok tree)) {size name : String}
    {element : Scalar} {initial : Option Expression} {rest : Program}
    (hprogram :
      Program.WrittenAs (.declaration ⟨.array size element, name, initial⟩ :: rest) tokens)
    (hsize : Text.readUnsigned Text.wordBound size.toList = none) :
    ∃ token ∈ tokens, token.kind = "INT_LITERAL" ∧ token.lexeme = size ∧
      analyze tree = .error ⟨.invalidArraySize size, .inStream token.line token.column⟩ := by
  have hstands := Program.stands_of_parse htable hprogram hparse
  obtain ⟨list, hlist, hroot⟩ := Visit.node_only hstands rfl
  obtain ⟨ids, hids, hnodes⟩ := Visit.exists_node_list rfl hlist
  obtain ⟨top, others, rfl, htop, _⟩ := hids.split
  obtain ⟨id, hid, hitem⟩ := Visit.node_only htop rfl
  obtain ⟨leaf, hin, hfits, hfault⟩ := Visit.declaration_invalidArraySize hid hsize .initial
  rw [← hitem] at hfault
  have hvisit : Visit.node tree none SyntaxTree.root .initial =
      .error (violation tree (.invalidArraySize size) leaf.id) .initial := by
    rw [hroot, hnodes, List.forM_cons, Visit.bind_of_error hfault]
  refine ⟨leaf.token, Grammar.token_mem_of_parse hparse hin, hfits.1, hfits.2 size rfl, ?_⟩
  simp only [analyze_eq, hvisit, violation, hin.locationOf_eq, Token.location]

/-- An error of the analysis of parsed tokens is neither about the shape of the tree nor about a
return outside of functions, and unless a main function is missing it points at a token. -/
theorem analyze_error_at_token {table : Table} {tokens : List Token}
    (htable : grammar.table = .ok table)
    (hparse : table.parse grammar.start tokens = some (.ok tree)) {e : Located SemanticError}
    (herror : analyze tree = .error e) :
    (∀ node part, e.error ≠ .malformedTree node part) ∧ e.error ≠ .returnOutsideFunction ∧
      (e.error ≠ .missingMain →
        ∃ token ∈ tokens, e.location = .inStream token.line token.column) := by
  obtain ⟨program, hprogram⟩ := (parses_iff_program htable).mp ⟨tree, hparse⟩
  have hstands := Program.stands_of_parse htable hprogram hparse
  rcases analyze_cases hstands herror with ⟨hproper, leaf, token, hleaf, hlocation⟩ | rfl
  · have htoken := Grammar.token_mem_of_parse hparse hleaf
    refine ⟨fun node part heq => ?_, fun heq => ?_, fun _ => ⟨token, htoken, hlocation⟩⟩
    · rw [heq] at hproper
      exact hproper
    · rw [heq] at hproper
      exact hproper
  · exact ⟨nofun, nofun, fun hne => absurd rfl hne⟩

/-- The program `ARRAY[-1] INT xs; MAIN() {}` on two lines. -/
def negativeSize : List Token :=
  [⟨"ARRAY", "ARRAY", 1, 1⟩, ⟨"LBRACKET", "[", 1, 6⟩, ⟨"INT_LITERAL", "-1", 1, 7⟩,
    ⟨"RBRACKET", "]", 1, 9⟩, ⟨"INT", "INT", 1, 11⟩, ⟨"ID", "xs", 1, 15⟩, ⟨"SEMICOLON", ";", 1, 17⟩,
    ⟨"MAIN", "MAIN", 2, 1⟩, ⟨"LPAREN", "(", 2, 5⟩, ⟨"RPAREN", ")", 2, 6⟩, ⟨"LBRACE", "\x7b", 2, 8⟩,
    ⟨"RBRACE", "\x7d", 2, 9⟩]

theorem writtenAs_negativeSize :
    Program.WrittenAs [.declaration ⟨.array "-1" .int, "xs", none⟩, .main []] negativeSize := by
  have hsize : Fits "INT_LITERAL" (some "-1") ⟨"INT_LITERAL", "-1", 1, 7⟩ :=
    ⟨rfl, fun _ => Option.some.inj⟩
  have hname : Fits "ID" (some "xs") ⟨"ID", "xs", 1, 15⟩ := ⟨rfl, fun _ => Option.some.inj⟩
  have hspec : Written [(TypeSpec.array "-1" .int).phrase] (negativeSize.take 5) :=
    .single (.plain rfl (.plain rfl (.token hsize (.plain rfl (.single (.plain rfl .nil))))))
  have hdeclaration : Written [Declaration.phrase ⟨.array "-1" .int, "xs", none⟩]
      (negativeSize.take 7) :=
    .single (hspec.append (.token hname (.node .nil (.plain rfl .nil))))
  have hblock : Written [blockPhrase []] (negativeSize.drop 10) :=
    .single (.plain rfl (.node .nil (.plain rfl .nil)))
  have hmain : Written [(Item.main []).phrase] (negativeSize.drop 7) :=
    .single (.single (.plain rfl (.plain rfl (.plain rfl hblock))))
  have hitems : Written [listPhrase "TopList" [(Item.main []).phrase]] (negativeSize.drop 7) :=
    .single (hmain.append (.single .nil))
  exact .single (.single ((Written.single hdeclaration).append hitems))

theorem analyze_error_at_token_negativeSize :
    ∃ table tree, grammar.table = .ok table ∧
      table.parse grammar.start negativeSize = some (.ok tree) ∧
      analyze tree = .error ⟨.invalidArraySize "-1", .inStream 1 7⟩ ∧
      ∃ token ∈ negativeSize, Location.inStream 1 7 = .inStream token.line token.column := by
  obtain ⟨table, htable⟩ := exists_table
  obtain ⟨tree, hparse, _⟩ := Program.parse_of_writtenAs htable writtenAs_negativeSize
  obtain ⟨token, htoken, hkind, _, herror⟩ :=
    analyze_invalidArraySize htable hparse writtenAs_negativeSize (by decide)
  have honly : ∀ token ∈ negativeSize, token.kind = "INT_LITERAL" →
      Location.inStream token.line token.column = .inStream 1 7 := by
    decide
  rw [honly token htoken hkind] at herror
  exact ⟨table, tree, htable, hparse, herror,
    (analyze_error_at_token htable hparse herror).2.2 SemanticError.noConfusion⟩

end TopDown.Toy
