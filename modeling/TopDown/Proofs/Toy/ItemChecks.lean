import TopDown.Proofs.Toy.GlobalNames
import TopDown.Proofs.Toy.ItemOrder
import TopDown.Proofs.Toy.StatementChecks

/-!
The visit of an item succeeds just when the item is admitted, and then the state holds the names up
to and with that item. A program is visited item by item.
-/
namespace TopDown.Toy

open Phrase

section Types

variable {tree : SyntaxTree} {id : NodeId} {type : ValueType}

/-- The first token under a node with one child is the child's. -/
theorem firstToken_only {name : String} {alternative : Nat} {phrase : Phrase}
    (h : Stands tree [id] [.node name alternative [phrase]]) :
    ∃ child, Stands tree [child] [phrase] ∧ tree.firstToken id = tree.firstToken child := by
  obtain ⟨child, _, hchildren, hchild, hparts⟩ := h.parts.split
  rw [hparts.eq_nil] at hchildren
  have hnone : tree.token? id = none := by simp only [SyntaxTree.token?, h.node?_eq]
  refine ⟨child, hchild, ?_⟩
  rw [SyntaxTree.firstToken_eq h.founded, hnone, hchildren]
  simp only [List.findSome?_cons, List.findSome?_nil]
  cases tree.firstToken child <;> rfl

theorem firstToken_plain {kind : String} (h : Stands tree [id] [plain kind]) :
    ∃ token, tree.firstToken id = some token ∧ token.kind = kind := by
  obtain ⟨token, hnode, hfits⟩ := h.leaf
  refine ⟨token, ?_, hfits.1⟩
  rw [SyntaxTree.firstToken_eq h.founded, SyntaxTree.token?, hnode]

theorem firstToken_scalar {scalar : Scalar} (h : Stands tree [id] [scalar.phrase]) :
    ∃ token, tree.firstToken id = some token ∧ token.kind = scalar.keyword := by
  obtain ⟨child, hchild, heq⟩ := firstToken_only h
  rw [heq]
  exact firstToken_plain hchild

/-- A keyword names its scalar type wherever it comes first. -/
theorem scalarType_of_firstToken {scalar : Scalar} {token : Token}
    (h : tree.firstToken id = some token) (hkind : token.kind = scalar.keyword) :
    scalarType tree id = .ok scalar.type := by
  unfold scalarType
  rw [h]
  simp only [hkind]
  cases scalar <;> rfl

theorem scalarType_returnPhrase {returns : Option Scalar}
    (h : Stands tree [id] [returnPhrase returns]) :
    scalarType tree id = .ok (returnType returns) := by
  obtain ⟨token, hfirst, hkind⟩ : ∃ token, tree.firstToken id = some token ∧
      token.kind = returns.elim "VOID" Scalar.keyword := by
    cases returns with
    | none =>
      obtain ⟨child, hchild, heq⟩ := firstToken_only h
      rw [heq]
      exact firstToken_plain hchild
    | some scalar =>
      obtain ⟨child, hchild, heq⟩ := firstToken_only h
      rw [heq]
      exact firstToken_scalar hchild
  cases returns with
  | none =>
    unfold scalarType
    rw [hfirst]
    simp only [hkind]
    rfl
  | some scalar => exact scalarType_of_firstToken hfirst hkind

theorem declaredType_scalar {scalar : Scalar}
    (h : Stands tree [id] [(TypeSpec.scalar scalar).phrase]) :
    declaredType tree id = .ok scalar.type := by
  have hnone : childLeaf? tree id "ARRAY" = none := h.parts.childLeaf?_eq_none (by simp)
  obtain ⟨child, hchild, heq⟩ := firstToken_only h
  obtain ⟨token, hfirst, hkind⟩ := firstToken_scalar hchild
  rw [declaredType, hnone]
  exact scalarType_of_firstToken (heq.trans hfirst) hkind

/-- The size is read where it is written, and the scalar type comes last. -/
theorem exists_declaredType_array {size : String} {element : Scalar}
    (h : Stands tree [id] [(TypeSpec.array size element).phrase]) :
    ∃ leaf, childLeaf? tree id "INT_LITERAL" = some leaf ∧
      Fits "INT_LITERAL" (some size) leaf.token ∧
      declaredType tree id =
        match Text.readUnsigned Text.wordBound size.toList with
        | none => .error (violation tree (.invalidArraySize size) leaf.id)
        | some n => .ok (.array n element.type) := by
  obtain ⟨_, harray, _⟩ := h.parts.exists_childLeaf [] (by simp)
  obtain ⟨leaf, hleaf, hfits⟩ :=
    h.parts.exists_childLeaf [plain "ARRAY", plain "LBRACKET"] (by simp)
  obtain ⟨left, last, right, hchildren, _, hlast, hright⟩ := h.parts.exists_append
    [plain "ARRAY", plain "LBRACKET", spelled "INT_LITERAL" size, plain "RBRACKET"]
  obtain ⟨token, hfirst, hkind⟩ := firstToken_scalar hlast
  have hlastD : (tree.children id).getLastD id = last := by
    rw [hchildren, hright.eq_nil, List.getLastD_concat]
  refine ⟨leaf, hleaf, hfits, ?_⟩
  rw [declaredType, harray, childLeaf_eq_ok_iff.mpr hleaf, hlastD,
    scalarType_of_firstToken hfirst hkind, ← hfits.2 size rfl]
  change (match Text.readUnsigned Text.wordBound leaf.token.lexeme.toList with
    | none => _
    | some n => _) = _
  cases Text.readUnsigned Text.wordBound leaf.token.lexeme.toList <;> rfl

theorem declaredType_iff {spec : TypeSpec} (h : Stands tree [id] [spec.phrase]) :
    declaredType tree id = .ok type ↔ spec.type? = some type := by
  cases spec with
  | scalar scalar =>
    rw [declaredType_scalar h, TypeSpec.type?]
    simp
  | array size element =>
    obtain ⟨leaf, _, _, heq⟩ := exists_declaredType_array h
    rw [heq, TypeSpec.type?]
    cases Text.readUnsigned Text.wordBound size.toList <;> simp

/-- The initial value in the tree has the type just when the one of the program has. -/
theorem initial_iff {view : View} {env : Environment} (hview : view.Sees env)
    {initial : Option Expression} (h : Stands tree [id] [initialPhrase initial]) :
    (∀ value, childNode? tree id "Expression" = some value → view.type tree value = .ok type) ↔
      ∀ e, initial = some e → HasType env e type := by
  cases initial with
  | none =>
    have hnone : childNode? tree id "Expression" = none :=
      h.parts.childNode?_eq_none fun _ hphrase => absurd hphrase List.not_mem_nil
    simp [hnone]
  | some e =>
    obtain ⟨child, (hchild : childNode? tree id "Expression" = some child), hvalue⟩ :=
      h.parts.exists_childNode [plain "ARROW"] e.nonterminal?_phrase (by simp)
    simp only [hchild, Option.some.injEq, forall_eq', View.type_iff hview e hvalue]

end Types

section Items

variable {tree : SyntaxTree} {id : NodeId} {env : Environment} {main : Bool} {s t : State}

namespace Visit

theorem within_eq_ok_iff {body : Visit Unit} :
    within body s = .ok () t ↔ ∃ u, body s.enter = .ok () u ∧ t = u.leave := by
  unfold within
  cases body s.enter with
  | ok _ u => simp [eq_comm]
  | error e u => simp

/-- A visit of an item leads to a state that holds the names up to and with it, provided that the
item is admitted. -/
def LeadsOn (env : Environment) (main : Bool) (item : Item) (v : Visit Unit) (s : State) : Prop :=
  ∃ next : State, (item.Admitted env main → next.Holds (item.extend env) (main || item.isMain)) ∧
    ∀ t, v s = .ok () t ↔ item.Admitted env main ∧ t = next

theorem declaration_leadsOn (hs : s.Holds env main) {declared : Declaration}
    (h : Stands tree [id] [declared.phrase]) :
    LeadsOn env main (.declaration declared) (node tree none id) s := by
  obtain ⟨spec, hspec, htype⟩ :=
    h.parts.exists_childNode [] (TypeSpec.nonterminal?_phrase _) (by simp)
  obtain ⟨leaf, hleaf, hfits⟩ := h.parts.exists_childLeaf [declared.spec.phrase] (by simp)
  obtain ⟨initial, hinitial, hvalue⟩ :=
    h.parts.exists_childNode [declared.spec.phrase, spelled "ID" declared.name]
      (nonterminal?_initialPhrase _) (by simp)
  have hname : leaf.token.lexeme = declared.name := hfits.2 _ rfl
  refine ⟨s.declaring leaf.token (declared.spec.type?.getD .void), fun hadmitted => ?_, fun t => ?_⟩
  · obtain ⟨hfresh, type, hdeclared, _⟩ := Item.admitted_declaration_iff.mp hadmitted
    rw [← hname] at hfresh
    have hnext := hs.declaring type hfresh
    simpa [Item.isMain, Item.extend, hdeclared, hname] using hnext
  · rw [node_eq h.founded, nodeOver, h.constructOf_eq, Item.admitted_declaration_iff]
    simp only [Construct.ofNonterminal, declaration_eq_ok_iff, initializer_eq_ok_iff,
      childLeaf_eq_ok_iff, hleaf, childNode_eq_ok_iff, hspec, hinitial, Option.some.injEq,
      true_and, hs.local?_eq_none_iff]
    constructor
    · rintro ⟨_, _, type, rfl, rfl, hdeclared, hfresh, ⟨_, rfl, hhas⟩, rfl⟩
      rw [declaredType_iff htype] at hdeclared
      rw [initial_iff hs.sees hvalue] at hhas
      rw [hname] at hfresh
      rw [hdeclared]
      exact ⟨⟨hfresh, type, rfl, hhas⟩, rfl⟩
    · rintro ⟨⟨hfresh, type, hdeclared, hhas⟩, rfl⟩
      rw [hdeclared]
      refine ⟨leaf, spec, type, rfl, rfl, (declaredType_iff htype).mpr hdeclared, ?_,
        ⟨initial, rfl, (initial_iff hs.sees hvalue).mpr hhas⟩, rfl⟩
      rw [hname]
      exact hfresh

theorem function_leadsOn (hs : s.Holds env main) {returns : Option Scalar} {name : String}
    {body : List Statement}
    (h : Stands tree [id] [.node "FunctionDefinition" 0 [plain "FUNC", returnPhrase returns,
      spelled "ID" name, plain "LPAREN", plain "RPAREN", blockPhrase body]]) :
    LeadsOn env main (.function returns name body) (node tree none id) s := by
  obtain ⟨result, hresult, htype⟩ :=
    h.parts.exists_childNode [plain "FUNC"] (nonterminal?_returnPhrase _) (by simp)
  obtain ⟨leaf, hleaf, hfits⟩ :=
    h.parts.exists_childLeaf [plain "FUNC", returnPhrase returns] (by simp)
  obtain ⟨block, (hblock : childNode? tree id "Block" = some block), hbody⟩ :=
    h.parts.exists_childNode [plain "FUNC", returnPhrase returns, spelled "ID" name, plain "LPAREN",
      plain "RPAREN"] rfl (by simp)
  have hname : leaf.token.lexeme = name := hfits.2 _ rfl
  have hdeclaring : env.get? name = none →
      (s.declaring leaf.token (.function (returnType returns))).Holds
        (Item.extend env (.function returns name body)) main := by
    intro hfresh
    rw [Item.extend, ← hname]
    rw [← hname] at hfresh
    exact hs.declaring _ hfresh
  refine ⟨(s.declaring leaf.token (.function (returnType returns))).enter.leave,
    fun hadmitted => ?_, fun t => ?_⟩
  · obtain ⟨hmain, hfresh, _⟩ := Item.admitted_function_iff.mp hadmitted
    have hnext := (hdeclaring hfresh).leave_enter
    simpa [Item.isMain] using hnext
  · rw [node_eq h.founded, nodeOver, h.constructOf_eq, Item.admitted_function_iff]
    simp only [Construct.ofNonterminal, bind_eq_ok_iff, within_eq_ok_iff, Prod.exists,
      functionHead_eq_ok_iff, childLeaf_eq_ok_iff, hleaf, childNode_eq_ok_iff, hresult, hblock,
      Option.some.injEq, declare_eq_ok_iff, hs.local?_eq_none_iff]
    constructor
    · rintro ⟨_, _, u, ⟨_, _, rfl, hmain, rfl, hreturns, ⟨hfresh, rfl⟩, rfl⟩, v, hvisit, rfl⟩
      rw [hname] at hfresh
      rw [scalarType_returnPhrase htype] at hreturns
      cases hreturns
      obtain ⟨rfl, hstatements⟩ := (node_block_iff (hdeclaring hfresh).sees_enter hbody).mp hvisit
      exact ⟨⟨hs.main_eq.symm.trans hmain, hfresh, hstatements⟩, rfl⟩
    · rintro ⟨⟨hmain, hfresh, hstatements⟩, rfl⟩
      refine ⟨returnType returns, block, s.declaring leaf.token (.function (returnType returns)),
        ⟨leaf, result, rfl, hs.main_eq.trans hmain, rfl, scalarType_returnPhrase htype,
          ⟨?_, rfl⟩, rfl⟩, _,
        (node_block_iff (hdeclaring hfresh).sees_enter hbody).mpr ⟨rfl, hstatements⟩, rfl⟩
      rw [hname]
      exact hfresh

theorem main_leadsOn (hs : s.Holds env main) {body : List Statement}
    (h : Stands tree [id] [.node "MainDefinition" 0 [plain "MAIN", plain "LPAREN", plain "RPAREN",
      blockPhrase body]]) :
    LeadsOn env main (.main body) (node tree none id) s := by
  obtain ⟨block, (hblock : childNode? tree id "Block" = some block), hbody⟩ :=
    h.parts.exists_childNode [plain "MAIN", plain "LPAREN", plain "RPAREN"] rfl (by simp)
  refine ⟨State.enter { s with mainDefined := true } |>.leave, fun _ => ?_, fun t => ?_⟩
  · simpa [Item.isMain, Item.extend] using hs.defining.leave_enter
  · rw [node_eq h.founded, nodeOver, h.constructOf_eq, Item.admitted_main_iff]
    simp only [Construct.ofNonterminal, bind_eq_ok_iff, within_eq_ok_iff, mainHead_eq_ok_iff,
      childNode_eq_ok_iff, hblock, Option.some.injEq]
    constructor
    · rintro ⟨_, _, ⟨hmain, rfl, rfl⟩, v, hvisit, rfl⟩
      obtain ⟨rfl, hstatements⟩ := (node_block_iff hs.defining.sees_enter hbody).mp hvisit
      exact ⟨⟨hs.main_eq.symm.trans hmain, hstatements⟩, rfl⟩
    · rintro ⟨⟨hmain, hstatements⟩, rfl⟩
      exact ⟨block, _, ⟨hs.main_eq.trans hmain, rfl, rfl⟩, _,
        (node_block_iff hs.defining.sees_enter hbody).mpr ⟨rfl, hstatements⟩, rfl⟩

theorem item_leadsOn (hs : s.Holds env main) {item : Item} (h : Stands tree [id] [item.phrase]) :
    LeadsOn env main item (node tree none id) s := by
  cases item with
  | declaration declared =>
    obtain ⟨child, hchild, heq⟩ := node_only h rfl
    rw [heq]
    exact declaration_leadsOn hs hchild
  | function returns name body =>
    obtain ⟨child, hchild, heq⟩ := node_only h rfl
    rw [heq]
    exact function_leadsOn hs hchild
  | main body =>
    obtain ⟨child, hchild, heq⟩ := node_only h rfl
    rw [heq]
    exact main_leadsOn hs hchild

/-- The items are visited to their end, and a main function is found, just when they are accepted
one after the other. -/
theorem forM_items_iff (hs : s.Holds env main) {items : List Item} {ids : List NodeId}
    (h : Stands tree ids (items.map Item.phrase)) :
    (∃ t, forM ids (node tree none) s = .ok () t ∧ t.mainDefined = true) ↔
      Program.Accepted env main items := by
  induction items generalizing ids s env main with
  | nil =>
    rw [h.eq_nil, List.forM_nil, Program.Accepted, ← hs.main_eq]
    constructor
    · rintro ⟨t, hok, hmain⟩
      rw [(pure_eq_ok_iff.mp hok).2]
      exact hmain
    · intro hmain
      exact ⟨s, pure_eq_ok_iff.mpr ⟨rfl, rfl⟩, hmain⟩
  | cons item items ih =>
    obtain ⟨first, rest, rfl, hfirst, hrest⟩ := h.split
    obtain ⟨next, hnext, hvisit⟩ := item_leadsOn hs hfirst
    rw [List.forM_cons, Program.Accepted]
    simp only [bind_eq_ok_iff, hvisit]
    constructor
    · rintro ⟨t, ⟨_, _, ⟨hadmitted, rfl⟩, hlater⟩, hmain⟩
      exact ⟨hadmitted, (ih (hnext hadmitted) hrest).mp ⟨t, hlater, hmain⟩⟩
    · rintro ⟨hadmitted, haccepted⟩
      obtain ⟨t, hlater, hmain⟩ := (ih (hnext hadmitted) hrest).mpr haccepted
      exact ⟨t, ⟨(), next, ⟨hadmitted, rfl⟩, hlater⟩, hmain⟩

end Visit

theorem exists_analyze_iff :
    (∃ symbols, analyze tree = .ok symbols) ↔
      ∃ t, Visit.node tree none SyntaxTree.root .initial = .ok () t ∧ t.mainDefined = true := by
  rw [analyze_eq]
  cases Visit.node tree none SyntaxTree.root .initial with
  | ok _ t => by_cases hmain : t.mainDefined = true <;> simp [hmain]
  | error e t => simp

/-- The analysis succeeds on the tree of a program just when the program is lawful. -/
theorem exists_analyze_iff_lawful {program : Program}
    (h : Stands tree [SyntaxTree.root] [Program.phrase program]) :
    (∃ symbols, analyze tree = .ok symbols) ↔ program.Lawful := by
  obtain ⟨list, hlist, heq⟩ := Visit.node_only h rfl
  obtain ⟨ids, hids, hnodes⟩ := Visit.exists_node_list rfl hlist
  rw [exists_analyze_iff, Program.lawful_iff_accepted,
    ← Visit.forM_items_iff State.Holds.initial hids, ← hnodes, ← heq]

end Items

end TopDown.Toy
