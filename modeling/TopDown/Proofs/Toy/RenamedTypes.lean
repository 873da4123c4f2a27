import TopDown.Proofs.Toy.RenamedTrees

/-!
Types in renamed trees. Two symbol tables correspond if they have the same scopes and if their
declarations, one by one, come from the same leaves and agree in type and scope. An injective
renaming finds corresponding declarations for corresponding names, so that types in the two trees
are inferred alike, and a violation in one tree is the same violation at the same node of the other.
-/
namespace TopDown.Toy

/-- The same violation with its name renamed. -/
def SemanticError.rename (f : String → String) : SemanticError → SemanticError
  | variableNotDeclared name => variableNotDeclared (f name)
  | variableAlreadyDeclared name => variableAlreadyDeclared (f name)
  | functionNotDeclared name => functionNotDeclared (f name)
  | notAnArray name => notAnArray (f name)
  | functionAfterMain name => functionAfterMain (f name)
  | localDeclaration name => localDeclaration (f name)
  | e => e

/-- The same violation at the same node of both trees; that a main function is missing is said of no
place in either. -/
structure SameFault (f : String → String) (tree tree' : SyntaxTree) (e e' : Located SemanticError) :
    Prop where
  error_eq : e'.error = e.error.rename f
  place : (∃ id, id < tree.size ∧ e.location = tree.locationOf id ∧
      e'.location = tree'.locationOf id) ∨
    (e.error = .missingMain ∧ e.location = .nowhere ∧ e'.location = .nowhere)

/-- Declarations of one leaf with the same type in the same scope. -/
inductive SymbolEntry.Renamed (f : String → String) (tree tree' : SyntaxTree) :
    SymbolEntry → SymbolEntry → Prop where
  | declared {leaf leaf' : LeafNode} (h : leaf.Renamed f tree tree' leaf')
      (hname : leaf'.token.lexeme = f leaf.token.lexeme) (type : ValueType) (scope : ScopeId) :
      Renamed f tree tree'
        ⟨leaf.token.lexeme, type, scope, leaf.token.line, leaf.token.column⟩
        ⟨leaf'.token.lexeme, type, scope, leaf'.token.line, leaf'.token.column⟩

structure SymbolTable.Renamed (f : String → String) (tree tree' : SyntaxTree)
    (table table' : SymbolTable) : Prop where
  scopes_eq : table'.scopes = table.scopes
  declared : List.Forall₂ (SymbolEntry.Renamed f tree tree') table.declared table'.declared

structure View.Renamed (f : String → String) (tree tree' : SyntaxTree) (view view' : View) :
    Prop where
  scope_eq : view'.scope = view.scope
  symbols : view.symbols.Renamed f tree tree' view'.symbols

/-- Verdicts about the two trees: related values, or the same fault. -/
inductive Verdict.Agree (f : String → String) (tree tree' : SyntaxTree) {α β : Type}
    (R : α → β → Prop) : Verdict α → Verdict β → Prop where
  | ok {a : α} {b : β} (h : R a b) : Agree f tree tree' R (.ok a) (.ok b)
  | error {e e' : Located SemanticError} (h : SameFault f tree tree' e e') :
      Agree f tree tree' R (.error e) (.error e')

variable {f : String → String} {tree tree' : SyntaxTree} {id : NodeId}

namespace SymbolEntry.Renamed

variable {e e' : SymbolEntry}

theorem type_eq (h : e.Renamed f tree tree' e') : e'.type = e.type := by
  cases h
  rfl

theorem scope_eq (h : e.Renamed f tree tree' e') : e'.scope = e.scope := by
  cases h
  rfl

theorem name_eq (h : e.Renamed f tree tree' e') : e'.name = f e.name := by
  cases h with
  | declared _ hname => exact hname

end SymbolEntry.Renamed

namespace SymbolTable.Renamed

variable {table table' : SymbolTable}

theorem parent?_eq (h : table.Renamed f tree tree' table') (scope : ScopeId) :
    table'.parent? scope = table.parent? scope := by
  rw [parent?, parent?, h.scopes_eq]

/-- Distinct names stay distinct, so the declaration of a name is that of the renamed one. -/
theorem local?_renamed (h : table.Renamed f tree tree' table') (hf : Function.Injective f)
    (scope : ScopeId) (name : String) :
    Option.Rel (SymbolEntry.Renamed f tree tree') (table.local? scope name)
      (table'.local? scope (f name)) := by
  have hdeclared := h.declared
  unfold local?
  generalize table.declared = entries at hdeclared ⊢
  generalize table'.declared = entries' at hdeclared ⊢
  induction hdeclared with
  | nil => exact .none
  | cons hentry _ ih =>
    rw [List.find?_cons, List.find?_cons, hentry.scope_eq, hentry.name_eq]
    simp only [hf.eq_iff]
    split
    · exact .some hentry
    · exact ih

theorem resolveWithin_renamed (h : table.Renamed f tree tree' table') (hf : Function.Injective f)
    (name : String) (bound : Nat) (scope : ScopeId) :
    Option.Rel (SymbolEntry.Renamed f tree tree')
      (table.resolveWithin name bound scope) (table'.resolveWithin (f name) bound scope) := by
  induction bound generalizing scope with
  | zero => exact .none
  | succ bound ih =>
    have hlocal := h.local?_renamed hf scope name
    rw [resolveWithin, resolveWithin, h.parent?_eq]
    generalize table.local? scope name = found at hlocal ⊢
    generalize table'.local? scope (f name) = found' at hlocal ⊢
    cases hlocal with
    | some hentry => exact .some hentry
    | none =>
      cases table.parent? scope with
      | none => exact .none
      | some parent => exact ih parent

end SymbolTable.Renamed

theorem View.Renamed.resolve?_renamed {view view' : View} (h : view.Renamed f tree tree' view')
    (hf : Function.Injective f) (name : String) :
    Option.Rel (SymbolEntry.Renamed f tree tree') (view.resolve? name)
      (view'.resolve? (f name)) := by
  unfold resolve? SymbolTable.resolve
  rw [h.scope_eq, h.symbols.scopes_eq]
  exact h.symbols.resolveWithin_renamed hf name _ view.scope

section Faults

variable (h : tree.Renamed f tree')

theorem sameFault_violation {e e' : SemanticError} (hid : id < tree.size) (he : e' = e.rename f) :
    SameFault f tree tree' (violation tree e id) (violation tree' e' id) :=
  ⟨he, Or.inl ⟨id, hid, rfl, rfl⟩⟩

include h in
theorem sameFault_malformed (hid : id < tree.size) (part : String) :
    SameFault f tree tree' (malformed tree id part) (malformed tree' id part) := by
  unfold malformed
  rw [h.nonterminal?_eq]
  exact sameFault_violation hid rfl

end Faults

namespace Verdict.Agree

variable {α β γ δ : Type} {R : α → β → Prop} {Q : γ → δ → Prop}

theorem bind {v : Verdict α} {v' : Verdict β} {g : α → Verdict γ} {g' : β → Verdict δ}
    (hv : Agree f tree tree' R v v') (hg : ∀ a b, R a b → Agree f tree tree' Q (g a) (g' b)) :
    Agree f tree tree' Q (v >>= g) (v' >>= g') := by
  cases hv with
  | ok hab => exact hg _ _ hab
  | error he => exact .error he

theorem map {v : Verdict α} {v' : Verdict β} {g : α → γ} {g' : β → δ}
    (hv : Agree f tree tree' R v v') (hg : ∀ a b, R a b → Q (g a) (g' b)) :
    Agree f tree tree' Q (g <$> v) (g' <$> v') := by
  cases hv with
  | ok hab => exact .ok (hg _ _ hab)
  | error he => exact .error he

/-- Verdicts with equal values agree on what is computed from them alike. -/
theorem bind_eq {v v' : Verdict α} {g : α → Verdict γ} {g' : α → Verdict δ}
    (hv : Agree f tree tree' Eq v v') (hg : ∀ a, Agree f tree tree' Q (g a) (g' a)) :
    Agree f tree tree' Q (v >>= g) (v' >>= g') :=
  hv.bind fun a _ heq => heq ▸ hg a

end Verdict.Agree

section Parts

variable (h : tree.Renamed f tree')
include h

theorem childNode_agree (hid : id < tree.size) (name : String) :
    Verdict.Agree f tree tree' (fun child child' => child = child' ∧ child < tree.size)
      (childNode tree id name) (childNode tree' id name) := by
  unfold childNode
  rw [childNode?_eq h]
  cases hchild : childNode? tree id name with
  | none => exact .error (sameFault_malformed h hid name)
  | some child =>
    have hname : tree.nonterminal? child = some name := by
      simpa using List.find?_some hchild
    exact .ok ⟨rfl, SyntaxTree.lt_size_of_nonterminal? hname⟩

theorem childLeaf_agree (hid : id < tree.size) (kind : String) :
    Verdict.Agree f tree tree'
      (fun leaf leaf' => leaf.token.kind = kind ∧ leaf.Renamed f tree tree' leaf')
      (childLeaf tree id kind) (childLeaf tree' id kind) := by
  unfold childLeaf
  have hleaf := childLeaf?_renamed h id kind
  generalize childLeaf? tree id kind = found at hleaf ⊢
  generalize childLeaf? tree' id kind = found' at hleaf ⊢
  cases hleaf with
  | none => exact .error (sameFault_malformed h hid kind)
  | some hfound => exact .ok hfound

/-- A type is told by the kind of a token. -/
theorem scalarType_agree (hid : id < tree.size) :
    Verdict.Agree f tree tree' Eq (scalarType tree id) (scalarType tree' id) := by
  have hkind := h.kind_firstToken id
  unfold scalarType
  cases hfirst : tree.firstToken id with
  | none =>
    rw [hfirst, Option.map_none, Option.map_eq_none_iff] at hkind
    rw [hkind]
    exact .error (sameFault_malformed h hid _)
  | some token =>
    rw [hfirst] at hkind
    obtain ⟨token', hfirst', hkind'⟩ := Option.map_eq_some_iff.mp hkind
    rw [hfirst']
    simp only [hkind']
    split
    · exact .ok rfl
    · exact .ok rfl
    · exact .ok rfl
    · exact .ok rfl
    · exact .error (sameFault_malformed h hid _)

/-- The size of an array is read from a token that keeps its text. -/
theorem declaredType_agree (hclosed : tree.Closed) (hid : id < tree.size) :
    Verdict.Agree f tree tree' Eq (declaredType tree id) (declaredType tree' id) := by
  have harray := childLeaf?_renamed h id "ARRAY"
  unfold declaredType
  generalize childLeaf? tree id "ARRAY" = found at harray ⊢
  generalize childLeaf? tree' id "ARRAY" = found' at harray ⊢
  cases harray with
  | none => exact scalarType_agree h hid
  | some _ =>
    refine (childLeaf_agree h hid "INT_LITERAL").bind fun size size' hsize => ?_
    obtain ⟨hkind, hleaf⟩ := hsize
    rw [hleaf.token.number_eq hkind, hleaf.id_eq, h.children_eq]
    cases Text.readUnsigned Text.wordBound size.token.lexeme.toList with
    | none => exact .error (sameFault_violation hleaf.lt_size rfl)
    | some n =>
      refine (scalarType_agree h ?_).bind_eq fun element => .ok rfl
      cases hlast : (tree.children id).getLast? with
      | none => simpa [List.getLastD_eq_getLast?, hlast] using hid
      | some last =>
        have hmem := List.mem_of_getLast? hlast
        simpa [List.getLastD_eq_getLast?, hlast] using hclosed id last hmem

end Parts

namespace View

variable {view view' : View}

section Names

variable {leaf leaf' : LeafNode} {actual : ValueType}

theorem typeOfName_agree (hview : view.Renamed f tree tree' view') (hf : Function.Injective f)
    (hleaf : leaf.Renamed f tree tree' leaf') (hkind : leaf.token.kind = "ID") :
    Verdict.Agree f tree tree' Eq (view.typeOfName tree leaf) (view'.typeOfName tree' leaf') := by
  have hfound := hview.resolve?_renamed hf leaf.token.lexeme
  unfold typeOfName
  rw [hleaf.token.name_eq hkind, hleaf.id_eq]
  generalize view.resolve? leaf.token.lexeme = found at hfound ⊢
  generalize view'.resolve? (f leaf.token.lexeme) = found' at hfound ⊢
  cases hfound with
  | none => exact .error (sameFault_violation hleaf.lt_size rfl)
  | some hentry => exact .ok hentry.type_eq.symm

theorem elementType_agree (hleaf : leaf.Renamed f tree tree' leaf')
    (hkind : leaf.token.kind = "ID") :
    Verdict.Agree f tree tree' Eq (elementType tree leaf actual)
      (elementType tree' leaf' actual) := by
  cases actual with
  | array size element => exact .ok rfl
  | _ =>
    rw [elementType, elementType, hleaf.token.name_eq hkind, hleaf.id_eq]
    · exact .error (sameFault_violation hleaf.lt_size rfl)
    all_goals exact fun _ _ => ValueType.noConfusion

theorem leafType_agree (hview : view.Renamed f tree tree' view') (hf : Function.Injective f)
    (hleaf : leaf.Renamed f tree tree' leaf') :
    Verdict.Agree f tree tree' Eq (view.leafType tree leaf) (view'.leafType tree' leaf') := by
  unfold leafType
  rw [hleaf.token.kind_eq]
  split
  · exact .ok rfl
  · exact .ok rfl
  · exact .ok rfl
  · rename_i hkind
    exact (typeOfName_agree hview hf hleaf hkind).map fun _ _ => congrArg some
  · exact .ok rfl

theorem requireIndex_agree (hid : id < tree.size) (actual : ValueType) :
    Verdict.Agree f tree tree' Eq (requireIndex tree id actual)
      (requireIndex tree' id actual) := by
  unfold requireIndex
  split
  · exact .ok rfl
  · exact .error (sameFault_violation hid rfl)

end Names

section Inference

variable (h : tree.Renamed f tree') (hclosed : tree.Closed)
  (hview : view.Renamed f tree tree' view') (hf : Function.Injective f)

include h in
theorem require_agree (hid : id < tree.size) (actual : Option ValueType) :
    Verdict.Agree f tree tree' Eq (require tree id actual) (require tree' id actual) := by
  cases actual with
  | none => exact .error (sameFault_malformed h hid _)
  | some type => exact .ok rfl

include h hview hf in
theorem callType_agree (hid : id < tree.size) :
    Verdict.Agree f tree tree' Eq (view.callType tree id) (view'.callType tree' id) := by
  refine (childLeaf_agree h hid "ID").bind fun name name' hname => ?_
  obtain ⟨hkind, hleaf⟩ := hname
  have hfound := hview.resolve?_renamed hf name.token.lexeme
  rw [hleaf.token.name_eq hkind, hleaf.id_eq]
  generalize view.resolve? name.token.lexeme = found at hfound ⊢
  generalize view'.resolve? (f name.token.lexeme) = found' at hfound ⊢
  cases hfound with
  | none => exact .error (sameFault_violation hleaf.lt_size rfl)
  | some hentry =>
    cases hentry with
    | declared _ _ type _ =>
      cases type with
      | function returns => exact .ok rfl
      | _ => exact .error (sameFault_violation hleaf.lt_size rfl)

section Step

variable {below below' : NodeId → Verdict (Option ValueType)}
  {tailBelow tailBelow' : ValueType → NodeId → Verdict Unit}
  (hbelow : ∀ lower, lower < tree.size → Verdict.Agree f tree tree' Eq (below lower) (below' lower))
  (htail : ∀ left lower, lower < tree.size →
    Verdict.Agree f tree tree' Eq (tailBelow left lower) (tailBelow' left lower))

include hbelow in
theorem findSomeM?_agree {ids : List NodeId} (hids : ∀ child ∈ ids, child < tree.size) :
    Verdict.Agree f tree tree' Eq (ids.findSomeM? below) (ids.findSomeM? below') := by
  induction ids with
  | nil => exact .ok rfl
  | cons child ids ih =>
    rw [List.findSomeM?, List.findSomeM?]
    refine (hbelow child (hids child List.mem_cons_self)).bind_eq fun type => ?_
    cases type with
    | some type => exact .ok rfl
    | none => exact ih fun other hother => hids other (List.mem_cons_of_mem _ hother)

include h hclosed hbelow htail

theorem tailOver_agree (left : ValueType) (id : NodeId) :
    Verdict.Agree f tree tree' Eq (tailOver tree below tailBelow left id)
      (tailOver tree' below' tailBelow' left id) := by
  have hchildren := hclosed id
  unfold tailOver
  rw [h.children_eq]
  split
  · rename_i operator operand next heq
    rw [heq] at hchildren
    have hoperand : operand < tree.size := hchildren operand (by simp)
    refine (hbelow operand hoperand).bind_eq fun type => ?_
    refine (require_agree h hoperand type).bind_eq fun right => ?_
    split
    · exact htail left next (hchildren next (by simp))
    · exact .error (sameFault_violation (hchildren operator (by simp)) rfl)
  · exact .ok rfl

theorem chainOver_agree (hid : id < tree.size) (hconstruct : constructOf tree id = .chain)
    (hconstruct' : constructOf tree' id = .chain) :
    Verdict.Agree f tree tree' Eq (view.typeOver tree below tailBelow id)
      (view'.typeOver tree' below' tailBelow' id) := by
  have hchildren := hclosed id
  unfold typeOver
  rw [hconstruct, hconstruct', h.children_eq]
  cases heq : tree.children id with
  | nil => exact .error (sameFault_malformed h hid _)
  | cons operand rest =>
    rw [heq] at hchildren
    have hoperand : operand < tree.size := hchildren operand List.mem_cons_self
    refine (hbelow operand hoperand).bind_eq fun type => ?_
    refine (require_agree h hoperand type).bind_eq fun left => ?_
    cases rest with
    | nil => exact .ok rfl
    | cons tail more =>
      refine (htail left tail (hchildren tail (by simp))).bind_eq fun _ => ?_
      exact .ok rfl

include hview hf

omit htail in
theorem variableOver_agree (hid : id < tree.size) (hconstruct : constructOf tree id = .variable)
    (hconstruct' : constructOf tree' id = .variable) :
    Verdict.Agree f tree tree' Eq (view.typeOver tree below tailBelow id)
      (view'.typeOver tree' below' tailBelow' id) := by
  unfold typeOver
  rw [hconstruct, hconstruct']
  refine (childLeaf_agree h hid "ID").bind fun name name' hname => ?_
  obtain ⟨hkind, hleaf⟩ := hname
  refine (typeOfName_agree hview hf hleaf hkind).bind_eq fun type => ?_
  rw [indexExpression?_eq h]
  cases hindex : indexExpression? tree id with
  | none => exact .ok rfl
  | some index =>
    obtain ⟨suffix, _, hmem⟩ := exists_of_indexExpression? hindex
    have hlt : index < tree.size := hclosed suffix index hmem
    refine (hbelow index hlt).bind_eq fun actual => ?_
    refine (require_agree h hlt actual).bind_eq fun actual => ?_
    refine (requireIndex_agree hlt actual).bind_eq fun _ => ?_
    exact (elementType_agree hleaf hkind).bind_eq fun element => .ok rfl

/-- Types and tails that agree below a node agree at the node. -/
theorem typeOver_agree (hid : id < tree.size) :
    Verdict.Agree f tree tree' Eq (view.typeOver tree below tailBelow id)
      (view'.typeOver tree' below' tailBelow' id) := by
  rcases constructOf_cases h id with ⟨token, token', hleaf, hleaf', hrenamed⟩ | ⟨heq, hnotleaf⟩
  · unfold typeOver
    rw [hleaf, hleaf']
    exact leafType_agree hview hf hrenamed
  · cases hconstruct : constructOf tree id with
    | leaf token => exact absurd hconstruct (hnotleaf token)
    | «variable» =>
      exact variableOver_agree h hclosed hview hf hbelow hid hconstruct
        (heq.trans hconstruct)
    | chain =>
      exact chainOver_agree h hclosed hbelow htail hid hconstruct (heq.trans hconstruct)
    | call =>
      unfold typeOver
      rw [heq, hconstruct]
      exact (callType_agree h hview hf hid).map fun _ _ => congrArg some
    | composite =>
      unfold typeOver
      rw [heq, hconstruct, h.children_eq]
      exact findSomeM?_agree hbelow (hclosed id)
    | _ =>
      unfold typeOver
      rw [heq, hconstruct]
      exact .error (sameFault_malformed h hid _)

end Step

include h hclosed hview hf

theorem within_agree (levels : Nat) :
    (∀ id, id < tree.size → Verdict.Agree f tree tree' Eq (view.typeWithin tree levels id)
        (view'.typeWithin tree' levels id)) ∧
      ∀ left id, id < tree.size → Verdict.Agree f tree tree' Eq
        (view.checkTail tree levels left id) (view'.checkTail tree' levels left id) := by
  -- A chain checks its tail and a tail infers its operand, so both go through one induction.
  induction levels with
  | zero => exact ⟨fun _ _ => .ok rfl, fun _ _ _ => .ok rfl⟩
  | succ levels ih =>
    obtain ⟨htype, htail⟩ := ih
    constructor
    · intro id hid
      rw [typeWithin_succ, typeWithin_succ]
      exact typeOver_agree h hclosed hview hf htype htail hid
    · intro left id _
      rw [checkTail_succ, checkTail_succ]
      exact tailOver_agree h hclosed htype htail left id

theorem type?_agree (hid : id < tree.size) :
    Verdict.Agree f tree tree' Eq (view.type? tree id) (view'.type? tree' id) := by
  unfold type?
  rw [h.size_eq]
  exact (within_agree h hclosed hview hf tree.size).1 id hid

theorem type_agree (hid : id < tree.size) :
    Verdict.Agree f tree tree' Eq (view.type tree id) (view'.type tree' id) :=
  (type?_agree h hclosed hview hf hid).bind_eq fun actual => require_agree h hid actual

end Inference

end View

end TopDown.Toy
