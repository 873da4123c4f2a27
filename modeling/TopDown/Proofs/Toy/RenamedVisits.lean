import TopDown.Proofs.Toy.Handlers
import TopDown.Proofs.Toy.LawfulPrograms
import TopDown.Proofs.Toy.RenamedTypes

/-!
Visits of renamed trees. Two visits that begin in corresponding states end in corresponding states
or in the same violation, so the analysis depends on names only as far as they are the same or not,
and on the other texts and the places not at all.
-/
namespace TopDown.Toy

open Phrase

/-- States of the analyses of two trees that have come equally far. -/
structure State.Renamed (f : String → String) (tree tree' : SyntaxTree) (s s' : State) : Prop where
  symbols : s.symbols.Renamed f tree tree' s'.symbols
  openScopes_eq : s'.openScopes = s.openScopes
  mainDefined_eq : s'.mainDefined = s.mainDefined

variable {f : String → String} {tree tree' : SyntaxTree} {id : NodeId}

namespace State.Renamed

variable {s s' : State}

theorem initial : State.initial.Renamed f tree tree' State.initial where
  symbols := ⟨rfl, .nil⟩
  openScopes_eq := rfl
  mainDefined_eq := rfl

theorem scope_eq (hs : s.Renamed f tree tree' s') : s'.scope = s.scope := by
  rw [State.scope, State.scope, hs.openScopes_eq]

theorem view (hs : s.Renamed f tree tree' s') : s.view.Renamed f tree tree' s'.view :=
  ⟨hs.scope_eq, hs.symbols⟩

theorem enter (hs : s.Renamed f tree tree' s') : s.enter.Renamed f tree tree' s'.enter where
  symbols := by
    refine ⟨?_, hs.symbols.declared⟩
    simp only [State.enter, SymbolTable.openScope, SymbolTable.nextScope, hs.symbols.scopes_eq,
      hs.scope_eq]
  openScopes_eq := by
    simp only [State.enter, SymbolTable.nextScope, hs.symbols.scopes_eq, hs.openScopes_eq]
  mainDefined_eq := hs.mainDefined_eq

theorem leave (hs : s.Renamed f tree tree' s') : s.leave.Renamed f tree tree' s'.leave where
  symbols := hs.symbols
  openScopes_eq := congrArg List.tail hs.openScopes_eq
  mainDefined_eq := hs.mainDefined_eq

theorem defining (hs : s.Renamed f tree tree' s') :
    State.Renamed f tree tree' { s with mainDefined := true } { s' with mainDefined := true } where
  symbols := hs.symbols
  openScopes_eq := hs.openScopes_eq
  mainDefined_eq := rfl

theorem declaring (hs : s.Renamed f tree tree' s') {leaf leaf' : LeafNode}
    (hleaf : leaf.Renamed f tree tree' leaf') (hkind : leaf.token.kind = "ID")
    (type : ValueType) :
    (s.declaring leaf.token type).Renamed f tree tree' (s'.declaring leaf'.token type) where
  symbols := by
    refine ⟨hs.symbols.scopes_eq, List.rel_append hs.symbols.declared (.cons ?_ .nil)⟩
    rw [hs.scope_eq]
    exact .declared hleaf (hleaf.token.name_eq hkind) type s.scope
  openScopes_eq := hs.openScopes_eq
  mainDefined_eq := hs.mainDefined_eq

/-- A name is taken in one state just when the renamed one is in the other. -/
theorem isSome_local? (hs : s.Renamed f tree tree' s') (hf : Function.Injective f) (name : String) :
    (s'.symbols.local? s'.scope (f name)).isSome = (s.symbols.local? s.scope name).isSome := by
  have hlocal := hs.symbols.local?_renamed hf s.scope name
  rw [hs.scope_eq]
  generalize s.symbols.local? s.scope name = found at hlocal ⊢
  generalize s'.symbols.local? s.scope (f name) = found' at hlocal ⊢
  cases hlocal <;> rfl

end State.Renamed

/-- What two visits leave corresponds: values and states, or the faults they ended in. -/
inductive Visit.Agree (f : String → String) (tree tree' : SyntaxTree) {α β : Type}
    (R : α → β → Prop) : EStateM.Result (Located SemanticError) State α →
      EStateM.Result (Located SemanticError) State β → Prop where
  | ok {a : α} {b : β} {t t' : State} (h : R a b) (ht : t.Renamed f tree tree' t') :
      Agree f tree tree' R (.ok a t) (.ok b t')
  | error {e e' : Located SemanticError} {t t' : State} (h : SameFault f tree tree' e e') :
      Agree f tree tree' R (.error e t) (.error e' t')

namespace Visit

/-- In whatever corresponding states two visits begin, what they leave corresponds. -/
def Parallel (f : String → String) (tree tree' : SyntaxTree) {α β : Type} (R : α → β → Prop)
    (v : Visit α) (v' : Visit β) : Prop :=
  ∀ s s' : State, s.Renamed f tree tree' s' → Agree f tree tree' R (v s) (v' s')

section Rules

variable {α β γ δ : Type} {R : α → β → Prop} {Q : γ → δ → Prop}

theorem parallel_pure {a : α} {b : β} (h : R a b) :
    Parallel f tree tree' R (pure a : Visit α) (pure b : Visit β) :=
  fun _ _ hs => .ok h hs

theorem parallel_throw {e e' : Located SemanticError} (h : SameFault f tree tree' e e') :
    Parallel f tree tree' R (throw e : Visit α) (throw e' : Visit β) :=
  fun _ _ _ => .error h

theorem parallel_get :
    Parallel f tree tree' (State.Renamed f tree tree') (get : Visit State) (get : Visit State) :=
  fun _ _ hs => .ok hs hs

theorem parallel_check {v : Verdict α} {v' : Verdict β} (h : v.Agree f tree tree' R v') :
    Parallel f tree tree' R (check v) (check v') := by
  cases h with
  | ok h => exact parallel_pure h
  | error h => exact parallel_throw h

theorem Parallel.bind {v : Visit α} {v' : Visit β} {g : α → Visit γ} {g' : β → Visit δ}
    (hv : Parallel f tree tree' R v v') (hg : ∀ a b, R a b → Parallel f tree tree' Q (g a) (g' b)) :
    Parallel f tree tree' Q (v >>= g) (v' >>= g') := by
  intro s s' hs
  have hrun := hv s s' hs
  cases hfirst : v s with
  | ok a t =>
    rw [hfirst] at hrun
    cases hsecond : v' s' with
    | ok b t' =>
      rw [hsecond] at hrun
      cases hrun with
      | ok hab ht =>
        rw [bind_of_ok hfirst, bind_of_ok hsecond]
        exact hg a b hab t t' ht
    | error e t' =>
      rw [hsecond] at hrun
      cases hrun
  | error e t =>
    rw [hfirst] at hrun
    cases hsecond : v' s' with
    | ok b t' =>
      rw [hsecond] at hrun
      cases hrun
    | error e' t' =>
      rw [hsecond] at hrun
      cases hrun with
      | error he =>
        rw [bind_of_error hfirst, bind_of_error hsecond]
        exact .error he

theorem Parallel.bind_eq {v v' : Visit α} {g : α → Visit γ} {g' : α → Visit δ}
    (hv : Parallel f tree tree' Eq v v') (hg : ∀ a, Parallel f tree tree' Q (g a) (g' a)) :
    Parallel f tree tree' Q (v >>= g) (v' >>= g') :=
  hv.bind fun a _ heq => heq ▸ hg a

theorem parallel_ite {p p' : Prop} [Decidable p] [Decidable p'] {v w : Visit α} {v' w' : Visit β}
    (hp : p' ↔ p) (hv : p → Parallel f tree tree' R v v')
    (hw : ¬p → Parallel f tree tree' R w w') :
    Parallel f tree tree' R (if p then v else w) (if p' then v' else w') := by
  by_cases h : p
  · rw [if_pos h, if_pos (hp.mpr h)]
    exact hv h
  · rw [if_neg h, if_neg fun h' => h (hp.mp h')]
    exact hw h

/-- A condition that ends both visits in the same fault, or else they go on. -/
theorem parallel_unless {p p' : Prop} [Decidable p] [Decidable p'] {e e' : Located SemanticError}
    {g : α → Visit γ} {g' : β → Visit δ} {w : Visit γ} {w' : Visit δ} (hp : p' ↔ p)
    (he : SameFault f tree tree' e e') (hw : Parallel f tree tree' Q w w') :
    Parallel f tree tree' Q (if p then throw e >>= g else w) (if p' then throw e' >>= g' else w') :=
  parallel_ite hp (fun _ => fun _ _ _ => .error he) fun _ => hw

theorem parallel_refusal {p : Prop} [Decidable p] {e e' : Located SemanticError}
    (he : SameFault f tree tree' e e') :
    Parallel f tree tree' Eq (if p then throw e else pure () : Visit Unit)
      (if p then throw e' else pure ()) :=
  parallel_ite Iff.rfl (fun _ => parallel_throw he) fun _ => parallel_pure rfl

theorem parallel_within {v v' : Visit Unit} (hv : Parallel f tree tree' Eq v v') :
    Parallel f tree tree' Eq (within v) (within v') := by
  intro s s' hs
  have hrun := hv s.enter s'.enter hs.enter
  unfold within
  generalize v s.enter = r at hrun ⊢
  generalize v' s'.enter = r' at hrun ⊢
  cases hrun with
  | ok _ ht => exact .ok rfl ht.leave
  | error he => exact .error he

end Rules

section Constructs

variable (h : tree.Renamed f tree') (hclosed : tree.Closed) (hf : Function.Injective f)

include hf in
theorem declare_parallel {leaf leaf' : LeafNode} (hleaf : leaf.Renamed f tree tree' leaf')
    (hkind : leaf.token.kind = "ID") (type : ValueType) :
    Parallel f tree tree' Eq (declare tree leaf type) (declare tree' leaf' type) := by
  intro s s' hs
  have htaken := hs.isSome_local? hf leaf.token.lexeme
  rw [← hleaf.token.name_eq hkind] at htaken
  cases hlocal : s.symbols.local? s.scope leaf.token.lexeme with
  | none =>
    rw [hlocal, Option.isSome_none, Option.isSome_eq_false_iff, Option.isNone_iff_eq_none] at htaken
    rw [declare_eq_ok_iff.mpr ⟨hlocal, rfl⟩, declare_eq_ok_iff.mpr ⟨htaken, rfl⟩]
    exact .ok rfl (hs.declaring hleaf hkind type)
  | some existing =>
    rw [hlocal, Option.isSome_some] at htaken
    obtain ⟨existing', hlocal'⟩ := Option.isSome_iff_exists.mp htaken
    rw [declare_of_local? hlocal, declare_of_local? hlocal', hleaf.token.name_eq hkind, hleaf.id_eq]
    exact .error (sameFault_violation hleaf.lt_size rfl)

include h hclosed hf in
theorem type_parallel (hid : id < tree.size) :
    Parallel f tree tree' Eq (Visit.type tree id) (Visit.type tree' id) :=
  fun s s' hs => parallel_check (View.type_agree h hclosed hs.view hf hid) s s' hs

include h hf in
/-- The heads of functions return alike and lead to the same body. -/
theorem functionHead_parallel (hid : id < tree.size) :
    Parallel f tree tree' (fun head head' => head = head' ∧ head.2 < tree.size)
      (functionHead tree id) (functionHead tree' id) := by
  refine (parallel_check (childLeaf_agree h hid "ID")).bind fun name name' hleaf => ?_
  obtain ⟨hkind, hleaf⟩ := hleaf
  have hname := hleaf.token.name_eq hkind
  rw [hname]
  refine parallel_get.bind fun s s' hs => ?_
  refine parallel_unless ?_ (sameFault_violation hid rfl) ?_
  · rw [hs.mainDefined_eq]
  · refine (parallel_check (childNode_agree h hid "ReturnType")).bind fun result _ hresult => ?_
    obtain ⟨rfl, hlt⟩ := hresult
    refine (parallel_check (scalarType_agree h hlt)).bind_eq fun returns => ?_
    refine (declare_parallel hf hleaf hkind (.function returns)).bind_eq fun _ => ?_
    refine (parallel_check (childNode_agree h hid "Block")).bind fun body _ hbody => ?_
    obtain ⟨rfl, hbody⟩ := hbody
    exact parallel_pure ⟨rfl, hbody⟩

include h in
theorem mainHead_parallel (hid : id < tree.size) :
    Parallel f tree tree' (fun body body' => body = body' ∧ body < tree.size)
      (mainHead tree id) (mainHead tree' id) := by
  refine parallel_get.bind fun s s' hs => ?_
  refine parallel_unless ?_ (sameFault_violation hid rfl) ?_
  · rw [hs.mainDefined_eq]
  · have hmodify : Parallel f tree tree' Eq
        (modify fun s => { s with mainDefined := true } : Visit PUnit)
        (modify fun s => { s with mainDefined := true }) := fun _ _ hs => .ok rfl hs.defining
    exact hmodify.bind_eq fun _ => parallel_check (childNode_agree h hid "Block")

include h hclosed hf

theorem initializer_parallel (hid : id < tree.size) (expected : ValueType) :
    Parallel f tree tree' Eq (initializer tree id expected) (initializer tree' id expected) := by
  refine (parallel_check (childNode_agree h hid "Initializer")).bind fun initial _ hinitial => ?_
  obtain ⟨rfl, _⟩ := hinitial
  rw [childNode?_eq h]
  cases hvalue : childNode? tree initial "Expression" with
  | none => exact parallel_pure rfl
  | some value =>
    have hlt : value < tree.size := hclosed initial value (mem_children_of_childNode? hvalue)
    refine (type_parallel h hclosed hf hlt).bind_eq fun actual => ?_
    exact parallel_refusal (sameFault_violation hlt rfl)

theorem declaration_parallel (hid : id < tree.size) (returns : Option ValueType) :
    Parallel f tree tree' Eq (declaration tree returns id) (declaration tree' returns id) := by
  refine (parallel_check (childLeaf_agree h hid "ID")).bind fun name name' hleaf => ?_
  obtain ⟨hkind, hleaf⟩ := hleaf
  have hname := hleaf.token.name_eq hkind
  rw [hname, hleaf.id_eq]
  refine parallel_unless Iff.rfl (sameFault_violation hid rfl) ?_
  refine (parallel_check (childNode_agree h hid "TypeSpec")).bind fun spec _ hspec => ?_
  obtain ⟨rfl, hlt⟩ := hspec
  refine (parallel_check (declaredType_agree h hclosed hlt)).bind_eq fun type => ?_
  refine parallel_get.bind fun s s' hs => ?_
  refine parallel_unless ?_ (sameFault_violation hleaf.lt_size rfl) ?_
  · rw [hs.isSome_local? hf]
  · exact (initializer_parallel h hclosed hf hid type).bind_eq fun _ =>
      declare_parallel hf hleaf hkind type

theorem assignment_parallel (hid : id < tree.size) :
    Parallel f tree tree' Eq (assignment tree id) (assignment tree' id) := by
  refine (parallel_check (childLeaf_agree h hid "ID")).bind fun name name' hleaf => ?_
  obtain ⟨hkind, hleaf⟩ := hleaf
  refine parallel_get.bind fun s s' hs => ?_
  have htarget := View.typeOfName_agree hs.view hf hleaf hkind
  refine (parallel_check htarget).bind_eq fun target => ?_
  refine (parallel_check (childNode_agree h hid "Expression")).bind fun value _ hvalue => ?_
  obtain ⟨rfl, hlt⟩ := hvalue
  refine (type_parallel h hclosed hf hlt).bind_eq fun actual => ?_
  rw [indexExpression?_eq h]
  cases hindex : indexExpression? tree id with
  | none => exact parallel_refusal (sameFault_violation hlt rfl)
  | some index =>
    obtain ⟨suffix, _, hmem⟩ := exists_of_indexExpression? hindex
    have hbelow : index < tree.size := hclosed suffix index hmem
    refine (type_parallel h hclosed hf hbelow).bind_eq fun found => ?_
    refine (parallel_check (View.requireIndex_agree hbelow found)).bind_eq fun _ => ?_
    refine (parallel_check (View.elementType_agree hleaf hkind)).bind_eq fun element => ?_
    exact parallel_refusal (sameFault_violation hlt rfl)

theorem returning_parallel (hid : id < tree.size) (returns : Option ValueType) :
    Parallel f tree tree' Eq (returning tree returns id) (returning tree' returns id) := by
  cases returns with
  | none => exact parallel_throw (sameFault_violation hid rfl)
  | some expected =>
    unfold returning
    rw [returnedExpression?_eq h]
    cases hvalue : returnedExpression? tree id with
    | none =>
      refine (parallel_pure rfl).bind_eq fun actual => ?_
      exact parallel_refusal (sameFault_violation hid rfl)
    | some value =>
      obtain ⟨parent, _, hfound⟩ := Option.bind_eq_some_iff.mp hvalue
      have hlt : value < tree.size := hclosed parent value (mem_children_of_childNode? hfound)
      refine (type_parallel h hclosed hf hlt).bind_eq fun actual => ?_
      exact parallel_refusal (sameFault_violation hid rfl)

/-- Visits that are parallel below a node are parallel at the node. -/
theorem nodeOver_parallel {below below' : Option ValueType → NodeId → Visit Unit}
    (hbelow : ∀ returns lower, lower < tree.size →
      Parallel f tree tree' Eq (below returns lower) (below' returns lower))
    (hid : id < tree.size) (hplain : constructOf tree id ≠ .composite)
    (returns : Option ValueType) :
    Parallel f tree tree' Eq (nodeOver tree below returns id)
      (nodeOver tree' below' returns id) := by
  unfold nodeOver
  rcases constructOf_cases h id with ⟨token, token', hleaf, hleaf', _⟩ | ⟨heq, hnotleaf⟩
  · rw [hleaf, hleaf']
    exact parallel_pure rfl
  · rw [heq]
    cases hconstruct : constructOf tree id with
    | leaf token => exact absurd hconstruct (hnotleaf token)
    | composite => exact absurd hconstruct hplain
    | declaration => exact declaration_parallel h hclosed hf hid returns
    | assignment => exact assignment_parallel h hclosed hf hid
    | returning => exact returning_parallel h hclosed hf hid returns
    | functionDefinition =>
      refine (functionHead_parallel h hf hid).bind fun head _ hhead => ?_
      obtain ⟨rfl, hbody⟩ := hhead
      exact parallel_within (hbelow (some head.1) head.2 hbody)
    | mainDefinition =>
      refine (mainHead_parallel h hid).bind fun body _ hhead => ?_
      obtain ⟨rfl, hbody⟩ := hhead
      exact parallel_within (hbelow (some .int) body hbody)
    | call =>
      refine parallel_get.bind fun s s' hs => ?_
      exact (parallel_check (View.callType_agree h hs.view hf hid)).bind_eq fun _ =>
        parallel_pure rfl
    | _ =>
      refine parallel_get.bind fun s s' hs => ?_
      exact (parallel_check (View.type?_agree h hclosed hs.view hf hid)).bind_eq fun _ =>
        parallel_pure rfl

/-- Pending nodes of one tree are visited in step with those of the other. -/
theorem nodes_parallel (visits : Nat) (returns : Option ValueType) {pending : List NodeId}
    (hpending : ∀ id ∈ pending, id < tree.size) :
    Parallel f tree tree' Eq (nodes tree visits returns pending)
      (nodes tree' visits returns pending) := by
  -- Both visits have the same bound, so they are also cut short together.
  induction visits generalizing returns pending with
  | zero => exact parallel_pure rfl
  | succ visits ih =>
    cases pending with
    | nil => exact parallel_pure rfl
    | cons id pending =>
      have hid : id < tree.size := hpending id List.mem_cons_self
      have hrest : ∀ other ∈ pending, other < tree.size :=
        fun other hother => hpending other (List.mem_cons_of_mem _ hother)
      by_cases hplain : constructOf tree id = .composite
      · have hplain' : constructOf tree' id = .composite := by
          rcases constructOf_cases h id with ⟨token, _, hleaf, _⟩ | ⟨heq, _⟩
          · exact absurd (hleaf.symm.trans hplain) Construct.noConfusion
          · exact heq.trans hplain
        rw [nodes_composite hplain, nodes_composite hplain', h.children_eq]
        refine ih returns fun other hother => ?_
        rcases List.mem_append.mp hother with hchild | hother
        · exact hclosed id other hchild
        · exact hrest other hother
      · have hplain' : constructOf tree' id ≠ .composite := by
          rcases constructOf_cases h id with ⟨_, token', _, hleaf', _⟩ | ⟨heq, _⟩
          · rw [hleaf']
            exact Construct.noConfusion
          · rwa [heq]
        rw [nodes_cons hplain, nodes_cons hplain']
        refine (nodeOver_parallel h hclosed hf ?_ hid hplain returns).bind_eq fun _ =>
          ih returns hrest
        exact fun returned lower hlower => ih returned (List.forall_mem_singleton.mpr hlower)

theorem node_parallel (hid : id < tree.size) (returns : Option ValueType) :
    Parallel f tree tree' Eq (node tree returns id) (node tree' returns id) := by
  unfold node
  rw [h.size_eq]
  exact nodes_parallel h hclosed hf tree.size returns (List.forall_mem_singleton.mpr hid)

end Constructs

end Visit

/-- The analyses of a parsed tree and of one that is renamed from it succeed on both with
corresponding symbol tables, or end in the same violation at the same node. -/
theorem analyze_renamed {table : Table} {start : String} {tokens : List Token}
    (hparse : table.parse start tokens = some (.ok tree)) (hf : Function.Injective f)
    (h : tree.Renamed f tree') :
    Verdict.Agree f tree tree' (SymbolTable.Renamed f tree tree') (analyze tree)
      (analyze tree') := by
  obtain ⟨hsize, d, _, hlayout⟩ := Grammar.exists_layout_of_parse hparse
  have hroot : SyntaxTree.root < tree.size := hsize
  have hrun := Visit.node_parallel h hlayout.closed hf hroot none _ _ State.Renamed.initial
  rw [analyze_eq, analyze_eq]
  generalize Visit.node tree none SyntaxTree.root .initial = r at hrun ⊢
  generalize Visit.node tree' none SyntaxTree.root .initial = r' at hrun ⊢
  cases hrun with
  | error he => exact .error he
  | @ok _ _ t t' _ ht =>
    simp only [ht.mainDefined_eq]
    by_cases hmain : t.mainDefined = true
    · rw [if_pos hmain, if_pos hmain]
      exact .ok ht.symbols
    · rw [if_neg hmain, if_neg hmain]
      exact .error ⟨rfl, Or.inr ⟨rfl, rfl, rfl⟩⟩

/-- The token on the next line, and with another name if it is one. -/
def primed (token : Token) : Token :=
  { token with
    lexeme := if token.kind = "ID" then "_" ++ token.lexeme else token.lexeme
    line := token.line + 1 }

theorem renamed_primed (token : Token) : token.Renamed ("_" ++ ·) (primed token) where
  kind_eq := rfl
  name_eq := fun hkind => if_pos hkind
  number_eq := fun hkind => if_neg fun hname => absurd (hkind.symm.trans hname) (by decide)

theorem analyze_renamed_unsetNumber :
    ∃ table tree, grammar.table = .ok table ∧
      table.parse grammar.start (spell unsetNumber.phrase) = some (.ok tree) ∧
      Function.Injective ("_" ++ · : String → String) ∧
      tree.Renamed ("_" ++ ·) (tree.mapTokens primed) ∧
      Verdict.Agree ("_" ++ ·) tree (tree.mapTokens primed)
        (SymbolTable.Renamed ("_" ++ ·) tree (tree.mapTokens primed)) (analyze tree)
        (analyze (tree.mapTokens primed)) := by
  obtain ⟨table, htable⟩ := exists_table
  obtain ⟨tree, hparse, _⟩ :=
    Program.parse_of_writtenAs htable (Program.writtenAs_spell unsetNumber)
  have hinjective : Function.Injective ("_" ++ · : String → String) :=
    fun _ _ heq => (String.append_right_inj "_").mp heq
  have hrenamed := SyntaxTree.renamed_mapTokens renamed_primed tree
  exact ⟨table, tree, htable, hparse, hinjective, hrenamed,
    analyze_renamed hparse hinjective hrenamed⟩

end TopDown.Toy
