import TopDown.Proofs.Toy.Inference
import TopDown.Toy.Analysis

/-!
What the visits of the single constructs do. Each lemma says when a visit succeeds and in which
state it leaves the analysis, so that no later proof looks into the steps of a visit.
-/
namespace TopDown.Toy

/-- The state after a declaration in the innermost open scope. -/
def State.declaring (s : State) (name : Token) (type : ValueType) : State :=
  let e : SymbolEntry := ⟨name.lexeme, type, s.scope, name.line, name.column⟩
  { s with
    symbols := { s.symbols with declared := s.symbols.declared ++ [e] }
    events := .declared e :: s.events }

namespace Visit

section Runs

variable {α β : Type} {a b : α} {s t : State}

/-- Both parts of a visit in sequence succeed. -/
@[simp] theorem bind_eq_ok_iff {v : Visit α} {f : α → Visit β} {c : β} :
    (v >>= f) s = .ok c t ↔ ∃ a u, v s = .ok a u ∧ f a u = .ok c t := by
  change EStateM.bind v f s = _ ↔ _
  unfold EStateM.bind
  cases v s with
  | ok a u =>
    constructor
    · intro h
      exact ⟨a, u, rfl, h⟩
    · rintro ⟨_, _, h, hrest⟩
      cases h
      exact hrest
  | error e u => simp

theorem bind_of_ok {v : Visit α} {f : α → Visit β} (h : v s = .ok a t) : (v >>= f) s = f a t := by
  change EStateM.bind v f s = _
  simp only [EStateM.bind, h]

/-- A violation ends a sequence of visits. -/
theorem bind_of_error {v : Visit α} {f : α → Visit β} {e : Located SemanticError}
    (h : v s = .error e t) : (v >>= f) s = .error e t := by
  change EStateM.bind v f s = _
  simp only [EStateM.bind, h]

@[simp] theorem pure_eq_ok_iff : (pure a : Visit α) s = .ok b t ↔ a = b ∧ s = t := by
  change EStateM.Result.ok a s = _ ↔ _
  simp

@[simp] theorem throw_eq_ok_iff {e : Located SemanticError} :
    (throw e : Visit α) s = .ok b t ↔ False := by
  change EStateM.Result.error e s = _ ↔ _
  simp

@[simp] theorem get_eq_ok_iff {u : State} : (get : Visit State) s = .ok u t ↔ s = u ∧ s = t := by
  change EStateM.Result.ok s s = _ ↔ _
  simp

@[simp] theorem modify_eq_ok_iff {f : State → State} {u : PUnit} :
    (modify f : Visit PUnit) s = .ok u t ↔ f s = t := by
  change EStateM.Result.ok PUnit.unit (f s) = _ ↔ _
  simp

@[simp] theorem check_eq_ok_iff {v : Verdict α} : check v s = .ok b t ↔ v = .ok b ∧ s = t := by
  cases v with
  | ok a => exact pure_eq_ok_iff.trans (by simp)
  | error e => exact throw_eq_ok_iff.trans (by simp)

/-- A condition that ends the visit does not hold when the visit succeeds. -/
@[simp] theorem ite_throw_bind_eq_ok_iff {p : Prop} [Decidable p] {e : Located SemanticError}
    {f : β → Visit α} {v : Visit α} :
    (if p then throw e >>= f else v) s = .ok b t ↔ ¬p ∧ v s = .ok b t := by
  by_cases hp : p <;> simp [hp]

@[simp] theorem ite_throw_eq_ok_iff {p : Prop} [Decidable p] {e : Located SemanticError}
    {v : Visit α} : (if p then throw e else v) s = .ok b t ↔ ¬p ∧ v s = .ok b t := by
  by_cases hp : p <;> simp [hp]

/-- What comes next only matters as far as the visit comes to it. -/
theorem bind_congr_of_ok {v : Visit α} {f g : α → Visit β}
    (h : ∀ a u, v s = .ok a u → f a u = g a u) : (v >>= f) s = (v >>= g) s := by
  change EStateM.bind v f s = EStateM.bind v g s
  unfold EStateM.bind
  cases hv : v s with
  | ok a u => exact h a u hv
  | error e u => rfl

end Runs

variable {tree : SyntaxTree} {id : NodeId} {s t : State}

theorem type_eq_ok_iff {type : ValueType} :
    Visit.type tree id s = .ok type t ↔ s.view.type tree id = .ok type ∧ s = t :=
  check_eq_ok_iff

theorem declare_eq_ok_iff {name : LeafNode} {type : ValueType} :
    declare tree name type s = .ok () t ↔
      s.symbols.local? s.scope name.token.lexeme = none ∧ t = s.declaring name.token type := by
  simp only [declare, SymbolTable.declare, State.declaring]
  cases s.symbols.local? s.scope name.token.lexeme with
  | none => simp [eq_comm]
  | some e => simp

theorem declare_of_local? {name : LeafNode} {type : ValueType} {existing : SymbolEntry}
    (h : s.symbols.local? s.scope name.token.lexeme = some existing) :
    declare tree name type s =
      .error (violation tree (.variableAlreadyDeclared name.token.lexeme) name.id) s := by
  simp only [declare, SymbolTable.declare, h]

theorem initializer_eq_ok_iff {expected : ValueType} :
    initializer tree id expected s = .ok () t ↔
      s = t ∧ ∃ initial, childNode tree id "Initializer" = .ok initial ∧
        ∀ value, childNode? tree initial "Expression" = some value →
          s.view.type tree value = .ok expected := by
  simp only [initializer, bind_eq_ok_iff, check_eq_ok_iff]
  constructor
  · rintro ⟨initial, _, ⟨hinitial, rfl⟩, h⟩
    cases hvalue : childNode? tree initial "Expression" with
    | none =>
      rw [hvalue] at h
      exact ⟨(pure_eq_ok_iff.mp h).2, initial, hinitial, by simp [hvalue]⟩
    | some value =>
      simp only [hvalue, bind_eq_ok_iff, type_eq_ok_iff, ite_throw_eq_ok_iff, ne_eq,
        Decidable.not_not, pure_eq_ok_iff] at h
      obtain ⟨actual, _, ⟨htype, rfl⟩, rfl, -, rfl⟩ := h
      exact ⟨rfl, initial, hinitial, by simpa [hvalue] using htype⟩
  · rintro ⟨rfl, initial, hinitial, h⟩
    refine ⟨initial, _, ⟨hinitial, rfl⟩, ?_⟩
    cases hvalue : childNode? tree initial "Expression" with
    | none => exact pure_eq_ok_iff.mpr ⟨rfl, rfl⟩
    | some value =>
      simp only [bind_eq_ok_iff, type_eq_ok_iff, ite_throw_eq_ok_iff, ne_eq, Decidable.not_not,
        pure_eq_ok_iff]
      exact ⟨expected, _, ⟨h value hvalue, rfl⟩, rfl, trivial, rfl⟩

/-- A declaration succeeds outside of functions only, and only then its name is declared. -/
theorem declaration_eq_ok_iff {returns : Option ValueType} :
    declaration tree returns id s = .ok () t ↔
      ∃ name spec type, childLeaf tree id "ID" = .ok name ∧ returns = none ∧
        childNode tree id "TypeSpec" = .ok spec ∧ declaredType tree spec = .ok type ∧
        s.symbols.local? s.scope name.token.lexeme = none ∧
        initializer tree id type s = .ok () s ∧ t = s.declaring name.token type := by
  simp only [declaration, bind_eq_ok_iff, ite_throw_bind_eq_ok_iff, check_eq_ok_iff,
    get_eq_ok_iff, declare_eq_ok_iff, Bool.not_eq_true, Option.isSome_eq_false_iff,
    Option.isNone_iff_eq_none]
  constructor
  · rintro ⟨name, _, ⟨hname, rfl⟩, hreturns, spec, _, ⟨hspec, rfl⟩, type, _, ⟨htype, rfl⟩, _, _,
      ⟨rfl, rfl⟩, hfresh, _, u, hinitial, -, rfl⟩
    obtain ⟨rfl, hvalue⟩ := initializer_eq_ok_iff.mp hinitial
    exact ⟨name, spec, type, hname, hreturns, hspec, htype, hfresh,
      initializer_eq_ok_iff.mpr ⟨rfl, hvalue⟩, rfl⟩
  · rintro ⟨name, spec, type, hname, hreturns, hspec, htype, hfresh, hinitial, rfl⟩
    exact ⟨name, _, ⟨hname, rfl⟩, hreturns, spec, _, ⟨hspec, rfl⟩, type, _, ⟨htype, rfl⟩, _, _,
      ⟨rfl, rfl⟩, hfresh, (), s, hinitial, hfresh, rfl⟩

theorem functionHead_eq_ok_iff {returns : ValueType} {body : NodeId} :
    functionHead tree id s = .ok (returns, body) t ↔
      ∃ name result, childLeaf tree id "ID" = .ok name ∧ s.mainDefined = false ∧
        childNode tree id "ReturnType" = .ok result ∧ scalarType tree result = .ok returns ∧
        declare tree name (.function returns) s = .ok () t ∧
        childNode tree id "Block" = .ok body := by
  simp only [functionHead, bind_eq_ok_iff, ite_throw_bind_eq_ok_iff, check_eq_ok_iff,
    get_eq_ok_iff, pure_eq_ok_iff, Bool.not_eq_true]
  constructor
  · rintro ⟨name, _, ⟨hname, rfl⟩, _, _, ⟨rfl, rfl⟩, hmain, result, _, ⟨hresult, rfl⟩, type, _,
      ⟨htype, rfl⟩, _, _, hdeclare, block, _, ⟨hblock, rfl⟩, hpair, rfl⟩
    cases hpair
    exact ⟨name, result, hname, hmain, hresult, htype, hdeclare, hblock⟩
  · rintro ⟨name, result, hname, hmain, hresult, htype, hdeclare, hblock⟩
    exact ⟨name, _, ⟨hname, rfl⟩, _, _, ⟨rfl, rfl⟩, hmain, result, _, ⟨hresult, rfl⟩, returns, _,
      ⟨htype, rfl⟩, _, _, hdeclare, body, _, ⟨hblock, rfl⟩, rfl, rfl⟩

theorem mainHead_eq_ok_iff {body : NodeId} :
    mainHead tree id s = .ok body t ↔
      s.mainDefined = false ∧ childNode tree id "Block" = .ok body ∧
        t = { s with mainDefined := true } := by
  simp only [mainHead, bind_eq_ok_iff, ite_throw_bind_eq_ok_iff, check_eq_ok_iff, get_eq_ok_iff,
    modify_eq_ok_iff, Bool.not_eq_true]
  constructor
  · rintro ⟨_, _, ⟨rfl, rfl⟩, hmain, _, _, rfl, hblock, rfl⟩
    exact ⟨hmain, hblock, rfl⟩
  · rintro ⟨hmain, hblock, rfl⟩
    exact ⟨_, _, ⟨rfl, rfl⟩, hmain, (), _, rfl, hblock, rfl⟩

/-- An assignment leaves the state as it is. -/
theorem assignment_eq_ok_iff :
    assignment tree id s = .ok () t ↔
      s = t ∧ ∃ name target value actual, childLeaf tree id "ID" = .ok name ∧
        s.view.typeOfName tree name = .ok target ∧ childNode tree id "Expression" = .ok value ∧
        s.view.type tree value = .ok actual ∧
        match indexExpression? tree id with
        | none => actual = target
        | some index =>
          s.view.type tree index = .ok .int ∧ ∃ size, target = .array size actual := by
  simp only [assignment, bind_eq_ok_iff, check_eq_ok_iff, get_eq_ok_iff, type_eq_ok_iff]
  cases hindex : indexExpression? tree id with
  | none =>
    simp only [ite_throw_eq_ok_iff, ne_eq, Decidable.not_not, pure_eq_ok_iff]
    constructor
    · rintro ⟨name, _, ⟨hname, rfl⟩, _, _, ⟨rfl, rfl⟩, target, _, ⟨htarget, rfl⟩, value, _,
        ⟨hvalue, rfl⟩, actual, _, ⟨hactual, rfl⟩, htype, -, rfl⟩
      exact ⟨rfl, name, target, value, actual, hname, htarget, hvalue, hactual, htype⟩
    · rintro ⟨rfl, name, target, value, actual, hname, htarget, hvalue, hactual, htype⟩
      exact ⟨name, _, ⟨hname, rfl⟩, _, _, ⟨rfl, rfl⟩, target, _, ⟨htarget, rfl⟩, value, _,
        ⟨hvalue, rfl⟩, actual, _, ⟨hactual, rfl⟩, htype, trivial, rfl⟩
  | some index =>
    simp only [bind_eq_ok_iff, type_eq_ok_iff, check_eq_ok_iff, View.requireIndex_eq_ok_iff,
      View.elementType_eq_ok_iff, ite_throw_eq_ok_iff, ne_eq, Decidable.not_not, pure_eq_ok_iff]
    constructor
    · rintro ⟨name, _, ⟨hname, rfl⟩, _, _, ⟨rfl, rfl⟩, target, _, ⟨htarget, rfl⟩, value, _,
        ⟨hvalue, rfl⟩, actual, _, ⟨hactual, rfl⟩, _, _, ⟨hindex, rfl⟩, _, _, ⟨rfl, rfl⟩, element,
        _, ⟨harray, rfl⟩, rfl, -, rfl⟩
      exact ⟨rfl, name, target, value, _, hname, htarget, hvalue, hactual, hindex, harray⟩
    · rintro ⟨rfl, name, target, value, actual, hname, htarget, hvalue, hactual, hindex, harray⟩
      exact ⟨name, _, ⟨hname, rfl⟩, _, _, ⟨rfl, rfl⟩, target, _, ⟨htarget, rfl⟩, value, _,
        ⟨hvalue, rfl⟩, actual, _, ⟨hactual, rfl⟩, _, _, ⟨hindex, rfl⟩, (), _, ⟨rfl, rfl⟩, actual,
        _, ⟨harray, rfl⟩, rfl, trivial, rfl⟩

/-- A return leaves the state as it is. -/
theorem returning_eq_ok_iff {returns : Option ValueType} :
    returning tree returns id s = .ok () t ↔
      s = t ∧ ∃ expected actual, returns = some expected ∧ (expected = .void ∨ actual = expected) ∧
        match returnedExpression? tree id with
        | none => actual = .void
        | some value => s.view.type tree value = .ok actual := by
  have hallowed : ∀ expected actual : ValueType,
      ¬(expected ≠ .void ∧ actual ≠ expected) ↔ expected = .void ∨ actual = expected := by
    intro expected actual
    rw [Decidable.not_and_iff_not_or_not, Decidable.not_not, Decidable.not_not]
  cases returns with
  | none => simp [returning]
  | some expected =>
    cases hvalue : returnedExpression? tree id with
    | none =>
      simp only [returning, hvalue, bind_eq_ok_iff, ite_throw_eq_ok_iff, pure_eq_ok_iff, hallowed,
        Option.some.injEq]
      constructor
      · rintro ⟨_, _, ⟨rfl, rfl⟩, h, -, rfl⟩
        exact ⟨rfl, expected, .void, rfl, h, rfl⟩
      · rintro ⟨rfl, _, _, rfl, h, rfl⟩
        exact ⟨_, _, ⟨rfl, rfl⟩, h, trivial, rfl⟩
    | some value =>
      simp only [returning, hvalue, bind_eq_ok_iff, type_eq_ok_iff, ite_throw_eq_ok_iff,
        pure_eq_ok_iff, hallowed, Option.some.injEq]
      constructor
      · rintro ⟨actual, _, ⟨hactual, rfl⟩, h, -, rfl⟩
        exact ⟨rfl, expected, actual, rfl, h, hactual⟩
      · rintro ⟨rfl, _, actual, rfl, h, hactual⟩
        exact ⟨actual, _, ⟨hactual, rfl⟩, h, trivial, rfl⟩

end Visit

end TopDown.Toy
