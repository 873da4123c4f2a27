import TopDown.Proofs.Toy.ExpressionTypes
import TopDown.Proofs.Toy.Handlers

/-!
The names between two items. Every name is declared in the global scope, and a body is visited in a
scope of its own that holds none, so what is visible in both places are the names that the items so
far have introduced.
-/
namespace TopDown.Toy

/-- The state after items that introduce the names of the environment. -/
structure State.Holds (s : State) (env : Environment) (main : Bool) : Prop where
  closed : s.openScopes = []
  main_eq : s.mainDefined = main
  root : s.symbols.scopes[0]? = some ⟨globalScope, none⟩
  global : ∀ e ∈ s.symbols.declared, e.scope = globalScope
  names : ∀ name, (s.symbols.local? globalScope name).map SymbolEntry.type = env.get? name

namespace SymbolTable

variable {table : SymbolTable} {scope : ScopeId} {name : String}

theorem resolveWithin_root {bound : Nat} (hroot : table.parent? scope = none) :
    table.resolveWithin name (bound + 1) scope = table.local? scope name := by
  rw [resolveWithin, hroot]
  cases table.local? scope name <;> rfl

/-- Where a scope declares nothing, its parent decides. -/
theorem resolveWithin_parent {bound : Nat} {parent : ScopeId}
    (hnone : table.local? scope name = none) (hparent : table.parent? scope = some parent) :
    table.resolveWithin name (bound + 1) scope = table.resolveWithin name bound parent := by
  rw [resolveWithin, hnone, hparent]

theorem parent?_globalScope (h : table.scopes[0]? = some ⟨globalScope, none⟩) :
    table.parent? globalScope = none := by
  rw [parent?, globalScope, h]
  rfl

theorem local?_eq_none_of_global (hglobal : ∀ e ∈ table.declared, e.scope = globalScope)
    (hscope : scope ≠ globalScope) : table.local? scope name = none := by
  refine List.find?_eq_none.mpr fun e he => ?_
  rw [decide_eq_true_iff, hglobal e he]
  exact fun hfound => hscope hfound.1.symm

end SymbolTable

namespace State.Holds

variable {s : State} {env : Environment} {main : Bool} {name : String}

theorem initial : State.initial.Holds .empty false where
  closed := rfl
  main_eq := rfl
  root := rfl
  global := fun _ he => absurd he List.not_mem_nil
  names := fun _ => rfl

theorem scope_eq (h : s.Holds env main) : s.scope = globalScope := by
  rw [State.scope, h.closed]
  rfl

theorem local?_eq_none_iff (h : s.Holds env main) :
    s.symbols.local? s.scope name = none ↔ env.get? name = none := by
  rw [h.scope_eq, ← h.names, Option.map_eq_none_iff]

/-- At the top level the names of the items so far are visible. -/
theorem sees (h : s.Holds env main) : s.view.Sees env := by
  intro name
  rw [View.resolve?, State.view, h.scope_eq, SymbolTable.resolve,
    SymbolTable.resolveWithin_root (SymbolTable.parent?_globalScope h.root)]
  exact h.names name

theorem root_enter (h : s.Holds env main) :
    s.enter.symbols.scopes[0]? = some ⟨globalScope, none⟩ := by
  obtain ⟨hlength, _⟩ := List.getElem?_eq_some_iff.mp h.root
  change (s.symbols.scopes ++ _)[0]? = _
  rw [List.getElem?_append_left hlength, h.root]

/-- In a body the same names are visible as around it. -/
theorem sees_enter (h : s.Holds env main) : s.enter.view.Sees env := by
  intro name
  obtain ⟨hlength, _⟩ := List.getElem?_eq_some_iff.mp h.root
  have hne : s.symbols.scopes.length ≠ globalScope := Nat.ne_of_gt hlength
  have hnone : s.enter.symbols.local? s.symbols.scopes.length name = none :=
    SymbolTable.local?_eq_none_of_global h.global hne
  have hparent : s.enter.symbols.parent? s.symbols.scopes.length = some globalScope := by
    simp [SymbolTable.parent?, State.enter, SymbolTable.openScope, h.scope_eq]
  have hroot := SymbolTable.parent?_globalScope h.root_enter
  have hbound : s.enter.symbols.scopes.length = s.symbols.scopes.length + 1 := List.length_append
  change (s.enter.symbols.resolveWithin name (s.enter.symbols.scopes.length + 1)
    s.symbols.scopes.length).map SymbolEntry.type = _
  rw [hbound, SymbolTable.resolveWithin_parent hnone hparent,
    SymbolTable.resolveWithin_root hroot]
  exact h.names name

/-- A body leaves the names as they were. -/
theorem leave_enter (h : s.Holds env main) : s.enter.leave.Holds env main where
  closed := h.closed
  main_eq := h.main_eq
  root := h.root_enter
  global := h.global
  names := h.names

theorem defining (h : s.Holds env main) : State.Holds { s with mainDefined := true } env true where
  closed := h.closed
  main_eq := rfl
  root := h.root
  global := h.global
  names := h.names

theorem declaring (h : s.Holds env main) {token : Token} (type : ValueType)
    (hfresh : env.get? token.lexeme = none) :
    (s.declaring token type).Holds (env.insert token.lexeme type) main where
  closed := h.closed
  main_eq := h.main_eq
  root := h.root
  global := by
    intro e he
    rcases List.mem_append.mp he with he | he
    · exact h.global e he
    · rw [List.mem_singleton.mp he]
      exact h.scope_eq
  names := by
    intro name
    have hnone := (h.names token.lexeme).trans hfresh
    rw [NameMap.get?_insert, ← h.names]
    simp only [SymbolTable.local?, State.declaring, List.find?_append, h.scope_eq] at hnone ⊢
    by_cases hname : name = token.lexeme
    · subst hname
      rw [Option.map_eq_none_iff.mp hnone]
      simp
    · have hne : token.lexeme ≠ name := fun heq => hname heq.symm
      simp [hname, hne]

end State.Holds

end TopDown.Toy
