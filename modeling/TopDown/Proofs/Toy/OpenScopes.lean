import TopDown.Proofs.Toy.ScopeTrees
import TopDown.Proofs.Toy.Visiting

/-!
Scopes during a visit. Every function and the main function get one scope for their bodies, which
is opened after the function has been introduced, and variables are declared only where no such
scope is open.
-/
namespace TopDown.Toy

variable {tree : SyntaxTree} {id : NodeId} {type : ValueType}

section Types

theorem isFunction_of_scalarType (h : scalarType tree id = .ok type) : type.isFunction = false := by
  unfold scalarType at h
  split at h
  · cases h
  · split at h <;> cases h <;> rfl

/-- No declared type is the type of a function. -/
theorem isFunction_of_declaredType (h : declaredType tree id = .ok type) :
    type.isFunction = false := by
  unfold declaredType at h
  split at h
  · exact isFunction_of_scalarType h
  · obtain ⟨size, _, h⟩ := View.bind_eq_ok_iff.mp h
    split at h
    · cases h
    · obtain ⟨element, _, h⟩ := View.bind_eq_ok_iff.mp h
      cases h
      rfl

end Types

/-- The number of functions among the declarations. -/
def SymbolTable.functions (table : SymbolTable) : Nat :=
  table.declared.countP fun e => e.type.isFunction

@[simp] theorem SymbolTable.functions_append (table : SymbolTable) (e : SymbolEntry) :
    functions { table with declared := table.declared ++ [e] } =
      table.functions + e.type.isFunction.toNat := by
  simp only [functions, List.countP_append, List.countP_singleton]
  cases e.type.isFunction <;> rfl

/-- The scopes and the declarations of a state belong together, apart from so many bodies whose
scopes are still to be opened. -/
structure State.Scoped (owed : Nat) (s : State) : Prop where
  tree : s.symbols.WellScoped
  open_lt : ∀ scope ∈ s.openScopes, scope < s.symbols.scopes.length
  globals : ∀ e ∈ s.symbols.declared, e.type.isFunction = false → e.scope = globalScope
  count : s.symbols.scopes.length + owed = s.symbols.functions + s.mainDefined.toNat + 1

namespace State.Scoped

variable {s : State} {owed : Nat}

theorem initial : State.initial.Scoped 0 where
  tree := .initial
  open_lt := fun _ hscope => absurd hscope List.not_mem_nil
  globals := fun _ he => absurd he List.not_mem_nil
  count := rfl

theorem scope_lt (h : s.Scoped owed) : s.scope < s.symbols.scopes.length := by
  unfold State.scope
  cases hopen : s.openScopes with
  | nil => exact h.tree.length_pos
  | cons scope rest => exact h.open_lt scope (hopen ▸ List.mem_cons_self)

/-- A function may be declared anywhere, anything else in the global scope. -/
theorem declaring (h : s.Scoped owed) (token : Token) (type : ValueType)
    (hscope : type.isFunction = false → s.scope = globalScope) :
    (s.declaring token type).Scoped (owed + type.isFunction.toNat) where
  tree := h.tree.append h.scope_lt
  open_lt := h.open_lt
  globals := by
    intro e he
    rcases List.mem_append.mp he with hold | hnew
    · exact h.globals e hold
    · rw [List.mem_singleton.mp hnew]
      exact hscope
  count := by
    have hcount := h.count
    simp only [State.declaring, SymbolTable.functions_append]
    omega

theorem defining (h : s.Scoped owed) (hmain : s.mainDefined = false) :
    State.Scoped (owed + 1) { s with mainDefined := true } where
  tree := h.tree
  open_lt := h.open_lt
  globals := h.globals
  count := by
    have hcount := h.count
    rw [hmain] at hcount
    simp only [Bool.toNat_false, Bool.toNat_true] at hcount ⊢
    change s.symbols.scopes.length + (owed + 1) = s.symbols.functions + 1 + 1
    omega

theorem enter (h : s.Scoped (owed + 1)) : s.enter.Scoped owed where
  tree := h.tree.openScope h.scope_lt
  open_lt := by
    intro scope hscope
    change scope < (s.symbols.scopes ++ [_]).length
    rw [List.length_append]
    rcases List.mem_cons.mp hscope with rfl | hold
    · exact Nat.lt_succ_self _
    · exact Nat.lt_succ_of_lt (h.open_lt scope hold)
  globals := h.globals
  count := by
    have hcount := h.count
    change (s.symbols.scopes ++ [_]).length + owed = s.symbols.functions + s.mainDefined.toNat + 1
    rw [List.length_append, List.length_singleton]
    omega

theorem leave (h : s.Scoped owed) : s.leave.Scoped owed where
  tree := h.tree
  open_lt := fun scope hscope => h.open_lt scope (List.mem_of_mem_tail hscope)
  globals := h.globals
  count := h.count

end State.Scoped

end TopDown.Toy
