import TopDown.Toy.SymbolTable

/-!
Scopes as a tree. Every scope but the global one hangs under a scope that was opened before it, so
the chain of the scopes around a scope comes to the global one and ends there, and with it ends a
lookup that goes on from each scope to its parent.
-/
namespace TopDown.Toy.SymbolTable

/-- The scopes form a tree under the global one, numbered in an order in which parents come first,
and hold all declarations. -/
structure WellScoped (table : SymbolTable) : Prop where
  root : table.scopes[0]? = some ⟨globalScope, none⟩
  id_eq : ∀ (i : Nat) (scope : Scope), table.scopes[i]? = some scope → scope.id = i
  parent_lt : ∀ (i : Nat) (scope : Scope), table.scopes[i]? = some scope → 0 < i →
    ∃ parent, scope.parent = some parent ∧ parent < i
  scope_lt : ∀ e ∈ table.declared, e.scope < table.scopes.length

/-- What a lookup from a scope ends with when no bound cuts it short. -/
inductive Resolves (table : SymbolTable) (name : String) : ScopeId → Option SymbolEntry → Prop where
  | here {scope : ScopeId} {e : SymbolEntry} (hlocal : table.local? scope name = some e) :
      Resolves table name scope (some e)
  | outermost {scope : ScopeId} (hlocal : table.local? scope name = none)
      (hparent : table.parent? scope = none) : Resolves table name scope none
  | enclosing {scope parent : ScopeId} {found : Option SymbolEntry}
      (hlocal : table.local? scope name = none) (hparent : table.parent? scope = some parent) :
      Resolves table name parent found → Resolves table name scope found

/-- A scope, the scope around it, and so on to the outermost one. -/
inductive Chain (table : SymbolTable) : ScopeId → List ScopeId → Prop where
  | outermost {scope : ScopeId} (hparent : table.parent? scope = none) : Chain table scope [scope]
  | enclosing {scope parent : ScopeId} {chain : List ScopeId}
      (hparent : table.parent? scope = some parent) :
      Chain table parent chain → Chain table scope (scope :: chain)

/-- Every scope but the global one hangs under an older one. -/
structure Nested (table : SymbolTable) : Prop where
  opened : globalScope < table.nextScope
  root : table.parent? globalScope = none
  parent_lt : ∀ scope, globalScope < scope → scope < table.nextScope →
    ∃ parent, table.parent? scope = some parent ∧ parent < scope

variable {table : SymbolTable} {scope parent : ScopeId} {name : String}

@[simp] theorem nextScope_openScope (table : SymbolTable) (parent : ScopeId) :
    (table.openScope parent).nextScope = table.nextScope + 1 := List.length_append

theorem parent?_openScope (table : SymbolTable) (parent scope : ScopeId) :
    (table.openScope parent).parent? scope =
      if scope = table.nextScope then some parent else table.parent? scope := by
  change ((table.scopes ++ [⟨table.nextScope, some parent⟩])[scope]?).bind Scope.parent = _
  rcases Nat.lt_trichotomy scope table.nextScope with hlt | rfl | hgt
  · rw [List.getElem?_append_left hlt, if_neg (Nat.ne_of_lt hlt)]
    rfl
  · rw [if_pos rfl, nextScope, List.getElem?_concat_length]
    rfl
  · rw [if_neg (Nat.ne_of_gt hgt), parent?, List.getElem?_eq_none (Nat.le_of_lt hgt),
      List.getElem?_eq_none]
    rw [List.length_append, List.length_singleton]
    exact hgt

namespace Chain

variable {chain : List ScopeId}

theorem unique {other : List ScopeId} (h : table.Chain scope chain)
    (h' : table.Chain scope other) : other = chain := by
  induction h generalizing other with
  | outermost hparent =>
    cases h' with
    | outermost => rfl
    | enclosing hparent' => cases hparent.symm.trans hparent'
  | enclosing hparent _ ih =>
    cases h' with
    | outermost hparent' => cases hparent.symm.trans hparent'
    | enclosing hparent' hchain =>
      cases hparent.symm.trans hparent'
      rw [ih hchain]

/-- The chain is that of every table in which its scopes have the same parents. -/
theorem congr {later : SymbolTable} (h : table.Chain scope chain)
    (hparents : ∀ other ∈ chain, later.parent? other = table.parent? other) :
    later.Chain scope chain := by
  induction h with
  | outermost hparent => exact .outermost ((hparents _ List.mem_cons_self).trans hparent)
  | enclosing hparent _ ih =>
    exact .enclosing ((hparents _ List.mem_cons_self).trans hparent)
      (ih fun other hother => hparents other (List.mem_cons_of_mem _ hother))

/-- A lookup ends with what the first scope of the chain that has the name has for it. -/
theorem resolves (h : table.Chain scope chain) (name : String) :
    table.Resolves name scope (chain.findSome? fun other => table.local? other name) := by
  induction h with
  | @outermost scope hparent =>
    rw [List.findSome?_cons]
    cases hlocal : table.local? scope name with
    | some e => exact .here hlocal
    | none => exact .outermost hlocal hparent
  | @enclosing scope parent chain hparent _ ih =>
    rw [List.findSome?_cons]
    cases hlocal : table.local? scope name with
    | some e => exact .here hlocal
    | none => exact .enclosing hlocal hparent ih

/-- A bound of the length of the chain does not cut a lookup short. -/
theorem resolveWithin_eq {bound : Nat} (h : table.Chain scope chain)
    (hbound : chain.length ≤ bound) :
    table.resolveWithin name bound scope =
      chain.findSome? fun other => table.local? other name := by
  induction h generalizing bound with
  | @outermost scope hparent =>
    obtain ⟨bound, rfl⟩ := Nat.exists_eq_succ_of_ne_zero (Nat.ne_of_gt hbound)
    rw [resolveWithin, hparent, List.findSome?_cons]
    cases table.local? scope name <;> rfl
  | @enclosing scope parent chain hparent _ ih =>
    obtain ⟨bound, rfl⟩ := Nat.exists_eq_succ_of_ne_zero (Nat.ne_of_gt (Nat.zero_lt_of_lt hbound))
    rw [resolveWithin, hparent, List.findSome?_cons]
    cases table.local? scope name with
    | some e => rfl
    | none => exact ih (Nat.le_of_succ_le_succ hbound)

theorem resolve_eq (h : table.Chain scope chain) (hlength : chain.length ≤ table.nextScope + 1) :
    table.resolve scope name = chain.findSome? fun other => table.local? other name :=
  h.resolveWithin_eq hlength

end Chain

namespace Nested

/-- From an opened scope the parents lead down to the global scope, each of them older. -/
theorem exists_chain (h : table.Nested) (hscope : scope < table.nextScope) :
    ∃ chain, table.Chain scope chain ∧ chain.getLast? = some globalScope ∧
      chain.length ≤ scope + 1 ∧ ∀ other ∈ chain, other ≤ scope := by
  induction scope using Nat.strongRecOn with
  | ind scope ih =>
    rcases Nat.eq_zero_or_pos scope with rfl | hpos
    · refine ⟨[globalScope], .outermost h.root, rfl, Nat.le_refl 1, fun other hother => ?_⟩
      exact Nat.le_of_eq (List.mem_singleton.mp hother)
    · obtain ⟨parent, hparent, hlt⟩ := h.parent_lt scope hpos hscope
      obtain ⟨chain, hchain, hlast, hlength, hle⟩ := ih parent hlt (Nat.lt_trans hlt hscope)
      refine ⟨scope :: chain, .enclosing hparent hchain, ?_, ?_, fun other hother => ?_⟩
      · rw [List.getLast?_cons, hlast]
        rfl
      · exact Nat.succ_le_succ (Nat.le_trans hlength hlt)
      · rcases List.mem_cons.mp hother with rfl | hmem
        · exact Nat.le_refl _
        · exact Nat.le_of_lt (Nat.lt_of_le_of_lt (hle other hmem) hlt)

theorem resolves (h : table.Nested) (hscope : scope < table.nextScope) :
    table.Resolves name scope (table.resolve scope name) := by
  obtain ⟨chain, hchain, _, hlength, _⟩ := h.exists_chain hscope
  rw [hchain.resolve_eq (Nat.le_trans hlength (Nat.le_succ_of_le hscope))]
  exact hchain.resolves name

theorem openScope (h : table.Nested) (hparent : parent < table.nextScope) :
    (table.openScope parent).Nested where
  opened := Nat.lt_of_lt_of_eq (Nat.lt_succ_of_lt h.opened) (nextScope_openScope table parent).symm
  root := by
    rw [parent?_openScope, if_neg (Nat.ne_of_lt h.opened)]
    exact h.root
  parent_lt := by
    intro scope hpos hscope
    rw [parent?_openScope]
    by_cases hnew : scope = table.nextScope
    · rw [if_pos hnew]
      exact ⟨parent, rfl, hnew ▸ hparent⟩
    · rw [if_neg hnew]
      rw [nextScope_openScope] at hscope
      exact h.parent_lt scope hpos (Nat.lt_of_le_of_ne (Nat.le_of_lt_succ hscope) hnew)

end Nested

namespace WellScoped

theorem initial : SymbolTable.initial.WellScoped where
  root := rfl
  id_eq := by
    intro i scope h
    obtain ⟨hi, rfl⟩ := List.getElem?_eq_some_iff.mp h
    cases Nat.lt_one_iff.mp hi
    rfl
  parent_lt := by
    intro i scope h hpos
    obtain ⟨hi, _⟩ := List.getElem?_eq_some_iff.mp h
    exact absurd (Nat.lt_one_iff.mp hi) (Nat.ne_of_gt hpos)
  scope_lt := fun _ he => absurd he List.not_mem_nil

/-- A scope is an older one or the one that was opened last. -/
private theorem getElem?_concat_cases {scopes : List Scope} {last scope : Scope} {i : Nat}
    (h : (scopes ++ [last])[i]? = some scope) :
    scopes[i]? = some scope ∨ (i = scopes.length ∧ scope = last) := by
  rcases Nat.lt_or_ge i scopes.length with hi | hi
  · rw [List.getElem?_append_left hi] at h
    exact Or.inl h
  · rw [List.getElem?_append_right hi] at h
    obtain ⟨hlast, rfl⟩ := List.getElem?_eq_some_iff.mp h
    have hzero : i - scopes.length = 0 := Nat.lt_one_iff.mp hlast
    refine Or.inr ⟨by omega, ?_⟩
    simp only [hzero, List.getElem_cons_zero]

theorem length_pos (h : table.WellScoped) : 0 < table.scopes.length :=
  (List.getElem?_eq_some_iff.mp h.root).1

theorem nested (h : table.WellScoped) : table.Nested where
  opened := h.length_pos
  root := congrArg (Option.bind · Scope.parent) h.root
  parent_lt := by
    intro scope hpos hscope
    have hfound := List.getElem?_eq_getElem hscope
    obtain ⟨parent, hparent, hlt⟩ := h.parent_lt scope _ hfound hpos
    refine ⟨parent, ?_, hlt⟩
    rw [parent?, hfound]
    exact hparent

theorem openScope (h : table.WellScoped) (hparent : parent < table.scopes.length) :
    (table.openScope parent).WellScoped where
  root := (List.getElem?_append_left h.length_pos).trans h.root
  id_eq := by
    intro i scope hscope
    rcases getElem?_concat_cases hscope with hold | ⟨rfl, rfl⟩
    · exact h.id_eq i scope hold
    · rfl
  parent_lt := by
    intro i scope hscope hpos
    rcases getElem?_concat_cases hscope with hold | ⟨rfl, rfl⟩
    · exact h.parent_lt i scope hold hpos
    · exact ⟨parent, rfl, hparent⟩
  scope_lt := by
    intro e he
    have hlt := h.scope_lt e he
    change e.scope < (table.scopes ++ [_]).length
    rw [List.length_append]
    exact Nat.lt_of_lt_of_le hlt (Nat.le_add_right _ _)

theorem append {e : SymbolEntry} (h : table.WellScoped) (hscope : e.scope < table.scopes.length) :
    WellScoped { table with declared := table.declared ++ [e] } where
  root := h.root
  id_eq := h.id_eq
  parent_lt := h.parent_lt
  scope_lt := by
    intro other hother
    rcases List.mem_append.mp hother with hold | hnew
    · exact h.scope_lt other hold
    · rw [List.mem_singleton.mp hnew]
      exact hscope

theorem resolves (h : table.WellScoped) (hscope : scope < table.scopes.length) :
    table.Resolves name scope (table.resolve scope name) :=
  h.nested.resolves hscope

end WellScoped

end TopDown.Toy.SymbolTable
