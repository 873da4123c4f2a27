import TopDown.Proofs.Toy.TableHistories

/-!
Lookups along the chain of scopes. When every scope is opened under one that exists by then, a
lookup from any scope goes from scope to parent down to the global one and ends with the declaration
of the nearest scope that has the name. What comes later cannot change its answer, unless it
declares that name nearer than the answer.
-/
namespace TopDown.Toy.SymbolTable

/-- Every scope is opened under one that exists by then. -/
def Nests : SymbolTable → List Change → Prop
  | _, [] => True
  | table, .openScope parent :: later =>
    parent < table.nextScope ∧ Nests (table.openScope parent) later
  | table, .declare e :: later => Nests (table.perform (.declare e)).2 later

variable {table : SymbolTable} {changes later : List Change} {chain : List ScopeId}
  {scope : ScopeId} {name : String}

theorem scopes_perform_declare (table : SymbolTable) (e : SymbolEntry) :
    (table.perform (.declare e)).2.scopes = table.scopes := by
  cases hlocal : table.local? e.scope e.name with
  | none => rw [perform_declare_of_local? hlocal]
  | some existing => rw [perform_declare_of_taken hlocal]

theorem parent?_perform_declare (table : SymbolTable) (e : SymbolEntry) (scope : ScopeId) :
    (table.perform (.declare e)).2.parent? scope = table.parent? scope := by
  rw [parent?, parent?, scopes_perform_declare]

theorem nextScope_perform_declare (table : SymbolTable) (e : SymbolEntry) :
    (table.perform (.declare e)).2.nextScope = table.nextScope := by
  rw [nextScope, nextScope, scopes_perform_declare]

theorem Nested.perform_declare (h : table.Nested) (e : SymbolEntry) :
    (table.perform (.declare e)).2.Nested where
  opened := (nextScope_perform_declare table e).symm ▸ h.opened
  root := (parent?_perform_declare table e globalScope).trans h.root
  parent_lt := by
    intro scope hpos hscope
    rw [nextScope_perform_declare] at hscope
    rw [parent?_perform_declare]
    exact h.parent_lt scope hpos hscope

theorem Nested.after (h : table.Nested) (hchanges : table.Nests changes) :
    (table.after changes).Nested := by
  induction changes generalizing table with
  | nil => exact h
  | cons change changes ih =>
    cases change with
    | openScope parent => exact ih (h.openScope hchanges.1) hchanges.2
    | declare e => exact ih (h.perform_declare e) hchanges

theorem nested_initial : initial.Nested := WellScoped.initial.nested

/-- A change keeps the scopes there are and their parents. -/
theorem perform_keeps (table : SymbolTable) (change : Change) :
    table.nextScope ≤ (table.perform change).2.nextScope ∧
      ∀ scope, scope < table.nextScope →
        (table.perform change).2.parent? scope = table.parent? scope := by
  cases change with
  | openScope parent =>
    refine ⟨Nat.le_of_lt (Nat.lt_of_lt_of_eq (Nat.lt_succ_self _)
      (nextScope_openScope table parent).symm), fun scope hscope => ?_⟩
    exact (parent?_openScope table parent scope).trans (if_neg (Nat.ne_of_lt hscope))
  | declare e =>
    exact ⟨Nat.le_of_eq (nextScope_perform_declare table e).symm,
      fun scope _ => parent?_perform_declare table e scope⟩

theorem after_keeps (table : SymbolTable) (changes : List Change) :
    table.nextScope ≤ (table.after changes).nextScope ∧
      ∀ scope, scope < table.nextScope →
        (table.after changes).parent? scope = table.parent? scope := by
  induction changes generalizing table with
  | nil => exact ⟨Nat.le_refl _, fun _ _ => rfl⟩
  | cons change changes ih =>
    obtain ⟨hle, hparent⟩ := table.perform_keeps change
    obtain ⟨hle', hparent'⟩ := ih (table.perform change).2
    exact ⟨Nat.le_trans hle hle', fun scope hscope =>
      (hparent' scope (Nat.lt_of_lt_of_le hscope hle)).trans (hparent scope hscope)⟩

/-- What a scope has for a name stays when the name is not declared there later. -/
theorem local?_after_of_not_declared
    (h : ∀ e, .declare e ∈ later → e.name = name → e.scope ≠ scope) :
    (table.after later).local? scope name = table.local? scope name := by
  have hnone : later.findSome? (Change.introduced scope name) = none := by
    refine List.findSome?_eq_none_iff.mpr fun change hchange => ?_
    refine Change.introduced_eq_none_iff.mpr ?_
    rintro e rfl hkey
    obtain ⟨hscope, hname⟩ := Prod.mk.inj hkey
    exact h e hchange hname hscope
  rw [local?_after, hnone, Option.or_none]

theorem local?_after_of_some {e : SymbolEntry} (h : table.local? scope name = some e) :
    (table.after later).local? scope name = some e := by
  rw [local?_after, h, Option.some_or]

theorem findSome?_after {scopes : List ScopeId}
    (h : ∀ e, .declare e ∈ later → e.name = name → e.scope ∉ scopes) :
    (scopes.findSome? fun scope => (table.after later).local? scope name) =
      scopes.findSome? fun scope => table.local? scope name := by
  induction scopes with
  | nil => rfl
  | cons scope scopes ih =>
    have hscope : (table.after later).local? scope name = table.local? scope name :=
      local?_after_of_not_declared fun e he hname heq => h e he hname (heq ▸ List.mem_cons_self)
    rw [List.findSome?_cons, List.findSome?_cons, hscope,
      ih fun e he hname hmem => h e he hname (List.mem_cons_of_mem _ hmem)]

/-- The scopes around an opened scope, from the nearest one to the global one. -/
structure Enclosing (table : SymbolTable) (scope : ScopeId) (around : List ScopeId) : Prop where
  chain : table.Chain scope around
  global : around.getLast? = some globalScope
  opened : ∀ other ∈ around, other < table.nextScope
  length_le : around.length ≤ table.nextScope

theorem Nested.exists_enclosing (h : table.Nested) (hscope : scope < table.nextScope) :
    ∃ chain, table.Enclosing scope chain := by
  obtain ⟨chain, hchain, hlast, hlength, hle⟩ := h.exists_chain hscope
  exact ⟨chain, hchain, hlast, fun other hother => Nat.lt_of_le_of_lt (hle other hother) hscope,
    Nat.le_trans hlength hscope⟩

namespace Enclosing

theorem resolve_eq (h : table.Enclosing scope chain) (name : String) :
    table.resolve scope name = chain.findSome? fun other => table.local? other name :=
  h.chain.resolve_eq (Nat.le_succ_of_le h.length_le)

/-- Changes add no scopes between opened ones. -/
theorem after (h : table.Enclosing scope chain) (later : List Change) :
    (table.after later).Enclosing scope chain := by
  obtain ⟨hle, hparent⟩ := table.after_keeps later
  exact ⟨h.chain.congr fun other hother => hparent other (h.opened other hother), h.global,
    fun other hother => Nat.lt_of_lt_of_le (h.opened other hother) hle,
    Nat.le_trans h.length_le hle⟩

theorem resolve_after_of_not_declared (h : table.Enclosing scope chain)
    (hlater : ∀ e, .declare e ∈ later → e.name = name → e.scope ∉ chain) :
    (table.after later).resolve scope name = table.resolve scope name := by
  rw [(h.after later).resolve_eq, h.resolve_eq, findSome?_after hlater]

/-- A scope that has the name hides all that is declared farther out. -/
theorem resolve_after_of_hidden {inner outer : List ScopeId} {e : SymbolEntry}
    (h : table.Enclosing scope (inner ++ e.scope :: outer))
    (hlocal : (table.local? e.scope name).isSome = true)
    (hlater : ∀ other, .declare other ∈ later → other.name = name → other.scope ∉ inner) :
    (table.after later).resolve scope name = table.resolve scope name := by
  obtain ⟨first, hfirst⟩ := Option.isSome_iff_exists.mp hlocal
  rw [(h.after later).resolve_eq, h.resolve_eq, List.findSome?_append, List.findSome?_append,
    findSome?_after hlater, List.findSome?_cons, List.findSome?_cons, hfirst,
    local?_after_of_some hfirst]

variable {e : SymbolEntry}

theorem resolve_eq_some_iff (h : (initial.after changes).Enclosing scope chain) :
    (initial.after changes).resolve scope name = some e ↔
      ∃ inner outer, chain = inner ++ e.scope :: outer ∧ FirstDeclared changes e ∧
        e.name = name ∧
        ∀ other, .declare other ∈ changes → other.name = name → other.scope ∉ inner := by
  rw [h.resolve_eq, List.findSome?_eq_some_iff]
  constructor
  · rintro ⟨inner, nearest, outer, rfl, hlocal, hinner⟩
    obtain ⟨hfirst, rfl, hname⟩ := local?_after_eq_some_iff.mp hlocal
    refine ⟨inner, outer, rfl, hfirst, hname, fun other hother hname' hmem => ?_⟩
    exact local?_after_eq_none_iff.mp (hinner _ hmem) other hother ⟨rfl, hname'⟩
  · rintro ⟨inner, outer, rfl, hfirst, hname, hinner⟩
    refine ⟨inner, e.scope, outer, rfl, local?_after_eq_some_iff.mpr ⟨hfirst, rfl, hname⟩,
      fun near hnear => ?_⟩
    refine local?_after_eq_none_iff.mpr ?_
    rintro other hother ⟨rfl, hname'⟩
    exact hinner other hother hname' hnear

theorem resolve_eq_none_iff (h : (initial.after changes).Enclosing scope chain) :
    (initial.after changes).resolve scope name = none ↔
      ∀ e, .declare e ∈ changes → e.name = name → e.scope ∉ chain := by
  rw [h.resolve_eq, List.findSome?_eq_none_iff]
  simp only [local?_after_eq_none_iff]
  exact ⟨fun hnone e he hname hmem => hnone e.scope hmem e he ⟨rfl, hname⟩,
    fun hnone other hother e he hsame => hnone e he hsame.2 (hsame.1 ▸ hother)⟩

end Enclosing

/-- A lookup from an opened scope ends, with the first declaration of the name in the nearest scope
that has one, and without any just when no scope from there to the global one has one. What is
opened or declared later does not change the answer as long as the name is not declared in these
scopes, or only behind one that has it. -/
theorem resolve_nearest (hnests : initial.Nests changes)
    (hscope : scope < (initial.after changes).nextScope) (name : String) :
    (initial.after changes).Resolves name scope ((initial.after changes).resolve scope name) ∧
      ∃ chain, (initial.after changes).Chain scope chain ∧ chain.getLast? = some globalScope ∧
        (∀ e, (initial.after changes).resolve scope name = some e ↔
          ∃ inner outer, chain = inner ++ e.scope :: outer ∧ FirstDeclared changes e ∧
            e.name = name ∧
            ∀ other, .declare other ∈ changes → other.name = name → other.scope ∉ inner) ∧
        ((initial.after changes).resolve scope name = none ↔
          ∀ e, .declare e ∈ changes → e.name = name → e.scope ∉ chain) ∧
        (∀ later, (∀ e, .declare e ∈ later → e.name = name → e.scope ∉ chain) →
          (initial.after (changes ++ later)).resolve scope name =
            (initial.after changes).resolve scope name) ∧
        ∀ inner outer e later, chain = inner ++ e.scope :: outer → .declare e ∈ changes →
          e.name = name →
          (∀ other, .declare other ∈ later → other.name = name → other.scope ∉ inner) →
          (initial.after (changes ++ later)).resolve scope name =
            (initial.after changes).resolve scope name := by
  have hnested : (initial.after changes).Nested := nested_initial.after hnests
  obtain ⟨chain, hchain⟩ := hnested.exists_enclosing hscope
  refine ⟨hnested.resolves hscope, chain, hchain.chain, hchain.global,
    fun e => hchain.resolve_eq_some_iff, hchain.resolve_eq_none_iff, fun later hlater => ?_, ?_⟩
  · rw [after_append]
    exact hchain.resolve_after_of_not_declared hlater
  · rintro inner outer e later rfl he rfl hlater
    rw [after_append]
    refine hchain.resolve_after_of_hidden ?_ hlater
    rw [Option.isSome_iff_ne_none]
    exact fun hnone => local?_after_eq_none_iff.mp hnone e he ⟨rfl, rfl⟩

section Shadows

/-- A function's scope with a scope inside it. The function's scope declares a name of the global
scope again, and so does a scope that was never opened. -/
def shadowing : List Change :=
  [.openScope globalScope, .declare ⟨"a", .int, 0, 1, 1⟩, .declare ⟨"b", .char, 0, 1, 5⟩,
    .openScope 1, .declare ⟨"a", .void, 7, 2, 1⟩, .declare ⟨"a", .float, 1, 2, 5⟩,
    .declare ⟨"a", .char, 1, 3, 1⟩]

theorem resolve_nearest_shadowing :
    initial.Nests shadowing ∧ 2 < (initial.after shadowing).nextScope ∧
      (initial.after shadowing).resolve 2 "a" = some ⟨"a", .float, 1, 2, 5⟩ := by
  have hnests : initial.Nests shadowing := ⟨by decide, by decide, trivial⟩
  have hscope : 2 < (initial.after shadowing).nextScope := by decide
  obtain ⟨_, chain, hchain, _, hsome, _⟩ := resolve_nearest hnests hscope "a"
  have htwo : (initial.after shadowing).Chain 2 [2, 1, 0] :=
    .enclosing (by decide) (.enclosing (by decide) (.outermost (by decide)))
  obtain rfl := htwo.unique hchain
  have hinner : (initial.after shadowing).local? 2 "a" = none := by decide
  have hmiddle : (initial.after shadowing).local? 1 "a" = some ⟨"a", .float, 1, 2, 5⟩ := by decide
  refine ⟨hnests, hscope, (hsome _).mpr ⟨[2], [0], rfl, ?_, rfl, fun other hother hname hmem => ?_⟩⟩
  · exact (local?_after_eq_some_iff.mp hmiddle).1
  · exact local?_after_eq_none_iff.mp hinner other hother ⟨List.mem_singleton.mp hmem, hname⟩

end Shadows

end TopDown.Toy.SymbolTable
