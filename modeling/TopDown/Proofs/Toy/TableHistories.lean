import Mathlib.Data.Finset.Card
import TopDown.Proofs.Sorting
import TopDown.Proofs.Toy.ScopeTrees

/-!
Histories of symbol tables. Scopes are opened and names declared in any order, under any scope and
in any scope, known or not. The first declaration of a name in a scope stays; a later one is
answered with it and changes nothing. So a table is told by the changes that were asked of it: what
a name stands for, how many names there are, and how they are listed.
-/
namespace TopDown.Toy

namespace SymbolEntry

/-- The scope and the name under which an entry is found. -/
def key (e : SymbolEntry) : ScopeId × String := (e.scope, e.name)

/-- By scope, and within a scope by name. -/
def Before (a b : SymbolEntry) : Prop :=
  a.scope < b.scope ∨ (a.scope = b.scope ∧ Text.before a.name b.name = true)

theorem notAfter_iff {a b : SymbolEntry} :
    a.notAfter b = true ↔
      ¬ Prod.Lex (· < ·) (fun a b => Text.before a b = true) b.key a.key := by
  rw [not_lex_iff]
  simp only [notAfter, Bool.or_eq_true, Bool.and_eq_true, decide_eq_true_eq, beq_iff_eq,
    Bool.not_eq_true', ← Bool.not_eq_true]
  exact Iff.rfl

end SymbolEntry

/-- A change that is asked of a symbol table. -/
inductive Change where
  | openScope (parent : ScopeId)
  | declare (e : SymbolEntry)
deriving DecidableEq, Repr

namespace Change

/-- What a change is answered with. -/
inductive Reply where
  | opened (scope : ScopeId)
  | declared
  | taken (existing : SymbolEntry)
deriving DecidableEq, Repr

/-- The key that a change declares. -/
def key? : Change → Option (ScopeId × String)
  | openScope _ => none
  | declare e => some e.key

/-- What a change declares for a name in a scope. -/
def introduced (scope : ScopeId) (name : String) : Change → Option SymbolEntry
  | openScope _ => none
  | declare e => if e.key = (scope, name) then some e else none

theorem key?_eq_some_iff {change : Change} {key : ScopeId × String} :
    change.key? = some key ↔ ∃ e, change = .declare e ∧ e.key = key := by
  cases change with
  | openScope parent => simp [key?]
  | declare e => simp [key?]

theorem introduced_eq_some_iff {scope : ScopeId} {name : String} {change : Change}
    {e : SymbolEntry} :
    change.introduced scope name = some e ↔ change = .declare e ∧ e.key = (scope, name) := by
  cases change with
  | openScope parent => simp [introduced]
  | declare other =>
    rw [introduced, Option.ite_none_right_eq_some, declare.injEq, Option.some.injEq]
    constructor
    · rintro ⟨hkey, rfl⟩
      exact ⟨rfl, hkey⟩
    · rintro ⟨rfl, hkey⟩
      exact ⟨hkey, rfl⟩

theorem introduced_eq_none_iff {scope : ScopeId} {name : String} {change : Change} :
    change.introduced scope name = none ↔ ∀ e, change = .declare e → e.key ≠ (scope, name) := by
  rw [← Option.not_isSome_iff_eq_none, Option.isSome_iff_exists, not_exists]
  exact forall_congr' fun e => by rw [introduced_eq_some_iff, not_and]

end Change

/-- A declaration that is the first among changes to declare its name in its scope. -/
def FirstDeclared (changes : List Change) (e : SymbolEntry) : Prop :=
  ∃ before later, changes = before ++ .declare e :: later ∧
    ∀ other, .declare other ∈ before → other.key ≠ e.key

namespace SymbolTable

/-- Makes a change, unless the name to be declared is taken. -/
def perform (table : SymbolTable) : Change → Change.Reply × SymbolTable
  | .openScope parent => (.opened table.nextScope, table.openScope parent)
  | .declare e =>
    match table.declare e with
    | .ok later => (.declared, later)
    | .error existing => (.taken existing, table)

/-- The table after changes, made one after the other. -/
def after (table : SymbolTable) (changes : List Change) : SymbolTable :=
  changes.foldl (fun table change => (table.perform change).2) table

/-- What changes have made of a fresh table, and what the next one would be answered with. -/
structure Records (table : SymbolTable) (changes : List Change) : Prop where
  local?_eq_some_iff : ∀ scope name e, table.local? scope name = some e ↔
    FirstDeclared changes e ∧ e.scope = scope ∧ e.name = name
  local?_eq_none_iff : ∀ scope name, table.local? scope name = none ↔
    ∀ e, .declare e ∈ changes → ¬(e.scope = scope ∧ e.name = name)
  /-- A name that is taken keeps its first declaration, and nothing is changed. -/
  taken : ∀ first e, FirstDeclared changes first → e.key = first.key →
    table.perform (.declare e) = (.taken first, table)
  free : ∀ e, (∀ other, .declare other ∈ changes → other.key ≠ e.key) →
    (table.perform (.declare e)).1 = .declared
  /-- A scope gets the number after those in use, and only its own parent is new. -/
  opened : ∀ parent, ∃ scope later, table.perform (.openScope parent) = (.opened scope, later) ∧
    table.scopes.map Scope.id = List.range scope ∧
    (∀ other, later.parent? other = if other = scope then some parent else table.parent? other) ∧
    (∀ other name, later.local? other name = table.local? other name) ∧
    later.entries = table.entries
  size_eq : table.size = (changes.filterMap Change.key?).toFinset.card
  mem_entries_iff : ∀ e, e ∈ table.entries ↔ FirstDeclared changes e
  ascending : table.entries.Pairwise SymbolEntry.Before

section Steps

variable {table : SymbolTable} {change : Change} {changes : List Change} {scope : ScopeId}
  {name : String} {e : SymbolEntry}

@[simp] theorem after_cons (table : SymbolTable) (change : Change) (changes : List Change) :
    table.after (change :: changes) = (table.perform change).2.after changes := rfl

theorem after_append (table : SymbolTable) (changes later : List Change) :
    table.after (changes ++ later) = (table.after changes).after later := List.foldl_append

/-- What a fresh table has and every change keeps holds after all of them. -/
theorem initial_after_induction {p : SymbolTable → Prop} (hinitial : p initial)
    (hstep : ∀ table change, p table → p (SymbolTable.perform table change).2)
    (changes : List Change) : p (initial.after changes) := by
  suffices h : ∀ table, p table → p (table.after changes) from h initial hinitial
  induction changes with
  | nil => exact fun _ htable => htable
  | cons change changes ih => exact fun table htable => ih _ (hstep table change htable)

theorem perform_declare_of_local? (h : table.local? e.scope e.name = none) :
    table.perform (.declare e) =
      (.declared, { table with declared := table.declared ++ [e] }) := by
  simp only [perform, declare, h]

theorem perform_declare_of_taken {existing : SymbolEntry}
    (h : table.local? e.scope e.name = some existing) :
    table.perform (.declare e) = (.taken existing, table) := by
  simp only [perform, declare, h]

theorem mem_of_local? (h : table.local? scope name = some e) :
    e ∈ table.declared ∧ e.key = (scope, name) := by
  unfold local? at h
  have hsame := of_decide_eq_true (List.find?_some (a := e) h)
  exact ⟨List.mem_of_find?_eq_some h, Prod.ext hsame.1 hsame.2⟩

theorem local?_append (table : SymbolTable) (e : SymbolEntry) (scope : ScopeId) (name : String) :
    local? { table with declared := table.declared ++ [e] } scope name =
      (table.local? scope name).or ((Change.declare e).introduced scope name) := by
  simp only [local?, List.find?_append, List.find?_singleton, Change.introduced, SymbolEntry.key,
    Prod.mk.injEq, decide_eq_true_eq]

/-- A change gives a name a declaration only if it has none. -/
theorem local?_perform (table : SymbolTable) (change : Change) (scope : ScopeId) (name : String) :
    (table.perform change).2.local? scope name =
      (table.local? scope name).or (change.introduced scope name) := by
  cases change with
  | openScope parent => exact (Option.or_none).symm
  | declare e =>
    cases hlocal : table.local? e.scope e.name with
    | none => rw [perform_declare_of_local? hlocal, local?_append]
    | some existing =>
      rw [perform_declare_of_taken hlocal, Change.introduced]
      by_cases hkey : e.key = (scope, name)
      · obtain ⟨rfl, rfl⟩ := Prod.mk.inj hkey
        rw [hlocal, Option.some_or]
      · rw [if_neg hkey, Option.or_none]

theorem local?_after (table : SymbolTable) (changes : List Change) (scope : ScopeId)
    (name : String) :
    (table.after changes).local? scope name =
      (table.local? scope name).or (changes.findSome? (Change.introduced scope name)) := by
  induction changes generalizing table with
  | nil => exact (Option.or_none).symm
  | cons change changes ih =>
    rw [after_cons, ih, local?_perform, Option.or_assoc, List.findSome?_cons]
    cases change.introduced scope name with
    | none => rw [Option.none_or]
    | some e => rw [Option.some_or]

theorem local?_initial_after (changes : List Change) (scope : ScopeId) (name : String) :
    (initial.after changes).local? scope name =
      changes.findSome? (Change.introduced scope name) := by
  rw [local?_after]
  exact Option.none_or

theorem local?_after_eq_some_iff :
    (initial.after changes).local? scope name = some e ↔
      FirstDeclared changes e ∧ e.scope = scope ∧ e.name = name := by
  rw [local?_initial_after, List.findSome?_eq_some_iff]
  constructor
  · rintro ⟨before, change, later, rfl, hintroduced, hbefore⟩
    obtain ⟨rfl, hkey⟩ := Change.introduced_eq_some_iff.mp hintroduced
    refine ⟨⟨before, later, rfl, fun other hother => ?_⟩, Prod.mk.inj hkey⟩
    rw [hkey]
    exact Change.introduced_eq_none_iff.mp (hbefore _ hother) other rfl
  · rintro ⟨⟨before, later, rfl, hbefore⟩, rfl, rfl⟩
    refine ⟨before, .declare e, later, rfl, Change.introduced_eq_some_iff.mpr ⟨rfl, rfl⟩, ?_⟩
    rintro change hchange
    refine Change.introduced_eq_none_iff.mpr ?_
    rintro other rfl
    exact hbefore other hchange

theorem local?_after_eq_none_iff :
    (initial.after changes).local? scope name = none ↔
      ∀ e, .declare e ∈ changes → ¬(e.scope = scope ∧ e.name = name) := by
  rw [local?_initial_after, List.findSome?_eq_none_iff]
  simp only [Change.introduced_eq_none_iff, SymbolEntry.key, ne_eq, Prod.mk.injEq]
  exact ⟨fun h e he => h _ he e rfl, fun h change hchange e heq => h e (heq ▸ hchange)⟩

end Steps

section Invariants

/-- No two declarations have one key. -/
def Distinct (table : SymbolTable) : Prop :=
  table.declared.Pairwise fun a b => a.key ≠ b.key

/-- Scopes are numbered from zero on. -/
def Numbered (table : SymbolTable) : Prop :=
  table.scopes.map Scope.id = List.range table.nextScope

variable {table : SymbolTable}

theorem Distinct.perform (h : table.Distinct) (change : Change) :
    (table.perform change).2.Distinct := by
  cases change with
  | openScope parent => exact h
  | declare e =>
    cases hlocal : table.local? e.scope e.name with
    | some existing =>
      rw [perform_declare_of_taken hlocal]
      exact h
    | none =>
      rw [perform_declare_of_local? hlocal]
      refine List.pairwise_append.mpr ⟨h, List.pairwise_singleton _ _, fun old hold new hnew => ?_⟩
      rw [List.mem_singleton.mp hnew]
      intro hkey
      exact List.find?_eq_none.mp hlocal old hold (decide_eq_true (Prod.mk.inj hkey))

theorem Numbered.perform (h : table.Numbered) (change : Change) :
    (table.perform change).2.Numbered := by
  cases change with
  | openScope parent =>
    change (table.scopes ++ [_]).map Scope.id = List.range (table.scopes ++ [_]).length
    rw [List.map_append, List.length_append, List.length_singleton, List.range_succ, h]
    rfl
  | declare e =>
    cases hlocal : table.local? e.scope e.name with
    | some existing =>
      rw [perform_declare_of_taken hlocal]
      exact h
    | none =>
      rw [perform_declare_of_local? hlocal]
      exact h

theorem distinct_after (changes : List Change) : (initial.after changes).Distinct :=
  initial_after_induction (p := Distinct) List.Pairwise.nil (fun _ change h => h.perform change)
    changes

theorem numbered_after (changes : List Change) : (initial.after changes).Numbered :=
  initial_after_induction (p := Numbered) rfl (fun _ change h => h.perform change) changes

/-- Every declaration is the one that its key finds. -/
theorem Distinct.mem_declared_iff (h : table.Distinct) {e : SymbolEntry} :
    e ∈ table.declared ↔ table.local? e.scope e.name = some e := by
  refine ⟨fun he => ?_, fun hlocal => (mem_of_local? hlocal).1⟩
  cases hlocal : table.local? e.scope e.name with
  | none => exact absurd (decide_eq_true ⟨rfl, rfl⟩) (List.find?_eq_none.mp hlocal e he)
  | some other =>
    obtain ⟨hother, hkey⟩ := mem_of_local? hlocal
    have hsymm : Std.Symm fun a b : SymbolEntry => a.key ≠ b.key := ⟨fun _ _ => Ne.symm⟩
    by_contra hne
    exact h.forall hother he (fun heq => hne (congrArg some heq)) hkey

theorem perm_entries (table : SymbolTable) : table.entries.Perm table.declared :=
  List.mergeSort_perm table.declared SymbolEntry.notAfter

theorem Distinct.pairwise_entries (h : table.Distinct) :
    table.entries.Pairwise SymbolEntry.Before := by
  have hascending := pairwise_mergeSort_key SymbolEntry.key (fun _ _ => SymbolEntry.notAfter_iff) h
  exact hascending.imp Prod.lex_iff.mp

theorem mem_declared_after_iff {changes : List Change} {e : SymbolEntry} :
    e ∈ (initial.after changes).declared ↔ FirstDeclared changes e := by
  rw [(distinct_after changes).mem_declared_iff, local?_after_eq_some_iff]
  exact and_iff_left ⟨rfl, rfl⟩

/-- A key that is declared has a first declaration. -/
theorem exists_firstDeclared {changes : List Change} {e : SymbolEntry}
    (he : .declare e ∈ changes) : ∃ first, FirstDeclared changes first ∧ first.key = e.key := by
  cases hlocal : (initial.after changes).local? e.scope e.name with
  | none => exact absurd ⟨rfl, rfl⟩ (local?_after_eq_none_iff.mp hlocal e he)
  | some first =>
    obtain ⟨hfirst, hscope, hname⟩ := local?_after_eq_some_iff.mp hlocal
    exact ⟨first, hfirst, Prod.ext hscope hname⟩

theorem size_after (changes : List Change) :
    (initial.after changes).size = (changes.filterMap Change.key?).toFinset.card := by
  have hnodup : ((initial.after changes).declared.map SymbolEntry.key).Nodup :=
    List.pairwise_map.mpr (distinct_after changes)
  have hkeys : ((initial.after changes).declared.map SymbolEntry.key).toFinset =
      (changes.filterMap Change.key?).toFinset := by
    ext key
    rw [List.mem_toFinset, List.mem_toFinset, List.mem_map, List.mem_filterMap]
    constructor
    · rintro ⟨e, he, rfl⟩
      obtain ⟨before, later, rfl, _⟩ := mem_declared_after_iff.mp he
      exact ⟨.declare e, List.mem_append_right _ List.mem_cons_self, rfl⟩
    · rintro ⟨change, hchange, hkey⟩
      obtain ⟨e, rfl, rfl⟩ := Change.key?_eq_some_iff.mp hkey
      obtain ⟨first, hfirst, hsame⟩ := exists_firstDeclared hchange
      exact ⟨first, mem_declared_after_iff.mpr hfirst, hsame⟩
  rw [← hkeys, List.toFinset_card_of_nodup hnodup, List.length_map]
  rfl

end Invariants

/-- After any changes a table finds the first declaration of each name in each scope and refuses all
others, numbers its scopes as they are opened, and lists every name that was declared once, in
order. -/
theorem records_after (changes : List Change) : (initial.after changes).Records changes where
  local?_eq_some_iff _ _ _ := local?_after_eq_some_iff
  local?_eq_none_iff _ _ := local?_after_eq_none_iff
  taken first e hfirst hkey := by
    obtain ⟨hscope, hname⟩ := Prod.mk.inj hkey
    exact perform_declare_of_taken
      (local?_after_eq_some_iff.mpr ⟨hfirst, hscope.symm, hname.symm⟩)
  free e hfree := by
    rw [perform_declare_of_local?]
    exact local?_after_eq_none_iff.mpr fun other hother hsame =>
      hfree other hother (Prod.ext hsame.1 hsame.2)
  opened parent := by
    refine ⟨_, _, rfl, numbered_after changes, parent?_openScope _ parent, fun _ _ => rfl, rfl⟩
  size_eq := size_after changes
  mem_entries_iff _ := (perm_entries _).mem_iff.trans mem_declared_after_iff
  ascending := (distinct_after changes).pairwise_entries

end SymbolTable

end TopDown.Toy
