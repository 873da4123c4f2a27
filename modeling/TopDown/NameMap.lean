/-!
Finite maps from names. A name has at most one value, names keep the order in which they were first
given a value, and changing a value moves nothing.
-/
namespace TopDown

structure NameMap (α : Type) where
  entries : List (String × α)
deriving DecidableEq, Repr, Inhabited

namespace NameMap

variable {α : Type}

def empty : NameMap α := ⟨[]⟩

def keys (m : NameMap α) : List String := m.entries.map (·.1)

def get? (m : NameMap α) (name : String) : Option α := m.entries.lookup name

def contains (m : NameMap α) (name : String) : Bool := (m.get? name).isSome

/-- Every name of the list, each with the same value. -/
def constant (names : List String) (a : α) : NameMap α := ⟨names.map fun name => (name, a)⟩

def replaceOrAppend (name : String) (a : α) : List (String × α) → List (String × α)
  | [] => [(name, a)]
  | entry :: rest =>
    if entry.1 = name then (name, a) :: rest else entry :: replaceOrAppend name a rest

def insert (m : NameMap α) (name : String) (a : α) : NameMap α :=
  ⟨replaceOrAppend name a m.entries⟩

/-- A later pair for the same name wins. -/
def ofList (pairs : List (String × α)) : NameMap α :=
  pairs.foldl (fun m pair => m.insert pair.1 pair.2) empty

/-- Changes the value of a name that has one. -/
def modify (m : NameMap α) (name : String) (f : α → α) : NameMap α :=
  ⟨m.entries.map fun entry => if entry.1 = name then (entry.1, f entry.2) else entry⟩

theorem lookup_cons_ite (key : String) (a : α) (rest : List (String × α)) (name : String) :
    ((key, a) :: rest).lookup name = if name = key then some a else rest.lookup name := by
  rw [List.lookup_cons]
  by_cases h : name = key
  · rw [beq_iff_eq.2 h, if_pos h]
  · rw [beq_false_of_ne h, if_neg h]

theorem keys_modify (m : NameMap α) (name : String) (f : α → α) :
    (m.modify name f).keys = m.keys := by
  simp only [keys, modify, List.map_map]
  apply List.map_congr_left
  intro entry _
  by_cases h : entry.1 = name <;> simp [h]

theorem get?_modify (m : NameMap α) (name : String) (f : α → α) (other : String) :
    (m.modify name f).get? other =
      if other = name then (m.get? other).map f else m.get? other := by
  cases m with
  | mk entries =>
    simp only [get?, modify]
    induction entries with
    | nil => by_cases h : other = name <;> simp [h]
    | cons entry rest ih =>
      obtain ⟨key, a⟩ := entry
      by_cases hk : key = name <;> simp only [List.map_cons, hk, if_true, if_false,
        lookup_cons_ite, ih] <;> split <;> simp_all

theorem get?_insert (m : NameMap α) (name : String) (a : α) (other : String) :
    (m.insert name a).get? other = if other = name then some a else m.get? other := by
  cases m with
  | mk entries =>
    simp only [get?, insert]
    induction entries with
    | nil => simp [replaceOrAppend, lookup_cons_ite]
    | cons entry rest ih =>
      obtain ⟨key, b⟩ := entry
      by_cases hk : key = name <;> simp only [replaceOrAppend, hk, if_true, if_false,
        lookup_cons_ite, ih] <;> grind

theorem get?_constant (names : List String) (a : α) (name : String) :
    (constant names a).get? name = if name ∈ names then some a else none := by
  simp only [get?, constant]
  induction names with
  | nil => simp
  | cons key rest ih => simp only [List.map_cons, lookup_cons_ite, ih, List.mem_cons]; grind

end NameMap

end TopDown
