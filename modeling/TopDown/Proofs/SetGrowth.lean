import TopDown.Follow

/-!
Passes that only add members to sets. Each item of a pass names the set it adds to and contributes
lookaheads that depend on the family as the earlier items have left it. The FIRST and the FOLLOW
passes are of this kind. While members come from a finite list, a pass that changes anything adds
to the total size, so the repetition settles within its bound; what it settles at holds every
contribution, and nothing that a family closed under the contributions lacks.
-/
namespace TopDown

namespace NameMap

variable {α : Type}

theorem get?_isSome_iff (m : NameMap α) (name : String) :
    (m.get? name).isSome ↔ name ∈ m.keys := by
  obtain ⟨entries⟩ := m
  simp only [get?, keys]
  induction entries with
  | nil => simp
  | cons entry rest ih =>
    obtain ⟨key, a⟩ := entry
    rw [lookup_cons_ite, List.map_cons, List.mem_cons, ← ih]
    by_cases h : name = key
    · rw [if_pos h]
      exact iff_of_true rfl (Or.inl h)
    · rw [if_neg h]
      exact (or_iff_right h).symm

theorem mem_entries_of_get? {m : NameMap α} {name : String} {a : α} (h : m.get? name = some a) :
    (name, a) ∈ m.entries := by
  obtain ⟨entries⟩ := m
  simp only [get?] at h
  induction entries with
  | nil => simp at h
  | cons entry rest ih =>
    obtain ⟨key, b⟩ := entry
    rw [lookup_cons_ite] at h
    by_cases hkey : name = key
    · rw [if_pos hkey, Option.some.injEq] at h
      subst hkey h
      exact List.mem_cons_self
    · rw [if_neg hkey] at h
      exact List.mem_cons_of_mem _ (ih h)

theorem keys_constant (names : List String) (a : α) : (constant names a).keys = names := by
  simp [keys, constant, Function.comp_def]

end NameMap

namespace LookaheadSet

theorem nodup (set : LookaheadSet) : set.toList.Nodup := by
  apply List.Pairwise.imp _ set.ascending
  intro a b hab heq
  subst heq
  exact Lookahead.lt_irrefl a hab

theorem size_le_of_subset {set : LookaheadSet} {pool : List Lookahead}
    (h : ∀ l ∈ set, l ∈ pool) : set.size ≤ pool.length :=
  set.nodup.length_le_of_subset h

/-- A union that brings anything new is larger. -/
theorem union_eq_or_size_lt (added set : LookaheadSet) :
    added ∪ set = set ∨ set.size < (added ∪ set).size := by
  by_cases h : ∀ l ∈ added, l ∈ set
  · left
    apply ext
    intro l
    rw [mem_union]
    exact ⟨fun hl => hl.elim (h l) fun hl => hl, Or.inr⟩
  · right
    simp only [Classical.not_forall] at h
    obtain ⟨l, hadded, hset⟩ := h
    have hnodup : (l :: set.toList).Nodup := List.nodup_cons.mpr ⟨hset, set.nodup⟩
    have hsubset : l :: set.toList ⊆ (added ∪ set).toList := by
      intro m hm
      rcases List.mem_cons.mp hm with rfl | hm
      · exact mem_union.mpr (Or.inl hadded)
      · exact mem_union.mpr (Or.inr hm)
    have hlength := hnodup.length_le_of_subset hsubset
    exact hlength

end LookaheadSet

namespace SetFamily

theorem foldl_size_eq (entries : List (String × LookaheadSet)) (count : Nat) :
    entries.foldl (fun count entry => count + entry.2.size) count = count + size ⟨entries⟩ := by
  unfold size
  induction entries generalizing count with
  | nil => rfl
  | cons entry rest ih =>
    simp only [List.foldl_cons]
    rw [ih (count + entry.2.size), ih (0 + entry.2.size)]
    omega

theorem size_cons (entry : String × LookaheadSet) (rest : List (String × LookaheadSet)) :
    size ⟨entry :: rest⟩ = entry.2.size + size ⟨rest⟩ := by
  have hfold := foldl_size_eq rest (0 + entry.2.size)
  rw [Nat.zero_add] at hfold
  simp only [size, List.foldl_cons] at hfold ⊢
  rw [Nat.zero_add, hfold]

/-- Every member of every set is among the given lookaheads. -/
def Inside (pool : List Lookahead) (sets : SetFamily) : Prop :=
  ∀ entry ∈ sets.entries, ∀ l ∈ entry.2, l ∈ pool

theorem Inside.size_le {pool : List Lookahead} {sets : SetFamily}
    (h : sets.Inside pool) : sets.size ≤ sets.keys.length * pool.length := by
  obtain ⟨entries⟩ := sets
  induction entries with
  | nil => simp [size]
  | cons entry rest ih =>
    have hentry : entry.2.size ≤ pool.length :=
      LookaheadSet.size_le_of_subset (h entry List.mem_cons_self)
    have hrest := ih fun e he => h e (List.mem_cons_of_mem _ he)
    have hlength : (NameMap.keys ⟨entry :: rest⟩ : List String).length =
        (NameMap.keys ⟨rest⟩ : List String).length + 1 := by simp [NameMap.keys]
    rw [size_cons, hlength, Nat.add_mul]
    omega

/-- A member of the set of a name is in an entry of the family. -/
theorem exists_entry_of_membersOf {sets : SetFamily} {name : String} {l : Lookahead}
    (hl : l ∈ sets.membersOf name) : ∃ entry ∈ sets.entries, l ∈ entry.2 := by
  unfold membersOf at hl
  cases hget : sets.get? name with
  | none =>
    rw [hget] at hl
    exact absurd hl (LookaheadSet.not_mem_empty l)
  | some set =>
    rw [hget] at hl
    exact ⟨(name, set), NameMap.mem_entries_of_get? hget, hl⟩

theorem Inside.of_membersOf {pool : List Lookahead} {sets : SetFamily}
    (h : sets.Inside pool) {name : String} {l : Lookahead} (hl : l ∈ sets.membersOf name) :
    l ∈ pool := by
  obtain ⟨entry, hentry, hmem⟩ := exists_entry_of_membersOf hl
  exact h entry hentry l hmem

theorem mem_membersOf_constant_empty (names : List String) (name : String) (l : Lookahead) :
    l ∉ membersOf (.constant names ∅) name := by
  rw [membersOf, NameMap.get?_constant]
  split <;> exact LookaheadSet.not_mem_empty l

/-- Adds lookaheads to the set of a name, if the family has one for it. -/
def addTo (sets : SetFamily) (name : String) (added : LookaheadSet) : SetFamily :=
  sets.modify name fun set => added ∪ set

theorem mem_membersOf_addTo {sets : SetFamily} {name other : String} {added : LookaheadSet}
    {l : Lookahead} :
    l ∈ (sets.addTo name added).membersOf other ↔
      l ∈ sets.membersOf other ∨ (other = name ∧ name ∈ sets.keys ∧ l ∈ added) := by
  simp only [membersOf, addTo, NameMap.get?_modify]
  by_cases hname : other = name
  · subst hname
    rw [if_pos rfl, ← NameMap.get?_isSome_iff]
    cases hget : sets.get? other with
    | none => simp
    | some set =>
      simp only [Option.map_some, Option.getD_some, Option.isSome_some, true_and,
        LookaheadSet.mem_union]
      exact Or.comm
  · rw [if_neg hname]
    simp [hname]

theorem keys_addTo (sets : SetFamily) (name : String) (added : LookaheadSet) :
    (sets.addTo name added).keys = sets.keys := NameMap.keys_modify sets name _

theorem Inside.addTo {pool : List Lookahead} {sets : SetFamily} (h : sets.Inside pool)
    {name : String} {added : LookaheadSet} (hadded : ∀ l ∈ added, l ∈ pool) :
    (sets.addTo name added).Inside pool := by
  intro entry hentry l hl
  obtain ⟨before, hbefore, rfl⟩ := List.mem_map.mp hentry
  by_cases hname : before.1 = name
  · rw [if_pos hname] at hl
    rcases LookaheadSet.mem_union.mp hl with hl | hl
    · exact hadded l hl
    · exact h before hbefore l hl
  · rw [if_neg hname] at hl
    exact h before hbefore l hl

theorem addTo_eq_or_size_lt (sets : SetFamily) (name : String) (added : LookaheadSet) :
    sets.addTo name added = sets ∨ sets.size < (sets.addTo name added).size := by
  obtain ⟨entries⟩ := sets
  simp only [addTo, NameMap.modify]
  induction entries with
  | nil => exact Or.inl rfl
  | cons entry rest ih =>
    obtain ⟨key, set⟩ := entry
    have hhead : (if key = name then (key, added ∪ set) else (key, set)) = (key, set) ∨
        set.size < (if key = name then (key, added ∪ set) else (key, set)).2.size := by
      by_cases hkey : key = name
      · rw [if_pos hkey]
        rcases LookaheadSet.union_eq_or_size_lt added set with heq | hlt
        · exact Or.inl (by rw [heq])
        · exact Or.inr hlt
      · exact Or.inl (if_neg hkey)
    simp only [List.map_cons, size_cons]
    rcases hhead with hhead | hhead
    · rcases ih with ih | ih
      · left
        rw [hhead, NameMap.mk.inj ih]
      · right
        rw [hhead]
        exact Nat.add_lt_add_left ih _
    · right
      rcases ih with ih | ih
      · rw [NameMap.mk.inj ih]
        exact Nat.add_lt_add_right hhead _
      · exact Nat.add_lt_add hhead ih

section Scan

variable {ι : Type} (target : ι → String) (contribution : SetFamily → ι → LookaheadSet)

/-- One pass over the items, each adding its contribution to its target's set. -/
def scan (items : List ι) (sets : SetFamily) : SetFamily :=
  items.foldl (fun sets i => sets.addTo (target i) (contribution sets i)) sets

variable {target contribution}

theorem keys_scan (items : List ι) (sets : SetFamily) :
    (scan target contribution items sets).keys = sets.keys := by
  induction items generalizing sets with
  | nil => rfl
  | cons i rest ih => exact (ih _).trans (keys_addTo sets _ _)

/-- What every contribution to a family keeps, the pass keeps. -/
theorem scan_induction {P : SetFamily → Prop} {items : List ι}
    (hstep : ∀ i ∈ items, ∀ sets, P sets → P (sets.addTo (target i) (contribution sets i)))
    {sets : SetFamily} (h : P sets) : P (scan target contribution items sets) := by
  induction items generalizing sets with
  | nil => exact h
  | cons i rest ih =>
    exact ih (fun j hj => hstep j (List.mem_cons_of_mem _ hj))
      (hstep i List.mem_cons_self sets h)

theorem scan_eq_or_size_lt (items : List ι) (sets : SetFamily) :
    scan target contribution items sets = sets ∨
      sets.size < (scan target contribution items sets).size := by
  induction items generalizing sets with
  | nil => exact Or.inl rfl
  | cons i rest ih =>
    have hhead := addTo_eq_or_size_lt sets (target i) (contribution sets i)
    have hrest := ih (sets.addTo (target i) (contribution sets i))
    change scan target contribution rest (sets.addTo (target i) (contribution sets i)) = sets ∨
      sets.size <
        (scan target contribution rest (sets.addTo (target i) (contribution sets i))).size
    rcases hhead with hhead | hhead
    · rw [hhead] at hrest ⊢
      exact hrest
    · right
      rcases hrest with hrest | hrest
      · rw [hrest]
        exact hhead
      · exact Nat.lt_trans hhead hrest

/-- A pass that changes nothing has found every contribution in place. -/
theorem contribution_mem_of_scan_eq {items : List ι} {sets : SetFamily}
    (h : scan target contribution items sets = sets) {i : ι} (hi : i ∈ items)
    (hkey : target i ∈ sets.keys) {l : Lookahead} (hl : l ∈ contribution sets i) :
    l ∈ sets.membersOf (target i) := by
  induction items with
  | nil => exact absurd hi List.not_mem_nil
  | cons j rest ih =>
    have hhead := addTo_eq_or_size_lt sets (target j) (contribution sets j)
    have hrest :
        scan target contribution rest (sets.addTo (target j) (contribution sets j)) =
            sets.addTo (target j) (contribution sets j) ∨
          (sets.addTo (target j) (contribution sets j)).size <
            (scan target contribution rest (sets.addTo (target j) (contribution sets j))).size :=
      scan_eq_or_size_lt rest _
    change scan target contribution rest (sets.addTo (target j) (contribution sets j)) = sets at h
    rw [h] at hrest
    have hsame : sets.addTo (target j) (contribution sets j) = sets := by
      rcases hhead with hhead | hhead
      · exact hhead
      · rcases hrest with hrest | hrest
        · exact hrest.symm
        · omega
    rw [hsame] at h
    rcases List.mem_cons.mp hi with rfl | hi
    · rw [← hsame, mem_membersOf_addTo]
      exact Or.inr ⟨rfl, hkey, hl⟩
    · exact ih h hi

/-- The repetition ends by itself, at a family that a further pass leaves alone, provided that the
bound exceeds what the sets can hold. -/
theorem scan_settles {items : List ι} (pool : List Lookahead) {start : SetFamily} {bound : Nat}
    (hitems : ∀ sets : SetFamily, sets.Inside pool → ∀ i ∈ items,
      ∀ l ∈ contribution sets i, l ∈ pool)
    (hstart : start.Inside pool) (hbound : start.keys.length * pool.length < bound) :
    Settles (scan target contribution items) start
      (settle (scan target contribution items) bound start).value
      (settle (scan target contribution items) bound start).passes := by
  refine settles_settle (P := fun sets => sets.Inside pool ∧ sets.keys = start.keys) ?_ size bound
    (start.keys.length * pool.length) ?_ ?_ ?_ ?_
  · intro sets hkept
    obtain ⟨hinside, hkeys⟩ := hkept
    refine ⟨?_, (keys_scan items sets).trans hkeys⟩
    exact scan_induction (P := Inside pool)
      (fun i hi sets hsets => hsets.addTo (hitems sets hsets i hi)) hinside
  · intro sets hkept
    obtain ⟨hinside, hkeys⟩ := hkept
    rw [← hkeys]
    exact hinside.size_le
  · intro sets _ hne
    exact (scan_eq_or_size_lt items sets).resolve_left hne
  · exact ⟨hstart, rfl⟩
  · omega

/-- Nothing gets into the sets that a bound closed under the contributions does not allow. -/
theorem settle_within {items : List ι} (allowed : String → Lookahead → Prop) {start : SetFamily}
    (bound : Nat)
    (hitems : ∀ sets : SetFamily, (∀ name, ∀ l ∈ sets.membersOf name, allowed name l) →
      ∀ i ∈ items, ∀ l ∈ contribution sets i, allowed (target i) l)
    (hstart : ∀ name, ∀ l ∈ start.membersOf name, allowed name l) :
    ∀ name, ∀ l ∈ (settle (scan target contribution items) bound start).value.membersOf name,
      allowed name l := by
  apply settle_induction (P := fun sets : SetFamily =>
    ∀ name, ∀ l ∈ sets.membersOf name, allowed name l) _ bound hstart
  intro sets hsets
  apply scan_induction (P := fun sets : SetFamily =>
    ∀ name, ∀ l ∈ sets.membersOf name, allowed name l) _ hsets
  intro i hi sets hsets name l hl
  rcases mem_membersOf_addTo.mp hl with hl | ⟨rfl, _, hl⟩
  · exact hsets name l hl
  · exact hitems sets hsets i hi l hl

theorem keys_settle (items : List ι) (bound : Nat) (start : SetFamily) :
    (settle (scan target contribution items) bound start).value.keys = start.keys :=
  settle_induction (P := fun sets : SetFamily => sets.keys = start.keys)
    (fun sets h => (keys_scan items sets).trans h) bound rfl

end Scan

end SetFamily

end TopDown
