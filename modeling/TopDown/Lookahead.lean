import TopDown.Text.Order

/-!
Lookaheads and finite sets of them. A lookahead is a terminal or one of two markers: the empty word,
for what may vanish, and the end of the input. A set is a strictly ascending list, so two sets with
the same members are equal.
-/
namespace TopDown

inductive Lookahead where
  | epsilon
  | endOfInput
  | terminal (name : String)
deriving DecidableEq, Repr, Inhabited

namespace Lookahead

/-- The empty word comes first, then the end of the input, then the terminals by name. -/
def before : Lookahead → Lookahead → Bool
  | epsilon, epsilon => false
  | epsilon, _ => true
  | endOfInput, terminal _ => true
  | endOfInput, _ => false
  | terminal a, terminal b => Text.before a b
  | terminal _, _ => false

instance : LT Lookahead := ⟨fun a b => before a b = true⟩

instance (a b : Lookahead) : Decidable (a < b) := inferInstanceAs (Decidable (before a b = true))

theorem lt_irrefl (a : Lookahead) : ¬ a < a := by
  change ¬ before a a = true
  cases a with
  | epsilon => exact Bool.false_ne_true
  | endOfInput => exact Bool.false_ne_true
  | terminal a => exact Bool.eq_false_iff.1 (Text.before_irrefl a)

theorem lt_trans {a b c : Lookahead} (hab : a < b) (hbc : b < c) : a < c := by
  change before a b = true at hab
  change before b c = true at hbc
  change before a c = true
  cases a <;> cases b <;> cases c <;> first
    | rfl
    | exact absurd hab Bool.false_ne_true
    | exact absurd hbc Bool.false_ne_true
    | exact Text.before_trans hab hbc

theorem eq_of_not_lt {a b : Lookahead} (hab : ¬ a < b) (hba : ¬ b < a) : a = b := by
  change ¬ before a b = true at hab
  change ¬ before b a = true at hba
  cases a <;> cases b <;> first
    | rfl
    | exact absurd rfl hab
    | exact absurd rfl hba
    | exact congrArg _ (Text.eq_of_not_before (Bool.eq_false_iff.2 hab) (Bool.eq_false_iff.2 hba))

def render : Lookahead → String
  | epsilon => "ε"
  | endOfInput => "$"
  | terminal name => name

end Lookahead

structure LookaheadSet where
  toList : List Lookahead
  ascending : toList.Pairwise (· < ·) := by simp
deriving DecidableEq, Repr

namespace LookaheadSet

def empty : LookaheadSet := ⟨[], List.Pairwise.nil⟩

instance : Inhabited LookaheadSet := ⟨empty⟩

instance : EmptyCollection LookaheadSet := ⟨empty⟩

instance : Membership Lookahead LookaheadSet := ⟨fun set l => l ∈ set.toList⟩

instance (l : Lookahead) (set : LookaheadSet) : Decidable (l ∈ set) :=
  inferInstanceAs (Decidable (l ∈ set.toList))

def insertSorted (l : Lookahead) : List Lookahead → List Lookahead
  | [] => [l]
  | m :: rest =>
    if l < m then l :: m :: rest
    else if m < l then m :: insertSorted l rest
    else m :: rest

theorem mem_insertSorted {l m : Lookahead} {members : List Lookahead} :
    m ∈ insertSorted l members ↔ m = l ∨ m ∈ members := by
  induction members with
  | nil => simp [insertSorted]
  | cons n rest ih =>
    simp only [insertSorted]
    split
    · simp
    · split
      · simp only [List.mem_cons, ih]
        grind
      · rename_i hln hnl
        have := Lookahead.eq_of_not_lt hln hnl
        grind

theorem insertSorted_ascending {l : Lookahead} {members : List Lookahead}
    (h : members.Pairwise (· < ·)) : (insertSorted l members).Pairwise (· < ·) := by
  induction members with
  | nil => simp [insertSorted]
  | cons n rest ih =>
    obtain ⟨hn, hrest⟩ := List.pairwise_cons.1 h
    simp only [insertSorted]
    split
    · rename_i hln
      refine List.pairwise_cons.2 ⟨?_, h⟩
      intro m hm
      rcases List.mem_cons.1 hm with rfl | hm
      · exact hln
      · exact Lookahead.lt_trans hln (hn m hm)
    · split
      · rename_i hnl
        refine List.pairwise_cons.2 ⟨?_, ih hrest⟩
        intro m hm
        rcases mem_insertSorted.1 hm with rfl | hm
        · exact hnl
        · exact hn m hm
      · exact h

def insert (l : Lookahead) (set : LookaheadSet) : LookaheadSet :=
  ⟨insertSorted l set.toList, insertSorted_ascending set.ascending⟩

def singleton (l : Lookahead) : LookaheadSet := insert l ∅

def ofList (members : List Lookahead) : LookaheadSet := members.foldr insert ∅

def union (a b : LookaheadSet) : LookaheadSet := a.toList.foldr insert b

instance : Union LookaheadSet := ⟨union⟩

def erase (set : LookaheadSet) (l : Lookahead) : LookaheadSet :=
  ⟨set.toList.filter (· ≠ l), set.ascending.filter _⟩

def size (set : LookaheadSet) : Nat := set.toList.length

theorem not_mem_empty (l : Lookahead) : ¬ l ∈ (∅ : LookaheadSet) := List.not_mem_nil

theorem mem_insert {l m : Lookahead} {set : LookaheadSet} :
    m ∈ insert l set ↔ m = l ∨ m ∈ set := mem_insertSorted

theorem mem_singleton {l m : Lookahead} : m ∈ singleton l ↔ m = l := by
  simp [singleton, mem_insert, not_mem_empty]

theorem mem_foldr_insert {m : Lookahead} {members : List Lookahead} {set : LookaheadSet} :
    m ∈ members.foldr insert set ↔ m ∈ members ∨ m ∈ set := by
  induction members with
  | nil => simp
  | cons l rest ih => simp only [List.foldr_cons, mem_insert, ih, List.mem_cons, or_assoc]

theorem mem_ofList {m : Lookahead} {members : List Lookahead} :
    m ∈ ofList members ↔ m ∈ members := by
  simp [ofList, mem_foldr_insert, not_mem_empty]

theorem mem_union {m : Lookahead} {a b : LookaheadSet} : m ∈ a ∪ b ↔ m ∈ a ∨ m ∈ b :=
  mem_foldr_insert

theorem mem_erase {l m : Lookahead} {set : LookaheadSet} :
    m ∈ set.erase l ↔ m ∈ set ∧ m ≠ l := by
  change m ∈ set.toList.filter (· ≠ l) ↔ _
  rw [List.mem_filter]
  simp only [decide_eq_true_eq]
  exact Iff.rfl

/-- A set is determined by its members. -/
theorem ext {a b : LookaheadSet} (h : ∀ l, l ∈ a ↔ l ∈ b) : a = b := by
  obtain ⟨as, ha⟩ := a
  obtain ⟨bs, hb⟩ := b
  suffices as = bs by subst this; rfl
  have h' : ∀ l, l ∈ as ↔ l ∈ bs := h
  clear h
  induction as generalizing bs with
  | nil =>
    cases bs with
    | nil => rfl
    | cons b rest => exact absurd ((h' b).2 List.mem_cons_self) List.not_mem_nil
  | cons a as ih =>
    cases bs with
    | nil => exact absurd ((h' a).1 List.mem_cons_self) List.not_mem_nil
    | cons b bs =>
      obtain ⟨ha1, ha2⟩ := List.pairwise_cons.1 ha
      obtain ⟨hb1, hb2⟩ := List.pairwise_cons.1 hb
      have hab : a = b := by
        rcases List.mem_cons.1 ((h' a).1 List.mem_cons_self) with h1 | h1
        · exact h1
        · rcases List.mem_cons.1 ((h' b).2 List.mem_cons_self) with h2 | h2
          · exact h2.symm
          · exact absurd (Lookahead.lt_trans (ha1 b h2) (hb1 a h1)) (Lookahead.lt_irrefl a)
      subst hab
      have : as = bs := by
        refine ih ha2 bs hb2 fun l => ⟨fun hl => ?_, fun hl => ?_⟩
        · rcases List.mem_cons.1 ((h' l).1 (List.mem_cons_of_mem _ hl)) with rfl | h1
          · exact absurd (ha1 _ hl) (Lookahead.lt_irrefl _)
          · exact h1
        · rcases List.mem_cons.1 ((h' l).2 (List.mem_cons_of_mem _ hl)) with rfl | h1
          · exact absurd (hb1 _ hl) (Lookahead.lt_irrefl _)
          · exact h1
      rw [this]

end LookaheadSet

end TopDown
