import Mathlib.Data.List.Pairwise
import Mathlib.Data.Prod.Basic
import Mathlib.Order.RelClasses
import TopDown.Lookahead

/-!
Sorting by keys. Elements are sorted so that none stands after one whose key is the greater. When no
two of them have the same key, their keys ascend strictly; those that have the same key stay in the
order in which they came, and that leaves one sorted list only. Keys made of two parts are compared
by the first part, and by the second where the first is the same.
-/
namespace TopDown

instance Text.strictOrder : IsStrictTotalOrder String fun a b => Text.before a b = true where
  irrefl a := Bool.eq_false_iff.mp (Text.before_irrefl a)
  trans _ _ _ := Text.before_trans
  trichotomous _ _ hab hba :=
    Text.eq_of_not_before (Bool.eq_false_iff.mpr hab) (Bool.eq_false_iff.mpr hba)

instance Lookahead.strictOrder : IsStrictTotalOrder Lookahead (· < ·) where
  irrefl := Lookahead.lt_irrefl
  trans _ _ _ := Lookahead.lt_trans
  trichotomous _ _ := Lookahead.eq_of_not_lt

variable {α β : Type} {r : α → α → Prop} {s : β → β → Prop} [IsStrictTotalOrder α r]

instance lexStrictOrder [IsStrictTotalOrder β s] : IsStrictTotalOrder (α × β) (Prod.Lex r s) where

/-- A pair is not before another one if that one comes first by its first part, or has the same
first part and no later second one. -/
theorem not_lex_iff {a b : α × β} :
    ¬ Prod.Lex r s b a ↔ r a.1 b.1 ∨ (a.1 = b.1 ∧ ¬ s b.2 a.2) := by
  rw [Prod.lex_iff, not_or, not_and]
  constructor
  · rintro ⟨hfirst, hsecond⟩
    rcases trichotomous_of r a.1 b.1 with hlt | heq | hgt
    · exact Or.inl hlt
    · exact Or.inr ⟨heq, hsecond heq.symm⟩
    · exact absurd hgt hfirst
  · rintro (hlt | ⟨heq, hsecond⟩)
    · exact ⟨asymm_of r hlt, fun heq => absurd (heq ▸ hlt) (irrefl_of r _)⟩
    · exact ⟨heq ▸ irrefl_of r _, fun _ => hsecond⟩

/-- Elements with different keys are sorted in strictly ascending order of their keys. -/
theorem pairwise_mergeSort_key {γ : Type} (key : γ → α) {le : γ → γ → Bool}
    (hle : ∀ a b, le a b = true ↔ ¬ r (key b) (key a)) {items : List γ}
    (hdistinct : items.Pairwise fun a b => key a ≠ key b) :
    (items.mergeSort le).Pairwise fun a b => r (key a) (key b) := by
  have htrans : ∀ a b c, le a b = true → le b c = true → le a c = true := by
    intro a b c hab hbc
    rw [hle] at hab hbc ⊢
    exact IsOrderConnected.neg_trans hbc hab
  have htotal : ∀ a b, (le a b || le b a) = true := by
    intro a b
    rw [Bool.or_eq_true, hle, hle, ← not_and_or]
    rintro ⟨hba, hab⟩
    exact asymm_of r hab hba
  have hsorted : (items.mergeSort le).Pairwise fun a b => le a b = true :=
    List.pairwise_mergeSort htrans htotal items
  have hkeys : (items.mergeSort le).Pairwise fun a b => key a ≠ key b :=
    List.Pairwise.perm hdistinct (List.mergeSort_perm items le).symm Ne.symm
  refine hsorted.imp₂ (fun a b hab hne => ?_) hkeys
  rcases trichotomous_of r (key a) (key b) with hlt | heq | hgt
  · exact hlt
  · exact absurd heq hne
  · exact absurd hgt ((hle a b).mp hab)

section Stable

variable {γ : Type} {key : γ → Nat} {items sorted : List γ}

theorem le_key_trans (key : γ → Nat) (a b c : γ) (hab : decide (key a ≤ key b) = true)
    (hbc : decide (key b ≤ key c) = true) : decide (key a ≤ key c) = true :=
  decide_eq_true (Nat.le_trans (of_decide_eq_true hab) (of_decide_eq_true hbc))

theorem le_key_total (key : γ → Nat) (a b : γ) :
    (decide (key a ≤ key b) || decide (key b ≤ key a)) = true := by
  rw [Bool.or_eq_true, decide_eq_true_iff, decide_eq_true_iff]
  exact Nat.le_total (key a) (key b)

theorem pairwise_mergeSort_le (key : γ → Nat) (items : List γ) :
    (items.mergeSort fun a b => key a ≤ key b).Pairwise fun a b => key a ≤ key b :=
  (List.pairwise_mergeSort (le_key_trans key) (le_key_total key) items).imp of_decide_eq_true

/-- Those with one key stay in their order. -/
theorem filter_mergeSort (key : γ → Nat) (k : Nat) (items : List γ) :
    ((items.mergeSort fun a b => key a ≤ key b).filter fun a => key a = k) =
      items.filter fun a => key a = k := by
  induction items with
  | nil => rw [List.mergeSort_nil]
  | cons a items ih =>
    obtain ⟨front, rest, hsorted, hitems, hfront⟩ := List.mergeSort_cons (le_key_trans key)
      (le_key_total key) a items
    rw [hitems, List.filter_append] at ih
    rw [hsorted, List.filter_append, List.filter_cons, List.filter_cons, ← ih]
    split
    · rename_i hkey
      -- What is sorted before the element has a lesser key.
      have hnone : front.filter (fun b => key b = k) = [] := by
        rw [List.filter_eq_nil_iff]
        intro b hb hsame
        have hless := hfront b hb
        rw [of_decide_eq_true hkey, of_decide_eq_true hsame] at hless
        simp at hless
      rw [hnone, List.nil_append, List.nil_append]
    · rfl

theorem mem_iff_of_filter_key {others : List γ}
    (h : ∀ k, (items.filter fun a => key a = k) = others.filter fun a => key a = k) {a : γ} :
    a ∈ items ↔ a ∈ others := by
  have hmem := congrArg (a ∈ ·) (h (key a))
  simpa [List.mem_filter] using hmem

/-- Sorted lists are equal if for every key they have the same elements in the same order. -/
theorem eq_of_filter_key {others : List γ} (hsorted : sorted.Pairwise fun a b => key a ≤ key b)
    (hothers : others.Pairwise fun a b => key a ≤ key b)
    (h : ∀ k, (sorted.filter fun a => key a = k) = others.filter fun a => key a = k) :
    sorted = others := by
  induction sorted generalizing others with
  | nil =>
    refine (List.eq_nil_iff_forall_not_mem.mpr fun a ha => ?_).symm
    exact List.not_mem_nil ((mem_iff_of_filter_key h).mpr ha)
  | cons a sorted ih =>
    have ha : a ∈ others := (mem_iff_of_filter_key h).mp List.mem_cons_self
    obtain ⟨b, others, rfl⟩ := List.exists_cons_of_ne_nil (List.ne_nil_of_mem ha)
    have hb : b ∈ a :: sorted := (mem_iff_of_filter_key h).mpr List.mem_cons_self
    obtain ⟨hleast, hrest⟩ := List.pairwise_cons.mp hsorted
    obtain ⟨hleast', hrest'⟩ := List.pairwise_cons.mp hothers
    have hkey : key a = key b := by
      apply Nat.le_antisymm
      · rcases List.mem_cons.mp hb with rfl | hb
        · exact Nat.le_refl _
        · exact hleast b hb
      · rcases List.mem_cons.mp ha with rfl | ha
        · exact Nat.le_refl _
        · exact hleast' a ha
    obtain rfl : a = b := by
      have hhead := congrArg List.head? (h (key a))
      simpa [List.filter_cons, hkey] using hhead
    have hfilter : ∀ k, (sorted.filter fun a => key a = k) =
        others.filter fun a => key a = k := by
      intro k
      have hk := h k
      rw [List.filter_cons, List.filter_cons] at hk
      split at hk
      · exact (List.cons.inj hk).2
      · exact hk
    rw [ih hrest hrest' hfilter]

/-- The sorted list of elements that come in two parts, when those at the ends of the parts have one
key that is greater than all others. -/
theorem mergeSort_append_append {as bs cs ds : List γ}
    (hless : ∀ a ∈ as ++ cs, ∀ b ∈ bs ++ ds, key a < key b)
    (hsame : ∀ a ∈ bs ++ ds, ∀ b ∈ bs ++ ds, key a = key b) :
    (((as ++ bs) ++ (cs ++ ds)).mergeSort fun a b => key a ≤ key b) =
      ((as ++ cs).mergeSort fun a b => key a ≤ key b) ++ (bs ++ ds) := by
  apply eq_of_filter_key (pairwise_mergeSort_le key _)
  · refine List.pairwise_append.mpr ⟨pairwise_mergeSort_le key _, ?_, fun a ha b hb => ?_⟩
    · exact List.pairwise_of_forall_mem_list fun a ha b hb => Nat.le_of_eq (hsame a ha b hb)
    · exact Nat.le_of_lt (hless a ((List.mergeSort_perm _ _).mem_iff.mp ha) b hb)
  · intro k
    -- Of the two parts between which the order changes, one has no element with the key.
    have hnone : bs.filter (fun a => key a = k) = [] ∨ cs.filter (fun a => key a = k) = [] := by
      rw [or_iff_not_imp_right, List.filter_eq_nil_iff, List.filter_eq_nil_iff]
      intro hsome b hb hbk
      refine hsome fun c hc hck => ?_
      have hlt := hless c (List.mem_append_right as hc) b (List.mem_append_left ds hb)
      rw [of_decide_eq_true hbk, of_decide_eq_true hck] at hlt
      exact Nat.lt_irrefl k hlt
    simp only [filter_mergeSort, List.filter_append]
    rcases hnone with hbs | hcs
    · simp only [hbs, List.append_nil, List.nil_append, List.append_assoc]
    · simp only [hcs, List.append_nil, List.nil_append, List.append_assoc]

end Stable

end TopDown
