import Mathlib.Data.Nat.Find
import TopDown.Random.Source

/-!
What a choice from a tape comes to. It falls on what the first word that is not refused scales to,
if there is such a word among those that are tried, so that trying more of them never changes an
answer. Every candidate is selected by some word.
-/
namespace TopDown.Random

/-- Every one of the candidates is selected by some word. -/
def Selectable (n : Nat) : Prop :=
  ∀ i < n, ∃ v : UInt32, accepts n v = true ∧ scale n v = i

/-- The quotient rounded up, times the divisor, exceeds the dividend by less than the divisor. -/
private theorem mul_div_ceil {n : Nat} (hn : 0 < n) (a : Nat) :
    a ≤ (a + (n - 1)) / n * n ∧ (a + (n - 1)) / n * n ≤ a + (n - 1) := by
  have hdiv := Nat.div_add_mod' (a + (n - 1)) n
  have hmod := Nat.mod_lt (a + (n - 1)) hn
  omega

theorem sub_one_le_zone (n : Nat) : n - 1 ≤ zone n := by
  have hle : n * 1 ≤ n * 2 ^ (31 - n.log2) := Nat.mul_le_mul_left n Nat.one_le_two_pow
  rw [zone, Nat.shiftLeft_eq]
  omega

/-- Up to the count of words every candidate is selected by the least word that scales to it. -/
theorem selectable_of_le {n : Nat} (hn : n ≤ wordCount) : Selectable n := by
  intro i hi
  obtain ⟨hlower, hupper⟩ := mul_div_ceil (Nat.zero_lt_of_lt hi) (i * wordCount)
  generalize (i * wordCount + (n - 1)) / n = v at hlower hupper
  have hnext : (i + 1) * wordCount ≤ n * wordCount := Nat.mul_le_mul_right wordCount hi
  have hword : v < wordCount := by
    by_contra hge
    have hscaled : wordCount * n ≤ v * n := Nat.mul_le_mul_right n (Nat.le_of_not_lt hge)
    rw [Nat.mul_comm wordCount n] at hscaled
    rw [Nat.add_mul] at hnext
    omega
  have hscale : v * n / wordCount = i := by
    rw [Nat.div_eq_iff (by decide)]
    omega
  have hrest : v * n % wordCount ≤ n - 1 := by
    have hdiv := Nat.div_add_mod' (v * n) wordCount
    rw [hscale] at hdiv
    omega
  have hv : (UInt32.ofNat v).toNat = v := UInt32.toNat_ofNat_of_lt' hword
  refine ⟨UInt32.ofNat v, ?_, ?_⟩
  · rw [accepts, hv, decide_eq_true_iff]
    exact Nat.le_trans hrest (sub_one_le_zone n)
  · rw [scale, hv, hscale]

namespace Source

variable (source : Source) {n tries position : Nat} {choice : Choice}

/-- The first word that is not refused decides a choice. -/
theorem choose_eq_some_iff :
    source.choose n tries position = some choice ↔ ∃ refused < tries,
      (∀ i < refused, accepts n (source.word (position + i)) = false) ∧
        accepts n (source.word (position + refused)) = true ∧
        choice = ⟨scale n (source.word (position + refused)), position + refused + 1⟩ := by
  induction tries generalizing position with
  | zero =>
    refine iff_of_false (Option.some_ne_none choice).symm ?_
    rintro ⟨refused, hlt, _⟩
    exact Nat.not_lt_zero refused hlt
  | succ tries ih =>
    have hshift : ∀ i, position + 1 + i = position + (i + 1) := by omega
    rw [choose]
    cases hword : accepts n (source.word position) with
    | true =>
      rw [if_pos rfl, Option.some.injEq]
      constructor
      · rintro rfl
        exact ⟨0, Nat.succ_pos tries, fun i hi => absurd hi (Nat.not_lt_zero i), hword, rfl⟩
      · rintro ⟨refused, _, hearlier, _, rfl⟩
        cases refused with
        | zero => rfl
        | succ refused =>
          have hrefused := hearlier 0 (Nat.succ_pos refused)
          exact absurd (hword.symm.trans hrefused) Bool.noConfusion
    | false =>
      rw [if_neg Bool.false_ne_true, ih]
      constructor
      · rintro ⟨refused, hlt, hearlier, haccepts, rfl⟩
        rw [hshift] at haccepts ⊢
        refine ⟨refused + 1, Nat.succ_lt_succ hlt, fun i hi => ?_, haccepts, rfl⟩
        cases i with
        | zero => exact hword
        | succ i =>
          rw [← hshift]
          exact hearlier i (Nat.lt_of_succ_lt_succ hi)
      · rintro ⟨refused, hlt, hearlier, haccepts, rfl⟩
        cases refused with
        | zero => exact absurd (hword.symm.trans haccepts) Bool.noConfusion
        | succ refused =>
          refine ⟨refused, Nat.lt_of_succ_lt_succ hlt, fun i hi => ?_, ?_, ?_⟩
          · rw [hshift]
            exact hearlier (i + 1) (Nat.succ_lt_succ hi)
          · rwa [hshift]
          · rw [hshift]

/-- A word that is not refused decides the choice by itself. -/
theorem choose_of_accepts (tries : Nat) (h : accepts n (source.word position) = true) :
    source.choose n (tries + 1) position =
      some ⟨scale n (source.word position), position + 1⟩ := if_pos h

/-- The choices from a tape are all answered just when nowhere all words that are tried are
refused. -/
theorem answers_chooser_iff :
    (source.chooser tries).Answers ↔ ∀ n position, 0 < n →
      ∃ i < tries, accepts n (source.word (position + i)) = true := by
  constructor
  · intro h n position hn
    obtain ⟨choice, hchoice, _⟩ := h n position hn
    obtain ⟨refused, hlt, _, haccepts, _⟩ := source.choose_eq_some_iff.mp hchoice
    exact ⟨refused, hlt, haccepts⟩
  · intro h n position hn
    have hexists := h n position hn
    obtain ⟨hlt, haccepts⟩ := Nat.find_spec hexists
    refine ⟨_, source.choose_eq_some_iff.mpr ⟨Nat.find hexists, hlt, fun i hi => ?_, haccepts, rfl⟩,
      scale_lt hn _⟩
    have hearlier := Nat.find_min hexists hi
    exact Bool.eq_false_iff.mpr fun hword => hearlier ⟨Nat.lt_trans hi hlt, hword⟩

/-- The tape holds the words from the place on. -/
def Offers (source : Source) (position : Nat) (words : List UInt32) : Prop :=
  ∀ i v, words[i]? = some v → source.word (position + i) = v

theorem offers_ofWords (words : List UInt32) : (ofWords words).Offers 0 words := by
  intro i v hv
  change words.getD (0 + i) 0 = v
  rw [Nat.zero_add, List.getD_eq_getElem?_getD, hv, Option.getD_some]

theorem offers_append_iff {source : Source} {position : Nat} {front back : List UInt32} :
    source.Offers position (front ++ back) ↔
      source.Offers position front ∧ source.Offers (position + front.length) back := by
  constructor
  · intro h
    refine ⟨fun i v hv => h i v ?_, fun i v hv => ?_⟩
    · rw [List.getElem?_append_left (List.getElem?_eq_some_iff.mp hv).1]
      exact hv
    · rw [Nat.add_assoc]
      apply h
      rw [List.getElem?_append_right (Nat.le_add_right _ _), Nat.add_sub_cancel_left]
      exact hv
  · rintro ⟨hfront, hback⟩ i v hv
    by_cases hi : i < front.length
    · rw [List.getElem?_append_left hi] at hv
      exact hfront i v hv
    · have hle : front.length ≤ i := Nat.le_of_not_lt hi
      rw [List.getElem?_append_right hle] at hv
      have hword := hback _ v hv
      rwa [Nat.add_assoc, Nat.add_sub_cancel' hle] at hword

end Source

theorem Chooser.answers_ofWords (words : List UInt32) : (ofWords words).Answers := by
  refine (Source.answers_chooser_iff _).mpr fun n position _ =>
    ⟨words.length, Nat.lt_succ_self words.length, ?_⟩
  have hzero : (Source.ofWords words).word (position + words.length) = 0 := by
    change words.getD (position + words.length) 0 = 0
    rw [List.getD_eq_getElem?_getD, List.getElem?_eq_none (Nat.le_add_left _ _), Option.getD_none]
  have haccepts : 0 * n % wordCount ≤ zone n := by
    rw [Nat.zero_mul, Nat.zero_mod]
    exact Nat.zero_le _
  rw [hzero]
  exact decide_eq_true haccepts

end TopDown.Random
