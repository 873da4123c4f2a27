/-!
Repeating a step until it changes nothing. The count of passes includes the last one, which finds
nothing to change; a bound on the passes makes the repetition total.
-/
namespace TopDown

structure Settled (α : Type) where
  value : α
  passes : Nat

variable {α : Type} [DecidableEq α]

def settle (step : α → α) : Nat → α → Settled α
  | 0, a => ⟨a, 0⟩
  | bound + 1, a =>
    let b := step a
    if b = a then ⟨a, 1⟩
    else
      let rest := settle step bound b
      ⟨rest.value, rest.passes + 1⟩

/-- What each step keeps, the repetition keeps. -/
theorem settle_induction {step : α → α} {P : α → Prop} (hstep : ∀ a, P a → P (step a))
    (bound : Nat) {a : α} (ha : P a) : P (settle step bound a).value := by
  induction bound generalizing a with
  | zero => exact ha
  | succ bound ih =>
    simp only [settle]
    split
    · exact ha
    · exact ih (hstep a ha)

/-- Repeating the step until it changes nothing comes to an end there, after so many passes. -/
inductive Settles (step : α → α) : α → α → Nat → Prop where
  | done {a : α} : step a = a → Settles step a a 1
  | again {a b : α} {passes : Nat} : step a ≠ a → Settles step (step a) b passes →
      Settles step a b (passes + 1)

omit [DecidableEq α] in
theorem Settles.fixed {step : α → α} {a b : α} {passes : Nat} (h : Settles step a b passes) :
    step b = b := by
  induction h with
  | done h => exact h
  | again _ _ ih => exact ih

/-- The bound does not cut the repetition short when a measure that every change raises never
reaches it. -/
theorem settles_settle {step : α → α} {P : α → Prop} (hstep : ∀ a, P a → P (step a))
    (measure : α → Nat) (bound limit : Nat) (hlimit : ∀ a, P a → measure a ≤ limit)
    (hgrow : ∀ a, P a → step a ≠ a → measure a < measure (step a)) {a : α} (ha : P a)
    (hbound : limit < measure a + bound) :
    Settles step a (settle step bound a).value (settle step bound a).passes := by
  induction bound generalizing a with
  | zero =>
    have := hlimit a ha
    omega
  | succ bound ih =>
    simp only [settle]
    split
    · rename_i h
      exact .done h
    · rename_i h
      have := hgrow a ha h
      exact .again h (ih (hstep a ha) (by omega))

end TopDown
