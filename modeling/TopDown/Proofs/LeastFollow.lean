import Mathlib.Logic.Function.Iterate
import Mathlib.Order.Bounds.Basic
import TopDown.Proofs.FollowSets

/-!
FOLLOW sets as a least solution. Three rules say which lookaheads have to follow which nonterminals:
one for the start, one for what stands behind a nonterminal in a body, one for what follows the
owner of the body. Whatever the FIRST family is, the passes come to an end, at the least sets that
the rules allow, and no pass on the way puts the empty word into a set.
-/
namespace TopDown

/-- The value at the end is the one after so many steps. -/
theorem Settles.eq_iterate {α : Type} {step : α → α} {a b : α} {passes : Nat}
    (h : Settles step a b passes) : b = step^[passes] a := by
  induction h with
  | done hfixed => exact hfixed.symm
  | @again a b passes _ _ ih => rw [Function.iterate_succ_apply, ih]

theorem settle_passes_le {α : Type} [DecidableEq α] (step : α → α) (bound : Nat) (a : α) :
    (settle step bound a).passes ≤ bound := by
  induction bound generalizing a with
  | zero => exact Nat.le_refl 0
  | succ bound ih =>
    simp only [settle]
    split
    · exact Nat.succ_le_succ (Nat.zero_le bound)
    · exact Nat.succ_le_succ (ih (step a))

/-- The members of the set of each name. -/
def SetFamily.members (sets : SetFamily) (name : String) : Set Lookahead :=
  {l | l ∈ sets.membersOf name}

namespace Follow

/-- Sets that hold whatever has to follow a nonterminal: the end of the input after the start, after
a nonterminal in a body what the rest of the body can begin with, and all that follows the owner if
the rest can vanish. -/
structure Closed (g : Grammar) (first : SetFamily) (start : String)
    (sets : String → Set Lookahead) : Prop where
  start : start ∈ g.nonterminals → .endOfInput ∈ sets start
  rest : ∀ p ∈ g.productions, ∀ left name right, p.body = left ++ .nonterminal name :: right →
    name ∈ g.nonterminals → ∀ l ∈ firstOf first right, l ≠ .epsilon → l ∈ sets name
  owner : ∀ p ∈ g.productions, ∀ left name right, p.body = left ++ .nonterminal name :: right →
    name ∈ g.nonterminals → .epsilon ∈ firstOf first right → sets p.lhs ⊆ sets name

end Follow

namespace Grammar

variable {g : Grammar} {first : SetFamily} {start : String}

/-- An occurrence adds nothing to sets that lie within closed ones. -/
theorem mem_of_mem_after {sets : String → Set Lookahead} (hsets : Follow.Closed g first start sets)
    {follow : SetFamily} (hfollow : ∀ name, ∀ l ∈ follow.membersOf name, l ∈ sets name)
    {o : Occurrence} (ho : o ∈ g.occurrences) {l : Lookahead}
    (hl : l ∈ Follow.after first follow o) : l ∈ sets o.name := by
  obtain ⟨p, hp, howner, left, hbody⟩ := mem_occurrences_iff.mp ho
  have hname : o.name ∈ g.nonterminals := mem_nonterminals_of_mem_body hp (by simp [hbody])
  rcases mem_after_iff.mp hl with ⟨hrest, hne⟩ | ⟨hepsilon, howned⟩
  · exact hsets.rest p hp left o.name o.rest hbody hname l hrest hne
  · rw [howner] at howned
    exact hsets.owner p hp left o.name o.rest hbody hname hepsilon (hfollow p.lhs l howned)

theorem follow_closed (g : Grammar) (first : SetFamily) (start : String) :
    Follow.Closed g first start (g.follow first start).members where
  start := fun hstart =>
    mem_follow_of_mem_initial (mem_membersOf_initial_iff.mpr ⟨rfl, hstart, rfl⟩)
  rest := by
    intro p hp left name right hbody _ l hl hne
    have ho : ⟨p.lhs, name, right⟩ ∈ g.occurrences :=
      mem_occurrences_iff.mpr ⟨p, hp, rfl, left, hbody⟩
    exact mem_follow_of_mem_after ho (mem_after_iff.mpr (Or.inl ⟨hl, hne⟩))
  owner := by
    intro p hp left name right hbody _ hepsilon l hl
    have ho : ⟨p.lhs, name, right⟩ ∈ g.occurrences :=
      mem_occurrences_iff.mpr ⟨p, hp, rfl, left, hbody⟩
    exact mem_follow_of_mem_after ho (mem_after_iff.mpr (Or.inr ⟨hepsilon, hl⟩))

theorem follow_le_of_closed {sets : String → Set Lookahead}
    (hsets : Follow.Closed g first start sets) : (g.follow first start).members ≤ sets := by
  intro name l hl
  change l ∈ (g.follow first start).membersOf name at hl
  rw [follow_eq_settle] at hl
  refine SetFamily.settle_within (fun name l => l ∈ sets name) (Follow.passBound g first) ?_ ?_
    name l hl
  · intro follow hfollow o ho l hl
    exact mem_of_mem_after hsets hfollow ho hl
  · intro name l hl
    obtain ⟨rfl, hstart, rfl⟩ := mem_membersOf_initial_iff.mp hl
    exact hsets.start hstart

/-- The FIRST family may hold the empty word anywhere; what follows an occurrence leaves it out. -/
theorem epsilon_not_mem_pass {follow : SetFamily}
    (hfollow : ∀ name, .epsilon ∉ follow.membersOf name) :
    ∀ name, .epsilon ∉ (Follow.pass g first follow).membersOf name := by
  change ∀ name, .epsilon ∉
    (SetFamily.scan Occurrence.name (Follow.after first) g.occurrences follow).membersOf name
  refine SetFamily.scan_induction
    (P := fun sets : SetFamily => ∀ name, .epsilon ∉ sets.membersOf name) ?_ hfollow
  intro o _ sets hsets name hmem
  rcases SetFamily.mem_membersOf_addTo.mp hmem with hold | ⟨_, _, hadded⟩
  · exact hsets name hold
  · rcases mem_after_iff.mp hadded with ⟨_, hne⟩ | ⟨_, howned⟩
    · exact hne rfl
    · exact hsets o.owner howned

theorem epsilon_not_mem_iterate (g : Grammar) (first : SetFamily) (start : String) (passes : Nat)
    (name : String) :
    .epsilon ∉ ((Follow.pass g first)^[passes] (Follow.initial g start)).membersOf name := by
  induction passes generalizing name with
  | zero =>
    intro hmem
    obtain ⟨_, _, hend⟩ := mem_membersOf_initial_iff.mp hmem
    cases hend
  | succ passes ih =>
    rw [Function.iterate_succ_apply']
    exact epsilon_not_mem_pass ih name

/-- The passes for the FOLLOW sets end by themselves, within a bound that counts the members of the
FIRST family. They end at the least sets that are closed under the rules of following, one for every
nonterminal, and the empty word is in none of the sets, then or before. -/
theorem follow_least (g : Grammar) (first : SetFamily) (start : String) :
    Settles (Follow.pass g first) (Follow.initial g start) (g.follow first start)
        (g.followSettled first start).passes ∧
      (g.followSettled first start).passes ≤ Follow.passBound g first ∧
      (g.follow first start).keys = g.nonterminals ∧
      IsLeast {sets | Follow.Closed g first start sets} (g.follow first start).members ∧
      (∀ name, .epsilon ∉ (g.follow first start).membersOf name) ∧
      ∀ passes name,
        .epsilon ∉ ((Follow.pass g first)^[passes] (Follow.initial g start)).membersOf name := by
  have hsettles := settles_follow g first start
  refine ⟨hsettles, settle_passes_le _ _ _, keys_follow g first start,
    ⟨follow_closed g first start, fun _ hsets => follow_le_of_closed hsets⟩, fun name => ?_,
    epsilon_not_mem_iterate g first start⟩
  rw [hsettles.eq_iterate]
  exact epsilon_not_mem_iterate g first start _ name

end Grammar

end TopDown
