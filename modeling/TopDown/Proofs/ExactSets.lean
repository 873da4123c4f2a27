import TopDown.Proofs.SententialForms
import TopDown.Proofs.TableCells

/-!
FIRST and FOLLOW sets against derivations. A nonterminal has in its FIRST set the terminals that
begin the forms it derives, and the empty word if it derives it; in its FOLLOW set it has the
terminals that come right after it in some form, and the end of the input if it ends a form derived
from the start. All of this holds of every grammar, whatever its recursion.
-/
namespace TopDown.Grammar

variable {g : Grammar} {start name t : String}

/-- The passes for the FIRST sets end by themselves, and the sets hold what derivations begin
with. -/
theorem first_exact (g : Grammar) :
    Settles (First.pass g) (.constant g.nonterminals ∅) g.first g.firstSettled.passes ∧
      g.first.keys = g.nonterminals ∧
      ∀ name,
        (∀ t, .terminal t ∈ g.first.membersOf name ↔
          ∃ rest, g.Derives [.nonterminal name] (.terminal t :: rest)) ∧
        (.epsilon ∈ g.first.membersOf name ↔ g.Derives [.nonterminal name] []) ∧
        .endOfInput ∉ g.first.membersOf name := by
  refine ⟨settles_first g, keys_first g, fun name => ⟨fun t => ?_, ?_, ?_⟩⟩
  · rw [mem_first_iff]
    exact begins_iff_derives
  · rw [mem_first_iff]
    exact vanishes_iff_derives
  · rw [mem_first_iff]
    exact not_false

theorem terminal_mem_follow_iff :
    .terminal t ∈ (g.follow g.first start).membersOf name ↔
      ∃ owner ∈ g.nonterminals, ∃ left right,
        g.Derives [.nonterminal owner] (left ++ .nonterminal name :: .terminal t :: right) := by
  rw [mem_follow_iff, follows_iff_faces]
  constructor
  · intro hfound
    obtain ⟨owner, howner, left, _, hderives, ⟨_, _, right⟩⟩ := hfound
    exact ⟨owner, howner, left, right, hderives⟩
  · intro hfound
    obtain ⟨owner, howner, left, right, hderives⟩ := hfound
    exact ⟨owner, howner, left, _, hderives, .terminal owner t right⟩

theorem endOfInput_mem_follow_iff :
    .endOfInput ∈ (g.follow g.first start).membersOf name ↔
      start ∈ g.nonterminals ∧
        ∃ left, g.Derives [.nonterminal start] (left ++ [.nonterminal name]) := by
  rw [mem_follow_iff, follows_iff_faces]
  constructor
  · intro hfound
    obtain ⟨_, hstart, left, _, hderives, ⟨⟩⟩ := hfound
    exact ⟨hstart, left, hderives⟩
  · intro hfound
    obtain ⟨hstart, left, hderives⟩ := hfound
    exact ⟨start, hstart, left, [], hderives, .ending⟩

theorem epsilon_not_mem_follow (g : Grammar) (start name : String) :
    .epsilon ∉ (g.follow g.first start).membersOf name := by
  rw [mem_follow_iff, follows_iff_faces]
  intro hfound
  obtain ⟨_, _, _, _, _, hfaces⟩ := hfound
  cases hfaces

/-- The nonterminal occurs in a form derived from the start. -/
def Reaches (g : Grammar) (start name : String) : Prop :=
  ∃ left right, g.Derives [.nonterminal start] (left ++ .nonterminal name :: right)

/-- What derives from a nonterminal that is reached can be derived in its place. -/
theorem Reaches.exists_derives {owner : String} {left right : List Symbol}
    (h : g.Reaches start owner)
    (hderives : g.Derives [.nonterminal owner] (left ++ .nonterminal name :: right)) :
    ∃ before after,
      g.Derives [.nonterminal start] (before ++ .nonterminal name :: (right ++ after)) := by
  obtain ⟨outerLeft, outerRight, houter⟩ := h
  have hinner := hderives.context outerLeft outerRight
  simp only [List.append_assoc, List.cons_append] at hinner
  refine ⟨outerLeft ++ left, outerRight, houter.trans ?_⟩
  rw [List.append_assoc]
  exact hinner

/-- When every nonterminal is reached, nothing follows but what does in derivations from the
start. -/
theorem terminal_mem_follow_iff_of_reaches
    (hreach : ∀ owner ∈ g.nonterminals, g.Reaches start owner) :
    .terminal t ∈ (g.follow g.first start).membersOf name ↔
      ∃ left right,
        g.Derives [.nonterminal start] (left ++ .nonterminal name :: .terminal t :: right) := by
  rw [terminal_mem_follow_iff]
  constructor
  · intro hfound
    obtain ⟨owner, howner, left, right, hderives⟩ := hfound
    obtain ⟨before, after, hstart⟩ := (hreach owner howner).exists_derives hderives
    exact ⟨before, right ++ after, hstart⟩
  · intro hfound
    obtain ⟨left, right, hderives⟩ := hfound
    have hstart : start ∈ g.nonterminals := by
      apply mem_nonterminals_of_derives hderives
      intro heq
      have hlength := congrArg List.length heq
      simp only [List.length_append, List.length_cons, List.length_nil] at hlength
      omega
    exact ⟨start, hstart, left, right, hderives⟩

/-- The FOLLOW sets hold what comes right after a nonterminal in derivations, from any nonterminal
for a terminal and from the start for the end of the input. -/
theorem follow_exact (g : Grammar) (start : String) :
    (∀ name,
      (∀ t, .terminal t ∈ (g.follow g.first start).membersOf name ↔
        ∃ owner ∈ g.nonterminals, ∃ left right,
          g.Derives [.nonterminal owner] (left ++ .nonterminal name :: .terminal t :: right)) ∧
      (.endOfInput ∈ (g.follow g.first start).membersOf name ↔
        start ∈ g.nonterminals ∧
          ∃ left, g.Derives [.nonterminal start] (left ++ [.nonterminal name])) ∧
      .epsilon ∉ (g.follow g.first start).membersOf name) ∧
    ((∀ owner ∈ g.nonterminals, g.Reaches start owner) →
      ∀ name t, .terminal t ∈ (g.follow g.first start).membersOf name ↔
        ∃ left right,
          g.Derives [.nonterminal start] (left ++ .nonterminal name :: .terminal t :: right)) := by
  constructor
  · intro name
    exact ⟨fun t => terminal_mem_follow_iff, endOfInput_mem_follow_iff,
      epsilon_not_mem_follow g start name⟩
  · intro hreach name t
    exact terminal_mem_follow_iff_of_reaches hreach

theorem follow_exact_nestedPairs :
    (∀ owner ∈ nestedPairs.nonterminals, nestedPairs.Reaches "S" owner) ∧
      ∃ left right,
        nestedPairs.Derives [.nonterminal "S"]
          (left ++ .nonterminal "S" :: .terminal "b" :: right) := by
  have hreach : ∀ owner ∈ nestedPairs.nonterminals, nestedPairs.Reaches "S" owner := by
    intro owner howner
    rw [List.mem_singleton.mp howner]
    exact ⟨[], [], .refl _⟩
  refine ⟨hreach, ((follow_exact nestedPairs "S").2 hreach "S" "b").mp ?_⟩
  decide

end TopDown.Grammar
