import TopDown.Proofs.FirstSets

/-!
What sequences of symbols can begin with, for any family of sets: one that lacks sets, or that holds
the empty word or the end of the input where no grammar puts them. The value at a sequence is put
together from those at its two halves, wherever it is parted, and only grows when the sets do.
-/
namespace TopDown

/-- Every set is contained in the one that the larger family has for the name, a set that is missing
being empty. -/
def SetFamily.Within (sets larger : SetFamily) : Prop :=
  ∀ name, ∀ l ∈ sets.membersOf name, l ∈ larger.membersOf name

section Laws

variable {first larger : SetFamily} {left right form : List Symbol} {l : Lookahead}

/-- A nonterminal by itself can begin with what its set holds, the empty word included. -/
theorem firstOf_nonterminal (first : SetFamily) (name : String) :
    firstOf first [.nonterminal name] = first.membersOf name := by
  apply LookaheadSet.ext
  intro l
  rw [mem_firstOf_nonterminal, mem_firstOf_nil]
  constructor
  · rintro (⟨hl, _⟩ | ⟨hepsilon, rfl⟩)
    · exact hl
    · exact hepsilon
  · intro hl
    by_cases hne : l = .epsilon
    · subst hne
      exact Or.inr ⟨hl, rfl⟩
    · exact Or.inl ⟨hl, hne⟩

/-- The second half counts when the first can vanish, and then the first gives up the empty word. -/
theorem mem_firstOf_append :
    l ∈ firstOf first (left ++ right) ↔
      (l ∈ firstOf first left ∧ l ≠ .epsilon) ∨
        (.epsilon ∈ firstOf first left ∧ l ∈ firstOf first right) := by
  induction left generalizing l with
  | nil =>
    rw [List.nil_append, mem_firstOf_nil, mem_firstOf_nil]
    have hnone : ¬ (l = .epsilon ∧ l ≠ .epsilon) := fun h => h.2 h.1
    rw [or_iff_right hnone, and_iff_right rfl]
  | cons symbol left ih =>
    cases symbol with
    | epsilon => exact ih
    | terminal t =>
      rw [List.cons_append, mem_firstOf_terminal, mem_firstOf_terminal, mem_firstOf_terminal]
      constructor
      · rintro rfl
        exact Or.inl ⟨rfl, Lookahead.noConfusion⟩
      · rintro (⟨rfl, _⟩ | ⟨hterminal, _⟩)
        · rfl
        · cases hterminal
    | nonterminal name =>
      rw [List.cons_append, mem_firstOf_nonterminal, mem_firstOf_nonterminal,
        mem_firstOf_nonterminal, ih]
      -- The nonterminal comes before the place of parting: its own set, the rest of the first half
      -- and the second half are tried in this order on both sides.
      constructor
      · rintro (⟨hl, hne⟩ | ⟨hname, ⟨hl, hne⟩ | ⟨hleft, hl⟩⟩)
        · exact Or.inl ⟨Or.inl ⟨hl, hne⟩, hne⟩
        · exact Or.inl ⟨Or.inr ⟨hname, hl⟩, hne⟩
        · exact Or.inr ⟨Or.inr ⟨hname, hleft⟩, hl⟩
      · rintro (⟨⟨hl, hne⟩ | ⟨hname, hl⟩, hne⟩ | ⟨⟨_, hne⟩ | ⟨hname, hleft⟩, hl⟩)
        · exact Or.inl ⟨hl, hne⟩
        · exact Or.inr ⟨hname, Or.inl ⟨hl, hne⟩⟩
        · exact absurd rfl hne
        · exact Or.inr ⟨hname, Or.inr ⟨hleft, hl⟩⟩

theorem firstOf_append (first : SetFamily) (left right : List Symbol) :
    firstOf first (left ++ right) =
      if .epsilon ∈ firstOf first left then
        (firstOf first left).erase .epsilon ∪ firstOf first right
      else firstOf first left := by
  apply LookaheadSet.ext
  intro l
  rw [mem_firstOf_append, LookaheadSet.mem_past_epsilon_iff]

theorem mem_firstOf_of_within (h : first.Within larger) (hl : l ∈ firstOf first form) :
    l ∈ firstOf larger form := by
  induction form generalizing l with
  | nil => exact hl
  | cons symbol rest ih =>
    cases symbol with
    | epsilon => exact ih hl
    | terminal t => exact hl
    | nonterminal name =>
      rw [mem_firstOf_nonterminal] at hl ⊢
      rcases hl with ⟨hl, hne⟩ | ⟨hepsilon, hl⟩
      · exact Or.inl ⟨h name l hl, hne⟩
      · exact Or.inr ⟨h name .epsilon hepsilon, ih hl⟩

end Laws

/-- The sets of a family decide what its nonterminals can begin with, two halves decide it for a
sequence wherever that is parted, and larger sets take nothing away. -/
theorem firstOf_lawful (first : SetFamily) :
    (firstOf first [] = .singleton .epsilon ∧ firstOf first [.epsilon] = .singleton .epsilon ∧
      (∀ t, firstOf first [.terminal t] = .singleton (.terminal t)) ∧
      ∀ name, firstOf first [.nonterminal name] = first.membersOf name) ∧
    (∀ left right, firstOf first (left ++ right) =
      if .epsilon ∈ firstOf first left then
        (firstOf first left).erase .epsilon ∪ firstOf first right
      else firstOf first left) ∧
    ∀ larger, first.Within larger →
      ∀ form, ∀ l ∈ firstOf first form, l ∈ firstOf larger form := by
  refine ⟨⟨rfl, rfl, fun t => rfl, firstOf_nonterminal first⟩, firstOf_append first, ?_⟩
  intro larger hwithin form l hl
  exact mem_firstOf_of_within hwithin hl

/-- No grammar has these sets: one holds the end of the input, and `B` has none in the smaller
family. -/
def oddFirst (others : List (String × LookaheadSet)) : SetFamily :=
  ⟨("A", .ofList [.epsilon, .endOfInput]) :: others⟩

theorem firstOf_lawful_oddFirst :
    (oddFirst []).Within (oddFirst [("B", .ofList [.terminal "b"])]) ∧
      .endOfInput ∈ firstOf (oddFirst []) [.nonterminal "A", .epsilon, .nonterminal "B"] ∧
      .endOfInput ∈ firstOf (oddFirst [("B", .ofList [.terminal "b"])])
        [.nonterminal "A", .epsilon, .nonterminal "B"] := by
  have hwithin : (oddFirst []).Within (oddFirst [("B", .ofList [.terminal "b"])]) := by
    intro name l hl
    simp only [SetFamily.membersOf, NameMap.get?, oddFirst, NameMap.lookup_cons_ite] at hl ⊢
    by_cases hname : name = "A"
    · rwa [if_pos hname] at hl ⊢
    · rw [if_neg hname] at hl
      exact absurd hl (LookaheadSet.not_mem_empty l)
  have hmem : .endOfInput ∈
      firstOf (oddFirst []) [.nonterminal "A", .epsilon, .nonterminal "B"] := by decide
  exact ⟨hwithin, hmem, (firstOf_lawful (oddFirst [])).2.2 _ hwithin _ _ hmem⟩

end TopDown
