import TopDown.Proofs.FirstSets

/-!
The FOLLOW sets of a grammar are exact. For any FIRST family the passes end within their bound, at
sets that hold what every occurrence is followed by; with the grammar's own FIRST sets these are the
lookaheads that the rules of following give, for any name where derivations start.
-/
namespace TopDown

theorem Occurrence.mem_among_iff {owner : String} {body : List Symbol} {o : Occurrence} :
    o ∈ Occurrence.among owner body ↔
      o.owner = owner ∧ ∃ left, body = left ++ .nonterminal o.name :: o.rest := by
  induction body with
  | nil => simp [Occurrence.among]
  | cons symbol rest ih =>
    have hlater : (∃ left, symbol :: rest = left ++ .nonterminal o.name :: o.rest) ↔
        (symbol = .nonterminal o.name ∧ rest = o.rest) ∨
          ∃ left, rest = left ++ .nonterminal o.name :: o.rest := by
      constructor
      · intro hfound
        obtain ⟨left, heq⟩ := hfound
        cases left with
        | nil => exact Or.inl (List.cons.inj heq)
        | cons first left => exact Or.inr ⟨left, (List.cons.inj heq).2⟩
      · intro hcase
        rcases hcase with ⟨rfl, rfl⟩ | ⟨left, rfl⟩
        · exact ⟨[], rfl⟩
        · exact ⟨symbol :: left, rfl⟩
    rw [hlater]
    cases symbol with
    | terminal t =>
      simp only [Occurrence.among, ih, reduceCtorEq, false_and, false_or]
    | epsilon =>
      simp only [Occurrence.among, ih, reduceCtorEq, false_and, false_or]
    | nonterminal name =>
      obtain ⟨oowner, oname, orest⟩ := o
      simp only [Occurrence.among, List.mem_cons, ih, Occurrence.mk.injEq,
        Symbol.nonterminal.injEq]
      grind

namespace Grammar

variable {g : Grammar}

theorem mem_occurrences_iff {o : Occurrence} :
    o ∈ g.occurrences ↔ ∃ p ∈ g.productions, o.owner = p.lhs ∧
      ∃ left, p.body = left ++ .nonterminal o.name :: o.rest := by
  simp only [occurrences, List.mem_flatMap, Occurrence.mem_among_iff]

theorem mem_after_iff {first follow : SetFamily} {o : Occurrence} {l : Lookahead} :
    l ∈ Follow.after first follow o ↔
      (l ∈ firstOf first o.rest ∧ l ≠ .epsilon) ∨
        (.epsilon ∈ firstOf first o.rest ∧ l ∈ follow.membersOf o.owner) := by
  unfold Follow.after
  exact LookaheadSet.mem_past_epsilon_iff

/-- The members that the sets of the FOLLOW passes can have. -/
def followPool (g : Grammar) (first : SetFamily) : List Lookahead :=
  first.entries.flatMap (fun entry => entry.2.toList) ++
    (g.terminals.map Lookahead.terminal ++ [.endOfInput])

theorem length_flatMap_members (entries : List (String × LookaheadSet)) :
    (entries.flatMap fun entry => entry.2.toList).length = SetFamily.size ⟨entries⟩ := by
  induction entries with
  | nil => rfl
  | cons entry rest ih =>
    rw [SetFamily.size_cons, List.flatMap_cons, List.length_append, ih]
    rfl

theorem length_followPool (g : Grammar) (first : SetFamily) :
    (g.followPool first).length = first.size + g.terminals.length + 1 := by
  have hmembers := length_flatMap_members first.entries
  simp only [followPool, List.length_append, List.length_map, List.length_singleton]
  change _ = first.size at hmembers
  omega

theorem mem_followPool_of_mem_after {first follow : SetFamily}
    (hfollow : follow.Inside (g.followPool first)) {o : Occurrence} (ho : o ∈ g.occurrences)
    {l : Lookahead} (hl : l ∈ Follow.after first follow o) : l ∈ g.followPool first := by
  obtain ⟨p, hp, _, left, hbody⟩ := mem_occurrences_iff.mp ho
  rcases mem_after_iff.mp hl with ⟨hl, hne⟩ | ⟨_, hl⟩
  · refine (firstOf_origin (· ∈ g.followPool first) ?_ ?_ hl).resolve_left hne
    · intro name l hl
      have hentry := SetFamily.exists_entry_of_membersOf hl
      exact List.mem_append_left _ (List.mem_flatMap.mpr hentry)
    · intro t ht
      have hterminal : t ∈ g.terminals :=
        mem_terminals_iff.mpr ⟨p, hp, by simp [hbody, ht]⟩
      exact List.mem_append_right _ (List.mem_append_left _ (List.mem_map_of_mem hterminal))
  · exact hfollow.of_membersOf hl

theorem mem_membersOf_initial_iff {start name : String} {l : Lookahead} :
    l ∈ (Follow.initial g start).membersOf name ↔
      name = start ∧ start ∈ g.nonterminals ∧ l = .endOfInput := by
  simp only [SetFamily.membersOf, Follow.initial, NameMap.get?_modify, NameMap.get?_constant]
  by_cases hname : name = start
  · subst hname
    by_cases hmem : name ∈ g.nonterminals
    · simp only [hmem, if_true, Option.map_some, Option.getD_some, LookaheadSet.mem_insert,
        true_and]
      exact or_iff_left (LookaheadSet.not_mem_empty l)
    · simp only [hmem, if_true, false_and, and_false, iff_false]
      exact LookaheadSet.not_mem_empty l
  · rw [if_neg hname]
    simp only [hname, false_and, iff_false]
    split <;> exact LookaheadSet.not_mem_empty l

theorem keys_initial (g : Grammar) (start : String) :
    (Follow.initial g start).keys = g.nonterminals := by
  rw [Follow.initial, NameMap.keys_modify, NameMap.keys_constant]

theorem follow_eq_settle (g : Grammar) (first : SetFamily) (start : String) :
    g.follow first start = (settle (SetFamily.scan Occurrence.name (Follow.after first)
      g.occurrences) (Follow.passBound g first) (Follow.initial g start)).value := rfl

theorem keys_follow (g : Grammar) (first : SetFamily) (start : String) :
    (g.follow first start).keys = g.nonterminals := by
  rw [follow_eq_settle, SetFamily.keys_settle, keys_initial]

/-- The FOLLOW passes end by themselves, whatever the FIRST family is. -/
theorem settles_follow (g : Grammar) (first : SetFamily) (start : String) :
    Settles (Follow.pass g first) (Follow.initial g start) (g.follow first start)
      (g.followSettled first start).passes := by
  apply SetFamily.scan_settles (g.followPool first)
  · intro sets hsets o ho l hl
    exact mem_followPool_of_mem_after hsets ho hl
  · intro entry hentry l hl
    obtain ⟨before, hbefore, rfl⟩ := List.mem_map.mp hentry
    obtain ⟨name, _, rfl⟩ := List.mem_map.mp hbefore
    have hl' : l = .endOfInput := by
      by_cases hname : name = start
      · rw [if_pos hname] at hl
        exact (LookaheadSet.mem_insert.mp hl).resolve_right (LookaheadSet.not_mem_empty l)
      · rw [if_neg hname] at hl
        exact absurd hl (LookaheadSet.not_mem_empty l)
    subst hl'
    simp [followPool]
  · rw [keys_initial, length_followPool, Follow.passBound]
    omega

/-- A further FOLLOW pass changes nothing. -/
theorem pass_follow (g : Grammar) (first : SetFamily) (start : String) :
    Follow.pass g first (g.follow first start) = g.follow first start :=
  (settles_follow g first start).fixed

/-- What the repetition starts from, it keeps. -/
theorem mem_follow_of_mem_initial {first : SetFamily} {start name : String} {l : Lookahead}
    (hl : l ∈ (Follow.initial g start).membersOf name) :
    l ∈ (g.follow first start).membersOf name := by
  rw [follow_eq_settle]
  refine settle_induction (P := fun sets : SetFamily => l ∈ sets.membersOf name) ?_ _ hl
  intro sets hsets
  refine SetFamily.scan_induction (P := fun sets : SetFamily => l ∈ sets.membersOf name) ?_ hsets
  intro o _ sets hsets
  exact SetFamily.mem_membersOf_addTo.mpr (Or.inl hsets)

theorem mem_follow_of_mem_after {first : SetFamily} {start : String} {o : Occurrence}
    (ho : o ∈ g.occurrences) {l : Lookahead}
    (hl : l ∈ Follow.after first (g.follow first start) o) :
    l ∈ (g.follow first start).membersOf o.name := by
  have hkey : o.name ∈ (g.follow first start).keys := by
    obtain ⟨p, hp, _, left, hbody⟩ := mem_occurrences_iff.mp ho
    rw [keys_follow]
    exact mem_nonterminals_of_mem_body hp (by simp [hbody])
  have hpass : SetFamily.scan Occurrence.name (Follow.after first) g.occurrences
      (g.follow first start) = g.follow first start := pass_follow g first start
  exact SetFamily.contribution_mem_of_scan_eq hpass ho hkey hl

theorem follows_of_mem_after {follow : SetFamily} {start : String}
    (hfollow : ∀ name, ∀ l ∈ follow.membersOf name, g.Follows start l name) {o : Occurrence}
    (ho : o ∈ g.occurrences) {l : Lookahead} (hl : l ∈ Follow.after g.first follow o) :
    g.Follows start l o.name := by
  obtain ⟨p, hp, howner, left, hbody⟩ := mem_occurrences_iff.mp ho
  rcases mem_after_iff.mp hl with ⟨hl, hne⟩ | ⟨hepsilon, hl⟩
  · have hstarts := mem_firstOf_first_iff.mp hl
    cases l with
    | epsilon => exact absurd rfl hne
    | endOfInput => exact hstarts.elim
    | terminal t => exact .beginning hp hbody hstarts
  · have hrest : g.Vanishes o.rest := mem_firstOf_first_iff.mp hepsilon
    have howned := hfollow o.owner l hl
    rw [howner] at howned
    exact .last hp hbody hrest howned

/-- With the grammar's FIRST sets a nonterminal is followed by exactly what the rules say. -/
theorem mem_follow_iff {start name : String} {l : Lookahead} :
    l ∈ (g.follow g.first start).membersOf name ↔ g.Follows start l name := by
  constructor
  · intro hl
    rw [follow_eq_settle] at hl
    refine SetFamily.settle_within (fun name l => g.Follows start l name)
      (Follow.passBound g g.first) ?_ ?_ name l hl
    · intro sets hsets o ho l hl
      exact follows_of_mem_after hsets ho hl
    · intro name l hl
      obtain ⟨rfl, hstart, rfl⟩ := mem_membersOf_initial_iff.mp hl
      exact .start hstart
  · intro h
    induction h with
    | start h => exact mem_follow_of_mem_initial (mem_membersOf_initial_iff.mpr ⟨rfl, h, rfl⟩)
    | @beginning p left right name t hp hbody h =>
      have ho : ⟨p.lhs, name, right⟩ ∈ g.occurrences :=
        mem_occurrences_iff.mpr ⟨p, hp, rfl, left, hbody⟩
      have hafter : .terminal t ∈ Follow.after g.first (g.follow g.first start)
          ⟨p.lhs, name, right⟩ :=
        mem_after_iff.mpr (Or.inl ⟨h.mem_firstOf, Lookahead.noConfusion⟩)
      exact mem_follow_of_mem_after ho hafter
    | @last p left right name l hp hbody h _ ih =>
      have ho : ⟨p.lhs, name, right⟩ ∈ g.occurrences :=
        mem_occurrences_iff.mpr ⟨p, hp, rfl, left, hbody⟩
      have hafter : l ∈ Follow.after g.first (g.follow g.first start) ⟨p.lhs, name, right⟩ :=
        mem_after_iff.mpr (Or.inr ⟨h.mem_firstOf, ih⟩)
      exact mem_follow_of_mem_after ho hafter

end Grammar

end TopDown
