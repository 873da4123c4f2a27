import Mathlib.Data.List.Forall2
import TopDown.Proofs.Bnf.RoundTrip

/-!
Rule lines. A line that is neither blank nor a comment has a word, and it is malformed in one way at
most: a quote is left open, the first word is no name, the second no equals sign, or there is a
further equals sign. Any other rule line gives the rule whose alternatives stand between its bars.
-/
namespace TopDown.Bnf

/-- The numbered lines whose first character that is not blank exists and begins no comment. -/
def ruleLines (text : String) : List (List Char × Nat) :=
  ((Text.lines text.toList).zipIdx 1).filter fun (line, _) =>
    (line.find? fun c => !Text.isBlank c).any (· ≠ ';')

def Word.isName : Word → Bool
  | name _ => true
  | _ => false

/-- What is wrong with a rule line, if anything is. -/
def lineFault? (line : List Char) : Option LoadError :=
  match words line with
  | none => some .unmatchedQuote
  | some ws =>
    if ¬ ws.head?.any Word.isName then some .missingNonterminal
    else if ws[1]? ≠ some .equals then some .missingEquals
    else if .equals ∈ ws.drop 2 then some .unexpectedEquals
    else none

/-- The errors of the malformed lines, one for each of them. -/
def lineErrors (path : String) (lines : List (List Char × Nat)) : LoadErrors :=
  lines.filterMap fun line => (lineFault? line.1).map (⟨·, .inFile path line.2⟩)

/-- The rule is written on the line: its name, an equals sign, and the words of its alternatives
with bars between them. -/
structure ReadAs (line : List Char × Nat) (read : RuleLine) : Prop where
  line_eq : read.line = line.2
  alternatives_ne_nil : read.rule.alternatives ≠ []
  words_eq : words line.1 =
    some (.name read.rule.name.toList :: .equals :: wordsOfBodies read.rule.alternatives)

section Lines

variable {line : List Char} {reading : Reading} {text : List Char}

theorem isRuleLine_eq (line : List Char) :
    isRuleLine line = (line.find? fun c => !Text.isBlank c).any (· ≠ ';') := by
  unfold isRuleLine Text.trimLeft
  induction line with
  | nil => rfl
  | cons c line ih =>
    cases hblank : Text.isBlank c with
    | true =>
      rw [List.dropWhile_cons_of_pos hblank, List.find?_cons, hblank]
      exact ih
    | false =>
      rw [List.dropWhile_cons_of_neg (Bool.eq_false_iff.mp hblank), List.find?_cons, hblank]
      rfl

/-- A word that is begun is read, or its quote is left open. -/
theorem wordsFrom_ne_nil (h : reading ≠ .between) : wordsFrom reading text ≠ some [] := by
  fun_induction wordsFrom reading text <;> simp_all

/-- A rule line has a first word. -/
theorem words_ne_nil (h : isRuleLine line = true) : words line ≠ some [] := by
  rw [isRuleLine_eq] at h
  rw [words]
  induction line with
  | nil => cases h
  | cons c line ih =>
    cases hblank : Text.isBlank c with
    | true =>
      rw [List.find?_cons, hblank] at h
      rw [wordsFrom_blank hblank]
      exact ih h
    | false =>
      rw [List.find?_cons, hblank] at h
      have hcomment : c ≠ ';' := of_decide_eq_true h
      have hsome : ∀ word rest, (wordsFrom .between rest).map (word :: ·) ≠ some [] := by
        intro word rest hnil
        obtain ⟨_, _, hcons⟩ := Option.map_eq_some_iff.mp hnil
        exact List.cons_ne_nil _ _ hcons
      by_cases hsign : [':', ':', '='] <+: c :: line
      · obtain ⟨rest, hrest⟩ := hsign
        rw [← hrest]
        exact hsome .equals rest
      · rw [wordsFrom_between_cons hsign hcomment, hblank]
        split
        · exact hsome .equals line
        · split
          · exact hsome .bar line
          · split
            · exact wordsFrom_ne_nil Reading.noConfusion
            · exact wordsFrom_ne_nil Reading.noConfusion

end Lines

section Alternatives

variable {ws : List Word} {bodies : List Body} {e : LoadError}

theorem map_eq_ok_iff {f : List Body → List Body} {r : Except LoadError (List Body)} :
    r.map f = .ok bodies ↔ ∃ others, r = .ok others ∧ f others = bodies := by
  cases r <;> simp [Except.map]

theorem map_eq_error_iff {α β : Type} {f : α → β} {r : Except LoadError α} :
    r.map f = .error e ↔ r = .error e := by
  cases r <;> simp [Except.map]

theorem word_cases (word : Word) :
    word = .equals ∨ word = .bar ∨ ∃ symbol, word = wordOf symbol := by
  cases word with
  | equals => exact Or.inl rfl
  | bar => exact Or.inr (Or.inl rfl)
  | epsilon => exact Or.inr (Or.inr ⟨.epsilon, rfl⟩)
  | name text =>
    exact Or.inr (Or.inr ⟨.nonterminal (String.ofList text), by rw [wordOf, String.toList_ofList]⟩)
  | quoted text =>
    exact Or.inr (Or.inr ⟨.terminal (String.ofList text), by rw [wordOf, String.toList_ofList]⟩)

theorem wordOf_ne_equals (symbol : Symbol) : wordOf symbol ≠ .equals := by
  cases symbol <;> exact nofun

theorem alternatives_wordOf (symbol : Symbol) (ws : List Word) :
    alternatives (wordOf symbol :: ws) = (alternatives ws).map (prepend symbol) := by
  cases symbol with
  | terminal name => rw [wordOf, alternatives, String.ofList_toList]
  | nonterminal name => rw [wordOf, alternatives, String.ofList_toList]
  | epsilon => rw [wordOf, alternatives]

theorem wordsOfBodies_bar (h : bodies ≠ []) :
    wordsOfBodies ([] :: bodies) = .bar :: wordsOfBodies bodies := by
  obtain ⟨body, bodies, rfl⟩ := List.exists_cons_of_ne_nil h
  rfl

theorem wordsOfBodies_prepend (symbol : Symbol) (h : bodies ≠ []) :
    prepend symbol bodies ≠ [] ∧
      wordsOfBodies (prepend symbol bodies) = wordOf symbol :: wordsOfBodies bodies := by
  obtain ⟨body, bodies, rfl⟩ := List.exists_cons_of_ne_nil h
  refine ⟨List.cons_ne_nil _ _, ?_⟩
  cases bodies <;> rfl

/-- The alternatives are those whose words these are. -/
theorem alternatives_eq_ok_iff :
    alternatives ws = .ok bodies ↔ bodies ≠ [] ∧ ws = wordsOfBodies bodies := by
  constructor
  · intro h
    induction ws generalizing bodies with
    | nil =>
      cases h
      exact ⟨List.cons_ne_nil _ _, rfl⟩
    | cons word ws ih =>
      rcases word_cases word with rfl | rfl | ⟨symbol, rfl⟩
      · cases h
      · rw [alternatives] at h
        obtain ⟨others, hothers, rfl⟩ := map_eq_ok_iff.mp h
        obtain ⟨hne, rfl⟩ := ih hothers
        exact ⟨List.cons_ne_nil _ _, (wordsOfBodies_bar hne).symm⟩
      · rw [alternatives_wordOf] at h
        obtain ⟨others, hothers, rfl⟩ := map_eq_ok_iff.mp h
        obtain ⟨hne, rfl⟩ := ih hothers
        obtain ⟨hprepend, heq⟩ := wordsOfBodies_prepend symbol hne
        exact ⟨hprepend, heq.symm⟩
  · rintro ⟨hne, rfl⟩
    exact alternatives_wordsOfBodies hne

/-- A further equals sign is all that can be wrong with alternatives. -/
theorem alternatives_eq_error_iff :
    alternatives ws = .error e ↔ .equals ∈ ws ∧ e = .unexpectedEquals := by
  induction ws with
  | nil => simp [alternatives]
  | cons word ws ih =>
    rcases word_cases word with rfl | rfl | ⟨symbol, rfl⟩
    · simp [alternatives, eq_comm]
    · rw [alternatives, map_eq_error_iff, ih]
      simp
    · rw [alternatives_wordOf, map_eq_error_iff, ih]
      simp [(wordOf_ne_equals symbol).symm]

/-- A rule is read off a line that begins with its name and an equals sign. -/
theorem readRule_eq_ok_iff {line : List Char} {rule : Rule} :
    readRule line = .ok rule ↔ rule.alternatives ≠ [] ∧
      words line = some (.name rule.name.toList :: .equals :: wordsOfBodies rule.alternatives) := by
  unfold readRule
  constructor
  · intro h
    split at h
    · cases h
    next ws hwords =>
      rw [hwords]
      unfold ruleOfWords at h
      split at h
      next text rest =>
        cases hrest : alternatives rest with
        | error e =>
          rw [hrest] at h
          cases h
        | ok bodies =>
          rw [hrest] at h
          cases h
          obtain ⟨hne, rfl⟩ := alternatives_eq_ok_iff.mp hrest
          exact ⟨hne, by rw [String.toList_ofList]⟩
      · cases h
      · cases h
  · rintro ⟨hne, hwords⟩
    simp only [hwords, ruleOfWords, alternatives_wordsOfBodies hne, String.ofList_toList]
    rfl

theorem ruleOfWords_equals (text : List Char) :
    ruleOfWords (.name text :: .equals :: ws) = .error e ↔
      .equals ∈ ws ∧ e = .unexpectedEquals := by
  rw [← alternatives_eq_error_iff]
  exact map_eq_error_iff

/-- A line gives no rule just when it is malformed, and then for that reason. -/
theorem readRule_eq_error_iff {line : List Char} :
    readRule line = .error e ↔ lineFault? line = some e := by
  unfold readRule lineFault?
  cases words line with
  | none => simp [eq_comm]
  | some ws =>
    cases ws with
    | nil => simp [ruleOfWords, eq_comm]
    | cons first ws =>
      cases first with
      | name text =>
        cases ws with
        | nil => simp [ruleOfWords, Word.isName, eq_comm]
        | cons second ws =>
          cases second with
          | equals => simp [ruleOfWords_equals, Word.isName, @eq_comm _ e]
          | _ => simp [ruleOfWords, Word.isName, eq_comm]
      | _ => simp [ruleOfWords, Word.isName, eq_comm]

/-- A quote left open is what is wrong just when the line has no words. -/
theorem readRule_unmatchedQuote_iff {line : List Char} :
    readRule line = .error .unmatchedQuote ↔ words line = none := by
  rw [readRule_eq_error_iff, lineFault?]
  cases words line with
  | none => exact iff_of_true rfl rfl
  | some ws =>
    simp only [reduceCtorEq, iff_false]
    split_ifs <;> simp

end Alternatives

section Reading

variable {path : String} {line : List Char × Nat} {lines : List (List Char × Nat)}

theorem lineErrors_of_none (h : lineFault? line.1 = none) :
    lineErrors path (line :: lines) = lineErrors path lines :=
  List.filterMap_cons_none (by rw [h, Option.map_none])

theorem lineErrors_of_some {e : LoadError} (h : lineFault? line.1 = some e) :
    lineErrors path (line :: lines) = ⟨e, .inFile path line.2⟩ :: lineErrors path lines :=
  List.filterMap_cons_some (by rw [h, Option.map_some])

/-- The lines give their rules, or all the errors of those that are malformed. -/
theorem readRules_cases (path : String) (lines : List (List Char × Nat)) :
    (lineErrors path lines = [] ∧
      ∃ rules, readRules path lines = .ok rules ∧ List.Forall₂ ReadAs lines rules) ∨
    (lineErrors path lines ≠ [] ∧ readRules path lines = .error (lineErrors path lines)) := by
  induction lines with
  | nil => exact Or.inl ⟨rfl, [], rfl, .nil⟩
  | cons line lines ih =>
    obtain ⟨text, number⟩ := line
    rw [readRules]
    cases hread : readRule text with
    | ok rule =>
      obtain ⟨hne, hwords⟩ := readRule_eq_ok_iff.mp hread
      have hfault : lineFault? text = none := by
        by_contra hsome
        obtain ⟨e, he⟩ := Option.ne_none_iff_exists'.mp hsome
        rw [readRule_eq_error_iff.mpr he] at hread
        cases hread
      rw [lineErrors_of_none hfault]
      rcases ih with ⟨hnone, rules, hrules, hall⟩ | ⟨hsome, herrors⟩
      · rw [hrules]
        exact Or.inl ⟨hnone, _, rfl, .cons ⟨rfl, hne, hwords⟩ hall⟩
      · rw [herrors]
        exact Or.inr ⟨hsome, rfl⟩
    | error e =>
      rw [lineErrors_of_some (readRule_eq_error_iff.mp hread)]
      rcases ih with ⟨hnone, rules, hrules, _⟩ | ⟨_, herrors⟩
      · rw [hnone, hrules]
        exact Or.inr ⟨List.cons_ne_nil _ _, rfl⟩
      · rw [herrors]
        exact Or.inr ⟨List.cons_ne_nil _ _, rfl⟩

theorem readRules_of_malformed (h : lineErrors path lines ≠ []) :
    readRules path lines = .error (lineErrors path lines) := by
  rcases readRules_cases path lines with ⟨hnone, _⟩ | ⟨_, herrors⟩
  · exact absurd hnone h
  · exact herrors

theorem readRules_of_readAs {rules : List RuleLine} (h : List.Forall₂ ReadAs lines rules) :
    readRules path lines = .ok rules := by
  induction h with
  | nil => rfl
  | @cons line read lines rules hread _ ih =>
    obtain ⟨text, number⟩ := line
    obtain ⟨rule, line⟩ := read
    obtain ⟨rfl, hne, hwords⟩ := hread
    rw [readRules, readRule_eq_ok_iff.mpr ⟨hne, hwords⟩, ih]

/-- The lines that are read are the rule lines of the text. -/
theorem filter_isRuleLine (text : String) :
    (((Text.lines text.toList).zipIdx 1).filter fun (line, _) => isRuleLine line) =
      ruleLines text :=
  List.filter_congr fun line _ => isRuleLine_eq line.1

theorem load_of_readRules {text : String} {rules : List RuleLine}
    (h : readRules path (ruleLines text) = .ok rules) (start : Option String) :
    load path start text = build path start rules := by
  rw [load, filter_isRuleLine, h]

/-- The numbers of the rule lines ascend. -/
theorem ascending_ruleLines (text : String) :
    ((ruleLines text).map Prod.snd).Pairwise (· < ·) := by
  have hall : (((Text.lines text.toList).zipIdx 1).map Prod.snd).Pairwise (· < ·) := by
    rw [List.zipIdx_map_snd]
    exact List.pairwise_lt_range'
  exact hall.sublist (List.filter_sublist.map Prod.snd)

theorem lines_of_readAs {rules : List RuleLine} (h : List.Forall₂ ReadAs lines rules) :
    rules.map (·.line) = lines.map Prod.snd := by
  induction h with
  | nil => rfl
  | cons hread _ ih => rw [List.map_cons, List.map_cons, hread.line_eq, ih]

theorem words_ne_nil_of_mem {text : String} (h : line ∈ ruleLines text) :
    words line.1 ≠ some [] := by
  rw [← filter_isRuleLine] at h
  exact words_ne_nil (List.mem_filter.mp h).2

end Reading

end TopDown.Bnf
