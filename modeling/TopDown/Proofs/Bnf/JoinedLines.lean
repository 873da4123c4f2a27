import TopDown.Proofs.Bnf.RuleLines

/-!
Lines joined by a blank. Reading goes over a line step by step until it comes to the end, to a
comment, or to a backslash that has nothing to stand for. A blank ends whatever word the end of the
line has left open, and no sign comes about across it: the words of a line without a comment are
followed by those of the line that it is joined to, while a comment takes that line in. So a comment
can be put behind any line and costs it no word.
-/
namespace TopDown.Bnf

/-- One step of reading: from where it stands with some text before it, the words it completes,
where it stands then and what is left of the text. -/
inductive Advances : Reading → List Char → List Word → Reading → List Char → Prop where
  | longEquals {rest : List Char} :
      Advances .between (':' :: ':' :: '=' :: rest) [.equals] .between rest
  | equals {rest : List Char} : Advances .between ('=' :: rest) [.equals] .between rest
  | bar {rest : List Char} : Advances .between ('|' :: rest) [.bar] .between rest
  | blank {c : Char} {rest : List Char} (hblank : Text.isBlank c = true) :
      Advances .between (c :: rest) [] .between rest
  | openBare {c : Char} {rest : List Char} (hblank : Text.isBlank c = false)
      (hsign : c ∉ [';', '=', '|', '"']) (hequals : ¬ ([':', ':', '='] <+: c :: rest)) :
      Advances .between (c :: rest) [] (.bare [c]) rest
  | bare {c : Char} {read rest : List Char} (hblank : Text.isBlank c = false) :
      Advances (.bare read) (c :: rest) [] (.bare (c :: read)) rest
  | closeBare {c : Char} {read rest : List Char} (hblank : Text.isBlank c = true) :
      Advances (.bare read) (c :: rest) [.ofBare read.reverse] .between rest
  | openQuotes {rest : List Char} : Advances .between ('"' :: rest) [] (.inQuotes []) rest
  | quoted {c : Char} {read rest : List Char} (hquote : c ≠ '"') (hslash : c ≠ '\\') :
      Advances (.inQuotes read) (c :: rest) [] (.inQuotes (c :: read)) rest
  | escaped {c : Char} {read rest : List Char} :
      Advances (.inQuotes read) ('\\' :: c :: rest) [] (.inQuotes (c :: read)) rest
  | closeQuotes {read rest : List Char} :
      Advances (.inQuotes read) ('"' :: rest) [.ofQuoted read.reverse] .between rest

/-- Any number of steps, with all the words that they complete. -/
inductive Passes : Reading → List Char → List Word → Reading → List Char → Prop where
  | refl (reading : Reading) (text : List Char) : Passes reading text [] reading text
  | step {reading reading' reading'' : Reading} {text text' text'' : List Char}
      {ws ws' : List Word} (h : Advances reading text ws reading' text') :
      Passes reading' text' ws' reading'' text'' → Passes reading text (ws ++ ws') reading'' text''

/-- Where no further step is taken. -/
inductive Halts : Reading → List Char → Prop where
  | ended (reading : Reading) : Halts reading []
  | comment (comment : List Char) : Halts .between (';' :: comment)
  | loneBackslash (read : List Char) : Halts (.inQuotes read) ['\\']

/-- A semicolon opens a comment: reading comes to it where a word could start. -/
def Commented (line : List Char) : Prop :=
  ∃ ws comment, Passes .between line ws .between (';' :: comment)

section Steps

variable {reading reading' : Reading} {text text' rest : List Char} {ws : List Word}

theorem Advances.wordsFrom_eq (h : Advances reading text ws reading' text') :
    wordsFrom reading text = (wordsFrom reading' text').map (ws ++ ·) := by
  cases h with
  | longEquals => rfl
  | equals => rfl
  | bar => rfl
  | blank hblank => rw [map_nil_append, wordsFrom_blank hblank]
  | openBare hblank hsign hequals =>
    simp only [List.mem_cons, List.not_mem_nil, or_false, not_or] at hsign
    obtain ⟨hcomment, hequal, hbar, hquote⟩ := hsign
    rw [map_nil_append, wordsFrom_between_cons hequals hcomment, if_neg hequal, if_neg hbar,
      if_neg hquote, hblank, if_neg Bool.false_ne_true]
  | bare hblank => rw [map_nil_append, wordsFrom_bare_cons, hblank, if_neg Bool.false_ne_true]
  | closeBare hblank =>
    rw [wordsFrom_bare_cons, if_pos hblank]
    rfl
  | openQuotes => exact (map_nil_append _).symm
  | quoted hquote hslash => rw [map_nil_append, wordsFrom_inQuotes hquote hslash]
  | escaped => rw [map_nil_append, wordsFrom_escaped]
  | closeQuotes => exact wordsFrom_closed

theorem Advances.length_lt (h : Advances reading text ws reading' text') :
    text'.length < text.length := by
  cases h <;> simp only [List.length_cons] <;> omega

/-- A step is the same when the text goes on with what breaks. -/
theorem Advances.append (h : Advances reading text ws reading' text') (hrest : Breaks rest) :
    Advances reading (text ++ rest) ws reading' (text' ++ rest) := by
  cases h with
  | longEquals => exact .longEquals
  | equals => exact .equals
  | bar => exact .bar
  | blank hblank => exact .blank hblank
  | openBare hblank hsign hequals =>
    -- Colons at the end of the text are the one case in which a step looks beyond it.
    have hstraddle := Spells.not_sign_prefix (not_blank_of_any rfl) hequals hrest
    exact .openBare hblank hsign hstraddle
  | bare hblank => exact .bare hblank
  | closeBare hblank => exact .closeBare hblank
  | openQuotes => exact .openQuotes
  | quoted hquote hslash => exact .quoted hquote hslash
  | escaped => exact .escaped
  | closeQuotes => exact .closeQuotes

theorem halts_or_advances (reading : Reading) (text : List Char) :
    Halts reading text ∨ ∃ ws reading' text', Advances reading text ws reading' text' := by
  cases text with
  | nil => exact Or.inl (.ended reading)
  | cons c text =>
    cases reading with
    | between =>
      by_cases hequals : [':', ':', '='] <+: c :: text
      · obtain ⟨later, hlater⟩ := hequals
        rw [← hlater]
        exact Or.inr ⟨_, _, _, .longEquals⟩
      · cases hblank : Text.isBlank c with
        | true => exact Or.inr ⟨_, _, _, .blank hblank⟩
        | false =>
          by_cases hsign : c ∈ [';', '=', '|', '"']
          · simp only [List.mem_cons, List.not_mem_nil, or_false] at hsign
            rcases hsign with rfl | rfl | rfl | rfl
            · exact Or.inl (.comment text)
            · exact Or.inr ⟨_, _, _, .equals⟩
            · exact Or.inr ⟨_, _, _, .bar⟩
            · exact Or.inr ⟨_, _, _, .openQuotes⟩
          · exact Or.inr ⟨_, _, _, .openBare hblank hsign hequals⟩
    | bare read =>
      cases hblank : Text.isBlank c with
      | true => exact Or.inr ⟨_, _, _, .closeBare hblank⟩
      | false => exact Or.inr ⟨_, _, _, .bare hblank⟩
    | inQuotes read =>
      by_cases hquote : c = '"'
      · subst hquote
        exact Or.inr ⟨_, _, _, .closeQuotes⟩
      · by_cases hslash : c = '\\'
        · subst hslash
          cases text with
          | nil => exact Or.inl (.loneBackslash read)
          | cons d text => exact Or.inr ⟨_, _, _, .escaped⟩
        · exact Or.inr ⟨_, _, _, .quoted hquote hslash⟩

theorem Passes.wordsFrom_eq (h : Passes reading text ws reading' text') :
    wordsFrom reading text = (wordsFrom reading' text').map (ws ++ ·) := by
  induction h with
  | refl reading text => exact (map_nil_append _).symm
  | step hstep _ ih => rw [hstep.wordsFrom_eq, ih, map_append_map]

theorem Passes.append (h : Passes reading text ws reading' text') (hrest : Breaks rest) :
    Passes reading (text ++ rest) ws reading' (text' ++ rest) := by
  induction h with
  | refl reading text => exact .refl reading (text ++ rest)
  | step hstep _ ih => exact .step (hstep.append hrest) ih

/-- Reading halts, wherever it starts and whatever it reads. -/
theorem exists_passes (reading : Reading) (text : List Char) :
    ∃ ws reading' text', Passes reading text ws reading' text' ∧ Halts reading' text' := by
  induction hn : text.length using Nat.strongRecOn generalizing reading text with
  | ind n ih =>
    rcases halts_or_advances reading text with hhalts | ⟨ws, reading', text', hstep⟩
    · exact ⟨[], reading, text, .refl reading text, hhalts⟩
    · have hlength : text'.length < n := hn ▸ hstep.length_lt
      obtain ⟨ws', reading'', text'', hpasses, hhalts⟩ := ih _ hlength reading' text' rfl
      exact ⟨ws ++ ws', reading'', text'', .step hstep hpasses, hhalts⟩

/-- A text that has words is read to its end, where its last word may still be open, or else up to a
comment. -/
theorem passes_of_wordsFrom (h : wordsFrom reading text = some ws) :
    (∃ done last reading', Passes reading text done reading' [] ∧
      wordsFrom reading' [] = some last ∧ ws = done ++ last) ∨
    ∃ comment, Passes reading text ws .between (';' :: comment) := by
  obtain ⟨done, reading', text', hpasses, hhalts⟩ := exists_passes reading text
  rw [hpasses.wordsFrom_eq] at h
  cases hhalts with
  | ended reading' =>
    obtain ⟨last, hlast, hws⟩ := Option.map_eq_some_iff.mp h
    exact Or.inl ⟨done, last, reading', hpasses, hlast, hws.symm⟩
  | comment comment =>
    have hws : done ++ [] = ws := Option.some.inj h
    rw [List.append_nil] at hws
    subst hws
    exact Or.inr ⟨comment, hpasses⟩
  | loneBackslash read => cases h

end Steps

section Lines

variable {line rest : List Char} {ws : List Word}

/-- A comment takes in whatever the line goes on with. -/
theorem words_append_of_commented (h : Commented line) (hrest : Breaks rest) :
    words (line ++ rest) = words line := by
  obtain ⟨ws, comment, hpasses⟩ := h
  have hlonger := (hpasses.append hrest).wordsFrom_eq
  have hline := hpasses.wordsFrom_eq
  exact hlonger.trans hline.symm

theorem Spells.of_words (h : words line = some ws) (hcomment : ¬ Commented line) :
    Spells line ws := by
  intro rest hrest
  rcases passes_of_wordsFrom h with ⟨done, last, reading, hpasses, hlast, rfl⟩ | ⟨comment, hpasses⟩
  · rw [(hpasses.append hrest).wordsFrom_eq, List.nil_append, wordsFrom_of_breaks hlast hrest,
      map_append_map]
  · exact absurd ⟨ws, comment, hpasses⟩ hcomment

/-- Lines that spell their words are those without a comment. -/
theorem spells_iff : Spells line ws ↔ words line = some ws ∧ ¬ Commented line := by
  constructor
  · intro h
    refine ⟨h.words_eq, fun hcomment => ?_⟩
    -- A further word is read off the longer line, which a comment would have taken in.
    have hmore : words (line ++ [' ', '=']) = some (ws ++ [.equals]) := h _ (breaks_blank _)
    rw [words_append_of_commented hcomment (breaks_blank _), h.words_eq] at hmore
    exact List.cons_ne_nil _ _ (List.self_eq_append_right.mp (Option.some.inj hmore))
  · rintro ⟨hwords, hcomment⟩
    exact .of_words hwords hcomment

/-- The words of a line come before those of the line that it is joined to, and a quote is left open
just when that one leaves it open; but a comment in the line takes the other one in. A comment put
behind a line is never read. -/
theorem words_joined (h : words line = some ws) :
    (¬ Commented line → ∀ next,
      words (line ++ ' ' :: next) = (words next).map (ws ++ ·) ∧
      (readRule (line ++ ' ' :: next) = .error .unmatchedQuote ↔ words next = none)) ∧
    (Commented line → ∀ next, words (line ++ ' ' :: next) = some ws) ∧
    ∀ comment, words (line ++ ' ' :: ';' :: comment) = some ws := by
  have hjoin : ¬ Commented line → ∀ next,
      words (line ++ ' ' :: next) = (words next).map (ws ++ ·) := by
    intro hcomment next
    have hspells := Spells.of_words h hcomment (' ' :: next) (breaks_blank next)
    rwa [wordsFrom_blank rfl] at hspells
  have hswallow : Commented line → ∀ next, words (line ++ ' ' :: next) = some ws := by
    intro hcomment next
    rw [words_append_of_commented hcomment (breaks_blank next), h]
  refine ⟨fun hcomment next => ⟨hjoin hcomment next, ?_⟩, hswallow, fun comment => ?_⟩
  · rw [readRule_unmatchedQuote_iff, hjoin hcomment next, Option.map_eq_none_iff]
  · by_cases hcomment : Commented line
    · exact hswallow hcomment (';' :: comment)
    · rw [hjoin hcomment]
      exact congrArg some (List.append_nil ws)

/-- Neither of the semicolons opens a comment. -/
def semicolons : List Char := "A; ::= \";\\\"\"".toList

/-- The second semicolon opens a comment, the first one does not. -/
def remarked : List Char := "A; =;\"".toList

theorem spells_semicolons :
    Spells semicolons [.name ['A', ';'], .equals, .quoted [';', '"']] := by
  have hname : BareName ['A', ';'] :=
    ⟨by decide, not_blank_of_any (by decide), by simp, by decide, by decide⟩
  have hequals : Spells [':', ':', '='] [.equals] := fun _ _ => rfl
  exact (Spells.bare hname).join (hequals.join (.quoted (List.cons_ne_nil ';' ['"'])))

theorem commented_remarked : Commented remarked := by
  refine ⟨[.name ['A', ';'], .equals], ['"'], ?_⟩
  exact .step (.openBare (by decide) (by decide) (by decide)) (.step (.bare (by decide))
    (.step (.closeBare (by decide)) (.step .equals (.refl _ _))))

theorem words_joined_semicolons :
    words semicolons = some [.name ['A', ';'], .equals, .quoted [';', '"']] ∧
      ¬ Commented semicolons ∧
      words (semicolons ++ " | B".toList) =
        some [.name ['A', ';'], .equals, .quoted [';', '"'], .bar, .name ['B']] ∧
      readRule (semicolons ++ " | \"B".toList) = .error .unmatchedQuote ∧
      words (semicolons ++ " ;\" | =".toList) =
        some [.name ['A', ';'], .equals, .quoted [';', '"']] ∧
      words remarked = some [.name ['A', ';'], .equals] ∧ Commented remarked ∧
      words (remarked ++ " | B".toList) = some [.name ['A', ';'], .equals] := by
  obtain ⟨hwords, hcomment⟩ := spells_iff.mp spells_semicolons
  have hremarked : words remarked = some [.name ['A', ';'], .equals] := by decide
  obtain ⟨hjoin, -, hbehind⟩ := words_joined hwords
  obtain ⟨-, hswallow, -⟩ := words_joined hremarked
  have hbar : words "| B".toList = some [.bar, .name ['B']] := by decide
  have hopen : words "| \"B".toList = none := by decide
  refine ⟨hwords, hcomment, ?_, ?_, ?_, hremarked, commented_remarked, ?_⟩
  · exact (hjoin hcomment "| B".toList).1.trans (congrArg _ hbar)
  · exact (hjoin hcomment "| \"B".toList).2.mpr hopen
  · exact hbehind "\" | =".toList
  · exact hswallow commented_remarked "| B".toList

end Lines

end TopDown.Bnf
