import TopDown.Bnf.Print

/-!
What printed symbols are read as. A text spells some words if these words are read off it whatever
comes after it, as long as that begins with a blank or is nothing. Texts that spell are joined by
blanks; a name that can stand bare, a quoted text with its backslashes and the signs all spell one
word each.
-/
namespace TopDown.Bnf

section Reading

variable {c : Char} {read text rest : List Char}

theorem wordsFrom_between_cons (hsign : ¬ ([':', ':', '='] <+: c :: rest)) (hcomment : c ≠ ';') :
    wordsFrom .between (c :: rest) =
      if c = '=' then (wordsFrom .between rest).map (.equals :: ·)
      else if c = '|' then (wordsFrom .between rest).map (.bar :: ·)
      else if c = '"' then wordsFrom (.inQuotes []) rest
      else if Text.isBlank c then wordsFrom .between rest
      else wordsFrom (.bare [c]) rest := by
  rw [wordsFrom]
  · rw [if_neg hcomment]
  · intro later hc hrest
    apply hsign
    rw [hc, hrest]
    exact ⟨later, rfl⟩

theorem wordsFrom_blank (hblank : Text.isBlank c = true) :
    wordsFrom .between (c :: rest) = wordsFrom .between rest := by
  have hne : ∀ sign, Text.isBlank sign = false → c ≠ sign := by
    intro sign hsign heq
    rw [← heq, hblank] at hsign
    cases hsign
  have hsign : ¬ ([':', ':', '='] <+: c :: rest) := by
    intro hprefix
    have hcolon := (List.cons_prefix_cons.mp hprefix).1
    exact hne ':' (by decide) hcolon.symm
  rw [wordsFrom_between_cons hsign (hne ';' (by decide)), if_neg (hne '=' (by decide)),
    if_neg (hne '|' (by decide)), if_neg (hne '"' (by decide)), if_pos hblank]

theorem wordsFrom_bare_nil : wordsFrom (.bare read) [] = some [.ofBare read.reverse] := rfl

theorem wordsFrom_bare_cons :
    wordsFrom (.bare read) (c :: rest) =
      if Text.isBlank c then (wordsFrom .between rest).map (.ofBare read.reverse :: ·)
      else wordsFrom (.bare (c :: read)) rest := rfl

/-- A bare word runs on over all that is not blank. -/
theorem wordsFrom_bare (h : ∀ c ∈ text, Text.isBlank c = false) :
    wordsFrom (.bare read) (text ++ rest) = wordsFrom (.bare (text.reverse ++ read)) rest := by
  induction text generalizing read with
  | nil => rfl
  | cons c text ih =>
    have hc : ¬ Text.isBlank c = true := by
      rw [h c List.mem_cons_self]
      exact Bool.false_ne_true
    rw [List.cons_append, wordsFrom_bare_cons, if_neg hc,
      ih fun d hd => h d (List.mem_cons_of_mem _ hd), List.reverse_cons, List.append_assoc]
    rfl

/-- A backslash takes the next character as it is. -/
theorem wordsFrom_escaped (c : Char) :
    wordsFrom (.inQuotes read) ('\\' :: c :: rest) = wordsFrom (.inQuotes (c :: read)) rest := rfl

/-- A quote ends the word. -/
theorem wordsFrom_closed :
    wordsFrom (.inQuotes read) ('"' :: rest) =
      (wordsFrom .between rest).map (.ofQuoted read.reverse :: ·) := rfl

theorem wordsFrom_inQuotes (hquote : c ≠ '"') (hslash : c ≠ '\\') :
    wordsFrom (.inQuotes read) (c :: rest) = wordsFrom (.inQuotes (c :: read)) rest := by
  rw [wordsFrom]
  · exact hquote
  · intro hc
    exact absurd hc hslash
  · intro d later hc
    exact absurd hc hslash

/-- What stands between quotes is read as it was before its backslashes were put in. -/
theorem wordsFrom_escapeQuoted :
    wordsFrom (.inQuotes read) (escapeQuoted text ++ '"' :: rest) =
      (wordsFrom .between rest).map (.ofQuoted (read.reverse ++ text) :: ·) := by
  induction text generalizing read with
  | nil =>
    rw [escapeQuoted, List.nil_append, wordsFrom_closed, List.append_nil]
  | cons c text ih =>
    have hread : read.reverse ++ c :: text = (c :: read).reverse ++ text := by
      rw [List.reverse_cons, List.append_assoc]
      rfl
    rw [hread, ← ih, escapeQuoted]
    split
    · exact wordsFrom_escaped c
    · rename_i hplain
      rw [not_or] at hplain
      exact wordsFrom_inQuotes hplain.1 hplain.2

end Reading

theorem map_nil_append (rest : Option (List Word)) : rest.map ([] ++ ·) = rest := by
  cases rest <;> rfl

theorem map_append_map (ws ws' : List Word) (rest : Option (List Word)) :
    (rest.map (ws' ++ ·)).map (ws ++ ·) = rest.map (ws ++ ws' ++ ·) := by
  rw [Option.map_map]
  simp only [Function.comp_def, List.append_assoc]

/-- What follows a word read so far does not lengthen it. -/
def Breaks (rest : List Char) : Prop := ∀ c ∈ rest.head?, Text.isBlank c = true

theorem breaks_blank (rest : List Char) : Breaks (' ' :: rest) := by
  intro c hc
  rw [← Option.some.inj hc]
  rfl

/-- What can be the end of a line is read in the same way before whatever breaks. -/
theorem wordsFrom_of_breaks {reading : Reading} {rest : List Char} {last : List Word}
    (h : wordsFrom reading [] = some last) (hrest : Breaks rest) :
    wordsFrom reading rest = (wordsFrom .between rest).map (last ++ ·) := by
  cases reading with
  | between =>
    cases h
    exact (map_nil_append _).symm
  | bare read =>
    cases h
    cases rest with
    | nil => rfl
    | cons c rest =>
      have hc : Text.isBlank c = true := hrest c rfl
      rw [wordsFrom_blank hc, wordsFrom_bare_cons, if_pos hc]
      rfl
  | inQuotes read => cases h

/-- The words are read off the text before whatever breaks. -/
def Spells (text : List Char) (ws : List Word) : Prop :=
  ∀ rest, Breaks rest → wordsFrom .between (text ++ rest) = (wordsFrom .between rest).map (ws ++ ·)

theorem not_blank_of_any {text : List Char} (h : text.any Text.isBlank = false) :
    ∀ c ∈ text, Text.isBlank c = false :=
  fun c hc => Bool.eq_false_iff.mpr (List.any_eq_false.mp h c hc)

/-- A name that is read as one bare word. -/
structure BareName (text : List Char) : Prop where
  ne_nil : text ≠ []
  no_blank : ∀ c ∈ text, Text.isBlank c = false
  no_sign : ∀ sign ∈ [';', '=', '|', '"'], text.head? ≠ some sign
  no_equals : ¬ ([':', ':', '='] <+: text)
  ne_epsilon : text ≠ ['ε']

namespace Spells

variable {text text' : List Char} {ws ws' : List Word}

theorem words_eq (h : Spells text ws) : words text = some ws := by
  have hall := h [] (fun c hc => nomatch hc)
  have hend : wordsFrom .between [] = some [] := rfl
  rw [List.append_nil, hend, Option.map_some, List.append_nil] at hall
  exact hall

theorem nil : Spells [] [] := by
  intro rest _
  exact (map_nil_append _).symm

theorem join (h : Spells text ws) (h' : Spells text' ws') :
    Spells (text ++ ' ' :: text') (ws ++ ws') := by
  intro rest hrest
  have hbreaks : Breaks (' ' :: (text' ++ rest)) := breaks_blank _
  rw [List.append_assoc, List.cons_append, h _ hbreaks, wordsFrom_blank rfl, h' rest hrest,
    map_append_map]

/-- Parts that spell, with a separator between them that spells as well. -/
theorem intercalate {α : Type} {print : α → List Char} {meaning : α → List Word}
    {separator : List Char} {between : List Word} {parts : List α}
    (hseparator : ∀ {text ws text' ws'}, Spells text ws → Spells text' ws' →
      Spells (text ++ separator ++ text') (ws ++ between ++ ws'))
    (h : ∀ a ∈ parts, Spells (print a) (meaning a)) :
    Spells (separator.intercalate (parts.map print)) (between.intercalate (parts.map meaning)) := by
  induction parts with
  | nil => exact nil
  | cons a parts ih =>
    have ha := h a List.mem_cons_self
    have hparts := ih fun b hb => h b (List.mem_cons_of_mem a hb)
    cases parts with
    | nil =>
      simp only [List.map_cons, List.map_nil, List.intercalate_singleton]
      exact ha
    | cons b parts =>
      simp only [List.map_cons, List.intercalate_cons_cons] at hparts ⊢
      exact hseparator ha hparts

/-- A sign that is no blank does not come about where the text meets what breaks. -/
theorem not_sign_prefix {sign rest : List Char} (hsign : ∀ c ∈ sign, Text.isBlank c = false)
    (h : ¬ (sign <+: text)) (hrest : Breaks rest) : ¬ (sign <+: text ++ rest) := by
  intro hprefix
  have htext : text <+: text ++ rest := List.prefix_append text rest
  rcases List.prefix_or_prefix_of_prefix hprefix htext with hshort | ⟨tail, rfl⟩
  · exact h hshort
  · have htail : tail <+: rest := (List.prefix_append_right_inj text).mp hprefix
    cases tail with
    | nil =>
      rw [List.append_nil] at h
      exact h (List.prefix_refl text)
    | cons c tail =>
      obtain ⟨later, rfl⟩ := htail
      have hc : Text.isBlank c = true := hrest c rfl
      rw [hsign c (List.mem_append_right text List.mem_cons_self)] at hc
      cases hc

theorem bare (h : BareName text) : Spells text [.name text] := by
  intro rest hrest
  obtain ⟨c, later, rfl⟩ := List.exists_cons_of_ne_nil h.ne_nil
  have hc : ¬ Text.isBlank c = true := by
    rw [h.no_blank c List.mem_cons_self]
    exact Bool.false_ne_true
  have hne : ∀ sign ∈ [';', '=', '|', '"'], c ≠ sign := by
    intro sign hsign heq
    exact h.no_sign sign hsign (congrArg some heq)
  have hsign : ¬ ([':', ':', '='] <+: c :: (later ++ rest)) :=
    not_sign_prefix (not_blank_of_any rfl) h.no_equals hrest
  have hbare : wordsFrom .between (c :: (later ++ rest)) =
      wordsFrom (.bare ((c :: later).reverse)) rest := by
    rw [wordsFrom_between_cons hsign (hne ';' (by simp)), if_neg (hne '=' (by simp)),
      if_neg (hne '|' (by simp)), if_neg (hne '"' (by simp)), if_neg hc,
      wordsFrom_bare fun d hd => h.no_blank d (List.mem_cons_of_mem c hd), List.reverse_cons]
  have hword : Word.ofBare (c :: later) = .name (c :: later) := if_neg h.ne_epsilon
  have hend : wordsFrom (.bare ((c :: later).reverse)) [] = some [.name (c :: later)] := by
    rw [wordsFrom_bare_nil, List.reverse_reverse, hword]
  rw [List.cons_append, hbare, wordsFrom_of_breaks hend hrest]

theorem quoted (h : text ≠ []) : Spells ('"' :: escapeQuoted text ++ ['"']) [.quoted text] := by
  intro rest _
  have hword : Word.ofQuoted text = .quoted text := if_neg h
  have hopen : ∀ more, wordsFrom .between ('"' :: more) = wordsFrom (.inQuotes []) more :=
    fun _ => rfl
  rw [List.append_assoc, List.cons_append, hopen, List.singleton_append, wordsFrom_escapeQuoted,
    List.reverse_nil, List.nil_append, hword]
  rfl

end Spells

end TopDown.Bnf
