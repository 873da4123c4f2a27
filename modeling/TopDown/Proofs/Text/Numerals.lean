import TopDown.Text.Blank
import TopDown.Text.Unsigned

/-!
Numerals. What is read as a number is a numeral of it, and every numeral below the bound is read; a
number that is written in decimal is one. Blanks around a numeral are not part of it, and trimming
takes away just them.
-/
namespace TopDown.Text

/-- Decimal digits of a number below a bound; a plus sign may come first. -/
def Numeral (bound : Nat) (text : List Char) (n : Nat) : Prop :=
  ∃ digits, (text = digits ∨ text = '+' :: digits) ∧ digits ≠ [] ∧
    (∀ c ∈ digits, c.isDigit = true) ∧ Nat.ofDigitChars 10 digits 0 = n ∧ n < bound

/-- The text with blanks before and after it. -/
def Padded (core text : List Char) : Prop :=
  ∃ before after, text = before ++ core ++ after ∧
    (∀ c ∈ before, isBlank c = true) ∧ ∀ c ∈ after, isBlank c = true

section Digits

variable {c : Char} {text : List Char} {bound n value : Nat}

theorem isDigit_iff : c.isDigit = true ↔ 48 ≤ c.toNat ∧ c.toNat ≤ 57 := by
  simp only [Char.isDigit, Bool.and_eq_true, decide_eq_true_eq]
  exact Iff.rfl

theorem digit?_eq_some_iff {d : Nat} :
    digit? c = some d ↔ c.isDigit = true ∧ c.toNat - '0'.toNat = d := by
  rw [digit?, Option.ite_none_right_eq_some, Option.some.injEq, isDigit_iff]
  exact Iff.rfl

theorem readDigits_eq_some_iff :
    readDigits value text = some n ↔
      (∀ c ∈ text, c.isDigit = true) ∧ Nat.ofDigitChars 10 text value = n := by
  induction text generalizing value with
  | nil => simp [readDigits, Nat.ofDigitChars]
  | cons c rest ih =>
    rw [readDigits, Option.bind_eq_bind, Option.bind_eq_some_iff, List.forall_mem_cons]
    constructor
    · rintro ⟨d, hd, hrest⟩
      obtain ⟨hc, rfl⟩ := digit?_eq_some_iff.mp hd
      obtain ⟨hdigits, hn⟩ := ih.mp hrest
      exact ⟨⟨hc, hdigits⟩, hn⟩
    · rintro ⟨⟨hc, hdigits⟩, hn⟩
      exact ⟨_, digit?_eq_some_iff.mpr ⟨hc, rfl⟩, ih.mpr ⟨hdigits, hn⟩⟩

theorem withoutPlus_cases (text : List Char) :
    text = withoutPlus text ∨ text = '+' :: withoutPlus text := by
  unfold withoutPlus
  split
  · exact Or.inr rfl
  · exact Or.inl rfl

theorem withoutPlus_of_digits (h : ∀ c ∈ text, c.isDigit = true) : withoutPlus text = text := by
  unfold withoutPlus
  split
  · cases h '+' List.mem_cons_self
  · rfl

theorem readUnsigned_of_ne_nil (h : withoutPlus text ≠ []) :
    readUnsigned bound text = (readDigits 0 (withoutPlus text)).filter (· < bound) := by
  unfold readUnsigned
  split
  · exact absurd ‹_› h
  · rfl

theorem readUnsigned_eq_some_iff : readUnsigned bound text = some n ↔ Numeral bound text n := by
  constructor
  · intro h
    have hne : withoutPlus text ≠ [] := by
      intro hnil
      rw [readUnsigned, hnil] at h
      cases h
    rw [readUnsigned_of_ne_nil hne, Option.filter_eq_some_iff, readDigits_eq_some_iff] at h
    obtain ⟨⟨hdigits, hn⟩, hlt⟩ := h
    exact ⟨_, withoutPlus_cases text, hne, hdigits, hn, of_decide_eq_true hlt⟩
  · rintro ⟨digits, htext, hne, hdigits, hn, hlt⟩
    have hplus : withoutPlus text = digits := by
      rcases htext with rfl | rfl
      · exact withoutPlus_of_digits hdigits
      · rfl
    rw [readUnsigned_of_ne_nil (hplus ▸ hne), hplus, Option.filter_eq_some_iff,
      readDigits_eq_some_iff]
    exact ⟨⟨hdigits, hn⟩, decide_eq_true hlt⟩

theorem numeral_toString (h : n < bound) : Numeral bound (toString n).toList n := by
  have hdigits : (toString n).toList = Nat.toDigits 10 n := by
    rw [Nat.toString_eq_ofList_toDigits, String.toList_ofList]
  rw [hdigits]
  exact ⟨_, Or.inl rfl, Nat.toDigits_ne_nil,
    fun c hc => Nat.isDigit_of_mem_toDigits (by decide) (by decide) hc,
    Nat.ofDigitChars_ten_toDigits, h⟩

theorem isBlank_of_isDigit (h : c.isDigit = true) : isBlank c = false := by
  rw [isDigit_iff] at h
  simp only [isBlank, blankRanges, List.any_cons, List.any_nil, Bool.or_false, Bool.or_eq_false_iff,
    Bool.and_eq_false_iff, decide_eq_false_iff_not]
  omega

theorem Numeral.ne_nil (h : Numeral bound text n) : text ≠ [] := by
  obtain ⟨digits, rfl | rfl, hne, _⟩ := h
  · exact hne
  · exact List.cons_ne_nil _ _

theorem Numeral.no_blank (h : Numeral bound text n) : ∀ c ∈ text, isBlank c = false := by
  obtain ⟨digits, htext, _, hdigits, _⟩ := h
  have hblank : ∀ c ∈ digits, isBlank c = false := fun c hc => isBlank_of_isDigit (hdigits c hc)
  rcases htext with rfl | rfl
  · exact hblank
  · exact List.forall_mem_cons.mpr ⟨rfl, hblank⟩

end Digits

section Trimming

variable {core text before after rest : List Char} {c : Char}

theorem trimLeft_append (hbefore : ∀ c ∈ before, isBlank c = true) (rest : List Char) :
    trimLeft (before ++ rest) = trimLeft rest := List.dropWhile_append_of_pos hbefore

theorem trimLeft_cons (hc : isBlank c = false) (rest : List Char) :
    trimLeft (c :: rest) = c :: rest := by
  rw [trimLeft, List.dropWhile_cons, hc]
  rfl

theorem trimLeft_of_no_blank (hne : text ≠ []) (htext : ∀ c ∈ text, isBlank c = false)
    (rest : List Char) : trimLeft (text ++ rest) = text ++ rest := by
  obtain ⟨c, cs, rfl⟩ := List.exists_cons_of_ne_nil hne
  exact trimLeft_cons (htext c List.mem_cons_self) _

/-- Trimming on the left takes away blanks. -/
theorem exists_trimLeft (text : List Char) :
    ∃ before, text = before ++ trimLeft text ∧ ∀ c ∈ before, isBlank c = true :=
  ⟨text.takeWhile isBlank, List.takeWhile_append_dropWhile.symm,
    fun c hc => List.all_eq_true.mp List.all_takeWhile c hc⟩

theorem padded_trim (text : List Char) : Padded (trim text) text := by
  obtain ⟨before, hbefore, hblank⟩ := exists_trimLeft text
  obtain ⟨after, hafter, hblank'⟩ := exists_trimLeft (trimLeft text).reverse
  refine ⟨before, after.reverse, ?_, hblank, fun c hc => hblank' c (List.mem_reverse.mp hc)⟩
  have hleft := congrArg List.reverse hafter
  rw [List.reverse_reverse, List.reverse_append] at hleft
  rw [trim, List.append_assoc, ← hleft]
  exact hbefore

/-- A text without blanks is what trimming leaves of it when blanks are put around it. -/
theorem Padded.trim_eq (h : Padded core text) (hne : core ≠ [])
    (hcore : ∀ c ∈ core, isBlank c = false) : trim text = core := by
  obtain ⟨before, after, rfl, hbefore, hafter⟩ := h
  have hleft : trimLeft (before ++ core ++ after) = core ++ after := by
    rw [List.append_assoc, trimLeft_append hbefore, trimLeft_of_no_blank hne hcore]
  have hright : trimLeft (core ++ after).reverse = core.reverse := by
    have hend := trimLeft_of_no_blank (mt List.reverse_eq_nil_iff.mp hne)
      (fun c hc => hcore c (List.mem_reverse.mp hc)) []
    rw [List.append_nil] at hend
    rw [List.reverse_append, trimLeft_append fun c hc => hafter c (List.mem_reverse.mp hc), hend]
  rw [trim, hleft, hright, List.reverse_reverse]

theorem trim_eq_nil_iff : trim text = [] ↔ ∀ c ∈ text, isBlank c = true := by
  constructor
  · intro hnil
    obtain ⟨before, after, htext, hbefore, hafter⟩ := padded_trim text
    rw [hnil, List.append_nil] at htext
    rw [htext]
    exact List.forall_mem_append.mpr ⟨hbefore, hafter⟩
  · intro hblank
    rw [trim, (trimLeft_eq_nil_iff text).mpr hblank]
    rfl

theorem trim_ne_nil (hmem : c ∈ text) (hc : isBlank c = false) : trim text ≠ [] := by
  intro hnil
  rw [trim_eq_nil_iff.mp hnil c hmem] at hc
  cases hc

/-- Of a text with blanks around it, a numeral is what trimming leaves. -/
theorem readUnsigned_trim_eq_some_iff {bound n : Nat} :
    readUnsigned bound (trim text) = some n ↔ ∃ core, Padded core text ∧ Numeral bound core n := by
  rw [readUnsigned_eq_some_iff]
  constructor
  · exact fun hnumeral => ⟨trim text, padded_trim text, hnumeral⟩
  · rintro ⟨core, hpadded, hnumeral⟩
    rwa [hpadded.trim_eq hnumeral.ne_nil hnumeral.no_blank]

end Trimming

end TopDown.Text
