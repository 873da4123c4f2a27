import TopDown.Text.Blank

/-!
Lines of a text. A line is ended by a line feed or by a carriage return and a line feed; what comes
after the last end is a line too unless it is empty. Lines that hold neither end are read back as
they were written, whichever ends they were given.
-/
namespace TopDown.Text

/-- A text without line ends, that does not end in half of one either. -/
structure OneLine (text : List Char) : Prop where
  no_feed : '\n' ∉ text
  no_return : text.getLast? ≠ some '\r'

namespace OneLine

variable {a b : List Char}

theorem nil : OneLine [] := ⟨List.not_mem_nil, nofun⟩

theorem append (ha : OneLine a) (hb : OneLine b) : OneLine (a ++ b) where
  no_feed := by
    rw [List.mem_append, not_or]
    exact ⟨ha.no_feed, hb.no_feed⟩
  no_return := by
    rw [List.getLast?_append]
    cases hlast : b.getLast? with
    | none => exact ha.no_return
    | some c =>
      have hc := hb.no_return
      rw [hlast] at hc
      exact hc

theorem intercalate {separator : List Char} {parts : List (List Char)}
    (hseparator : OneLine separator) (h : ∀ part ∈ parts, OneLine part) :
    OneLine (separator.intercalate parts) := by
  induction parts with
  | nil => exact nil
  | cons part parts ih =>
    have hpart := h part List.mem_cons_self
    have hparts := ih fun other hother => h other (List.mem_cons_of_mem part hother)
    cases parts with
    | nil =>
      rw [List.intercalate_singleton]
      exact hpart
    | cons other parts =>
      rw [List.intercalate_cons_cons]
      exact (hpart.append hseparator).append hparts

theorem of_no_blank (h : ∀ c ∈ a, isBlank c = false) : OneLine a where
  no_feed := by
    intro hfeed
    cases h '\n' hfeed
  no_return := by
    intro hreturn
    cases h '\r' (List.mem_of_getLast? hreturn)

end OneLine

/-- The two ends that a line can have. -/
inductive LineEnd where
  | feed
  | returnFeed
deriving DecidableEq, Repr

/-- What an end puts in front of its line feed. -/
def LineEnd.beforeFeed : LineEnd → List Char
  | feed => []
  | returnFeed => ['\r']

def LineEnd.text (ending : LineEnd) : List Char := ending.beforeFeed ++ ['\n']

variable {line : List Char}

theorem closeLines_cons (line : List Char) {pieces : List (List Char)} (hpieces : pieces ≠ []) :
    closeLines (line :: pieces) = dropReturn line :: closeLines pieces := by
  cases pieces with
  | nil => exact absurd rfl hpieces
  | cons piece pieces =>
    rw [closeLines]
    exact nofun

theorem lines_cons (hline : '\n' ∉ line) (rest : List Char) :
    lines (line ++ '\n' :: rest) = dropReturn line :: lines rest := by
  rw [lines, List.splitOn_append_cons_self_of_not_mem hline,
    closeLines_cons line (List.splitOn_ne_nil '\n' _), lines]

/-- The end of the text ends a line that is not empty. -/
theorem lines_last (hline : '\n' ∉ line) : lines line = if line = [] then [] else [line] := by
  rw [lines, List.splitOn_eq_singleton hline, closeLines]

theorem dropReturn_concat (line : List Char) : dropReturn (line ++ ['\r']) = line := by
  rw [dropReturn, List.getLast?_concat, if_pos rfl, List.dropLast_concat]

theorem lines_ended (hline : '\n' ∉ line) (ending : LineEnd) (rest : List Char) :
    lines (line ++ ending.text ++ rest) = dropReturn (line ++ ending.beforeFeed) :: lines rest := by
  have hbefore : '\n' ∉ line ++ ending.beforeFeed := by
    rw [List.mem_append, not_or]
    refine ⟨hline, ?_⟩
    cases ending <;> decide
  rw [← lines_cons hbefore]
  simp only [LineEnd.text, List.append_assoc, List.singleton_append]

/-- A line is read back whichever end it has. -/
theorem OneLine.lines_ended (h : OneLine line) (ending : LineEnd) (rest : List Char) :
    lines (line ++ ending.text ++ rest) = line :: lines rest := by
  rw [Text.lines_ended h.no_feed]
  cases ending with
  | feed => rw [LineEnd.beforeFeed, List.append_nil, dropReturn, if_neg h.no_return]
  | returnFeed => rw [LineEnd.beforeFeed, dropReturn_concat]

/-- Whatever end a blank line has, a blank line is read. -/
theorem exists_lines_of_blank (hfeed : '\n' ∉ line) (hline : ∀ c ∈ line, isBlank c = true)
    (ending : LineEnd) (rest : List Char) :
    ∃ read, lines (line ++ ending.text ++ rest) = read :: lines rest ∧
      ∀ c ∈ read, isBlank c = true := by
  refine ⟨_, lines_ended hfeed ending rest, fun c hc => ?_⟩
  have hmem : c ∈ line ++ ending.beforeFeed := by
    unfold dropReturn at hc
    split at hc
    · exact List.dropLast_subset _ hc
    · exact hc
  rcases List.mem_append.mp hmem with hold | hend
  · exact hline c hold
  · cases ending with
    | feed => exact absurd hend List.not_mem_nil
    | returnFeed =>
      rw [List.mem_singleton.mp hend]
      rfl

/-- Lines that are ended one by one are the lines of the text. -/
theorem lines_flatMap {α : Type} {line : α → List Char} {items : List α}
    (h : ∀ a ∈ items, OneLine (line a)) :
    lines (items.flatMap fun a => line a ++ ['\n']) = items.map line := by
  induction items with
  | nil => rfl
  | cons a items ih =>
    rw [List.flatMap_cons, List.map_cons, ← ih fun b hb => h b (List.mem_cons_of_mem a hb)]
    exact (h a List.mem_cons_self).lines_ended .feed _

end TopDown.Text
