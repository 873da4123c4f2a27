import Mathlib.Data.List.Basic
import TopDown.Proofs.Text.Numerals
import TopDown.Token.Dump

/-!
Records. A record has four fields with tabs between them, the last two being numbers with blanks
around them allowed; a token's own record is one. Any other line has a fault, which is the first of
these that fails: the number of its fields, the line field, the column field.
-/
namespace TopDown.Token

/-- The parts of a line between its tabs. -/
structure Fields (line : List Char) (fields : List (List Char)) : Prop where
  ne_nil : fields ≠ []
  no_tab : ∀ field ∈ fields, '\t' ∉ field
  line_eq : line = ['\t'].intercalate fields

/-- A number of a line or column, with blanks around it allowed. -/
def Position (field : List Char) (n : Nat) : Prop :=
  ∃ core, Text.Padded core field ∧ Text.Numeral Text.wordBound core n

def IsRecord (line : List Char) : Prop :=
  ∃ kind lexeme row column n m, Fields line [kind, lexeme, row, column] ∧ Position row n ∧
    Position column m

/-- What is wrong with a line that is no record. -/
inductive Fault (line : List Char) : DumpError → Prop where
  | fieldCount {fields : List (List Char)} (h : Fields line fields) (hcount : fields.length ≠ 4) :
      Fault line (.fieldCount fields.length)
  | row {kind lexeme row column : List Char} (h : Fields line [kind, lexeme, row, column])
      (hrow : ∀ n, ¬ Position row n) : Fault line (.badPosition (String.ofList row))
  | column {kind lexeme row column : List Char} {n : Nat}
      (h : Fields line [kind, lexeme, row, column]) (hrow : Position row n)
      (hcolumn : ∀ m, ¬ Position column m) : Fault line (.badPosition (String.ofList column))

/-- A token that its record tells: its kind and its text are on one line and without tabs, and its
place is one that a record can hold. -/
structure Recordable (token : Token) : Prop where
  kind_tab : '\t' ∉ token.kind.toList
  kind_feed : '\n' ∉ token.kind.toList
  lexeme_tab : '\t' ∉ token.lexeme.toList
  lexeme_feed : '\n' ∉ token.lexeme.toList
  line_lt : token.line < Text.wordBound
  column_lt : token.column < Text.wordBound

variable {line field : List Char} {fields : List (List Char)} {n : Nat} {token : Token}

theorem Fields.splitOn_eq (h : Fields line fields) : line.splitOn '\t' = fields := by
  rw [h.line_eq, List.splitOn_intercalate '\t' h.no_tab h.ne_nil]

/-- Every line is parted by its tabs. -/
theorem exists_fields (line : List Char) : ∃ fields, Fields line fields := by
  induction line with
  | nil =>
    refine ⟨[[]], List.cons_ne_nil _ _, fun field hfield => ?_, rfl⟩
    rw [List.mem_singleton.mp hfield]
    exact List.not_mem_nil
  | cons c rest ih =>
    obtain ⟨fields, hne, hno, heq⟩ := ih
    obtain ⟨field, fields, rfl⟩ := List.exists_cons_of_ne_nil hne
    by_cases hc : c = '\t'
    · refine ⟨[] :: field :: fields, List.cons_ne_nil _ _,
        List.forall_mem_cons.mpr ⟨List.not_mem_nil, hno⟩, ?_⟩
      rw [List.intercalate_cons_cons, ← heq, hc]
      rfl
    · obtain ⟨hfield, hfields⟩ := List.forall_mem_cons.mp hno
      refine ⟨(c :: field) :: fields, List.cons_ne_nil _ _,
        List.forall_mem_cons.mpr ⟨?_, hfields⟩, ?_⟩
      · rw [List.mem_cons, not_or]
        exact ⟨Ne.symm hc, hfield⟩
      · rw [heq]
        cases fields with
        | nil => rw [List.intercalate_singleton, List.intercalate_singleton]
        | cons other fields => rw [List.intercalate_cons_cons, List.intercalate_cons_cons]; rfl

theorem readPosition_eq_ok_iff : readPosition field = .ok n ↔ Position field n := by
  rw [Position, ← Text.readUnsigned_trim_eq_some_iff, readPosition]
  cases Text.readUnsigned Text.wordBound (Text.trim field) with
  | none => exact iff_of_false nofun nofun
  | some m => rw [Except.ok.injEq, Option.some.injEq]

/-- A field that is no position is reported as it stands. -/
theorem readPosition_of_not_position (h : ∀ n, ¬ Position field n) :
    readPosition field = .error (.badPosition (String.ofList field)) := by
  cases hread : Text.readUnsigned Text.wordBound (Text.trim field) with
  | none => rw [readPosition, hread]
  | some m => exact absurd (Text.readUnsigned_trim_eq_some_iff.mp hread) (h m)

theorem ofRecord_of_positions {kind lexeme row column : List Char} {m : Nat}
    (h : Fields line [kind, lexeme, row, column]) (hrow : Position row n)
    (hcolumn : Position column m) :
    ofRecord line = .ok ⟨String.ofList kind, String.ofList lexeme, n, m⟩ := by
  rw [ofRecord, h.splitOn_eq]
  simp only [readPosition_eq_ok_iff.mpr hrow, readPosition_eq_ok_iff.mpr hcolumn]
  rfl

theorem Fault.ofRecord_eq {e : DumpError} (h : Fault line e) : ofRecord line = .error e := by
  cases h with
  | @fieldCount fields h hcount =>
    rw [ofRecord, h.splitOn_eq]
    split
    · exact absurd rfl hcount
    · rfl
  | @row kind lexeme row column h hrow =>
    rw [ofRecord, h.splitOn_eq]
    simp only [readPosition_of_not_position hrow]
    rfl
  | @column kind lexeme row column n h hrow hcolumn =>
    rw [ofRecord, h.splitOn_eq]
    simp only [readPosition_eq_ok_iff.mpr hrow, readPosition_of_not_position hcolumn]
    rfl

/-- A line that is no record has a fault. -/
theorem exists_fault (h : ¬ IsRecord line) : ∃ e, Fault line e := by
  obtain ⟨fields, hfields⟩ := exists_fields line
  by_cases hcount : fields.length = 4
  · obtain ⟨kind, rest, rfl⟩ := List.exists_cons_of_length_eq_add_one hcount
    obtain ⟨lexeme, row, column, rfl⟩ := List.length_eq_three.mp (Nat.succ.inj hcount)
    by_cases hrow : ∃ n, Position row n
    · obtain ⟨n, hrow⟩ := hrow
      refine ⟨_, .column hfields hrow fun m hcolumn => h ?_⟩
      exact ⟨kind, lexeme, row, column, n, m, hfields, hrow, hcolumn⟩
    · exact ⟨_, .row hfields (not_exists.mp hrow)⟩
  · exact ⟨_, .fieldCount hfields hcount⟩

theorem not_isRecord_of_error {e : DumpError} (h : ofRecord line = .error e) :
    ¬ IsRecord line := by
  rintro ⟨kind, lexeme, row, column, n, m, hfields, hrow, hcolumn⟩
  cases h.symm.trans (ofRecord_of_positions hfields hrow hcolumn)

/-- A line is refused for just the fault that it has. -/
theorem ofRecord_eq_error_iff {e : DumpError} : ofRecord line = .error e ↔ Fault line e := by
  refine ⟨fun herror => ?_, Fault.ofRecord_eq⟩
  obtain ⟨found, hfound⟩ := exists_fault (not_isRecord_of_error herror)
  cases herror.symm.trans hfound.ofRecord_eq
  exact hfound

namespace Recordable

theorem fields_record (h : token.Recordable) :
    Fields token.record [token.kind.toList, token.lexeme.toList, (toString token.line).toList,
      (toString token.column).toList] where
  ne_nil := List.cons_ne_nil _ _
  no_tab := by
    have hnumber : ∀ n : Nat, '\t' ∉ (toString n).toList := by
      intro n htab
      have hblank := (Text.numeral_toString (Nat.lt_succ_self n)).no_blank _ htab
      cases hblank
    intro field hfield
    simp only [List.mem_cons, List.not_mem_nil, or_false] at hfield
    rcases hfield with rfl | rfl | rfl | rfl
    · exact h.kind_tab
    · exact h.lexeme_tab
    · exact hnumber _
    · exact hnumber _
  line_eq := by
    simp only [record, List.intercalate_cons_cons, List.intercalate_singleton, List.append_assoc,
      List.cons_append, List.nil_append]

theorem position_toString (h : n < Text.wordBound) : Position (toString n).toList n :=
  ⟨_, ⟨[], [], by rw [List.nil_append, List.append_nil], nofun, nofun⟩, Text.numeral_toString h⟩

/-- The record of a token is read as the token. -/
theorem ofRecord_record (h : token.Recordable) : ofRecord token.record = .ok token := by
  rw [ofRecord_of_positions h.fields_record (position_toString h.line_lt)
    (position_toString h.column_lt), String.ofList_toList, String.ofList_toList]

end Recordable

end TopDown.Token
