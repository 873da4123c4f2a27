import Mathlib.Data.List.Forall2
import TopDown.Proofs.Text.Lines
import TopDown.Proofs.Token.Records

/-!
Token dumps. A file with the records of tokens, one a line, is read as those tokens, whichever ends
its lines have and whatever blank lines are among them. If it has lines with faults it is refused,
with one error for each of them, in order and with the numbers of their lines.
-/
namespace TopDown

/-- A line of a dump, without its end. -/
inductive DumpLine where
  | blank (text : List Char)
  | record (token : Token)
  | fault (text : List Char)

namespace DumpLine

def text : DumpLine → List Char
  | blank text => text
  | record token => token.record
  | fault text => text

def token? : DumpLine → Option Token
  | record token => some token
  | _ => none

def fault? : DumpLine → Option (List Char)
  | fault text => some text
  | _ => none

/-- A line is what it is said to be, and none but a blank one ends in a carriage return. -/
def WellFormed : DumpLine → Prop
  | blank text => '\n' ∉ text ∧ ∀ c ∈ text, Text.isBlank c = true
  | record token => token.Recordable
  | fault text =>
    Text.OneLine text ∧ (∃ c ∈ text, Text.isBlank c = false) ∧ ¬ Token.IsRecord text

/-- What a line may be read as: blank lines only have to stay blank. -/
def ReadsAs : DumpLine → List Char → Prop
  | blank _, read => ∀ c ∈ read, Text.isBlank c = true
  | line, read => read = line.text

end DumpLine

/-- The lines of a dump and the ends they have. The last line has none; it may be empty. -/
structure DumpText where
  ended : List (DumpLine × Text.LineEnd)
  last : DumpLine

namespace DumpText

def lines (dump : DumpText) : List DumpLine := dump.ended.map Prod.fst ++ [dump.last]

def text (dump : DumpText) : String :=
  String.ofList ((dump.ended.flatMap fun line => line.1.text ++ line.2.text) ++ dump.last.text)

/-- What a file holds with the text in it. -/
def content (dump : DumpText) : FileContent := .bytes dump.text.toUTF8

def tokens (dump : DumpText) : List Token := dump.lines.filterMap DumpLine.token?

end DumpText

/-- The lines with faults, and their numbers. -/
def faultsFrom (start : Nat) (lines : List DumpLine) : List (List Char × Nat) :=
  (lines.zipIdx start).filterMap fun line => line.1.fault?.map (·, line.2)

/-- The lines of a dump with faults, numbered from one on with all others. -/
def DumpText.faults (dump : DumpText) : List (List Char × Nat) := faultsFrom 1 dump.lines

/-- The error for a line with a fault. -/
def Reported (path : String) (line : List Char × Nat) (e : Located DumpError) : Prop :=
  Token.Fault line.1 e.error ∧ e.location = .inFile path line.2

theorem Reported.eq {path : String} {line : List Char × Nat} {e : Located DumpError}
    {found : DumpError} (h : Reported path line e) (hfound : Token.ofRecord line.1 = .error found) :
    e = ⟨found, .inFile path line.2⟩ := by
  obtain ⟨error, location⟩ := e
  obtain ⟨hfault, rfl⟩ : Token.Fault line.1 error ∧ location = .inFile path line.2 := h
  cases hfound.symm.trans hfault.ofRecord_eq
  rfl

/-- The tokens of the lines, or an error for every line with a fault. -/
def Reports (path : String) (start : Nat) (lines : List DumpLine)
    (result : Except (List (Located DumpError)) (List Token)) : Prop :=
  ∃ errors, List.Forall₂ (Reported path) (faultsFrom start lines) errors ∧
    result = if errors = [] then .ok (lines.filterMap DumpLine.token?) else .error errors

variable {path : String} {start : Nat} {line : DumpLine} {read : List Char}
  {lines : List DumpLine} {rest : List (List Char × Nat)}

theorem Token.Recordable.oneLine_record {token : Token} (h : token.Recordable) :
    Text.OneLine token.record where
  no_feed := by
    have hnumber : ∀ n : Nat, '\n' ∉ (toString n).toList := fun n hfeed =>
      Bool.noConfusion ((Text.numeral_toString (Nat.lt_succ_self n)).no_blank _ hfeed)
    simp only [record, List.mem_append, List.mem_cons, not_or]
    refine ⟨⟨⟨h.kind_feed, by decide, h.lexeme_feed⟩, by decide, hnumber _⟩, by decide, hnumber _⟩
  no_return := by
    have hnumeral := Text.numeral_toString h.column_lt
    rw [record, List.getLast?_append_of_ne_nil _ (List.cons_ne_nil _ _),
      List.getLast?_cons_of_ne_nil hnumeral.ne_nil]
    exact (Text.OneLine.of_no_blank hnumeral.no_blank).no_return

/-- The numbers of a record are not blank. -/
theorem Token.exists_mem_record (token : Token) :
    ∃ c ∈ token.record, Text.isBlank c = false := by
  have hnumeral := Text.numeral_toString (Nat.lt_succ_self token.column)
  obtain ⟨c, hc⟩ := List.exists_mem_of_ne_nil _ hnumeral.ne_nil
  exact ⟨c, List.mem_append_right _ (List.mem_cons_of_mem _ hc), hnumeral.no_blank c hc⟩

namespace DumpLine

/-- Only a blank line can be empty. -/
theorem WellFormed.eq_blank (h : line.WellFormed) (hnil : line.text = []) : line = blank [] := by
  cases line with
  | blank text => exact congrArg blank hnil
  | record token =>
    obtain ⟨c, hc, _⟩ := token.exists_mem_record
    exact absurd (show c ∈ [] from hnil ▸ hc) List.not_mem_nil
  | fault text =>
    obtain ⟨c, hc, _⟩ := h.2.1
    exact absurd (show c ∈ [] from hnil ▸ hc) List.not_mem_nil

theorem WellFormed.no_feed (h : line.WellFormed) : '\n' ∉ line.text := by
  cases line with
  | blank text => exact h.1
  | record token => exact (Token.Recordable.oneLine_record h).no_feed
  | fault text => exact h.1.no_feed

theorem WellFormed.readsAs_text (h : line.WellFormed) : line.ReadsAs line.text := by
  cases line with
  | blank text => exact h.2
  | record token => rfl
  | fault text => rfl

/-- A line is read as what it is, whichever end it has. -/
theorem WellFormed.exists_lines (h : line.WellFormed) (ending : Text.LineEnd) (rest : List Char) :
    ∃ read, Text.lines (line.text ++ ending.text ++ rest) = read :: Text.lines rest ∧
      line.ReadsAs read := by
  cases line with
  | blank text => exact Text.exists_lines_of_blank h.1 h.2 ending rest
  | record token => exact ⟨_, (Token.Recordable.oneLine_record h).lines_ended ending rest, rfl⟩
  | fault text => exact ⟨_, h.1.lines_ended ending rest, rfl⟩

end DumpLine

/-- A line puts its token in front of the others, or its error in front of theirs. -/
theorem Reports.cons (hline : line.WellFormed) (hread : line.ReadsAs read)
    (hrest : Reports path (start + 1) lines (Token.ofLines path rest)) :
    Reports path start (line :: lines) (Token.ofLines path ((read, start) :: rest)) := by
  obtain ⟨errors, herrors, hresult⟩ := hrest
  rw [Token.ofLines]
  cases line with
  | blank text =>
    refine ⟨errors, herrors, ?_⟩
    rw [if_pos (Text.trim_eq_nil_iff.mpr hread)]
    exact hresult
  | record token =>
    refine ⟨errors, herrors, ?_⟩
    have hrecord : Token.ofRecord read = .ok token := by
      rw [show read = token.record from hread]
      exact Token.Recordable.ofRecord_record hline
    have hblank : Text.trim read ≠ [] := by
      obtain ⟨c, hc, hcblank⟩ := token.exists_mem_record
      exact Text.trim_ne_nil (show c ∈ read from hread ▸ hc) hcblank
    rw [if_neg hblank, hrecord, hresult]
    by_cases hnone : errors = []
    · simp only [if_pos hnone]
      rfl
    · simp only [if_neg hnone]
  | fault text =>
    obtain ⟨_, ⟨c, hc, hcblank⟩, hno⟩ := hline
    obtain ⟨e, hfault⟩ := Token.exists_fault hno
    obtain rfl : read = text := hread
    refine ⟨⟨e, .inFile path start⟩ :: errors, .cons ⟨hfault, rfl⟩ herrors, ?_⟩
    rw [if_neg (Text.trim_ne_nil hc hcblank), hfault.ofRecord_eq, hresult,
      if_neg (List.cons_ne_nil _ _)]
    by_cases hnone : errors = []
    · simp only [if_pos hnone]
      rw [hnone]
    · simp only [if_neg hnone]

theorem reports_nil (path : String) (start : Nat) :
    Reports path start [] (Token.ofLines path []) := ⟨[], .nil, rfl⟩

/-- The last line, which has no end, is read like any other. -/
theorem reports_last (h : line.WellFormed) (path : String) (start : Nat) :
    Reports path start [line] (Token.ofLines path ((Text.lines line.text).zipIdx start)) := by
  rw [Text.lines_last h.no_feed]
  by_cases hnil : line.text = []
  · rw [if_pos hnil, h.eq_blank hnil]
    exact ⟨[], .nil, rfl⟩
  · rw [if_neg hnil]
    exact Reports.cons h h.readsAs_text (reports_nil path (start + 1))

theorem reports_text {ended : List (DumpLine × Text.LineEnd)} {last : DumpLine}
    (hended : ∀ line ∈ ended, line.1.WellFormed) (hlast : last.WellFormed) (path : String)
    (start : Nat) :
    Reports path start (ended.map Prod.fst ++ [last])
      (Token.ofLines path ((Text.lines ((ended.flatMap fun line => line.1.text ++ line.2.text) ++
        last.text)).zipIdx start)) := by
  induction ended generalizing start with
  | nil => exact reports_last hlast path start
  | cons line ended ih =>
    obtain ⟨hline, hrest⟩ := List.forall_mem_cons.mp hended
    rw [List.flatMap_cons, List.append_assoc]
    obtain ⟨read, hlines, hread⟩ := hline.exists_lines line.2 _
    rw [hlines, List.zipIdx_cons]
    exact Reports.cons hline hread (ih hrest (start + 1))

theorem text_content (dump : DumpText) : dump.content.text = .ok dump.text := by
  have hread : String.fromUTF8? dump.text.toUTF8 = some dump.text := by
    rw [String.toUTF8_eq_toByteArray, String.fromUTF8?, dif_pos dump.text.isValidUTF8]
    rfl
  rw [DumpText.content, FileContent.text, hread]

/-- A file with the records of tokens gives these tokens, and with faults among its lines an error
for every one of them. -/
theorem readDump_exact {dump : DumpText} (h : ∀ line ∈ dump.lines, line.WellFormed)
    (path : String) :
    (dump.faults = [] → Token.readDump path dump.content.text = .ok dump.tokens) ∧
      (dump.faults ≠ [] → ∃ errors, Token.readDump path dump.content.text = .error errors ∧
        List.Forall₂ (Reported path) dump.faults errors) := by
  have hlines := List.forall_mem_append.mp h
  obtain ⟨errors, herrors, hresult⟩ := reports_text
    (fun line hline => hlines.1 line.1 (List.mem_map_of_mem hline))
    (hlines.2 _ List.mem_cons_self) path 1
  have hread : Token.readDump path dump.content.text =
      if errors = [] then .ok dump.tokens else .error errors := by
    rw [text_content, Token.readDump, Token.ofDump, DumpText.text, String.toList_ofList]
    exact hresult
  rw [hread]
  constructor
  · intro hnone
    have herrors' : List.Forall₂ (Reported path) dump.faults errors := herrors
    rw [hnone] at herrors'
    rw [List.forall₂_nil_left_iff.mp herrors', if_pos rfl]
  · intro hsome
    have hne : errors ≠ [] := by
      rintro rfl
      exact hsome (List.forall₂_nil_right_iff.mp herrors)
    exact ⟨errors, if_neg hne, herrors⟩

section Mixed

/-- Two records with a blank line and two lines with faults between them. -/
def mixedDump : DumpText where
  ended :=
    [(.record ⟨"ID", " a\r", 1, 2⟩, .returnFeed), (.blank [' ', '\r'], .feed),
      (.fault "ID a 1 1".toList, .feed), (.fault "ID\ta\tone \t1".toList, .returnFeed)]
  last := .record ⟨"", "", 3, 18446744073709551615⟩

theorem readDump_exact_mixed :
    (∀ line ∈ mixedDump.lines, line.WellFormed) ∧
      Token.readDump "mixed.txt" mixedDump.content.text =
        .error [⟨.fieldCount 1, .inFile "mixed.txt" 3⟩,
          ⟨.badPosition "one ", .inFile "mixed.txt" 4⟩] := by
  have hcount : Token.ofRecord "ID a 1 1".toList = .error (.fieldCount 1) := by decide
  have hrow : Token.ofRecord "ID\ta\tone \t1".toList = .error (.badPosition "one ") := by decide
  have hwell : ∀ line ∈ mixedDump.lines, line.WellFormed := by
    refine List.forall_mem_cons.mpr ⟨?_, List.forall_mem_cons.mpr ⟨?_, List.forall_mem_cons.mpr
      ⟨?_, List.forall_mem_cons.mpr ⟨?_, List.forall_mem_singleton.mpr ?_⟩⟩⟩⟩
    · constructor <;> decide
    · refine ⟨by decide, List.forall_mem_cons.mpr ⟨rfl, List.forall_mem_singleton.mpr rfl⟩⟩
    · exact ⟨⟨by decide, by decide⟩, ⟨'I', by decide, rfl⟩, Token.not_isRecord_of_error hcount⟩
    · exact ⟨⟨by decide, by decide⟩, ⟨'I', by decide, rfl⟩, Token.not_isRecord_of_error hrow⟩
    · constructor <;> decide
  have hfaults : mixedDump.faults = [("ID a 1 1".toList, 3), ("ID\ta\tone \t1".toList, 4)] := rfl
  obtain ⟨errors, hread, herrors⟩ :=
    (readDump_exact hwell "mixed.txt").2 (hfaults ▸ List.cons_ne_nil _ _)
  rw [hfaults] at herrors
  obtain ⟨e, rest, hfirst, hrest, rfl⟩ := List.forall₂_cons_left_iff.mp herrors
  obtain ⟨e', others, hsecond, hothers, rfl⟩ := List.forall₂_cons_left_iff.mp hrest
  obtain rfl := List.forall₂_nil_left_iff.mp hothers
  exact ⟨hwell, by rw [hread, hfirst.eq hcount, hsecond.eq hrow]⟩

end Mixed

end TopDown
