import TopDown.Proofs.Toy.ItemChecks
import TopDown.Proofs.Toy.PredictiveGrammar
import TopDown.Proofs.Toy.ProgramReading

/-!
The analysis decides the rules. Tokens that are parsed are those of a program, and on the tree of a
program the analysis succeeds just when the program is lawful.
-/
namespace TopDown.Toy

open Phrase

variable {table : Table} {tokens : List Token} {tree : SyntaxTree}

/-- The parse succeeds on the tokens of programs and on nothing else. -/
theorem parses_iff_program (htable : grammar.table = .ok table) :
    (∃ tree, table.parse grammar.start tokens = some (.ok tree)) ↔
      ∃ program : Program, program.WrittenAs tokens := by
  constructor
  · rintro ⟨tree, htree⟩
    have hreads := Grammar.reads_of_parse htree
    exact exists_program_of_generates ((Grammar.generates_iff_reads htable).mpr hreads)
  · rintro ⟨program, hprogram⟩
    obtain ⟨tree, htree, _⟩ := Program.parse_of_writtenAs htable hprogram
    exact ⟨tree, htree⟩

/-- The analysis of a parsed program succeeds just when the program keeps the rules. -/
theorem analyze_ok_iff_lawful (htable : grammar.table = .ok table)
    (hparse : table.parse grammar.start tokens = some (.ok tree)) :
    (∃ program : Program, program.WrittenAs tokens) ∧
      ∀ program : Program, program.WrittenAs tokens →
        ((∃ symbols, analyze tree = .ok symbols) ↔ program.Lawful) := by
  refine ⟨(parses_iff_program htable).mp ⟨tree, hparse⟩, fun program hprogram => ?_⟩
  exact exists_analyze_iff_lawful (Program.stands_of_parse htable hprogram hparse)

/-- The program `INT n; MAIN() { RETURN n; }`. -/
def unsetNumber : Program :=
  [.declaration ⟨.scalar .int, "n", none⟩,
    .main [.returning (some (.chain (.chain (.name "n") .done) .done))]]

theorem lawful_unsetNumber : unsetNumber.Lawful := by
  refine Program.lawful_iff_accepted.mpr ⟨?_, ?_, rfl⟩
  · exact Item.admitted_declaration_iff.mpr ⟨rfl, .int, rfl, fun _ hvalue => nomatch hvalue⟩
  · refine Item.admitted_main_iff.mpr ⟨rfl, List.forall_mem_singleton.mpr ⟨Bool.false_ne_true, ?_⟩⟩
    exact .returning (.chain (.chain (.name rfl) (.done .int)) (.done .int)) (Or.inr rfl)

theorem analyze_ok_unsetNumber :
    ∃ table tree, grammar.table = .ok table ∧
      table.parse grammar.start (spell unsetNumber.phrase) = some (.ok tree) ∧
      ∃ symbols, analyze tree = .ok symbols := by
  obtain ⟨table, htable⟩ := exists_table
  have hwritten := Program.writtenAs_spell unsetNumber
  obtain ⟨tree, hparse⟩ := (parses_iff_program htable).mpr ⟨unsetNumber, hwritten⟩
  exact ⟨table, tree, htable, hparse,
    ((analyze_ok_iff_lawful htable hparse).2 unsetNumber hwritten).mpr lawful_unsetNumber⟩

end TopDown.Toy
