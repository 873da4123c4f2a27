import TopDown.CommandLine.Run
import TopDown.Proofs.CommandLine.Stages
import TopDown.Proofs.Sentences

/-!
The course of a run. A run loads its grammar, builds the table, draws sentences, reads and parses
tokens and checks their tree, in this order and as far as the options ask for it. It prints the
sections of what it comes through, and ends at the first thing that fails with the displays of the
errors there. Its exit code tells whether anything failed. Only a random choice that is never made
keeps it from ending.
-/
namespace TopDown.CommandLine

/-- A section that the options may leave out. -/
def wantedIf (wanted : Bool) (text : String) : String := if wanted then text else ""

def setsSection (options : Options) (g : Grammar) : String :=
  wantedIf options.sets
    ("FIRST\n" ++ g.first.render g ++ "FOLLOW\n" ++ (g.follow g.first g.start).render g)

def tableSection (options : Options) (table : Table) : String :=
  wantedIf options.table table.render

/-- One sentence a line. -/
def sentencesSection (drawn : List (List Token)) : String :=
  String.join (drawn.map fun tokens => " ".intercalate (tokens.map Token.lexeme) ++ "\n")

def treeSection (options : Options) (tree : SyntaxTree) : String :=
  wantedIf options.tree tree.render

/-- How a run ends: everything has succeeded, or something has failed with errors that display so,
or not at all. -/
inductive Ending where
  | success
  | failure (errors : List String)
  | unending
deriving DecidableEq, Repr

namespace Ending

def value : Ending → Except Halt Unit
  | success => .ok ()
  | failure _ => .error .failed
  | unending => .error .unending

/-- The displays of the errors. -/
def errors : Ending → List String
  | failure errors => errors
  | _ => []

end Ending

section Courses

variable (options : Options) (files : Files) (world : World)

/-- The grammar loads and has a table. -/
structure Built (g : Grammar) (table : Table) : Prop where
  loaded : Bnf.loadFile options.file options.start (files options.file) = .ok g
  table_eq : g.table = .ok table

/-- Besides, all sentences that are asked for are drawn. -/
structure Sampled (g : Grammar) (table : Table) (drawn : List (List Token)) : Prop where
  built : Built options world.files g table
  exists_sentences : ∃ last,
    (samplerOf options world g).sentences g.start (options.amount.getD 0) 0 =
      some (.ok (drawn, last))

/-- The grammar has a table, and of the sentences that are asked for some are drawn before one that
never ends. -/
structure Stuck (g : Grammar) (table : Table) (drawn : List (List Token)) : Prop where
  built : Built options world.files g table
  exists_before : ∃ before < options.amount.getD 0, ∃ last,
    (samplerOf options world g).sentences g.start before 0 = some (.ok (drawn, last)) ∧
      (samplerOf options world g).sentence g.start last = none

/-- Tokens are asked for, and they are read and parsed. -/
def Parsed (g : Grammar) (table : Table) (tree : SyntaxTree) : Prop :=
  ∃ path tokens, options.tokens = some path ∧ Token.readDump path (files path) = .ok tokens ∧
    table.parse g.start tokens = some (.ok tree)

/-- The start symbol derives a sentence, or none is asked for. -/
def Productive (g : Grammar) : Prop :=
  0 < options.amount.getD 0 → ∃ w, g.Generates g.start w

/-- The sections that a run comes through, and how it ends. -/
inductive Course : List String → Ending → Prop where
  | unloaded {errors : Bnf.LoadErrors}
      (herrors : Bnf.loadFile options.file options.start (world.files options.file) =
        .error errors) :
      Course [] (.failure (errors.map Located.render))
  | conflicting {g : Grammar} {c : Conflict}
      (hg : Bnf.loadFile options.file options.start (world.files options.file) = .ok g)
      (hc : g.table = .error c) :
      Course [setsSection options g] (.failure [c.message])
  | barren {g : Grammar} {table : Table} (h : Built options world.files g table)
      (hbarren : ¬ Productive options g) :
      Course [setsSection options g, tableSection options table]
        (.failure [Located.render ⟨SampleError.unproductive g.start, .nowhere⟩])
  | stuck {g : Grammar} {table : Table} {drawn : List (List Token)}
      (h : Stuck options world g table drawn) :
      Course [setsSection options g, tableSection options table, sentencesSection drawn] .unending
  | sampled {g : Grammar} {table : Table} {drawn : List (List Token)}
      (h : Sampled options world g table drawn) (hnone : options.tokens = none) :
      Course [setsSection options g, tableSection options table, sentencesSection drawn] .success
  | unread {g : Grammar} {table : Table} {drawn : List (List Token)} {path : String}
      {errors : List (Located DumpError)} (h : Sampled options world g table drawn)
      (hpath : options.tokens = some path)
      (herrors : Token.readDump path (world.files path) = .error errors) :
      Course [setsSection options g, tableSection options table, sentencesSection drawn]
        (.failure (errors.map Located.render))
  | unparsed {g : Grammar} {table : Table} {drawn : List (List Token)} {path : String}
      {tokens : List Token} {e : Located SyntaxError}
      (h : Sampled options world g table drawn) (hpath : options.tokens = some path)
      (htokens : Token.readDump path (world.files path) = .ok tokens)
      (he : table.parse g.start tokens = some (.error e)) :
      Course [setsSection options g, tableSection options table, sentencesSection drawn]
        (.failure [e.render])
  | parsed {g : Grammar} {table : Table} {drawn : List (List Token)} {tree : SyntaxTree}
      (h : Sampled options world g table drawn)
      (htree : Parsed options world.files g table tree) (hcheck : options.check = false) :
      Course [setsSection options g, tableSection options table, sentencesSection drawn,
        treeSection options tree] .success
  | violating {g : Grammar} {table : Table} {drawn : List (List Token)} {tree : SyntaxTree}
      {e : Located Toy.SemanticError} (h : Sampled options world g table drawn)
      (htree : Parsed options world.files g table tree) (hcheck : options.check = true)
      (he : Toy.analyze tree = .error e) :
      Course [setsSection options g, tableSection options table, sentencesSection drawn,
        treeSection options tree] (.failure [e.render])
  | checked {g : Grammar} {table : Table} {drawn : List (List Token)} {tree : SyntaxTree}
      {symbols : Toy.SymbolTable} (h : Sampled options world g table drawn)
      (htree : Parsed options world.files g table tree) (hcheck : options.check = true)
      (hsymbols : Toy.analyze tree = .ok symbols) :
      Course [setsSection options g, tableSection options table, sentencesSection drawn,
        treeSection options tree, symbols.render] .success

/-- Everything that the options ask for succeeds. -/
def Succeeds : Prop :=
  ∃ g table, Built options files g table ∧ Productive options g ∧
    ∀ path, options.tokens = some path → ∃ tree, Parsed options files g table tree ∧
      (options.check = true → ∃ symbols, Toy.analyze tree = .ok symbols)

end Courses

namespace Stage

variable {options : Options} {files : Files} {world : World} {g : Grammar} {table : Table}
  {tree : SyntaxTree} {drawn : List (List Token)}

section Parts

theorem leaves_loading (h : Bnf.loadFile options.file options.start (files options.file) = .ok g) :
    (loading options files).Leaves "" [] (.ok g) := by
  simp only [loading, h]
  exact leaves_record.before leaves_pure

theorem leaves_loading_error {errors : Bnf.LoadErrors}
    (h : Bnf.loadFile options.file options.start (files options.file) = .error errors) :
    (loading options files).Leaves "" (errors.map Located.render) (.error .failed) := by
  simp only [loading, h]
  exact leaves_stop

theorem leaves_warning : (warning g).Leaves "" [] (.ok ()) :=
  leaves_record.before (leaves_records _ (fun _ => rfl) _)

theorem leaves_computingSets :
    (computingSets options g).Leaves (setsSection options g) []
      (.ok ⟨g.first, g.follow g.first g.start⟩) :=
  leaves_record.before (leaves_record.before (leaves_printIf.giving _))

theorem leaves_buildingTable (h : g.table = .ok table) :
    (buildingTable options g ⟨g.first, g.follow g.first g.start⟩).Leaves
      (tableSection options table) [] (.ok table) := by
  have hfilling : g.filling g.first (g.follow g.first g.start) = ⟨table, none⟩ :=
    Grammar.fill_of_tableFor h
  simp only [buildingTable, hfilling]
  exact (leaves_records _ (fun _ => rfl) _).before
    (leaves_record.before (leaves_printIf.giving _))

theorem leaves_buildingTable_error {c : Conflict} (h : g.table = .error c) :
    (buildingTable options g ⟨g.first, g.follow g.first g.start⟩).Leaves "" [c.message]
      (.error .failed) := by
  obtain ⟨filled, hfill⟩ := Grammar.exists_fill_of_tableFor_error h
  have hfilling : g.filling g.first (g.follow g.first g.start) = ⟨filled, some c⟩ := hfill
  simp only [buildingTable, hfilling]
  exact (leaves_records _ (fun _ => rfl) _).before leaves_stop

/-- Sentences are printed one after the other as they are drawn. -/
theorem leaves_drawing {sampler : Sampler} {amount position last : Nat}
    (h : sampler.sentences sampler.grammar.start amount position = some (.ok (drawn, last))) :
    (drawing sampler amount position).Leaves (sentencesSection drawn) [] (.ok ()) := by
  induction amount generalizing position drawn with
  | zero =>
    cases h
    exact leaves_pure
  | succ amount ih =>
    obtain ⟨tokens, later, rest, hsentence, hrest, rfl⟩ := Sampler.exists_of_sentences_succ h
    rw [drawing, hsentence, sentencesSection, List.map_cons, String.join_cons]
    exact leaves_record.before (leaves_print.bind (ih hrest))

/-- Sentences before one that never ends are printed too. -/
theorem leaves_drawing_stuck {sampler : Sampler} {amount before position last : Nat}
    (hlt : before < amount)
    (h : sampler.sentences sampler.grammar.start before position = some (.ok (drawn, last)))
    (hnone : sampler.sentence sampler.grammar.start last = none) :
    (drawing sampler amount position).Leaves (sentencesSection drawn) [] (.error .unending) := by
  obtain ⟨amount, rfl⟩ := Nat.exists_eq_succ_of_ne_zero (Nat.ne_of_gt (Nat.zero_lt_of_lt hlt))
  induction before generalizing amount position drawn with
  | zero =>
    cases h
    rw [drawing, hnone]
    exact leaves_record.before leaves_hang
  | succ before ih =>
    obtain ⟨tokens, later, rest, hsentence, hrest, rfl⟩ := Sampler.exists_of_sentences_succ h
    obtain ⟨amount, rfl⟩ := Nat.exists_eq_succ_of_ne_zero
      (Nat.ne_of_gt (Nat.zero_lt_of_lt (Nat.lt_of_succ_lt_succ hlt)))
    rw [drawing, hsentence, sentencesSection, List.map_cons, String.join_cons]
    exact leaves_record.before
      (leaves_print.bind (ih hrest amount (Nat.lt_of_succ_lt_succ hlt)))

theorem leaves_sampling (h : Sampled options world g table drawn) :
    (sampling options world g).Leaves (sentencesSection drawn) [] (.ok ()) := by
  obtain ⟨last, hdrawn⟩ := h.exists_sentences
  unfold sampling
  cases hamount : options.amount with
  | none =>
    rw [hamount] at hdrawn
    cases hdrawn
    exact leaves_pure
  | some amount =>
    rw [hamount] at hdrawn
    exact leaves_drawing hdrawn

theorem leaves_sampling_stuck (h : Stuck options world g table drawn) :
    (sampling options world g).Leaves (sentencesSection drawn) [] (.error .unending) := by
  obtain ⟨before, hlt, last, hdrawn, hnone⟩ := h.exists_before
  unfold sampling
  cases hamount : options.amount with
  | none =>
    rw [hamount] at hlt
    exact absurd hlt (Nat.not_lt_zero before)
  | some amount =>
    rw [hamount] at hlt
    exact leaves_drawing_stuck hlt hdrawn hnone

theorem leaves_sampling_error (hbarren : ¬ Productive options g) :
    (sampling options world g).Leaves ""
      [Located.render ⟨SampleError.unproductive g.start, .nowhere⟩] (.error .failed) := by
  obtain ⟨hpos, hword⟩ := Classical.not_imp.mp hbarren
  unfold sampling
  cases hamount : options.amount with
  | none =>
    rw [hamount] at hpos
    exact absurd hpos (Nat.lt_irrefl 0)
  | some amount =>
    rw [hamount] at hpos
    obtain ⟨amount, rfl⟩ := Nat.exists_eq_succ_of_ne_zero (Nat.ne_of_gt hpos)
    have hsentence : (samplerOf options world g).sentence (samplerOf options world g).grammar.start
        0 = some (.error ⟨.unproductive g.start, .nowhere⟩) :=
      Sampler.sentence_of_not_generates _ _ 0 g.start_mem_nonterminals hword
    change (drawing (samplerOf options world g) (amount + 1) 0).Leaves _ _ _
    rw [drawing, hsentence]
    exact leaves_record.before leaves_stop

theorem leaves_parsing {tokens : List Token} (h : table.parse g.start tokens = some (.ok tree)) :
    (parsing g table tokens).Leaves "" [] (.ok tree) := by
  simp only [parsing, h]
  exact (leaves_records _ (fun _ => rfl) _).before (leaves_record.giving _)

theorem leaves_parsing_error {tokens : List Token} {e : Located SyntaxError}
    (h : table.parse g.start tokens = some (.error e)) :
    (parsing g table tokens).Leaves "" [e.render] (.error .failed) := by
  simp only [parsing, h]
  exact (leaves_records _ (fun _ => rfl) _).before leaves_stop

theorem isRecord_recordOfEvent (event : Toy.Event) : (recordOfEvent event).isRecord = true := by
  cases event <;> rfl

theorem leaves_checking {symbols : Toy.SymbolTable} (h : Toy.analyze tree = .ok symbols) :
    (checking tree).Leaves symbols.render [] (.ok ()) := by
  have hresult : (Toy.analysis tree).result = .ok symbols := h
  simp only [checking, hresult]
  exact (leaves_records _ isRecord_recordOfEvent _).before (leaves_record.before leaves_print)

theorem leaves_checking_error {e : Located Toy.SemanticError} (h : Toy.analyze tree = .error e) :
    (checking tree).Leaves "" [e.render] (.error .failed) := by
  have hresult : (Toy.analysis tree).result = .error e := h
  simp only [checking, hresult]
  exact (leaves_records _ isRecord_recordOfEvent _).before leaves_stop

theorem leaves_readingTokens_none (h : options.tokens = none) :
    (readingTokens options files g table).Leaves "" [] (.ok ()) := by
  simp only [readingTokens, h]
  exact leaves_pure

theorem leaves_readingTokens_unread {path : String} {errors : List (Located DumpError)}
    (hpath : options.tokens = some path)
    (herrors : Token.readDump path (files path) = .error errors) :
    (readingTokens options files g table).Leaves "" (errors.map Located.render)
      (.error .failed) := by
  simp only [readingTokens, hpath, herrors]
  exact leaves_stop

theorem leaves_readingTokens_unparsed {path : String} {tokens : List Token}
    {e : Located SyntaxError} (hpath : options.tokens = some path)
    (htokens : Token.readDump path (files path) = .ok tokens)
    (he : table.parse g.start tokens = some (.error e)) :
    (readingTokens options files g table).Leaves "" [e.render] (.error .failed) := by
  simp only [readingTokens, hpath, htokens]
  exact leaves_record.before (leaves_parsing_error he).halted

/-- Tokens that are parsed print their tree, and then what the check of it leaves. -/
theorem leaves_readingTokens_parsed {sections problems : List String} {value : Except Halt Unit}
    (htree : Parsed options files g table tree)
    (hcheck : (if options.check then checking tree else pure () : Stage Unit).Leaves
      (String.join sections) problems value) :
    (readingTokens options files g table).Leaves
      (String.join (treeSection options tree :: sections)) problems value := by
  obtain ⟨path, tokens, hpath, htokens, hparse⟩ := htree
  simp only [readingTokens, hpath, htokens, String.join_cons]
  exact leaves_record.before
    ((leaves_parsing hparse).before (leaves_record.before (leaves_printIf.bind hcheck)))

end Parts

section Whole

variable {sections problems : List String} {value : Except Halt Unit}

theorem leaves_stages_loaded
    (h : Bnf.loadFile options.file options.start (world.files options.file) = .ok g)
    (hrest : (do
      let table ← buildingTable options g ⟨g.first, g.follow g.first g.start⟩
      sampling options world g
      readingTokens options world.files g table : Stage Unit).Leaves (String.join sections) problems
        value) :
    (stages options world).Leaves (String.join (setsSection options g :: sections)) problems
      value := by
  rw [String.join_cons]
  exact (leaves_loading h).before (leaves_warning.before (leaves_computingSets.bind hrest))

theorem leaves_stages_built (h : Built options world.files g table)
    (hrest : (do
      sampling options world g
      readingTokens options world.files g table : Stage Unit).Leaves (String.join sections) problems
        value) :
    (stages options world).Leaves
      (String.join (setsSection options g :: tableSection options table :: sections)) problems
      value := by
  refine leaves_stages_loaded h.loaded ?_
  rw [String.join_cons]
  exact (leaves_buildingTable h.table_eq).bind hrest

theorem leaves_stages_sampled (h : Sampled options world g table drawn)
    (hrest : (readingTokens options world.files g table).Leaves (String.join sections) problems
      value) :
    (stages options world).Leaves
      (String.join (setsSection options g :: tableSection options table ::
        sentencesSection drawn :: sections)) problems value := by
  refine leaves_stages_built h.built ?_
  rw [String.join_cons]
  exact (leaves_sampling h).bind hrest

/-- The stages leave the sections of the run's course and the errors of its ending. -/
theorem leaves_stages {ending : Ending} (h : Course options world sections ending) :
    (stages options world).Leaves (String.join sections) ending.errors ending.value := by
  cases h with
  | unloaded herrors => exact (leaves_loading_error herrors).halted
  | conflicting hg hc => exact leaves_stages_loaded hg (leaves_buildingTable_error hc).halted
  | barren h hbarren => exact leaves_stages_built h (leaves_sampling_error hbarren).halted
  | stuck h =>
    refine leaves_stages_built h.built ?_
    rw [String.join_cons, String.join_nil, String.append_empty]
    exact (leaves_sampling_stuck h).halted
  | sampled h hnone => exact leaves_stages_sampled h (leaves_readingTokens_none hnone)
  | unread h hpath herrors =>
    exact leaves_stages_sampled h (leaves_readingTokens_unread hpath herrors)
  | unparsed h hpath htokens he =>
    exact leaves_stages_sampled h (leaves_readingTokens_unparsed hpath htokens he)
  | parsed h htree hcheck =>
    refine leaves_stages_sampled h (leaves_readingTokens_parsed htree ?_)
    rw [hcheck]
    exact leaves_pure
  | violating h htree hcheck he =>
    refine leaves_stages_sampled h (leaves_readingTokens_parsed htree ?_)
    rw [hcheck]
    exact leaves_checking_error he
  | checked h htree hcheck hsymbols =>
    refine leaves_stages_sampled h (leaves_readingTokens_parsed htree ?_)
    rw [hcheck, String.join_cons, String.join_nil, String.append_empty]
    exact leaves_checking hsymbols

end Whole

end Stage

end TopDown.CommandLine
