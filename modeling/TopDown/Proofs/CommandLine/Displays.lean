import TopDown.Proofs.CommandLine.Responses

/-!
What the options for the display change. How often `-v` is given and whether `-q` is choose the log
level; `--sets`, `--table` and `--tree` ask for a section each. Runs that differ in these options
alone go the same way and end with the same exit code, or both not at all. The log level leaves no
trace on the standard output and the sections leave none on the standard error, and each section is
added where it belongs and nowhere else.
-/
namespace TopDown.CommandLine

/-- The options that tell only what a run shows. -/
structure Display where
  sets : Bool
  table : Bool
  tree : Bool
  verbosity : Nat
  quiet : Bool

def Options.display (options : Options) : Display where
  sets := options.sets
  table := options.table
  tree := options.tree
  verbosity := options.verbosity
  quiet := options.quiet

/-- The same options with another display. -/
def Options.displaying (options : Options) (display : Display) : Options :=
  { options with
    sets := display.sets
    table := display.table
    tree := display.tree
    verbosity := display.verbosity
    quiet := display.quiet }

theorem Options.displaying_display (options : Options) :
    options.displaying options.display = options := rfl

/-- The sets as they are shown. -/
def setsText (g : Grammar) : String :=
  "FIRST\n" ++ g.first.render g ++ "FOLLOW\n" ++ (g.follow g.first g.start).render g

section Parts

variable (options : Options) (world : World)

/-- The section that a flag asks for, in a run that comes to it. -/
inductive OwnSection : Flag → String → Prop where
  | sets {g : Grammar}
      (hg : Bnf.loadFile options.file options.start (world.files options.file) = .ok g) :
      OwnSection .sets (setsText g)
  | table {g : Grammar} {table : Table} (h : Built options world.files g table) :
      OwnSection .table table.render
  | tree {g : Grammar} {table : Table} {drawn : List (List Token)} {tree : SyntaxTree}
      (h : Sampled options world g table drawn)
      (htree : Parsed options world.files g table tree) :
      OwnSection .tree tree.render

/-- The text that a flag shows: its own section, or nothing in a run that does not come to it. -/
def SectionText (flag : Flag) (text : String) : Prop :=
  OwnSection options world flag text ∨
    (∀ other, ¬ OwnSection options world flag other) ∧ text = ""

/-- What the standard output is made of, in this order. -/
structure Parts where
  sets : String
  table : String
  sentences : String
  tree : String
  symbols : String

namespace Parts

/-- The parts that a display shows. -/
def shown (parts : Parts) (display : Display) : String :=
  String.join [wantedIf display.sets parts.sets, wantedIf display.table parts.table,
    parts.sentences, wantedIf display.tree parts.tree, parts.symbols]

/-- Each flag has its own section among the parts. -/
structure Own (parts : Parts) : Prop where
  sets : SectionText options world .sets parts.sets
  table : SectionText options world .table parts.table
  tree : SectionText options world .tree parts.tree

end Parts

end Parts

namespace Stage

variable {α β : Type}

/-- The stages go the same way and show the same on the standard error at every level. -/
structure Agrees (stage other : Stage α) : Prop where
  value_eq : stage.value = other.value
  shown_eq : ∀ level, String.join (stage.outputs.map (Output.shown level)) =
    String.join (other.outputs.map (Output.shown level))

variable {stage other : Stage α} {next next' : α → Stage β}

theorem Agrees.rfl : stage.Agrees stage := ⟨Eq.refl _, fun _ => Eq.refl _⟩

/-- Stages that agree lead to the same stages. -/
theorem Agrees.bind (h : stage.Agrees other) (hnext : ∀ a, (next a).Agrees (next' a)) :
    (stage >>= next).Agrees (other >>= next') := by
  change (Stage.bind stage next).Agrees (Stage.bind other next')
  rw [Stage.bind, Stage.bind, h.value_eq]
  cases other.value with
  | error halt => exact ⟨Eq.refl _, h.shown_eq⟩
  | ok a =>
    refine ⟨(hnext a).value_eq, fun level => ?_⟩
    simp only [List.map_append, String.join_append, h.shown_eq level, (hnext a).shown_eq level]

/-- A section leaves no trace on the standard error. -/
theorem agrees_printIf (wanted wanted' : Bool) (text : String) :
    (printIf wanted text).Agrees (printIf wanted' text) := by
  have hshown : ∀ wanted level,
      String.join ((printIf wanted text).outputs.map (Output.shown level)) = "" := by
    intro wanted level
    cases wanted with
    | true => exact String.empty_append
    | false => rfl
  refine ⟨?_, fun level => (hshown wanted level).trans (hshown wanted' level).symm⟩
  cases wanted <;> cases wanted' <;> exact Eq.refl _

end Stage

section Agreement

variable {options : Options} {world : World} {g : Grammar} {table : Table}
  {display : Display}

open Stage (Agrees agrees_printIf)

theorem agrees_computingSets :
    (computingSets (options.displaying display) g).Agrees (computingSets options g) :=
  .bind .rfl fun _ => .bind .rfl fun _ => .bind (agrees_printIf ..) fun _ => .rfl

theorem agrees_buildingTable (sets : Sets) :
    (buildingTable (options.displaying display) g sets).Agrees (buildingTable options g sets) := by
  unfold buildingTable
  refine .bind .rfl fun _ => ?_
  cases (g.filling sets.first sets.follow).conflict with
  | some conflict => exact .rfl
  | none => exact .bind .rfl fun _ => .bind (agrees_printIf ..) fun _ => .rfl

theorem agrees_readingTokens :
    (readingTokens (options.displaying display) world.files g table).Agrees
      (readingTokens options world.files g table) := by
  cases hpath : options.tokens with
  | none =>
    simp only [readingTokens, Options.displaying, hpath]
    exact .rfl
  | some path =>
    cases htokens : Token.readDump path (world.files path) with
    | error errors =>
      simp only [readingTokens, Options.displaying, hpath, htokens]
      exact .rfl
    | ok tokens =>
      simp only [readingTokens, Options.displaying, hpath, htokens]
      exact .bind .rfl fun _ => .bind .rfl fun _ => .bind .rfl fun _ =>
        .bind (agrees_printIf ..) fun _ => .rfl

/-- A run goes the same way whatever it displays. -/
theorem agrees_stages :
    (stages (options.displaying display) world).Agrees (stages options world) :=
  .bind .rfl fun _ => .bind .rfl fun _ => .bind agrees_computingSets fun sets =>
    .bind (agrees_buildingTable sets) fun _ => .bind .rfl fun _ => agrees_readingTokens

theorem code_displaying :
    (run (options.displaying display) world).code = (run options world).code := by
  simp only [run, agrees_stages.value_eq]

/-- The standard error depends on the display by the log level alone. -/
theorem errors_displaying (hverbosity : display.verbosity = options.verbosity)
    (hquiet : display.quiet = options.quiet) :
    (run (options.displaying display) world).errors =
      (run options world).errors := by
  change String.join ((stages (options.displaying display) world).outputs.map
    (Output.shown (Level.chosen display.quiet display.verbosity))) = _
  rw [hverbosity, hquiet]
  exact agrees_stages.shown_eq _

/-- The same world, in which another generator is seeded by chance. -/
def World.withChance (world : World) (chance : Random.Chooser) : World :=
  { world with unseeded := chance }

/-- A seed leaves nothing to chance. -/
theorem run_withChance (hseed : options.amount.isSome → options.seed.isSome)
    (chance : Random.Chooser) : run options (world.withChance chance) = run options world := by
  have hsampling : ∀ g,
      sampling options (world.withChance chance) g = sampling options world g := by
    intro g
    unfold sampling
    cases hamount : options.amount with
    | none => rfl
    | some amount =>
      obtain ⟨seed, hsome⟩ := Option.isSome_iff_exists.mp (hseed (hamount ▸ rfl))
      rw [samplerOf, samplerOf, hsome]
      rfl
  have hstages : stages options (world.withChance chance) = stages options world := by
    simp only [stages, hsampling]
    rfl
  simp only [run, hstages]

end Agreement

section Sections

variable {options : Options} {world : World} {g : Grammar} {table : Table}
  {tree : SyntaxTree} {drawn : List (List Token)} {flag : Flag} {text : String}

theorem Built.displaying (h : Built options world.files g table) (display : Display) :
    Built (options.displaying display) world.files g table := ⟨h.loaded, h.table_eq⟩

theorem Sampled.displaying (h : Sampled options world g table drawn) (display : Display) :
    Sampled (options.displaying display) world g table drawn :=
  ⟨h.built.displaying display, h.exists_sentences⟩

theorem Stuck.displaying (h : Stuck options world g table drawn) (display : Display) :
    Stuck (options.displaying display) world g table drawn :=
  ⟨h.built.displaying display, h.exists_before⟩

theorem OwnSection.exists_loaded (h : OwnSection options world flag text) :
    ∃ g, Bnf.loadFile options.file options.start (world.files options.file) = .ok g := by
  cases h with
  | sets hg => exact ⟨_, hg⟩
  | table h => exact ⟨_, h.loaded⟩
  | tree h => exact ⟨_, h.built.loaded⟩

theorem OwnSection.exists_built (h : OwnSection options world flag text)
    (hflag : flag ≠ .sets) : ∃ g table, Built options world.files g table := by
  cases h with
  | sets => exact absurd rfl hflag
  | table h => exact ⟨_, _, h⟩
  | tree h => exact ⟨_, _, h.built⟩

theorem OwnSection.exists_parsed (h : OwnSection options world .tree text) :
    ∃ g table drawn tree, Sampled options world g table drawn ∧
      Parsed options world.files g table tree := by
  cases h with
  | tree h htree => exact ⟨_, _, _, _, h, htree⟩

theorem sectionText_empty (h : ∀ other, ¬ OwnSection options world flag other) :
    SectionText options world flag "" := .inr ⟨h, rfl⟩

/-- A run that loads no grammar has no section. -/
theorem own_of_unloaded {errors : Bnf.LoadErrors}
    (herrors : Bnf.loadFile options.file options.start (world.files options.file) = .error errors) :
    (⟨"", "", "", "", ""⟩ : Parts).Own options world := by
  have hnone : ∀ flag text, ¬ OwnSection options world flag text := by
    intro flag text hown
    obtain ⟨g, hg⟩ := hown.exists_loaded
    cases herrors.symm.trans hg
  exact ⟨sectionText_empty (hnone _), sectionText_empty (hnone _), sectionText_empty (hnone _)⟩

/-- A run that builds no table has but the sets. -/
theorem own_of_conflict {c : Conflict}
    (hg : Bnf.loadFile options.file options.start (world.files options.file) = .ok g)
    (hc : g.table = .error c) :
    (⟨setsText g, "", "", "", ""⟩ : Parts).Own options world := by
  have hnone : ∀ flag, flag ≠ .sets → ∀ text, ¬ OwnSection options world flag text := by
    intro flag hflag text hown
    obtain ⟨other, table, hbuilt⟩ := hown.exists_built hflag
    obtain rfl := Except.ok.inj (hg.symm.trans hbuilt.loaded)
    cases hc.symm.trans hbuilt.table_eq
  exact ⟨.inl (.sets hg), sectionText_empty (hnone _ Flag.noConfusion),
    sectionText_empty (hnone _ Flag.noConfusion)⟩

/-- The sections of a run that parses no tokens. -/
theorem own_of_built (h : Built options world.files g table) (sentences : String)
    (hnone : ∀ other table drawn tree, Sampled options world other table drawn →
      ¬ Parsed options world.files other table tree) :
    (⟨setsText g, table.render, sentences, "", ""⟩ : Parts).Own options world := by
  refine ⟨.inl (.sets h.loaded), .inl (.table h), sectionText_empty fun text hown => ?_⟩
  obtain ⟨other, table, drawn, tree, hsampled, htree⟩ := hown.exists_parsed
  exact hnone _ _ _ _ hsampled htree

/-- The sections of a run that parses its tokens. -/
theorem own_of_parsed (h : Sampled options world g table drawn)
    (htree : Parsed options world.files g table tree) (sentences symbols : String) :
    (⟨setsText g, table.render, sentences, tree.render, symbols⟩ : Parts).Own options world :=
  ⟨.inl (.sets h.built.loaded), .inl (.table h.built), .inl (.tree h htree)⟩

@[simp]
theorem wantedIf_empty (wanted : Bool) : wantedIf wanted "" = "" := ite_self _

@[simp]
theorem setsSection_displaying (display : Display) :
    setsSection (options.displaying display) g = wantedIf display.sets (setsText g) := rfl

@[simp]
theorem tableSection_displaying (display : Display) :
    tableSection (options.displaying display) table = wantedIf display.table table.render := rfl

@[simp]
theorem treeSection_displaying (display : Display) :
    treeSection (options.displaying display) tree = wantedIf display.tree tree.render := rfl

/-- The course of a run fixes the parts that it shows, under any display. -/
theorem Course.exists_parts {texts : List String} {ending : Ending}
    (h : Course options world texts ending) :
    ∃ parts : Parts, parts.Own options world ∧ ∀ display : Display, ∃ texts,
      Course (options.displaying display) world texts ending ∧
        String.join texts = parts.shown display := by
  -- Under another display the same course is taken: its premises read no option of the display.
  cases h with
  | unloaded herrors =>
    refine ⟨_, own_of_unloaded herrors, fun display => ⟨_, .unloaded herrors, ?_⟩⟩
    simp [Parts.shown]
  | conflicting hg hc =>
    refine ⟨_, own_of_conflict hg hc, fun display => ⟨_, .conflicting hg hc, ?_⟩⟩
    simp [Parts.shown]
  | barren hbuilt hbarren =>
    refine ⟨_, own_of_built hbuilt "" fun _ _ _ _ hsampled _ => ?_,
      fun display => ⟨_, .barren (hbuilt.displaying display) hbarren, ?_⟩⟩
    · obtain ⟨rfl, rfl⟩ := hbuilt.unique hsampled.built
      exact hbarren hsampled.productive
    · simp [Parts.shown]
  | @stuck _ _ drawn hstuck =>
    refine ⟨_, own_of_built hstuck.built (sentencesSection drawn) fun _ _ _ _ hsampled _ => ?_,
      fun display => ⟨_, .stuck (hstuck.displaying display), ?_⟩⟩
    · obtain ⟨rfl, rfl⟩ := hstuck.built.unique hsampled.built
      exact hstuck.not_sampled hsampled
    · simp [Parts.shown]
  | @sampled _ _ drawn hsampled hnone =>
    refine ⟨_, own_of_built hsampled.built (sentencesSection drawn) fun _ _ _ _ _ htree => ?_,
      fun display => ⟨_, .sampled (hsampled.displaying display) hnone, ?_⟩⟩
    · obtain ⟨path, _, hpath, _⟩ := htree
      cases hnone.symm.trans hpath
    · simp [Parts.shown]
  | @unread _ _ drawn _ _ hsampled hpath herrors =>
    refine ⟨_, own_of_built hsampled.built (sentencesSection drawn) fun _ _ _ _ _ htree => ?_,
      fun display => ⟨_, .unread (hsampled.displaying display) hpath herrors, ?_⟩⟩
    · obtain ⟨tokens, htokens, _⟩ := htree.exists_tokens hpath
      cases herrors.symm.trans htokens
    · simp [Parts.shown]
  | @unparsed _ _ drawn _ _ _ hsampled hpath htokens he =>
    refine ⟨_, own_of_built hsampled.built (sentencesSection drawn) fun _ _ _ _ hother htree => ?_,
      fun display => ⟨_, .unparsed (hsampled.displaying display) hpath htokens he, ?_⟩⟩
    · obtain ⟨rfl, rfl⟩ := hsampled.built.unique hother.built
      obtain ⟨tokens', htokens', hparse⟩ := htree.exists_tokens hpath
      obtain rfl := Except.ok.inj (htokens'.symm.trans htokens)
      cases he.symm.trans hparse
    · simp [Parts.shown]
  | @parsed _ _ drawn _ hsampled htree hcheck =>
    refine ⟨_, own_of_parsed hsampled htree (sentencesSection drawn) "", fun display =>
      ⟨_, .parsed (hsampled.displaying display) htree hcheck, ?_⟩⟩
    simp [Parts.shown]
  | @violating _ _ drawn _ _ hsampled htree hcheck he =>
    refine ⟨_, own_of_parsed hsampled htree (sentencesSection drawn) "", fun display =>
      ⟨_, .violating (hsampled.displaying display) htree hcheck he, ?_⟩⟩
    simp [Parts.shown]
  | @checked _ _ drawn _ symbols hsampled htree hcheck hsymbols =>
    refine ⟨_, own_of_parsed hsampled htree (sentencesSection drawn) symbols.render, fun display =>
      ⟨_, .checked (hsampled.displaying display) htree hcheck hsymbols, ?_⟩⟩
    simp [Parts.shown]

/-- A run has the same parts under any display, and prints those that the display shows. -/
theorem exists_parts (options : Options) (world : World) :
    ∃ parts : Parts, parts.Own options world ∧ ∀ display : Display,
      (run (options.displaying display) world).output = parts.shown display := by
  obtain ⟨_, ending, hcourse⟩ := exists_course options world
  obtain ⟨parts, hown, hshown⟩ := hcourse.exists_parts
  refine ⟨parts, hown, fun display => ?_⟩
  obtain ⟨texts, hcourse', htexts⟩ := hshown display
  rw [run_of_course hcourse', htexts]

end Sections

section Answers

/-- Two runs that differ in their displays alone have the same exit code, or neither ends. At the
same log level they have the same standard error, and with the same sections the same standard
output. In any case the standard output of both has the same parts, and what they differ in are the
sections that one of them shows and the other does not. Command lines that ask for such runs are
answered by them. -/
theorem run_displaying (options : Options) (display : Display) (world : World)
    (chance : Random.Chooser) (hseed : options.amount.isSome → options.seed.isSome) :
    (run (options.displaying display) (world.withChance chance)).code = (run options world).code ∧
      (display.verbosity = options.verbosity → display.quiet = options.quiet →
        (run (options.displaying display) (world.withChance chance)).errors =
          (run options world).errors) ∧
      (display.sets = options.sets → display.table = options.table → display.tree = options.tree →
        (run (options.displaying display) (world.withChance chance)).output =
          (run options world).output) ∧
      (∃ parts : Parts, parts.Own options world ∧
        (run options world).output = parts.shown options.display ∧
        (run (options.displaying display) (world.withChance chance)).output =
          parts.shown display) ∧
      ∀ arguments arguments', Command.ofArguments arguments = .run options →
        Command.ofArguments arguments' = .run (options.displaying display) →
          respond arguments world = run options world ∧
            respond arguments' (world.withChance chance) =
              run (options.displaying display) (world.withChance chance) := by
  have hseed' : (options.displaying display).amount.isSome →
      (options.displaying display).seed.isSome := hseed
  obtain ⟨parts, hown, hparts⟩ := exists_parts options world
  have houtput := hparts options.display
  rw [options.displaying_display] at houtput
  rw [run_withChance hseed']
  refine ⟨code_displaying, errors_displaying, fun hsets htable htree => ?_,
    ⟨parts, hown, houtput, hparts display⟩, fun arguments arguments' h h' => ?_⟩
  · rw [houtput, hparts display, Parts.shown, Parts.shown, hsets, htable, htree]
    rfl
  · rw [respond_of_run h, respond_of_run h', run_withChance hseed']
    exact ⟨rfl, rfl⟩

section Pairs

/-- The sets and the tree, and many log records. -/
def verboseDisplay : Display := ⟨true, false, true, 2, false⟩

def verboseArguments : List String :=
  ["-vv", "--sets", "pairs.bnf", "--tree", "--amount=2", "--seed=7", "-tpairs.txt"]

theorem run_displaying_pairs :
    Command.ofArguments pairsArguments = .run pairsOptions ∧
      Command.ofArguments verboseArguments = .run (pairsOptions.displaying verboseDisplay) ∧
      (pairsOptions.amount.isSome → pairsOptions.seed.isSome) ∧
      (respond verboseArguments (pairsWorld.withChance (.ofWords [1]))).code = some 0 ∧
      ∃ parts : Parts, parts.Own pairsOptions pairsWorld ∧
        (respond pairsArguments pairsWorld).output =
          parts.table ++ parts.sentences ++ parts.tree ++ parts.symbols ∧
        (respond verboseArguments (pairsWorld.withChance (.ofWords [1]))).output =
          parts.sets ++ parts.sentences ++ parts.tree ++ parts.symbols := by
  have harguments : Command.ofArguments pairsArguments = .run pairsOptions := by decide
  have hverbose : Command.ofArguments verboseArguments =
      .run (pairsOptions.displaying verboseDisplay) := by decide
  obtain ⟨hcode, _, _, ⟨parts, hown, houtput, houtput'⟩, hcommand⟩ :=
    run_displaying pairsOptions verboseDisplay pairsWorld (.ofWords [1]) fun _ => rfl
  obtain ⟨hrespond, hrespond'⟩ := hcommand _ _ harguments hverbose
  obtain ⟨_, ending, hcourse⟩ := exists_course pairsOptions pairsWorld
  have hends := hcourse.ends fun _ => answers_pairsWorld pairsOptions.seed
  obtain rfl := (ending_eq_success_iff hcourse hends).mpr succeeds_pairs
  have hzero : (run pairsOptions pairsWorld).code = some 0 := by
    rw [run_of_course hcourse]
    rfl
  refine ⟨harguments, hverbose, fun _ => rfl, ?_, parts, hown, ?_, ?_⟩
  · rw [hrespond', hcode, hzero]
  · rw [hrespond, houtput]
    simp [Parts.shown, wantedIf, Options.display, pairsOptions, String.append_assoc]
  · rw [hrespond', houtput']
    simp [Parts.shown, wantedIf, verboseDisplay, String.append_assoc]

end Pairs

end Answers

end TopDown.CommandLine
