import TopDown.Proofs.Bnf.RuleLines
import TopDown.Proofs.CommandLine.Courses
import TopDown.Proofs.Termination
import TopDown.Random.ChaCha

/-!
The answer of a run. Every run takes exactly one course, since the parser comes to an end on the
grammar's own table, and if the random choices are answered a productive start symbol gives all
sentences that are asked for. The course tells the standard output, the errors and the exit code.
-/
namespace TopDown.CommandLine

variable {options : Options} {files : Files} {world : World} {g : Grammar} {table : Table}
  {tree : SyntaxTree} {drawn : List (List Token)}

theorem Built.unique {other : Grammar} {table' : Table} (h : Built options files g table)
    (h' : Built options files other table') : other = g ∧ table' = table := by
  have hg : other = g := Except.ok.inj (h'.loaded.symm.trans h.loaded)
  subst hg
  exact ⟨rfl, Except.ok.inj (h'.table_eq.symm.trans h.table_eq)⟩

theorem Parsed.exists_tokens {path : String} (h : Parsed options files g table tree)
    (hpath : options.tokens = some path) :
    ∃ tokens, Token.readDump path (files path) = .ok tokens ∧
      table.parse g.start tokens = some (.ok tree) := by
  obtain ⟨path', tokens, hpath', htokens, hparse⟩ := h
  obtain rfl := Option.some.inj (hpath'.symm.trans hpath)
  exact ⟨tokens, htokens, hparse⟩

theorem Parsed.unique {other : SyntaxTree} (h : Parsed options files g table tree)
    (h' : Parsed options files g table other) : other = tree := by
  obtain ⟨path, tokens, hpath, htokens, hparse⟩ := h
  obtain ⟨tokens', htokens', hparse'⟩ := h'.exists_tokens hpath
  obtain rfl := Except.ok.inj (htokens'.symm.trans htokens)
  exact Except.ok.inj (Option.some.inj (hparse'.symm.trans hparse))

/-- Sentences are drawn only from a start symbol that derives one. -/
theorem Sampled.productive (h : Sampled options world g table drawn) : Productive options g := by
  intro hpos
  refine Classical.byContradiction fun hword => ?_
  obtain ⟨last, hdrawn⟩ := h.exists_sentences
  obtain ⟨amount, hamount⟩ := Nat.exists_eq_succ_of_ne_zero (Nat.ne_of_gt hpos)
  rw [hamount, Sampler.sentences, samplerOf,
    Sampler.sentence_of_not_generates _ _ 0 g.start_mem_nonterminals hword] at hdrawn
  cases hdrawn

/-- A run that waits for a sentence has not drawn them all. -/
theorem Stuck.not_sampled {others : List (List Token)} (h : Stuck options world g table drawn) :
    ¬ Sampled options world g table others := by
  intro hsampled
  obtain ⟨before, hlt, last, hdrawn, hnone⟩ := h.exists_before
  obtain ⟨_, hall⟩ := hsampled.exists_sentences
  rw [Sampler.sentences_eq_none_iff.mpr ⟨before, hlt, drawn, last, hdrawn, hnone⟩] at hall
  cases hall

/-- A productive start symbol gives all sentences, or the run waits for one that never ends. -/
theorem exists_sampled_or_stuck (h : Built options world.files g table)
    (hproductive : Productive options g) :
    (∃ drawn, Sampled options world g table drawn) ∨
      ∃ drawn, Stuck options world g table drawn := by
  cases hsentences : (samplerOf options world g).sentences g.start (options.amount.getD 0) 0 with
  | none =>
    obtain ⟨before, hlt, drawn, last, hdrawn, hnone⟩ :=
      Sampler.sentences_eq_none_iff.mp hsentences
    exact .inr ⟨drawn, h, before, hlt, last, hdrawn, hnone⟩
  | some answer =>
    cases answer with
    | ok answer => exact .inl ⟨answer.1, h, answer.2, hsentences⟩
    | error e =>
      rcases Nat.eq_zero_or_pos (options.amount.getD 0) with hzero | hpos
      · rw [hzero] at hsentences
        cases hsentences
      · exact absurd hsentences (Sampler.sentences_ne_error _ _ 0 (hproductive hpos) _ e)

/-- A run ends if the random choices that it may ask for are answered. -/
theorem Course.ends {sections : List String} {ending : Ending}
    (h : Course options world sections ending)
    (hanswers : 0 < options.amount.getD 0 → (world.chooser options.seed).Answers) :
    ending ≠ .unending := by
  rintro rfl
  cases h with
  | @stuck g _ _ hstuck =>
    obtain ⟨before, hlt, last, _, hnone⟩ := hstuck.exists_before
    by_cases hword : ∃ w, g.Generates g.start w
    · obtain ⟨tokens, next, hsentence, _⟩ :=
        Sampler.exists_sentence (world.chooser options.seed) options.maxDepth last
          (hanswers (Nat.zero_lt_of_lt hlt)) hword
      cases hnone.symm.trans hsentence
    · have hsentence := Sampler.sentence_of_not_generates (world.chooser options.seed)
        options.maxDepth last g.start_mem_nonterminals hword
      cases hnone.symm.trans hsentence

/-- After its sentences a run has a course whatever the options ask of the tokens. -/
theorem exists_course_of_sampled (h : Sampled options world g table drawn) :
    ∃ sections ending, Course options world sections ending := by
  cases hpath : options.tokens with
  | none => exact ⟨_, _, .sampled h hpath⟩
  | some path =>
    cases htokens : Token.readDump path (world.files path) with
    | error errors => exact ⟨_, _, .unread h hpath htokens⟩
    | ok tokens =>
      obtain ⟨answer, hanswer⟩ := Grammar.exists_parse h.built.table_eq tokens
      cases answer with
      | error e => exact ⟨_, _, .unparsed h hpath htokens hanswer⟩
      | ok tree =>
        have htree : Parsed options world.files g table tree :=
          ⟨path, tokens, hpath, htokens, hanswer⟩
        cases hcheck : options.check with
        | false => exact ⟨_, _, .parsed h htree hcheck⟩
        | true =>
          cases hanalyze : Toy.analyze tree with
          | error e => exact ⟨_, _, .violating h htree hcheck hanalyze⟩
          | ok symbols => exact ⟨_, _, .checked h htree hcheck hanalyze⟩

theorem exists_course (options : Options) (world : World) :
    ∃ sections ending, Course options world sections ending := by
  cases hload : Bnf.loadFile options.file options.start (world.files options.file) with
  | error errors => exact ⟨_, _, .unloaded hload⟩
  | ok g =>
    cases htable : g.table with
    | error c => exact ⟨_, _, .conflicting hload htable⟩
    | ok table =>
      have hbuilt : Built options world.files g table := ⟨hload, htable⟩
      by_cases hproductive : Productive options g
      · rcases exists_sampled_or_stuck hbuilt hproductive with ⟨drawn, hsampled⟩ | ⟨drawn, hstuck⟩
        · exact exists_course_of_sampled hsampled
        · exact ⟨_, _, .stuck hstuck⟩
      · exact ⟨_, _, .barren hbuilt hproductive⟩

/-- After the table is built it remains to draw sentences and to parse and check the tokens. -/
theorem succeeds_iff_of_built (h : Built options files g table) :
    Succeeds options files ↔ Productive options g ∧
      ∀ path, options.tokens = some path → ∃ tree, Parsed options files g table tree ∧
        (options.check = true → ∃ symbols, Toy.analyze tree = .ok symbols) := by
  constructor
  · rintro ⟨other, table', hbuilt, hrest⟩
    obtain ⟨rfl, rfl⟩ := h.unique hbuilt
    exact hrest
  · exact fun hrest => ⟨g, table, h, hrest⟩

theorem succeeds_iff_of_sampled (h : Sampled options world g table drawn) :
    Succeeds options world.files ↔
      ∀ path, options.tokens = some path → ∃ tree, Parsed options world.files g table tree ∧
        (options.check = true → ∃ symbols, Toy.analyze tree = .ok symbols) := by
  rw [succeeds_iff_of_built h.built]
  exact and_iff_right h.productive

theorem succeeds_iff_of_parsed (h : Sampled options world g table drawn)
    (htree : Parsed options world.files g table tree) :
    Succeeds options world.files ↔
      (options.check = true → ∃ symbols, Toy.analyze tree = .ok symbols) := by
  rw [succeeds_iff_of_sampled h]
  constructor
  · intro hall
    obtain ⟨path, _, hpath, _⟩ := id htree
    obtain ⟨other, hother, hsymbols⟩ := hall path hpath
    rwa [htree.unique hother] at hsymbols
  · exact fun hsymbols _ _ => ⟨tree, htree, hsymbols⟩

/-- A course that ends does so with success just when everything that is asked for succeeds. -/
theorem ending_eq_success_iff {sections : List String} {ending : Ending}
    (h : Course options world sections ending) (hends : ending ≠ .unending) :
    ending = .success ↔ Succeeds options world.files := by
  cases h with
  | unloaded herrors =>
    refine iff_of_false Ending.noConfusion ?_
    rintro ⟨g, table, hbuilt, _⟩
    have hok := herrors.symm.trans hbuilt.loaded
    cases hok
  | conflicting hg hc =>
    refine iff_of_false Ending.noConfusion ?_
    rintro ⟨g, table, hbuilt, _⟩
    obtain rfl := Except.ok.inj (hg.symm.trans hbuilt.loaded)
    have hok := hc.symm.trans hbuilt.table_eq
    cases hok
  | barren hbuilt hbarren =>
    rw [succeeds_iff_of_built hbuilt]
    exact iff_of_false Ending.noConfusion fun hrest => hbarren hrest.1
  | stuck => exact absurd rfl hends
  | sampled hsampled hnone =>
    rw [succeeds_iff_of_sampled hsampled]
    refine iff_of_true rfl fun path hpath => ?_
    have hsome := hnone.symm.trans hpath
    cases hsome
  | unread hsampled hpath herrors =>
    rw [succeeds_iff_of_sampled hsampled]
    refine iff_of_false Ending.noConfusion fun hall => ?_
    obtain ⟨tree, htree, _⟩ := hall _ hpath
    obtain ⟨tokens, htokens, _⟩ := htree.exists_tokens hpath
    have hok := herrors.symm.trans htokens
    cases hok
  | unparsed hsampled hpath htokens he =>
    rw [succeeds_iff_of_sampled hsampled]
    refine iff_of_false Ending.noConfusion fun hall => ?_
    obtain ⟨tree, htree, _⟩ := hall _ hpath
    obtain ⟨tokens', htokens', hparse⟩ := htree.exists_tokens hpath
    obtain rfl := Except.ok.inj (htokens'.symm.trans htokens)
    have hok := he.symm.trans hparse
    cases hok
  | parsed hsampled htree hcheck =>
    rw [succeeds_iff_of_parsed hsampled htree, hcheck]
    exact iff_of_true rfl fun hfalse => absurd hfalse Bool.false_ne_true
  | violating hsampled htree hcheck he =>
    rw [succeeds_iff_of_parsed hsampled htree]
    refine iff_of_false Ending.noConfusion fun hchecks => ?_
    obtain ⟨symbols, hok⟩ := hchecks hcheck
    rw [he] at hok
    cases hok
  | checked hsampled htree hcheck hsymbols =>
    rw [succeeds_iff_of_parsed hsampled htree]
    exact iff_of_true rfl fun _ => ⟨_, hsymbols⟩

/-- The log records of a run that its options let through. -/
def shownRecords (options : Options) (world : World) : String :=
  String.join (((stages options world).outputs.filter Output.isRecord).map
    (Output.shown (Level.chosen options.quiet options.verbosity)))

/-- What a run answers is told by its course. -/
theorem run_of_course {sections : List String} {ending : Ending}
    (h : Course options world sections ending) :
    run options world =
      { code := exitCode ending.value
        output := String.join sections
        errors := shownRecords options world ++ String.join (ending.errors.map (· ++ "\n")) } := by
  have hleaves := Stage.leaves_stages h
  simp only [run, hleaves.text_eq, hleaves.join_shown, hleaves.value_eq]
  rfl

theorem respond_of_run {arguments : List String} (h : Command.ofArguments arguments = .run options)
    (world : World) : respond arguments world = run options world := by
  simp only [respond, h]

/-- Provided that the random choices are answered if sentences are asked for, a run exits with zero
just when everything that its options ask for succeeds, and with one otherwise. It takes a course,
prints the sections of that course and nothing else, and reports, after its log records, the errors
that the course ends with. A command line that asks for a run is answered by it. -/
theorem run_exact (options : Options) (world : World)
    (hanswers : 0 < options.amount.getD 0 → (world.chooser options.seed).Answers) :
    ((run options world).code = some 0 ↔ Succeeds options world.files) ∧
      (¬ Succeeds options world.files → (run options world).code = some 1) ∧
      (∃ sections ending, Course options world sections ending) ∧
      (∀ sections ending, Course options world sections ending →
        (run options world).output = String.join sections ∧
          (run options world).errors =
            shownRecords options world ++ String.join (ending.errors.map (· ++ "\n"))) ∧
      ∀ arguments, Command.ofArguments arguments = .run options →
        respond arguments world = run options world := by
  obtain ⟨sections, ending, hcourse⟩ := exists_course options world
  have hends := hcourse.ends hanswers
  have hsuccess := ending_eq_success_iff hcourse hends
  have hrun := run_of_course hcourse
  refine ⟨?_, fun hfails => ?_, ⟨sections, ending, hcourse⟩, fun sections ending hcourse => ?_,
    fun arguments harguments => respond_of_run harguments world⟩
  · rw [hrun, ← hsuccess]
    cases ending with
    | success => exact iff_of_true rfl rfl
    | failure errors =>
      exact iff_of_false (fun h => Nat.one_ne_zero (Option.some.inj h)) Ending.noConfusion
    | unending => exact absurd rfl hends
  · rw [hrun]
    cases ending with
    | success => exact absurd (hsuccess.mp rfl) hfails
    | failure errors => rfl
    | unending => exact absurd rfl hends
  · rw [run_of_course hcourse]
    exact ⟨rfl, rfl⟩

section Pairs

open TopDown.Grammar (nestedPairs nestedPairsTable table_nestedPairs)

/-- A grammar, and tokens that it generates. -/
def pairsFiles : Files := fun path =>
  if path = "pairs.bnf" then .ok "S = \"a\" S \"b\" | ε\n"
  else if path = "pairs.txt" then .ok "a\t(\t1\t1\nb\t)\t1\t2\n"
  else .error .notFound

/-- The words that sentences from seed 7 are drawn from. -/
def pairsWords : List UInt32 :=
  [1789459390, 130212073, 612261766, 1318925544, 260816077, 612643398, 2799673497, 2330093573]

example : (Random.keystreamBlock (Random.keyOfSeed 7) 0).toList.take 8 = pairsWords := by
  decide +kernel

def pairsWorld : World where
  files := pairsFiles
  seeded := fun _ => .ofWords pairsWords
  unseeded := .ofWords []

def pairsOptions : Options where
  file := "pairs.bnf"
  start := none
  tokens := some "pairs.txt"
  sets := false
  table := true
  tree := true
  check := false
  amount := some 2
  seed := some 7
  maxDepth := 12
  verbosity := 0
  quiet := false

theorem succeeds_pairs : Succeeds pairsOptions pairsFiles := by
  have hempty : nestedPairs.Step [.nonterminal "S"] [] :=
    .expand [] [] ⟨"S", 1, [.epsilon]⟩ (by decide)
  have hpair : nestedPairs.Generates "S" (Token.kinds [⟨"a", "(", 1, 1⟩, ⟨"b", ")", 1, 2⟩]) :=
    .head (.expand [] [] ⟨"S", 0, [.terminal "a", .nonterminal "S", .terminal "b"]⟩ (by decide))
      (.single (hempty.context [.terminal "a"] [.terminal "b"]))
  obtain ⟨tree, hparse, _⟩ := Sampler.exists_parse_of_generates table_nestedPairs hpair
  have hload : Bnf.loadFile pairsOptions.file pairsOptions.start (pairsFiles pairsOptions.file) =
      .ok nestedPairs := by
    have hread : Bnf.readRules "pairs.bnf" (Bnf.ruleLines "S = \"a\" S \"b\" | ε\n") =
        .ok (Bnf.numbered 1 nestedPairs.rules) := by
      decide +kernel
    change Bnf.load "pairs.bnf" none "S = \"a\" S \"b\" | ε\n" = .ok nestedPairs
    rw [Bnf.load_of_readRules hread]
    exact Bnf.build_of_rules rfl rfl "pairs.bnf"
  refine ⟨nestedPairs, nestedPairsTable, ⟨hload, table_nestedPairs⟩,
    fun _ => ⟨[], .single hempty⟩, fun path hpath => ⟨tree, ?_, fun hcheck => ?_⟩⟩
  · exact ⟨"pairs.txt", [⟨"a", "(", 1, 1⟩, ⟨"b", ")", 1, 2⟩], rfl, rfl, hparse⟩
  · cases hcheck

def pairsArguments : List String :=
  ["pairs.bnf", "--table", "--tree", "-n2", "--seed", "7", "-t", "pairs.txt"]

theorem answers_pairsWorld (seed : Option Nat) : (pairsWorld.chooser seed).Answers := by
  cases seed with
  | none => exact Random.Chooser.answers_ofWords []
  | some seed => exact Random.Chooser.answers_ofWords pairsWords

theorem run_exact_pairs :
    (pairsWorld.chooser pairsOptions.seed).Answers ∧
      (run pairsOptions pairsWorld).code = some 0 ∧
      (∃ sections, Course pairsOptions pairsWorld sections .success ∧
        (run pairsOptions pairsWorld).output = String.join sections) ∧
      Command.ofArguments pairsArguments = .run pairsOptions ∧
      respond pairsArguments pairsWorld = run pairsOptions pairsWorld := by
  have harguments : Command.ofArguments pairsArguments = .run pairsOptions := by decide
  have hanswers := answers_pairsWorld pairsOptions.seed
  obtain ⟨hcode, _, ⟨sections, ending, hcourse⟩, hanswer, hcommand⟩ :=
    run_exact pairsOptions pairsWorld fun _ => hanswers
  have hends := hcourse.ends fun _ => hanswers
  obtain rfl := (ending_eq_success_iff hcourse hends).mpr succeeds_pairs
  exact ⟨hanswers, hcode.mpr succeeds_pairs, ⟨sections, hcourse, (hanswer _ _ hcourse).1⟩,
    harguments, hcommand _ harguments⟩

end Pairs

end TopDown.CommandLine
