import Mathlib.Data.List.Induction
import TopDown.Proofs.Bnf.RuleLines
import TopDown.Proofs.Sorting

/-!
What comes of loading a text. Malformed lines are all reported, and they hide everything else; then
the names that are used without a rule line and those that have several are reported, line by line;
then a grammar without rules or without its start symbol; and otherwise the grammar has the rules of
the lines in their order. Every text has one of these outcomes, and only one.
-/
namespace TopDown.Bnf

/-- The bare names in the alternatives of a rule, as often as they are used. -/
def uses (rule : Rule) : List String :=
  rule.alternatives.flatten.filterMap fun
    | .nonterminal name => some name
    | _ => none

/-- The used names that are not defined, each of them once, in the order of their first use. -/
structure Undefined (defined used names : List String) : Prop where
  mem_iff : ∀ name, name ∈ names ↔ name ∈ used ∧ name ∉ defined
  ordered : names.Pairwise fun a b => used.idxOf a < used.idxOf b

/-- The errors of a rule line with these undefined names that has these lines before it. -/
def errorsOfLine (path : String) (before : List RuleLine) (line : RuleLine)
    (undefined : List String) : LoadErrors :=
  let repeated : List LoadError :=
    if line.rule.name ∈ before.map (·.rule.name) then [.repeatedRule line.rule.name] else []
  (undefined.map LoadError.undefinedNonterminal ++ repeated).map (⟨·, .inFile path line.line⟩)

/-- The errors of the first rule lines, line by line. -/
inductive RuleErrors (path : String) (defined : List String) :
    List RuleLine → LoadErrors → Prop where
  | nil : RuleErrors path defined [] []
  | concat {before : List RuleLine} {errors : LoadErrors} {undefined : List String}
      (line : RuleLine) (hbefore : RuleErrors path defined before errors)
      (hundefined : Undefined defined (uses line.rule) undefined) :
      RuleErrors path defined (before ++ [line]) (errors ++ errorsOfLine path before line undefined)

/-- The outcomes of loading rule lines. -/
inductive Loads (path : String) (start : Option String) (lines : List (List Char × Nat)) :
    Except LoadErrors Grammar → Prop where
  | malformed (h : lineErrors path lines ≠ []) :
      Loads path start lines (.error (lineErrors path lines))
  | faulty {rules : List RuleLine} {errors : LoadErrors} (hrules : List.Forall₂ ReadAs lines rules)
      (herrors : RuleErrors path (rules.map (·.rule.name)) rules errors) (hne : errors ≠ []) :
      Loads path start lines (.error errors)
  | noRules (h : lines = []) : Loads path start lines (.error [⟨.grammar .noRules, .inFile path 0⟩])
  | undefinedStart {rules : List RuleLine} {name : String}
      (hrules : List.Forall₂ ReadAs lines rules) (hne : lines ≠ [])
      (hnone : RuleErrors path (rules.map (·.rule.name)) rules []) (hstart : start = some name)
      (hname : name ∉ rules.map (·.rule.name)) :
      Loads path start lines (.error [⟨.grammar (.undefinedStart name), .inFile path 0⟩])
  | loaded {rules : List RuleLine} {g : Grammar} (hrules : List.Forall₂ ReadAs lines rules)
      (hnone : RuleErrors path (rules.map (·.rule.name)) rules [])
      (hg : g.rules = rules.map RuleLine.rule)
      (hstart : some g.start = start.or (rules.head?.map (·.rule.name))) :
      Loads path start lines (.ok g)

section Names

variable {defined used names : List String} {rule : Rule}

/-- Of repeated names the first ones stay, so the order is that of the first uses. -/
theorem pairwise_eraseDups (p : String → Bool) (used : List String) :
    (used.filter p).eraseDups.Pairwise fun a b => used.idxOf a < used.idxOf b := by
  induction used using List.reverseRecOn with
  | nil => exact .nil
  | append_singleton used name ih =>
    have hused : ∀ a ∈ (used.filter p).eraseDups, a ∈ used := fun a ha =>
      List.mem_of_mem_filter (List.mem_eraseDups.mp ha)
    have hold : (used.filter p).eraseDups.Pairwise
        fun a b => (used ++ [name]).idxOf a < (used ++ [name]).idxOf b := by
      refine ih.imp_of_mem fun {a b} ha hb hlt => ?_
      rwa [List.idxOf_append_of_mem (hused a ha), List.idxOf_append_of_mem (hused b hb)]
    rw [List.filter_append]
    by_cases hp : p name
    · rw [List.filter_cons_of_pos hp, List.filter_nil, List.eraseDups_append]
      by_cases hname : name ∈ used.filter p
      · have hnone : [name].removeAll (used.filter p) = [] := by
          rw [List.removeAll, List.filter_cons_of_neg (by simp [hname]), List.filter_nil]
        rwa [hnone, List.eraseDups_nil, List.append_nil]
      · have hnew : [name].removeAll (used.filter p) = [name] := by
          rw [List.removeAll, List.filter_cons_of_pos (by simp [hname]), List.filter_nil]
        have hname' : name ∉ used := fun hmem => hname (List.mem_filter.mpr ⟨hmem, hp⟩)
        rw [hnew, List.eraseDups_cons, List.filter_nil, List.eraseDups_nil, List.pairwise_append]
        refine ⟨hold, List.pairwise_singleton _ _, fun a ha b hb => ?_⟩
        rw [List.mem_singleton.mp hb, List.idxOf_append_of_mem (hused a ha),
          List.idxOf_append_of_notMem hname']
        exact Nat.lt_add_right _ (List.idxOf_lt_length_iff.mpr (hused a ha))
    · rwa [List.filter_cons_of_neg hp, List.filter_nil, List.append_nil]

theorem undefined_references (defined : List String) (rule : Rule) :
    Undefined defined (uses rule) ((references rule).filter (· ∉ defined)).eraseDups where
  mem_iff := by
    intro name
    rw [List.mem_eraseDups, List.mem_filter, decide_eq_true_iff]
    rfl
  ordered := pairwise_eraseDups _ (uses rule)

theorem Undefined.nodup (h : Undefined defined used names) : names.Nodup :=
  h.ordered.imp fun hlt heq => absurd (heq ▸ hlt) (Nat.lt_irrefl _)

/-- There is only one such list of names. -/
theorem Undefined.unique {others : List String} (h : Undefined defined used names)
    (h' : Undefined defined used others) : names = others := by
  have hperm : names.Perm others :=
    (List.perm_ext_iff_of_nodup h.nodup h'.nodup).mpr fun name =>
      (h.mem_iff name).trans (h'.mem_iff name).symm
  exact hperm.eq_of_pairwise (fun _ _ _ _ hlt hgt => absurd hgt (Nat.lt_asymm hlt)) h.ordered
    h'.ordered

end Names

section Check

variable {path : String} {defined : List String} {rules : List RuleLine} {errors : LoadErrors}

theorem repeatedRules_append (seen : List String) (before after : List RuleLine) :
    repeatedRules path seen (before ++ after) = repeatedRules path seen before ++
      repeatedRules path ((before.map (·.rule.name)).reverse ++ seen) after := by
  induction before generalizing seen with
  | nil => rfl
  | cons first before ih =>
    simp only [List.cons_append, repeatedRules, ih, List.map_cons, List.reverse_cons,
      List.append_assoc]
    split
    · rfl
    · rfl

theorem line_of_mem_undefinedReferences {e : Located LoadError}
    (h : e ∈ undefinedReferences path defined rules) : e.location.line ∈ rules.map (·.line) := by
  obtain ⟨line, hline, he⟩ := List.mem_flatMap.mp h
  obtain ⟨name, _, rfl⟩ := List.mem_map.mp he
  exact List.mem_map_of_mem hline

theorem line_of_mem_repeatedRules {seen : List String} {e : Located LoadError}
    (h : e ∈ repeatedRules path seen rules) : e.location.line ∈ rules.map (·.line) := by
  induction rules generalizing seen with
  | nil => cases h
  | cons first rules ih =>
    simp only [repeatedRules] at h
    split at h
    · rcases List.mem_cons.mp h with rfl | he
      · exact List.mem_cons_self
      · exact List.mem_cons_of_mem _ (ih he)
    · exact List.mem_cons_of_mem _ (ih h)

/-- The errors of a line are those of it alone, when the names before it have been seen. -/
theorem errorsOfLine_eq (before : List RuleLine) (line : RuleLine) :
    errorsOfLine path before line ((references line.rule).filter (· ∉ defined)).eraseDups =
      undefinedReferences path defined [line] ++
        repeatedRules path ((before.map (·.rule.name)).reverse ++ []) [line] := by
  simp only [errorsOfLine, undefinedReferences, repeatedRules, List.flatMap_singleton,
    List.map_append, List.map_map, List.append_nil, List.mem_reverse]
  refine congrArg _ ?_
  split
  · rfl
  · rfl

/-- With ascending lines, the sorted errors are those of the rule lines, line by line. -/
theorem ruleErrors_mergeSort (path : String) (defined : List String) {rules : List RuleLine}
    (hlines : (rules.map (·.line)).Pairwise (· < ·)) :
    RuleErrors path defined rules
      ((undefinedReferences path defined rules ++ repeatedRules path [] rules).mergeSort
        fun a b => a.location.line ≤ b.location.line) := by
  induction rules using List.reverseRecOn with
  | nil =>
    rw [undefinedReferences, repeatedRules, List.flatMap_nil, List.append_nil, List.mergeSort_nil]
    exact .nil
  | append_singleton before line ih =>
    rw [List.map_append, List.pairwise_append] at hlines
    obtain ⟨hbefore, -, hlast⟩ := hlines
    have hline : ∀ e ∈ undefinedReferences path defined [line] ++
        repeatedRules path ((before.map (·.rule.name)).reverse ++ []) [line],
        e.location.line = line.line := by
      intro e he
      rcases List.mem_append.mp he with he | he
      · exact List.mem_singleton.mp (line_of_mem_undefinedReferences he)
      · exact List.mem_singleton.mp (line_of_mem_repeatedRules he)
    have hearlier : ∀ e ∈ undefinedReferences path defined before ++ repeatedRules path [] before,
        e.location.line < line.line := by
      intro e he
      refine hlast _ ?_ _ List.mem_cons_self
      rcases List.mem_append.mp he with he | he
      · exact line_of_mem_undefinedReferences he
      · exact line_of_mem_repeatedRules he
    have hundefined : undefinedReferences path defined (before ++ [line]) =
        undefinedReferences path defined before ++ undefinedReferences path defined [line] :=
      List.flatMap_append
    rw [hundefined, repeatedRules_append,
      mergeSort_append_append (fun e he e' he' => (hline e' he').symm ▸ hearlier e he)
        (fun e he e' he' => (hline e he).trans (hline e' he').symm), ← errorsOfLine_eq]
    exact .concat line (ih hbefore) (undefined_references defined line.rule)

/-- The check finds the errors of the rule lines. -/
theorem ruleErrors_check (path : String) {rules : List RuleLine}
    (hlines : (rules.map (·.line)).Pairwise (· < ·)) :
    RuleErrors path (rules.map (·.rule.name)) rules (check path rules) :=
  ruleErrors_mergeSort path (rules.map (·.rule.name)) hlines

theorem RuleErrors.unique {others : LoadErrors} (h : RuleErrors path defined rules errors)
    (h' : RuleErrors path defined rules others) : errors = others := by
  induction h generalizing others with
  | nil =>
    generalize hrules : [] = rules at h'
    cases h' with
    | nil => rfl
    | concat => simp at hrules
  | @concat before errors undefined line _ hundefined ih =>
    generalize hrules : before ++ [line] = rules at h'
    cases h' with
    | nil => simp at hrules
    | concat other hbefore' hundefined' =>
      obtain ⟨rfl, hlast⟩ := List.append_inj' hrules rfl
      cases hlast
      rw [ih hbefore', hundefined.unique hundefined']

theorem ruleErrors_iff (hlines : (rules.map (·.line)).Pairwise (· < ·)) :
    RuleErrors path (rules.map (·.rule.name)) rules errors ↔ check path rules = errors := by
  constructor
  · exact (ruleErrors_check path hlines).unique
  · rintro rfl
    exact ruleErrors_check path hlines

end Check

section Build

variable {path : String} {start : Option String} {rules : List RuleLine} {errors : LoadErrors}

theorem build_of_errors (h : check path rules = errors) (hne : errors ≠ []) :
    build path start rules = .error errors := by
  obtain ⟨e, others, rfl⟩ := List.exists_cons_of_ne_nil hne
  simp only [build, h]

theorem build_of_error (h : check path rules = []) {e : GrammarError}
    (he : Grammar.ofRules ((start.or (rules.head?.map (·.rule.name))).getD "")
      (rules.map RuleLine.rule) = .error e) :
    build path start rules = .error [⟨.grammar e, .inFile path 0⟩] := by
  simp only [build, h, he]

theorem nodup_names (h : check path rules = []) :
    ((rules.map RuleLine.rule).map Rule.name).Nodup := by
  rw [List.map_map]
  exact (check_eq_nil_iff.mp h).2

/-- Rules without errors make up a grammar with any of them as the start. -/
theorem exists_grammar (h : check path rules = []) {name : String}
    (hname : name ∈ rules.map (·.rule.name)) :
    ∃ g : Grammar, g.start = name ∧ g.rules = rules.map RuleLine.rule := by
  have hdefined := (check_eq_nil_iff.mp h).1
  have hnames : (rules.map RuleLine.rule).map Rule.name = rules.map (·.rule.name) :=
    List.map_map
  refine ⟨⟨name, rules.map RuleLine.rule, nodup_names h, hnames ▸ hname, ?_⟩, rfl, rfl⟩
  intro rule hrule body hbody symbol hsymbol
  obtain ⟨line, hline, rfl⟩ := List.mem_map.mp hrule
  rw [hnames]
  cases symbol with
  | nonterminal used =>
    exact decide_eq_true (hdefined line hline used (mem_references_iff.mpr ⟨body, hbody, hsymbol⟩))
  | _ => rfl

theorem ofRules_undefinedStart {name : String} {rules : List Rule} (hne : rules ≠ [])
    (hdistinct : (rules.map Rule.name).Nodup) (hname : name ∉ rules.map Rule.name) :
    Grammar.ofRules name rules = .error (.undefinedStart name) := by
  have hrepeat : Grammar.firstRepeat [] (rules.map Rule.name) = none :=
    Grammar.firstRepeat_eq_none_iff.mpr ⟨hdistinct, fun _ _ => List.not_mem_nil⟩
  unfold Grammar.ofRules
  rw [if_neg hne]
  split
  · rename_i other hother
    rw [hrepeat] at hother
    cases hother
  · rw [dif_neg hname]

end Build

/-- The errors of the rule lines of a text are those that the check finds. -/
theorem ruleErrors_iff_of_readAs {path text : String} {rules : List RuleLine} {errors : LoadErrors}
    (hrules : List.Forall₂ ReadAs (ruleLines text) rules) :
    RuleErrors path (rules.map (·.rule.name)) rules errors ↔ check path rules = errors :=
  ruleErrors_iff (lines_of_readAs hrules ▸ ascending_ruleLines text)

/-- Every outcome is that of loading the text. -/
theorem Loads.load_eq {path : String} {start : Option String} {text : String}
    {result : Except LoadErrors Grammar} (h : Loads path start (ruleLines text) result) :
    load path start text = result := by
  rw [load, filter_isRuleLine]
  cases h with
  | malformed h => rw [readRules_of_malformed h]
  | faulty hrules herrors hne =>
    rw [readRules_of_readAs hrules]
    exact build_of_errors ((ruleErrors_iff_of_readAs hrules).mp herrors) hne
  | noRules h =>
    rw [h, readRules]
    exact build_of_error (check_eq_nil_iff.mpr ⟨fun _ h => absurd h List.not_mem_nil, .nil⟩) rfl
  | @undefinedStart rules name hrules hne hnone hstart hname =>
    have hcheck := (ruleErrors_iff_of_readAs hrules).mp hnone
    have hrules' : rules.map RuleLine.rule ≠ [] := by
      intro hnil
      rw [List.map_eq_nil_iff.mp hnil, List.forall₂_nil_right_iff] at hrules
      exact hne hrules
    have hname' : name ∉ (rules.map RuleLine.rule).map Rule.name := by
      rw [List.map_map]
      exact hname
    rw [readRules_of_readAs hrules, hstart]
    exact build_of_error hcheck (ofRules_undefinedStart hrules' (nodup_names hcheck) hname')
  | loaded hrules _ hg hstart =>
    rw [readRules_of_readAs hrules]
    refine build_of_rules hg.symm ?_ path
    rw [← hstart, Option.getD_some]

/-- Loading a text always has one of the outcomes. -/
theorem exists_loads (path : String) (start : Option String) (text : String) :
    ∃ result, Loads path start (ruleLines text) result := by
  by_cases hmalformed : lineErrors path (ruleLines text) = []
  · rcases readRules_cases path (ruleLines text) with ⟨_, rules, _, hrules⟩ | ⟨hsome, _⟩
    · by_cases hnone : check path rules = []
      · have herrors := (ruleErrors_iff_of_readAs hrules).mpr hnone
        generalize ruleLines text = lines at hrules
        cases hrules with
        | nil => exact ⟨_, .noRules rfl⟩
        | @cons _ first _ rest hfirst hrest =>
          have hrules := List.Forall₂.cons hfirst hrest
          cases start with
          | none =>
            obtain ⟨g, hstart, hg⟩ := exists_grammar hnone List.mem_cons_self
            exact ⟨_, .loaded hrules herrors hg (congrArg some hstart)⟩
          | some name =>
            by_cases hname : name ∈ (first :: rest).map (·.rule.name)
            · obtain ⟨g, hstart, hg⟩ := exists_grammar hnone hname
              exact ⟨_, .loaded hrules herrors hg (congrArg some hstart)⟩
            · exact ⟨_, .undefinedStart hrules (List.cons_ne_nil _ _) herrors rfl hname⟩
      · exact ⟨_, .faulty hrules ((ruleErrors_iff_of_readAs hrules).mpr rfl) hnone⟩
    · exact absurd hmalformed hsome
  · exact ⟨_, .malformed hmalformed⟩

/-- Every rule line has a first word, and loading a text comes out in this way and no other. -/
theorem load_exact (path : String) (start : Option String) (text : String) :
    (∀ line ∈ ruleLines text, words line.1 ≠ some []) ∧
      ∀ result, load path start text = result ↔ Loads path start (ruleLines text) result := by
  refine ⟨fun _ hline => words_ne_nil_of_mem hline, fun result => ⟨?_, Loads.load_eq⟩⟩
  rintro rfl
  obtain ⟨result, hresult⟩ := exists_loads path start text
  rwa [hresult.load_eq]

/-- Comments and blank lines are counted, a name is reported once for a line, and the name of a line
is reported after those that it uses. -/
theorem load_exact_faulty :
    Loads "list.bnf" none (ruleLines "; a list\n\nA = B \"x\" C B |\nA = D A\n")
      (.error [⟨.undefinedNonterminal "B", .inFile "list.bnf" 3⟩,
        ⟨.undefinedNonterminal "C", .inFile "list.bnf" 3⟩,
        ⟨.undefinedNonterminal "D", .inFile "list.bnf" 4⟩,
        ⟨.repeatedRule "A", .inFile "list.bnf" 4⟩]) := by
  have hread : readRules "list.bnf" (ruleLines "; a list\n\nA = B \"x\" C B |\nA = D A\n") =
      .ok [⟨⟨"A", [[.nonterminal "B", .terminal "x", .nonterminal "C", .nonterminal "B"], []]⟩, 3⟩,
        ⟨⟨"A", [[.nonterminal "D", .nonterminal "A"]]⟩, 4⟩] := by
    decide +kernel
  refine ((load_exact "list.bnf" none _).2 _).mp ?_
  rw [load_of_readRules hread]
  exact build_of_errors (List.mergeSort_of_pairwise (by decide)) (List.cons_ne_nil _ _)

end TopDown.Bnf
