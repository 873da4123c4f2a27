import TopDown.Proofs.Bnf.Spelling
import TopDown.Proofs.Prediction
import TopDown.Proofs.Text.Lines

/-!
A grammar that is written as BNF text is read back as it was: the same start symbol, the same rules
in the same order, and in each rule the same alternatives. Names that can stand bare and terminals
of one line are enough for that, whatever signs they hold.
-/
namespace TopDown

namespace Grammar

theorem settleAmong_of_hasRule {names : List String} {symbol : Symbol}
    (h : symbol.hasRuleAmong names = true) : symbol.settleAmong names = symbol := by
  cases symbol with
  | terminal t => rfl
  | epsilon => rfl
  | nonterminal name => exact if_pos (of_decide_eq_true h)

theorem settleAmong_rules (g : Grammar) :
    g.rules.map (Rule.settleAmong (g.rules.map Rule.name)) = g.rules := by
  refine (List.map_congr_left fun rule hrule => ?_).trans (List.map_id g.rules)
  have hbody : ∀ body ∈ rule.alternatives,
      body.map (Symbol.settleAmong (g.rules.map Rule.name)) = body := by
    intro body hbody
    refine (List.map_congr_left fun symbol hsymbol => ?_).trans (List.map_id body)
    exact settleAmong_of_hasRule (g.closed rule hrule body hbody symbol hsymbol)
  have halternatives := (List.map_congr_left hbody).trans (List.map_id rule.alternatives)
  exact congrArg (Rule.mk rule.name) halternatives

/-- The rules of a grammar make up the grammar. -/
theorem ofRules_rules (g : Grammar) : ofRules g.start g.rules = .ok g := by
  have hne : g.rules ≠ [] := by
    intro hnil
    have hstart := g.start_defined
    rw [hnil] at hstart
    exact List.not_mem_nil hstart
  have hrepeat : firstRepeat [] (g.rules.map Rule.name) = none :=
    firstRepeat_eq_none_iff.mpr ⟨g.distinct, fun _ _ => List.not_mem_nil⟩
  unfold ofRules
  rw [if_neg hne]
  split
  · rename_i name hname
    rw [hrepeat] at hname
    cases hname
  · rw [dif_pos g.start_defined]
    obtain ⟨start, rules, distinct, start_defined, closed⟩ := g
    congr 2
    exact settleAmong_rules ⟨start, rules, distinct, start_defined, closed⟩

end Grammar

namespace Bnf

/-- The symbol is read back as it is printed. -/
def Writable : Symbol → Prop
  | .terminal name => name ≠ "" ∧ '\n' ∉ name.toList
  | .nonterminal name => BareName name.toList
  | .epsilon => True

/-- The word that a symbol is printed as. -/
def wordOf : Symbol → Word
  | .terminal name => .quoted name.toList
  | .nonterminal name => .name name.toList
  | .epsilon => .epsilon

section Printed

variable {symbol : Symbol} {body : Body} {bodies : List Body} {rule : Rule}

theorem spells_symbol (h : Writable symbol) : Spells (printSymbol symbol) [wordOf symbol] := by
  cases symbol with
  | terminal name =>
    have hne : name.toList ≠ [] := fun hnil => h.1 (String.toList_eq_nil_iff.mp hnil)
    exact .quoted hne
  | nonterminal name => exact .bare h
  | epsilon =>
    intro rest _
    rfl

/-- A sign between blanks. -/
theorem spells_sign {sign : Char} {word : Word} {text text' : List Char} {ws ws' : List Word}
    (hsign : Spells [sign] [word]) (h : Spells text ws) (h' : Spells text' ws') :
    Spells (text ++ [' ', sign, ' '] ++ text') (ws ++ [word] ++ ws') := by
  have hjoin := h.join (hsign.join h')
  simp only [List.append_assoc, List.cons_append, List.nil_append] at hjoin ⊢
  exact hjoin

theorem spells_equals : Spells ['='] [.equals] := fun _ _ => rfl

theorem spells_bar : Spells ['|'] [.bar] := fun _ _ => rfl

theorem intercalate_singletons (body : Body) :
    ([] : List Word).intercalate (body.map fun symbol => [wordOf symbol]) = body.map wordOf := by
  induction body with
  | nil => rfl
  | cons symbol body ih =>
    cases body with
    | nil => rfl
    | cons next body =>
      simp only [List.map_cons, List.intercalate_cons_cons, List.append_nil] at ih ⊢
      rw [ih]
      rfl

theorem spells_body (h : ∀ symbol ∈ body, Writable symbol) :
    Spells (printBody body) (body.map wordOf) := by
  have hspells : Spells (printBody body)
      (([] : List Word).intercalate (body.map fun symbol => [wordOf symbol])) := by
    refine Spells.intercalate ?_ fun symbol hsymbol => spells_symbol (h symbol hsymbol)
    intro text ws text' ws' htext htext'
    rw [List.append_nil, List.append_assoc, List.singleton_append]
    exact htext.join htext'
  rwa [intercalate_singletons] at hspells

/-- The words of the alternatives, with bars between them. -/
def wordsOfBodies (bodies : List Body) : List Word :=
  [Word.bar].intercalate (bodies.map fun body => body.map wordOf)

theorem spells_rule (hname : BareName rule.name.toList)
    (h : ∀ body ∈ rule.alternatives, ∀ symbol ∈ body, Writable symbol) :
    Spells (printRule rule)
      (.name rule.name.toList :: .equals :: wordsOfBodies rule.alternatives) := by
  have hbodies : Spells ([' ', '|', ' '].intercalate (rule.alternatives.map printBody))
      (wordsOfBodies rule.alternatives) :=
    Spells.intercalate (spells_sign spells_bar) fun body hbody => spells_body (h body hbody)
  exact spells_sign spells_equals (.bare hname) hbodies

/-- The words of a body go before what is read off the rest. -/
theorem alternatives_append {rest : List Word} {first : Body} {others : List Body} (body : Body)
    (h : alternatives rest = .ok (first :: others)) :
    alternatives (body.map wordOf ++ rest) = .ok ((body ++ first) :: others) := by
  induction body with
  | nil => exact h
  | cons symbol body ih =>
    cases symbol with
    | terminal name =>
      simp only [List.map_cons, List.cons_append, wordOf, alternatives, ih, String.ofList_toList]
      rfl
    | nonterminal name =>
      simp only [List.map_cons, List.cons_append, wordOf, alternatives, ih, String.ofList_toList]
      rfl
    | epsilon =>
      simp only [List.map_cons, List.cons_append, wordOf, alternatives, ih]
      rfl

/-- The alternatives are read back off their words. -/
theorem alternatives_wordsOfBodies (h : bodies ≠ []) :
    alternatives (wordsOfBodies bodies) = .ok bodies := by
  induction bodies with
  | nil => exact absurd rfl h
  | cons body bodies ih =>
    have hend : alternatives [] = .ok [[]] := rfl
    cases bodies with
    | nil =>
      have hread := alternatives_append body hend
      simp only [List.append_nil] at hread
      simp only [wordsOfBodies, List.map_cons, List.map_nil, List.intercalate_singleton]
      exact hread
    | cons next bodies =>
      have hnext := ih (List.cons_ne_nil next bodies)
      have hbar : alternatives (.bar :: wordsOfBodies (next :: bodies)) =
          .ok ([] :: next :: bodies) := by
        rw [alternatives, hnext]
        rfl
      have hread := alternatives_append body hbar
      rw [List.append_nil] at hread
      simp only [wordsOfBodies, List.map_cons, List.intercalate_cons_cons, List.append_assoc]
      exact hread

/-- A rule is read back off its line. -/
theorem readRule_printRule (hname : BareName rule.name.toList) (hne : rule.alternatives ≠ [])
    (h : ∀ body ∈ rule.alternatives, ∀ symbol ∈ body, Writable symbol) :
    readRule (printRule rule) = .ok rule := by
  rw [readRule, (spells_rule hname h).words_eq]
  simp only [ruleOfWords, alternatives_wordsOfBodies hne, String.ofList_toList]
  rfl

theorem not_mem_escapeQuoted {text : List Char} (h : '\n' ∉ text) :
    '\n' ∉ escapeQuoted text := by
  induction text with
  | nil => exact h
  | cons c text ih =>
    rw [List.mem_cons, not_or] at h
    have htext := ih h.2
    have hslash : '\n' ≠ '\\' := by decide
    rw [escapeQuoted]
    split
    · simp only [List.mem_cons, not_or]
      exact ⟨hslash, h.1, htext⟩
    · simp only [List.mem_cons, not_or]
      exact ⟨h.1, htext⟩

theorem oneLine_symbol (h : Writable symbol) : Text.OneLine (printSymbol symbol) := by
  cases symbol with
  | terminal name =>
    have hescaped := not_mem_escapeQuoted h.2
    constructor
    · simp only [printSymbol, List.cons_append, List.mem_cons, List.mem_append, not_or]
      exact ⟨by decide, hescaped, by decide, List.not_mem_nil⟩
    · rw [printSymbol, List.getLast?_concat]
      decide
  | nonterminal name => exact .of_no_blank h.no_blank
  | epsilon => exact .of_no_blank (not_blank_of_any rfl)

theorem oneLine_rule (hname : BareName rule.name.toList)
    (h : ∀ body ∈ rule.alternatives, ∀ symbol ∈ body, Writable symbol) :
    Text.OneLine (printRule rule) := by
  have hbody : ∀ part ∈ rule.alternatives.map printBody, Text.OneLine part := by
    intro part hpart
    obtain ⟨body, hbody, rfl⟩ := List.mem_map.mp hpart
    refine .intercalate ⟨by decide, by decide⟩ fun part hpart => ?_
    obtain ⟨symbol, hsymbol, rfl⟩ := List.mem_map.mp hpart
    exact oneLine_symbol (h body hbody symbol hsymbol)
  have hbar : Text.OneLine [' ', '|', ' '] := ⟨by decide, by decide⟩
  have hequals : Text.OneLine [' ', '=', ' '] := ⟨by decide, by decide⟩
  exact ((Text.OneLine.of_no_blank hname.no_blank).append hequals).append (hbar.intercalate hbody)

theorem isRuleLine_printRule (hname : BareName rule.name.toList) :
    isRuleLine (printRule rule) = true := by
  obtain ⟨c, later, heq⟩ := List.exists_cons_of_ne_nil hname.ne_nil
  have hblank := hname.no_blank
  have hsign := hname.no_sign ';' List.mem_cons_self
  rw [heq] at hblank hsign
  have hc : ¬ Text.isBlank c = true := by
    rw [hblank c List.mem_cons_self]
    exact Bool.false_ne_true
  have hcomment : c ≠ ';' := fun hsame => hsign (congrArg some hsame)
  simp only [isRuleLine, Text.trimLeft, printRule, heq, List.cons_append, List.dropWhile_cons,
    if_neg hc]
  exact decide_eq_true hcomment

end Printed

section Rules

variable {path : String} {defined seen : List String} {rule : Rule} {lines : List RuleLine}

/-- Rules with the numbers of their lines. -/
def numbered (first : Nat) (rules : List Rule) : List RuleLine :=
  (rules.zipIdx first).map fun (rule, line) => ⟨rule, line⟩

theorem rules_numbered (first : Nat) (rules : List Rule) :
    (numbered first rules).map RuleLine.rule = rules := by
  rw [numbered, List.map_map]
  exact List.zipIdx_map_fst first rules

/-- Lines that are all well-formed give their rules. -/
theorem readRules_eq {line : Rule → List Char} {rules : List Rule} (first : Nat)
    (h : ∀ rule ∈ rules, readRule (line rule) = .ok rule) :
    readRules path ((rules.map line).zipIdx first) = .ok (numbered first rules) := by
  induction rules generalizing first with
  | nil => rfl
  | cons rule rules ih =>
    have hrules := ih (first + 1) fun other hother => h other (List.mem_cons_of_mem rule hother)
    rw [List.map_cons, List.zipIdx_cons, readRules, h rule List.mem_cons_self, hrules]
    rfl

theorem mem_references_iff {name : String} :
    name ∈ references rule ↔ ∃ body ∈ rule.alternatives, .nonterminal name ∈ body := by
  rw [references, List.mem_filterMap]
  constructor
  · rintro ⟨symbol, hsymbol, hname⟩
    obtain ⟨body, hbody, hmem⟩ := List.mem_flatten.mp hsymbol
    cases symbol with
    | nonterminal other =>
      cases hname
      exact ⟨body, hbody, hmem⟩
    | terminal t => cases hname
    | epsilon => cases hname
  · rintro ⟨body, hbody, hmem⟩
    exact ⟨.nonterminal name, List.mem_flatten.mpr ⟨body, hbody, hmem⟩, rfl⟩

theorem undefinedReferences_eq_nil_iff :
    undefinedReferences path defined lines = [] ↔
      ∀ line ∈ lines, ∀ name ∈ references line.rule, name ∈ defined := by
  have hnone : ∀ names : List String, names.eraseDups = [] ↔ names = [] := by
    simp only [List.eq_nil_iff_forall_not_mem, List.mem_eraseDups, implies_true]
  simp only [undefinedReferences, List.flatMap_eq_nil_iff, List.map_eq_nil_iff, hnone,
    List.filter_eq_nil_iff, decide_eq_true_iff, Decidable.not_not]

theorem repeatedRules_eq_nil_iff :
    repeatedRules path seen lines = [] ↔
      (lines.map (·.rule.name)).Nodup ∧ ∀ line ∈ lines, line.rule.name ∉ seen := by
  induction lines generalizing seen with
  | nil => simp [repeatedRules]
  | cons line lines ih =>
    have hcons : repeatedRules path seen (line :: lines) = [] ↔
        line.rule.name ∉ seen ∧ repeatedRules path (line.rule.name :: seen) lines = [] := by
      simp only [repeatedRules]
      split
      · simp [*]
      · simp [*]
    rw [hcons, ih]
    simp only [List.map_cons, List.nodup_cons, List.mem_map, List.mem_cons, not_or, not_exists,
      not_and]
    grind

/-- The rules pass the check when their names are defined, and each of them once. -/
theorem check_eq_nil_iff :
    check path lines = [] ↔
      (∀ line ∈ lines, ∀ name ∈ references line.rule, name ∈ lines.map (·.rule.name)) ∧
        (lines.map (·.rule.name)).Nodup := by
  have hsort : ∀ errors : LoadErrors, (errors.mergeSort fun a b =>
      a.location.line ≤ b.location.line) = [] ↔ errors = [] := by
    intro errors
    rw [← List.length_eq_zero_iff, List.length_mergeSort, List.length_eq_zero_iff]
  rw [check, hsort, List.append_eq_nil_iff, undefinedReferences_eq_nil_iff,
    repeatedRules_eq_nil_iff]
  simp only [List.not_mem_nil, not_false_eq_true, implies_true, and_true]

end Rules

/-- Every nonterminal has an alternative and a name that can stand bare, and every terminal a name
on one line. -/
structure Printable (g : Grammar) : Prop where
  alternatives : ∀ rule ∈ g.rules, rule.alternatives ≠ []
  names : ∀ name ∈ g.nonterminals, BareName name.toList
  terminals : ∀ name ∈ g.terminals, name ≠ "" ∧ '\n' ∉ name.toList

namespace Printable

variable {g : Grammar}

theorem bareName (h : Printable g) {rule : Rule} (hrule : rule ∈ g.rules) :
    BareName rule.name.toList :=
  h.names rule.name (List.mem_map_of_mem hrule)

theorem writable (h : Printable g) {rule : Rule} (hrule : rule ∈ g.rules) :
    ∀ body ∈ rule.alternatives, ∀ symbol ∈ body, Writable symbol := by
  intro body hbody symbol hsymbol
  obtain ⟨p, hp, rfl⟩ := Grammar.exists_production_of_mem hbody
  have hmem : p ∈ g.productions := Grammar.mem_productions_iff.mpr ⟨rule, hrule, hp⟩
  cases symbol with
  | terminal t => exact h.terminals t (Grammar.mem_terminals_iff.mpr ⟨p, hmem, hsymbol⟩)
  | nonterminal name => exact h.names name (Grammar.mem_nonterminals_of_mem_body hmem hsymbol)
  | epsilon => trivial

/-- The lines of a printed grammar are its rules. -/
theorem readRules_lines (h : Printable g) (path : String) :
    readRules path (((Text.lines (print g).toList).zipIdx 1).filter fun (line, _) =>
      isRuleLine line) = .ok (numbered 1 g.rules) := by
  have hlines : Text.lines (print g).toList = g.rules.map printRule := by
    rw [print, String.toList_ofList]
    exact Text.lines_flatMap fun rule hrule => oneLine_rule (h.bareName hrule) (h.writable hrule)
  have hrules : ∀ entry ∈ (g.rules.map printRule).zipIdx 1, isRuleLine entry.1 = true := by
    intro entry hentry
    obtain ⟨rule, hrule, heq⟩ := List.mem_map.mp (List.fst_mem_of_mem_zipIdx hentry)
    rw [← heq]
    exact isRuleLine_printRule (h.bareName hrule)
  rw [hlines, List.filter_eq_self.mpr hrules]
  exact readRules_eq 1 fun rule hrule =>
    readRule_printRule (h.bareName hrule) (h.alternatives rule hrule) (h.writable hrule)

end Printable

/-- Lines with the rules of a grammar build it. -/
theorem build_of_rules {g : Grammar} {start : Option String} {lines : List RuleLine}
    (h : lines.map RuleLine.rule = g.rules)
    (hstart : (start.or (lines.head?.map (·.rule.name))).getD "" = g.start) (path : String) :
    build path start lines = .ok g := by
  have hnames : lines.map (·.rule.name) = g.nonterminals := by
    rw [Grammar.nonterminals, ← h, List.map_map]
    rfl
  have hcheck : check path lines = [] := by
    rw [check_eq_nil_iff, hnames]
    refine ⟨fun line hline name hname => ?_, g.distinct⟩
    obtain ⟨body, hbody, hsymbol⟩ := mem_references_iff.mp hname
    have hrule : line.rule ∈ g.rules := h ▸ List.mem_map_of_mem hline
    exact of_decide_eq_true (g.closed line.rule hrule body hbody _ hsymbol)
  simp only [build, hcheck, h, hstart, Grammar.ofRules_rules]

/-- A grammar that is written out is read back. -/
theorem load_print {g : Grammar} (h : Printable g) (path : String) :
    load path (some g.start) (print g) = .ok g := by
  rw [load, h.readRules_lines path]
  exact build_of_rules (rules_numbered 1 g.rules) rfl path

/-- Signs stand within names, and one alternative has no symbols. -/
def signs : Grammar where
  start := "A=b"
  rules :=
    [⟨"A=b", [[.terminal "\"|\\;", .nonterminal ":x\"", .epsilon], [], [.terminal "ε"]]⟩,
      ⟨":x\"", [[.epsilon], [.nonterminal "A=b"]]⟩]
  distinct := by decide
  start_defined := by decide
  closed := by decide

theorem printable_signs : Printable signs where
  alternatives := by decide
  names := by
    have hall : ∀ name ∈ signs.nonterminals, name = "A=b" ∨ name = ":x\"" := by decide
    intro name hname
    rcases hall name hname with rfl | rfl
    · exact ⟨by decide, not_blank_of_any (by decide), by simp, by decide, by decide⟩
    · exact ⟨by decide, not_blank_of_any (by decide), by simp, by decide, by decide⟩
  terminals := by decide

theorem load_print_signs :
    print signs = "A=b = \"\\\"|\\\\;\" :x\" \"\" |  | \"ε\"\n:x\" = \"\" | A=b\n" ∧
      load "signs.bnf" (some "A=b") (print signs) = .ok signs :=
  ⟨by rfl, load_print printable_signs "signs.bnf"⟩

end Bnf

end TopDown
