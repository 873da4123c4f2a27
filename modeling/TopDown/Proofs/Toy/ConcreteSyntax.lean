import TopDown.Proofs.Forests
import TopDown.Proofs.Toy.Phrases
import TopDown.Toy.Language

/-!
The phrases of programs are those of the grammar. The phrase of every program is a derivation tree,
and whatever the grammar derives is written as some program.
-/
namespace TopDown

open TopDown.Derivation

namespace Grammar

variable {g : Grammar} {name : String}

/-- The alternatives of a nonterminal, by their numbers. -/
def alternatives (g : Grammar) (name : String) : List Body :=
  (g.rules.find? (·.name = name)).elim [] Rule.alternatives

theorem mem_productions_of_alternative {index : Nat} {body : Body}
    (h : (g.alternatives name)[index]? = some body) : ⟨name, index, body⟩ ∈ g.productions := by
  unfold alternatives at h
  cases hfind : g.rules.find? (·.name = name) with
  | none => simp [hfind] at h
  | some rule =>
    rw [hfind] at h
    have hfound := List.find?_some hfind
    have hname : rule.name = name := of_decide_eq_true hfound
    have hmem : (body, index) ∈ rule.alternatives.zipIdx := List.mk_mem_zipIdx_iff_getElem?.mpr h
    rw [mem_productions_iff, ← hname]
    exact ⟨rule, List.mem_of_find?_eq_some hfind, List.mem_map.mpr ⟨_, hmem, rfl⟩⟩

theorem body_mem_alternatives {p : Production} (hp : p ∈ g.productions) :
    p.body ∈ g.alternatives p.lhs := by
  have hof : p ∈ g.productionsOf p.lhs := mem_productionsOf_iff.mpr ⟨hp, rfl⟩
  unfold productionsOf at hof
  unfold alternatives
  cases hfind : g.rules.find? (·.name = p.lhs) with
  | none =>
    rw [hfind] at hof
    exact absurd hof List.not_mem_nil
  | some rule =>
    rw [hfind] at hof
    exact body_of_mem_rule hof

end Grammar

namespace Toy

namespace Phrase

mutual

/-- The derivation tree of a phrase. -/
def derivation : Phrase → Derivation
  | token kind _ => .leaf kind
  | node name alternative parts =>
    .node ⟨name, alternative, ((grammar.alternatives name)[alternative]?).getD []⟩
      (derivations parts)

def derivations : List Phrase → List Derivation
  | [] => []
  | phrase :: rest => derivation phrase :: derivations rest

end

/-- The phrases stand for the symbols of the form. -/
def Formed (form : List Symbol) (phrases : List Phrase) : Prop :=
  Forest grammar form (derivations phrases)

theorem Written.words_eq {phrases : List Phrase} {tokens : List Token}
    (h : Written phrases tokens) : words (derivations phrases) = Token.kinds tokens := by
  induction h with
  | nil => rfl
  | token hfits _ ih =>
    rw [derivations, words, ih, derivation, word, ← hfits.1]
    rfl
  | node _ _ ihparts ih =>
    rw [derivations, words, ih, derivation, word, ihparts]
    exact List.map_append.symm

namespace Formed

variable {kind name : String} {text : Option String} {alternative : Nat} {body : Body}
  {rest form : List Symbol} {parts phrases others : List Phrase} {phrase : Phrase}

theorem nil : Formed [] [] := Forest.nil

theorem token (h : Formed rest phrases) :
    Formed (.terminal kind :: rest) (.token kind text :: phrases) :=
  Forest.terminal kind h

theorem node (hbody : (grammar.alternatives name)[alternative]? = some body)
    (hparts : Formed body parts) (h : Formed rest phrases) :
    Formed (.nonterminal name :: rest) (.node name alternative parts :: phrases) := by
  have hp := Grammar.mem_productions_of_alternative hbody
  unfold Formed at hparts h ⊢
  rw [derivations, derivation, hbody]
  exact Forest.nonterminal hp hparts h

/-- A phrase of the empty word. -/
theorem empty (hbody : (grammar.alternatives name)[alternative]? = some [.epsilon]) :
    Formed [.nonterminal name] [.node name alternative []] :=
  node hbody (Forest.epsilon .nil) nil

theorem cons (h : Formed [.nonterminal name] [phrase]) (h' : Formed rest phrases) :
    Formed (.nonterminal name :: rest) (phrase :: phrases) :=
  Forest.append h h'

end Formed

end Phrase

open Phrase

theorem Scalar.formed (type : Scalar) : Formed [.nonterminal "ScalarType"] [type.phrase] := by
  cases type with
  | int => exact .node rfl (.token .nil) .nil
  | float => exact .node rfl (.token .nil) .nil
  | char => exact .node rfl (.token .nil) .nil

def Level.operator : Level → String
  | .sum => "AddOp"
  | .product => "MulOp"

theorem Operator.formed {level : Level} (operator : Operator level) :
    Formed [.nonterminal level.operator] [operator.phrase] := by
  cases operator with
  | plus => exact .node rfl (.token .nil) .nil
  | minus => exact .node rfl (.token .nil) .nil
  | times => exact .node rfl (.token .nil) .nil
  | divided => exact .node rfl (.token .nil) .nil

theorem formed_callPhrase (name : String) :
    Formed [.nonterminal "Call"] [callPhrase name] :=
  .node rfl (.token (.token (.token (.token .nil)))) .nil

theorem formed_indexPhrase (index : Option Phrase)
    (h : ∀ phrase, index = some phrase → Formed [.nonterminal "Expression"] [phrase]) :
    Formed [.nonterminal "IndexSuffix"] [indexPhrase index] := by
  cases index with
  | none => exact .empty rfl
  | some phrase => exact .node rfl (.token (.cons (h phrase rfl) (.token .nil))) .nil

theorem alternatives_chain (level : Level) :
    grammar.alternatives (Category.chain level).nonterminal =
      [[.nonterminal level.operand.nonterminal,
        .nonterminal (Category.tail level).nonterminal]] := by
  cases level <;> rfl

theorem alternatives_tail (level : Level) :
    grammar.alternatives (Category.tail level).nonterminal =
      [[.nonterminal level.operator, .nonterminal level.operand.nonterminal,
        .nonterminal (Category.tail level).nonterminal], [.epsilon]] := by
  cases level <;> rfl

theorem Expr.formed {category : Category} (e : Expr category) :
    Formed [.nonterminal category.nonterminal] [e.phrase] := by
  induction e with
  | @chain level operand rest ihoperand ihrest =>
    refine .node ?_ (.cons ihoperand ihrest) .nil
    rw [alternatives_chain]
    rfl
  | @done level =>
    refine .empty ?_
    rw [alternatives_tail]
    rfl
  | @more level operator operand rest ihoperand ihrest =>
    refine .node ?_ (.cons operator.formed (.cons ihoperand ihrest)) .nil
    rw [alternatives_tail]
    rfl
  | name x =>
    have hindex := formed_indexPhrase none fun _ h => nomatch h
    exact .node rfl (.node rfl (.token hindex) .nil) .nil
  | element x index ih =>
    have hindex := formed_indexPhrase (some index.phrase) fun _ h => by
      cases h
      exact ih
    exact .node rfl (.node rfl (.token hindex) .nil) .nil
  | literal kind => cases kind <;> exact .node rfl (.node rfl (.token .nil) .nil) .nil
  | group inner ih => exact .node rfl (.token (.cons ih (.token .nil))) .nil
  | call x => exact .node rfl (formed_callPhrase x) .nil

theorem TypeSpec.formed (spec : TypeSpec) : Formed [.nonterminal "TypeSpec"] [spec.phrase] := by
  cases spec with
  | scalar type => exact .node rfl type.formed .nil
  | array size element => exact .node rfl (.token (.token (.token (.token element.formed)))) .nil

theorem formed_initialPhrase (initial : Option Expression) :
    Formed [.nonterminal "Initializer"] [initialPhrase initial] := by
  cases initial with
  | none => exact .empty rfl
  | some value => exact .node rfl (.token value.formed) .nil

theorem Declaration.formed (declared : Declaration) :
    Formed [.nonterminal "Declaration"] [declared.phrase] := by
  have hinitial := formed_initialPhrase declared.initial
  exact .node rfl (.cons declared.spec.formed (.token (.cons hinitial (.token .nil)))) .nil

theorem formed_valuePhrase (value : Option Expression) :
    Formed [.nonterminal "ReturnValue"] [valuePhrase value] := by
  cases value with
  | none => exact .empty rfl
  | some value => exact .node rfl value.formed .nil

theorem Statement.formed (s : Statement) : Formed [.nonterminal "Statement"] [s.phrase] := by
  cases s with
  | declaration declared => exact .node rfl declared.formed .nil
  | assignment name index value =>
    have hindex : Formed [.nonterminal "IndexSuffix"] [indexPhrase (index.map Expr.phrase)] := by
      refine formed_indexPhrase _ fun phrase hphrase => ?_
      obtain ⟨e, _, rfl⟩ := Option.map_eq_some_iff.mp hphrase
      exact e.formed
    refine .node rfl (.node rfl (.token ?_) .nil) .nil
    exact .cons hindex (.token (.cons value.formed (.token .nil)))
  | returning value =>
    exact .node rfl (.node rfl (.token (.cons (formed_valuePhrase value) (.token .nil))) .nil) .nil
  | call name =>
    exact .node rfl (.node rfl (.cons (formed_callPhrase name) (.token .nil)) .nil) .nil

/-- A list is formed when its elements are, whatever they are. -/
theorem formed_listPhrase {name element : String} {phrases : List Phrase}
    (hbodies : grammar.alternatives name = [[.nonterminal element, .nonterminal name], [.epsilon]])
    (h : ∀ phrase ∈ phrases, Formed [.nonterminal element] [phrase]) :
    Formed [.nonterminal name] [listPhrase name phrases] := by
  induction phrases with
  | nil =>
    refine .empty ?_
    rw [hbodies]
    rfl
  | cons first rest ih =>
    have hrest := ih fun phrase hphrase => h phrase (List.mem_cons_of_mem _ hphrase)
    refine .node ?_ (.cons (h first List.mem_cons_self) hrest) .nil
    rw [hbodies]
    rfl

theorem formed_blockPhrase (body : List Statement) :
    Formed [.nonterminal "Block"] [blockPhrase body] := by
  have hlist : Formed [.nonterminal "StatementList"]
      [listPhrase "StatementList" (body.map Statement.phrase)] := by
    refine formed_listPhrase rfl fun phrase hphrase => ?_
    obtain ⟨s, _, rfl⟩ := List.mem_map.mp hphrase
    exact s.formed
  exact .node rfl (.token (.cons hlist (.token .nil))) .nil

theorem formed_returnPhrase (returns : Option Scalar) :
    Formed [.nonterminal "ReturnType"] [returnPhrase returns] := by
  cases returns with
  | none => exact .node rfl (.token .nil) .nil
  | some type => exact .node rfl type.formed .nil

theorem Item.formed (item : Item) : Formed [.nonterminal "Top"] [item.phrase] := by
  cases item with
  | declaration declared => exact .node rfl declared.formed .nil
  | function returns name body =>
    refine .node rfl (.node rfl (.token (.cons (formed_returnPhrase returns) ?_)) .nil) .nil
    exact .token (.token (.token (formed_blockPhrase body)))
  | main body =>
    exact .node rfl (.node rfl (.token (.token (.token (formed_blockPhrase body)))) .nil) .nil

/-- Every program is a derivation of the grammar. -/
theorem Program.formed (program : Program) :
    Formed [.nonterminal grammar.start] [Program.phrase program] := by
  have hlist : Formed [.nonterminal "TopList"]
      [listPhrase "TopList" (program.map Item.phrase)] := by
    refine formed_listPhrase rfl fun phrase hphrase => ?_
    obtain ⟨item, _, rfl⟩ := List.mem_map.mp hphrase
    exact item.formed
  exact .node rfl hlist .nil

end Toy

end TopDown
