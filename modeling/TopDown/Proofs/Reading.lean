import TopDown.Proofs.Forests
import TopDown.Proofs.TableCells

/-!
Reading a word with a table. The table picks the production of every nonterminal by the terminal
that comes next, so what is read off a word is one forest at most. With the table of a grammar the
forest is over the grammar's productions, and every forest that stands where the FOLLOW sets allow
it is read back from its word.
-/
namespace TopDown

open TopDown.Derivation

/-- What a word shows first. -/
def Lookahead.ofWord : List String → Lookahead
  | [] => .endOfInput
  | t :: _ => .terminal t

/-- Reading the form off the front of a word gives the trees and leaves the rest of the word. -/
inductive Table.Reads (table : Table) :
    List Symbol → List String → List Derivation → List String → Prop where
  | nil (w : List String) : Reads table [] w [] w
  | epsilon {rest : List Symbol} {w v : List String} {ds : List Derivation} :
      Reads table rest w ds v → Reads table (.epsilon :: rest) w ds v
  | terminal (t : String) {rest : List Symbol} {w v : List String} {ds : List Derivation} :
      Reads table rest w ds v → Reads table (.terminal t :: rest) (t :: w) (.leaf t :: ds) v
  | nonterminal {name : String} {rest : List Symbol} {w u v : List String} {p : Production}
      {children ds : List Derivation} (hp : table.get? name (.ofWord w) = some p) :
      Reads table p.body w children u → Reads table rest u ds v →
      Reads table (.nonterminal name :: rest) w (.node p children :: ds) v

namespace Table.Reads

variable {table : Table} {form left right : List Symbol} {w u v : List String}
  {ds es : List Derivation}

/-- The leaves of the trees are what has been read. -/
theorem word_eq (h : table.Reads form w ds v) : w = words ds ++ v := by
  induction h with
  | nil w => rfl
  | epsilon _ ih => exact ih
  | terminal t _ ih => exact congrArg (t :: ·) ih
  | nonterminal hp _ _ ihbody ihrest =>
    rw [ihbody, ihrest]
    simp only [words, word, List.append_assoc]

theorem append (hleft : table.Reads left w ds u) (hright : table.Reads right u es v) :
    table.Reads (left ++ right) w (ds ++ es) v := by
  induction hleft with
  | nil _ => exact hright
  | epsilon _ ih => exact .epsilon (ih hright)
  | terminal t _ ih => exact .terminal t (ih hright)
  | nonterminal hp hbody _ _ ih => exact .nonterminal hp hbody (ih hright)

theorem split (h : table.Reads (left ++ right) w ds v) :
    ∃ before u after, ds = before ++ after ∧
      table.Reads left w before u ∧ table.Reads right u after v := by
  induction left generalizing w ds with
  | nil => exact ⟨[], w, ds, rfl, .nil w, h⟩
  | cons symbol rest ih =>
    cases h with
    | epsilon h =>
      obtain ⟨before, u, after, rfl, hbefore, hafter⟩ := ih h
      exact ⟨before, u, after, rfl, .epsilon hbefore, hafter⟩
    | terminal t h =>
      obtain ⟨before, u, after, rfl, hbefore, hafter⟩ := ih h
      exact ⟨.leaf t :: before, u, after, rfl, .terminal t hbefore, hafter⟩
    | nonterminal hp hbody h =>
      obtain ⟨before, u, after, rfl, hbefore, hafter⟩ := ih h
      exact ⟨.node _ _ :: before, u, after, rfl, .nonterminal hp hbody hbefore, hafter⟩

/-- A word is read in one way. -/
theorem deterministic (h : table.Reads form w ds v) (h' : table.Reads form w es u) :
    ds = es ∧ v = u := by
  induction h generalizing es u with
  | nil w =>
    cases h' with
    | nil => exact ⟨rfl, rfl⟩
  | epsilon _ ih =>
    cases h' with
    | epsilon h' => exact ih h'
  | terminal t _ ih =>
    cases h' with
    | terminal _ h' =>
      obtain ⟨rfl, rfl⟩ := ih h'
      exact ⟨rfl, rfl⟩
  | nonterminal hp _ _ ihbody ihrest =>
    cases h' with
    | nonterminal hp' hbody' hrest' =>
      obtain rfl := Option.some.inj (hp.symm.trans hp')
      obtain ⟨rfl, rfl⟩ := ihbody hbody'
      obtain ⟨rfl, rfl⟩ := ihrest hrest'
      exact ⟨rfl, rfl⟩

end Table.Reads

namespace Grammar

variable {g : Grammar} {table : Table}

/-- Whatever comes after a nonterminal of the form can follow it. -/
def Coherent (g : Grammar) (form : List Symbol) : Prop :=
  ∀ left name right, form = left ++ .nonterminal name :: right →
    (∀ t, g.Begins t right → g.Follows g.start (.terminal t) name) ∧
      (g.Vanishes right → g.Follows g.start .endOfInput name)

namespace Coherent

theorem start (g : Grammar) : g.Coherent [.nonterminal g.start] := by
  intro left name right heq
  have hlength := congrArg List.length heq
  simp only [List.length_append, List.length_cons, List.length_nil] at hlength
  obtain rfl : left = [] := List.length_eq_zero_iff.mp (by omega)
  obtain ⟨hname, rfl⟩ := List.cons.inj heq
  obtain rfl := Symbol.nonterminal.inj hname
  constructor
  · intro t ht
    cases ht
  · intro _
    exact .start (start_mem_nonterminals g)

theorem of_append {left right : List Symbol} (h : g.Coherent (left ++ right)) :
    g.Coherent right := by
  intro before name after heq
  apply h (left ++ before) name after
  rw [heq, List.append_assoc]

theorem tail {symbol : Symbol} {rest : List Symbol} (h : g.Coherent (symbol :: rest)) :
    g.Coherent rest := by
  change g.Coherent ([symbol] ++ rest) at h
  exact h.of_append

/-- What follows a nonterminal also follows whatever can end its body. -/
theorem expand {p : Production} (hp : p ∈ g.productions) {rest : List Symbol}
    (h : g.Coherent (.nonterminal p.lhs :: rest)) : g.Coherent (p.body ++ rest) := by
  intro left name right heq
  rcases List.append_eq_append_iff.mp heq with ⟨mid, hleft, hrest⟩ | ⟨mid, hbody, hright⟩
  · exact h (.nonterminal p.lhs :: mid) name right (by rw [hrest, List.cons_append])
  · cases mid with
    | nil =>
      exact h [.nonterminal p.lhs] name right
        (congrArg (Symbol.nonterminal p.lhs :: ·) hright.symm)
    | cons symbol mid =>
      obtain ⟨rfl, rfl⟩ := List.cons.inj hright
      have howner := h [] p.lhs rest rfl
      constructor
      · intro t ht
        rcases begins_append_iff.mp ht with ht | ⟨hmid, ht⟩
        · exact .beginning hp hbody ht
        · exact .last hp hbody hmid (howner.1 t ht)
      · intro hvanishes
        obtain ⟨hmid, hrest⟩ := vanishes_append_iff.mp hvanishes
        exact .last hp hbody hmid (howner.2 hrest)

/-- The word of what comes after a nonterminal shows first what can follow it. -/
theorem follows_word {name : String} {rest : List Symbol} {ds : List Derivation}
    (h : g.Coherent (.nonterminal name :: rest)) (hrest : Forest g rest ds) :
    g.Follows g.start (.ofWord (words ds)) name := by
  have hname := h [] name rest rfl
  cases hwords : words ds with
  | nil => exact hname.2 (hrest.vanishes hwords)
  | cons t w => exact hname.1 t (hrest.begins hwords)

end Coherent

/-- A production is predicted by what its own forest and the one after it show first. -/
theorem predicts_word {p : Production} {rest : List Symbol} {children ds : List Derivation}
    (hcoherent : g.Coherent (.nonterminal p.lhs :: rest))
    (hbody : Forest g p.body children) (hrest : Forest g rest ds) :
    g.Predicts (.ofWord (words children ++ words ds)) p := by
  cases hwords : words children with
  | nil => exact Or.inr ⟨hbody.vanishes hwords, hcoherent.follows_word hrest⟩
  | cons t w => exact Or.inl ⟨Lookahead.noConfusion, hbody.begins hwords⟩

variable (htable : g.table = .ok table)
include htable

theorem forest_of_reads {form : List Symbol} {w v : List String} {ds : List Derivation}
    (h : table.Reads form w ds v) : Forest g form ds := by
  induction h with
  | nil _ => exact .nil
  | epsilon _ ih => exact .epsilon ih
  | terminal t _ ih => exact .terminal t ih
  | nonterminal hp _ _ ihbody ihrest =>
    obtain ⟨hmem, rfl, _⟩ := (get?_table_iff htable).mp hp
    exact .nonterminal hmem ihbody ihrest

/-- The table reads a forest back from its word and what comes after. The induction is on the
forest, over every context in which it can stand. -/
theorem reads_of_forest {form after : List Symbol} {ds es : List Derivation}
    (h : Forest g form ds) (hcoherent : g.Coherent (form ++ after)) (hafter : Forest g after es) :
    table.Reads form (words ds ++ words es) ds (words es) := by
  induction h generalizing after es with
  | nil => exact .nil _
  | epsilon _ ih => exact .epsilon (ih hcoherent.tail hafter)
  | terminal t _ ih => exact .terminal t (ih hcoherent.tail hafter)
  | @nonterminal p rest children ds hp hbody hrest ihbody ihrest =>
    have hlater : Forest g (rest ++ after) (ds ++ es) := hrest.append hafter
    have hpredicts := predicts_word hcoherent hbody hlater
    have hinner := ihbody (Coherent.expand hp hcoherent) hlater
    have houter := ihrest hcoherent.tail hafter
    simp only [words, word, List.append_assoc]
    rw [words_append] at hpredicts hinner
    exact .nonterminal (get?_of_predicts htable hp hpredicts) hinner houter

/-- The start symbol reads a word to its end just when it derives it. -/
theorem generates_iff_reads {w : List String} :
    g.Generates g.start w ↔ ∃ ds, table.Reads [.nonterminal g.start] w ds [] := by
  rw [generates_iff_forest]
  constructor
  · intro hfound
    obtain ⟨ds, hds, rfl⟩ := hfound
    have hreads : table.Reads [.nonterminal g.start] (words ds ++ words []) ds (words []) :=
      reads_of_forest htable hds (Coherent.start g) .nil
    simp only [words, List.append_nil] at hreads
    exact ⟨ds, hreads⟩
  · intro hfound
    obtain ⟨ds, hds⟩ := hfound
    refine ⟨ds, forest_of_reads htable hds, ?_⟩
    rw [hds.word_eq, List.append_nil]

/-- A derivation tree of the start symbol is read back from its word. -/
theorem reads_of_valid {d : Derivation} (hd : Valid g d) (hlabel : d.label = .nonterminal g.start) :
    table.Reads [.nonterminal g.start] d.word [d] [] := by
  have hforest : Forest g [.nonterminal g.start] [d] := forest_singleton_iff.mpr ⟨hd, hlabel⟩
  have hreads : table.Reads [.nonterminal g.start] (words [d] ++ words []) [d] (words []) :=
    reads_of_forest htable hforest (Coherent.start g) .nil
  simp only [words, List.append_nil] at hreads
  exact hreads

omit htable

/-- Two derivation trees of the start symbol with the same word use the same productions
throughout, in the parts that derive the empty word as well. -/
def Unambiguous (g : Grammar) : Prop :=
  ∀ d e, Valid g d → Valid g e → d.label = .nonterminal g.start → e.label = .nonterminal g.start →
    d.word = e.word → d = e

/-- A grammar whose table has no conflict is unambiguous. -/
theorem unambiguous_of_table (htable : g.table = .ok table) : g.Unambiguous := by
  intro d e hd he hdlabel helabel hword
  have hreads := reads_of_valid htable hd hdlabel
  rw [hword] at hreads
  obtain ⟨htrees, _⟩ := hreads.deterministic (reads_of_valid htable he helabel)
  exact (List.cons.inj htrees).1

theorem unambiguous_nestedPairs : nestedPairs.Unambiguous :=
  unambiguous_of_table table_nestedPairs

end Grammar

end TopDown
