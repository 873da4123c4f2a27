import TopDown.Proofs.Prediction

/-!
Derivations as forests. A forest over a form has a tree for each symbol of the form that stands for
something, in order. Valid trees are forests of one tree, and a form derives a word of terminals
just when there is a forest over it with that word at its leaves.
-/
namespace TopDown

namespace Steps

variable {α β : Type} {step : α → α → Prop} {step' : β → β → Prop}

/-- Steps carry over along a map that carries over single ones. -/
theorem map {f : α → β} (hf : ∀ a b, step a b → step' (f a) (f b)) {a b : α}
    (h : Steps step a b) : Steps step' (f a) (f b) := by
  induction h with
  | refl a => exact .refl (f a)
  | head first _ ih => exact .head (hf _ _ first) ih

end Steps

namespace Grammar

variable {g : Grammar}

theorem Step.context {a b : List Symbol} (h : g.Step a b) (left right : List Symbol) :
    g.Step (left ++ a ++ right) (left ++ b ++ right) := by
  cases h with
  | expand l r p hp =>
    have h := Step.expand (left ++ l) (r ++ right) p hp
    simpa only [List.append_assoc, List.cons_append] using h

theorem Derives.context {a b : List Symbol} (h : g.Derives a b) (left right : List Symbol) :
    g.Derives (left ++ a ++ right) (left ++ b ++ right) :=
  Steps.map (f := fun form => left ++ form ++ right) (fun _ _ hab => hab.context left right) h

theorem LeftStep.step {a b : List Symbol} (h : g.LeftStep a b) : g.Step a b := by
  cases h with
  | expand word right p hp => exact .expand (word.map .terminal) right p hp

/-- The leftmost nonterminal stays the leftmost behind more terminals. -/
theorem LeftStep.context {a b : List Symbol} (h : g.LeftStep a b) (word : List String)
    (right : List Symbol) :
    g.LeftStep (word.map .terminal ++ a ++ right) (word.map .terminal ++ b ++ right) := by
  cases h with
  | expand inner r p hp =>
    have h := LeftStep.expand (word ++ inner) (r ++ right) p hp
    simpa only [List.map_append, List.append_assoc, List.cons_append] using h

theorem LeftDerives.derives {a b : List Symbol} (h : g.LeftDerives a b) : g.Derives a b :=
  Steps.map (f := id) (fun _ _ hab => hab.step) h

theorem LeftDerives.context {a b : List Symbol} (h : g.LeftDerives a b) (word : List String)
    (right : List Symbol) :
    g.LeftDerives (word.map .terminal ++ a ++ right) (word.map .terminal ++ b ++ right) :=
  Steps.map (f := fun form => word.map Symbol.terminal ++ form ++ right)
    (fun _ _ hab => hab.context word right) h

end Grammar

namespace Derivation

theorem words_append (ds es : List Derivation) : words (ds ++ es) = words ds ++ words es := by
  induction ds with
  | nil => rfl
  | cons d ds ih => simp only [List.cons_append, words, ih, List.append_assoc]

end Derivation

open TopDown.Derivation

/-- The trees derive the form's symbols, each symbol of the empty word having none. -/
inductive Forest (g : Grammar) : List Symbol → List Derivation → Prop where
  | nil : Forest g [] []
  | epsilon {rest : List Symbol} {ds : List Derivation} :
      Forest g rest ds → Forest g (.epsilon :: rest) ds
  | terminal (t : String) {rest : List Symbol} {ds : List Derivation} :
      Forest g rest ds → Forest g (.terminal t :: rest) (.leaf t :: ds)
  | nonterminal {p : Production} {rest : List Symbol} {children ds : List Derivation}
      (hp : p ∈ g.productions) : Forest g p.body children → Forest g rest ds →
      Forest g (.nonterminal p.lhs :: rest) (.node p children :: ds)

namespace Forest

variable {g : Grammar} {form left right : List Symbol} {ds es : List Derivation}

theorem append (hleft : Forest g left ds) (hright : Forest g right es) :
    Forest g (left ++ right) (ds ++ es) := by
  induction hleft with
  | nil => exact hright
  | epsilon _ ih => exact .epsilon ih
  | terminal t _ ih => exact .terminal t ih
  | nonterminal hp hbody _ _ ih => exact .nonterminal hp hbody ih

theorem split (h : Forest g (left ++ right) ds) :
    ∃ before after, ds = before ++ after ∧ Forest g left before ∧ Forest g right after := by
  induction left generalizing ds with
  | nil => exact ⟨[], ds, rfl, .nil, h⟩
  | cons symbol rest ih =>
    cases h with
    | epsilon h =>
      obtain ⟨before, after, rfl, hbefore, hafter⟩ := ih h
      exact ⟨before, after, rfl, .epsilon hbefore, hafter⟩
    | terminal t h =>
      obtain ⟨before, after, rfl, hbefore, hafter⟩ := ih h
      exact ⟨.leaf t :: before, after, rfl, .terminal t hbefore, hafter⟩
    | nonterminal hp hbody h =>
      obtain ⟨before, after, rfl, hbefore, hafter⟩ := ih h
      exact ⟨.node _ _ :: before, after, rfl, .nonterminal hp hbody hbefore, hafter⟩

/-- Only the symbols that stand for something have trees. -/
theorem filter_iff : Forest g (form.filter (· ≠ .epsilon)) ds ↔ Forest g form ds := by
  induction form generalizing ds with
  | nil => exact Iff.rfl
  | cons symbol rest ih =>
    cases symbol with
    | epsilon =>
      refine ih.trans ⟨.epsilon, fun h => ?_⟩
      cases h with
      | epsilon h => exact h
    | terminal t =>
      change Forest g (.terminal t :: rest.filter (· ≠ .epsilon)) ds ↔ _
      constructor
      · intro h
        cases h with
        | terminal _ h => exact .terminal t (ih.mp h)
      · intro h
        cases h with
        | terminal _ h => exact .terminal t (ih.mpr h)
    | nonterminal name =>
      change Forest g (.nonterminal name :: rest.filter (· ≠ .epsilon)) ds ↔ _
      constructor
      · intro h
        cases h with
        | nonterminal hp hbody h => exact .nonterminal hp hbody (ih.mp h)
      · intro h
        cases h with
        | nonterminal hp hbody h => exact .nonterminal hp hbody (ih.mpr h)

theorem labels (h : Forest g form ds) : ds.map label = form.filter (· ≠ .epsilon) := by
  induction h with
  | nil => rfl
  | epsilon _ ih => exact ih
  | terminal t _ ih => exact congrArg (Symbol.terminal t :: ·) ih
  | nonterminal hp _ _ _ ih => exact congrArg (Symbol.nonterminal _ :: ·) ih

theorem valid (h : Forest g form ds) : ∀ d ∈ ds, Valid g d := by
  induction h with
  | nil =>
    intro d hd
    exact absurd hd List.not_mem_nil
  | epsilon _ ih => exact ih
  | terminal t _ ih =>
    intro d hd
    rcases List.mem_cons.mp hd with rfl | hd
    · exact .leaf t
    · exact ih d hd
  | nonterminal hp hbody _ ihbody ihrest =>
    intro d hd
    rcases List.mem_cons.mp hd with rfl | hd
    · exact .node _ _ hp hbody.labels ihbody
    · exact ihrest d hd

theorem of_singletons (h : ∀ d ∈ ds, Forest g [d.label] [d]) : Forest g (ds.map label) ds := by
  induction ds with
  | nil => exact .nil
  | cons d ds ih =>
    have hhead := h d List.mem_cons_self
    exact hhead.append (ih fun e he => h e (List.mem_cons_of_mem _ he))

theorem of_valid {d : Derivation} (h : Valid g d) : Forest g [d.label] [d] := by
  induction h with
  | leaf t => exact .terminal t .nil
  | node p children hp hlabels _ ih =>
    have hvisible := of_singletons ih
    rw [hlabels] at hvisible
    exact .nonterminal hp (filter_iff.mp hvisible) .nil

/-- A form derives the word at the leaves of a forest over it, always at the leftmost
nonterminal. -/
theorem leftDerives (h : Forest g form ds) :
    g.LeftDerives (form.filter (· ≠ .epsilon)) ((words ds).map .terminal) := by
  induction h with
  | nil => exact .refl []
  | epsilon _ ih => exact ih
  | terminal t _ ih =>
    have hrest := ih.context [t] []
    simp only [List.append_nil] at hrest
    exact hrest
  | @nonterminal p rest children ds hp hbody _ ihbody ihrest =>
    have hexpand := Grammar.LeftStep.expand [] (rest.filter (· ≠ .epsilon)) p hp
    have hinner := ihbody.context [] (rest.filter (· ≠ .epsilon))
    have houter := ihrest.context (words children) []
    simp only [List.append_nil] at houter
    simp only [words, word, List.map_append]
    exact .head hexpand (.trans hinner houter)

theorem derives (h : Forest g form ds) :
    g.Derives (form.filter (· ≠ .epsilon)) ((words ds).map .terminal) := h.leftDerives.derives

theorem of_word (w : List String) :
    Forest g (w.map .terminal) (w.map .leaf) ∧ words (w.map .leaf) = w := by
  induction w with
  | nil => exact ⟨.nil, rfl⟩
  | cons t w ih =>
    refine ⟨.terminal t ih.1, ?_⟩
    simp [words, word, ih.2]

/-- A step backwards puts the trees of the production's symbols under one node. -/
theorem of_step {form' : List Symbol} (hstep : g.Step form form') (h : Forest g form' ds) :
    ∃ es, Forest g form es ∧ words es = words ds := by
  cases hstep with
  | expand left right p hp =>
    obtain ⟨before, after, rfl, hbefore, hright⟩ := h.split
    obtain ⟨lefts, children, rfl, hleft, hbody⟩ := hbefore.split
    refine ⟨lefts ++ .node p children :: after, ?_, ?_⟩
    · exact hleft.append (.nonterminal hp (filter_iff.mp hbody) hright)
    · simp only [words_append, words, word, List.append_assoc]

/-- Whatever derives a word of terminals has a forest with that word. -/
theorem exists_of_derives {w : List String} (h : g.Derives form (w.map .terminal)) :
    ∃ ds, Forest g form ds ∧ words ds = w := by
  generalize htarget : w.map Symbol.terminal = target at h
  induction h with
  | refl =>
    subst htarget
    exact ⟨_, of_word w⟩
  | head first _ ih =>
    obtain ⟨ds, hds, hwords⟩ := ih htarget
    obtain ⟨es, hes, heq⟩ := of_step first hds
    exact ⟨es, hes, heq.trans hwords⟩

theorem vanishes (h : Forest g form ds) (hwords : words ds = []) : g.Vanishes form := by
  induction h with
  | nil => exact .nil
  | epsilon _ ih => exact .epsilon (ih hwords)
  | terminal t _ _ => simp [words, word] at hwords
  | nonterminal hp _ _ ihbody ihrest =>
    simp only [words, word, List.append_eq_nil_iff] at hwords
    exact .nonterminal hp (ihbody hwords.1) (ihrest hwords.2)

theorem begins {t : String} {w : List String} (h : Forest g form ds)
    (hwords : words ds = t :: w) : g.Begins t form := by
  induction h generalizing w with
  | nil => simp [words] at hwords
  | epsilon _ ih => exact .epsilon (ih hwords)
  | terminal s _ _ =>
    simp only [words, word, List.singleton_append, List.cons.injEq] at hwords
    rw [hwords.1]
    exact .terminal _
  | nonterminal hp hbody _ ihbody ihrest =>
    simp only [words, word] at hwords
    rcases List.append_eq_cons_iff.mp hwords with ⟨hempty, hrest⟩ | ⟨v, hchildren, _⟩
    · exact .past hp (hbody.vanishes hempty) (ihrest hrest)
    · exact .inside hp _ (ihbody hchildren)

end Forest

namespace Grammar

variable {g : Grammar} {name : String} {w : List String}

theorem generates_iff_forest :
    g.Generates name w ↔ ∃ ds, Forest g [.nonterminal name] ds ∧ words ds = w := by
  constructor
  · exact Forest.exists_of_derives
  · intro hfound
    obtain ⟨ds, hds, rfl⟩ := hfound
    exact hds.derives

theorem forest_singleton_iff {d : Derivation} :
    Forest g [.nonterminal name] [d] ↔ Valid g d ∧ d.label = .nonterminal name := by
  constructor
  · intro h
    exact ⟨h.valid d List.mem_cons_self, (List.cons.inj h.labels).1⟩
  · intro hfound
    obtain ⟨hvalid, hlabel⟩ := hfound
    rw [← hlabel]
    exact .of_valid hvalid

end Grammar

end TopDown
