import TopDown.Proofs.Forests

/-!
The rules about forms say what derivations show. A form vanishes by the rules just when it derives
the empty word and begins with a terminal just when it derives a form that does; what follows a
nonterminal by the rules is what comes right after it in some form derived from a nonterminal, or
the end of the input where it ends a form derived from the start.
-/
namespace TopDown.Grammar

variable {g : Grammar} {t : String} {form form' left right : List Symbol}

section Forward

theorem Vanishes.derives (h : g.Vanishes form) : g.Derives (form.filter (· ≠ .epsilon)) [] := by
  induction h with
  | nil => exact .refl []
  | epsilon _ ih => exact ih
  | @nonterminal p rest hp _ _ ihbody ihrest =>
    have hexpand := Step.expand [] (rest.filter (· ≠ .epsilon)) p hp
    have hbody := ihbody.context [] (rest.filter (· ≠ .epsilon))
    exact .head hexpand (.trans hbody ihrest)

theorem Begins.exists_derives (h : g.Begins t form) :
    ∃ rest, g.Derives (form.filter (· ≠ .epsilon)) (.terminal t :: rest) := by
  induction h with
  | terminal rest => exact ⟨rest.filter (· ≠ .epsilon), .refl _⟩
  | epsilon _ ih => exact ih
  | @inside p hp rest _ ih =>
    obtain ⟨later, hbody⟩ := ih
    have hexpand := Step.expand [] (rest.filter (· ≠ .epsilon)) p hp
    exact ⟨_, .head hexpand (hbody.context [] (rest.filter (· ≠ .epsilon)))⟩
  | @past p rest hp hbody _ ih =>
    obtain ⟨later, hrest⟩ := ih
    have hexpand := Step.expand [] (rest.filter (· ≠ .epsilon)) p hp
    have hvanish := hbody.derives.context [] (rest.filter (· ≠ .epsilon))
    exact ⟨later, .head hexpand (.trans hvanish hrest)⟩

end Forward

section Backward

theorem vanishes_of_step (hstep : g.Step form form') (h : g.Vanishes form') :
    g.Vanishes form := by
  cases hstep with
  | expand left right p hp =>
    obtain ⟨hbefore, hright⟩ := vanishes_append_iff.mp h
    obtain ⟨hleft, hbody⟩ := vanishes_append_iff.mp hbefore
    exact hleft.append (.nonterminal hp (vanishes_filter_iff.mp hbody) hright)

theorem begins_of_step (hstep : g.Step form form') (h : g.Begins t form') : g.Begins t form := by
  cases hstep with
  | expand left right p hp =>
    rcases begins_append_iff.mp h with hbefore | ⟨hbefore, hright⟩
    · rcases begins_append_iff.mp hbefore with hleft | ⟨hleft, hbody⟩
      · exact hleft.append_right _
      · exact .append_left hleft (.inside hp right (begins_filter_iff.mp hbody))
    · obtain ⟨hleft, hbody⟩ := vanishes_append_iff.mp hbefore
      exact .append_left hleft (.past hp (vanishes_filter_iff.mp hbody) hright)

theorem vanishes_of_derives (hderives : g.Derives form form') (h : g.Vanishes form') :
    g.Vanishes form := by
  induction hderives with
  | refl _ => exact h
  | head first _ ih => exact vanishes_of_step first (ih h)

theorem begins_of_derives (hderives : g.Derives form form') (h : g.Begins t form') :
    g.Begins t form := by
  induction hderives with
  | refl _ => exact h
  | head first _ ih => exact begins_of_step first (ih h)

end Backward

theorem vanishes_iff_derives : g.Vanishes form ↔ g.Derives (form.filter (· ≠ .epsilon)) [] := by
  constructor
  · exact Vanishes.derives
  · intro h
    exact vanishes_filter_iff.mp (vanishes_of_derives h .nil)

theorem begins_iff_derives :
    g.Begins t form ↔ ∃ rest, g.Derives (form.filter (· ≠ .epsilon)) (.terminal t :: rest) := by
  constructor
  · exact Begins.exists_derives
  · intro hfound
    obtain ⟨rest, h⟩ := hfound
    exact begins_filter_iff.mp (begins_of_derives h (.terminal rest))

/-- The first symbol expanded is the nonterminal itself. -/
theorem mem_nonterminals_of_derives {name : String} (h : g.Derives [.nonterminal name] form)
    (hne : form ≠ [.nonterminal name]) : name ∈ g.nonterminals := by
  generalize hfrom : [Symbol.nonterminal name] = start at h
  cases h with
  | refl => exact absurd hfrom.symm hne
  | head first _ =>
    cases first with
    | expand left right p hp =>
      have hmem : .nonterminal p.lhs ∈ [Symbol.nonterminal name] := by
        rw [hfrom]
        exact List.mem_append_right _ List.mem_cons_self
      rw [← Symbol.nonterminal.inj (List.mem_singleton.mp hmem)]
      exact lhs_mem_nonterminals hp

/-- What a form shows to whatever stands before it: a terminal it can begin with, or the end of the
input if it can vanish. -/
def Meets (g : Grammar) (form : List Symbol) : Lookahead → Prop
  | .epsilon => False
  | .endOfInput => g.Vanishes form
  | .terminal t => g.Begins t form

theorem meets_of_step {l : Lookahead} (hstep : g.Step form form') (h : g.Meets form' l) :
    g.Meets form l := by
  cases l with
  | epsilon => exact h
  | endOfInput => exact vanishes_of_step hstep h
  | terminal t => exact begins_of_step hstep h

theorem meets_append {l : Lookahead} (h : g.Meets (left ++ right) l) :
    (∃ t, l = .terminal t ∧ g.Begins t left) ∨ (g.Vanishes left ∧ g.Meets right l) := by
  cases l with
  | epsilon => exact h.elim
  | endOfInput => exact Or.inr (vanishes_append_iff.mp h)
  | terminal t =>
    rcases begins_append_iff.mp h with hleft | hright
    · exact Or.inl ⟨t, rfl, hleft⟩
    · exact Or.inr hright

theorem Vanishes.meets_append {l : Lookahead} (hleft : g.Vanishes left) (h : g.Meets right l) :
    g.Meets (left ++ right) l := by
  cases l with
  | epsilon => exact h
  | endOfInput => exact hleft.append h
  | terminal t => exact .append_left hleft h

/-- The lookahead follows every nonterminal of the form that it is met right after there. -/
def Attended (g : Grammar) (start : String) (l : Lookahead) : List Symbol → Prop
  | [] => True
  | .nonterminal name :: rest =>
    (g.Meets rest l → g.Follows start l name) ∧ Attended g start l rest
  | _ :: rest => Attended g start l rest

namespace Attended

variable {start : String} {l : Lookahead}

theorem follows {name : String} (h : g.Attended start l (left ++ .nonterminal name :: right))
    (hright : g.Meets right l) : g.Follows start l name := by
  induction left with
  | nil => exact h.1 hright
  | cons symbol rest ih =>
    cases symbol with
    | terminal t => exact ih h
    | nonterminal other => exact ih h.2
    | epsilon => exact ih h

/-- The end of a body in the place of its nonterminal. The induction is on that end. -/
theorem of_body {p : Production} (hp : p ∈ g.productions) (hbody : p.body = left ++ form)
    (h : g.Attended start l (.nonterminal p.lhs :: right)) :
    g.Attended start l (form.filter (· ≠ .epsilon) ++ right) := by
  induction form generalizing left with
  | nil => exact h.2
  | cons symbol rest ih =>
    have hlater : p.body = (left ++ [symbol]) ++ rest := by
      rw [hbody, List.append_assoc, List.singleton_append]
    have hrest := ih hlater
    cases symbol with
    | terminal t => exact hrest
    | epsilon => exact hrest
    | nonterminal name =>
      refine ⟨fun hmeets => ?_, hrest⟩
      rcases meets_append hmeets with ⟨t, rfl, hbegins⟩ | ⟨hvanishes, hright⟩
      · exact .beginning hp hbody (begins_filter_iff.mp hbegins)
      · exact .last hp hbody (vanishes_filter_iff.mp hvanishes) (h.1 hright)

theorem of_step (h : g.Attended start l form) (hstep : g.Step form form') :
    g.Attended start l form' := by
  cases hstep with
  | expand left right p hp =>
    induction left with
    | nil =>
      have hbody : p.body = [] ++ p.body := rfl
      exact of_body hp hbody h
    | cons symbol rest ih =>
      cases symbol with
      | terminal t => exact ih h
      | epsilon => exact ih h
      | nonterminal name =>
        refine ⟨fun hmeets => ?_, ih h.2⟩
        exact h.1 (meets_of_step (.expand rest right p hp) hmeets)

theorem of_derives (h : g.Attended start l form) (hderives : g.Derives form form') :
    g.Attended start l form' := by
  induction hderives with
  | refl _ => exact h
  | head first _ ih => exact ih (h.of_step first)

end Attended

/-- The lookahead is what comes right after a place in a form derived from the owner: the terminal
that stands there, or for the start itself the end of the input. -/
inductive Faces (start : String) : String → Lookahead → List Symbol → Prop where
  | terminal (owner t : String) (rest : List Symbol) :
      Faces start owner (.terminal t) (.terminal t :: rest)
  | ending : Faces start start .endOfInput []

theorem visible_eq {p : Production} {name : String}
    (hbody : p.body = left ++ .nonterminal name :: right) :
    p.visible = left.filter (· ≠ .epsilon) ++
      .nonterminal name :: right.filter (· ≠ .epsilon) := by
  rw [Production.visible, hbody, List.filter_append]
  rfl

theorem Follows.exists_faces {start name : String} {l : Lookahead} (h : g.Follows start l name) :
    ∃ owner ∈ g.nonterminals, ∃ left right,
      g.Derives [.nonterminal owner] (left ++ .nonterminal name :: right) ∧
        Faces start owner l right := by
  induction h with
  | start hstart => exact ⟨start, hstart, [], [], .refl _, .ending⟩
  | @beginning p left right name t hp hbody hbegins =>
    obtain ⟨rest, hright⟩ := hbegins.exists_derives
    have hexpand := Step.expand [] [] p hp
    rw [List.append_nil, visible_eq hbody] at hexpand
    have hcontext := hright.context (left.filter (· ≠ .epsilon) ++ [.nonterminal name]) []
    simp only [List.append_nil, List.append_assoc, List.singleton_append] at hcontext
    exact ⟨p.lhs, lhs_mem_nonterminals hp, _, _, .head hexpand hcontext, .terminal _ t rest⟩
  | @last p left right name l hp hbody hvanishes _ ih =>
    obtain ⟨owner, howner, before, after, hderives, hfaces⟩ := ih
    have hexpand := Step.expand before after p hp
    have hcontext := hvanishes.derives.context
      (before ++ left.filter (· ≠ .epsilon) ++ [.nonterminal name]) after
    rw [visible_eq hbody] at hexpand
    simp only [List.append_nil, List.append_assoc, List.cons_append] at hexpand hcontext
    refine ⟨owner, howner, before ++ left.filter (· ≠ .epsilon), after, ?_, hfaces⟩
    rw [List.append_assoc]
    exact hderives.trans (.head hexpand hcontext)

theorem follows_of_faces {start name owner : String} {l : Lookahead}
    (howner : owner ∈ g.nonterminals)
    (hderives : g.Derives [.nonterminal owner] (left ++ .nonterminal name :: right))
    (hfaces : Faces start owner l right) : g.Follows start l name := by
  have howned : g.Attended start l [.nonterminal owner] := by
    refine ⟨fun hmeets => ?_, trivial⟩
    cases hfaces with
    | terminal _ t rest => cases hmeets
    | ending => exact .start howner
  have hright : g.Meets right l := by
    cases hfaces with
    | terminal _ t rest => exact Begins.terminal rest
    | ending => exact Vanishes.nil
  exact (howned.of_derives hderives).follows hright

/-- What follows a nonterminal by the rules is what it faces in derivations. -/
theorem follows_iff_faces {start name : String} {l : Lookahead} :
    g.Follows start l name ↔ ∃ owner ∈ g.nonterminals, ∃ left right,
      g.Derives [.nonterminal owner] (left ++ .nonterminal name :: right) ∧
        Faces start owner l right := by
  constructor
  · exact Follows.exists_faces
  · intro hfound
    obtain ⟨owner, howner, left, right, hderives, hfaces⟩ := hfound
    exact follows_of_faces howner hderives hfaces

end TopDown.Grammar
