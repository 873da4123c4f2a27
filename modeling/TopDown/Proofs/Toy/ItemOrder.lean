import TopDown.Proofs.Toy.Program

/-!
The rules read in source order. Each item is admitted by what the items before it have introduced,
and a program that is admitted item by item and has a main function is lawful.
-/
namespace TopDown.Toy

/-- What an item needs of the names introduced so far, and of whether there is a main function. -/
structure Item.Admitted (env : Environment) (main : Bool) (item : Item) : Prop where
  fresh : ∀ name, item.name? = some name → env.get? name = none
  before_main : main = true → ¬ item.isMain ∧ ¬ item.isFunction
  global : ∀ s ∈ item.body, ¬ s.isDeclaration
  sized : item.Sized
  typed : item.Typed env

/-- The items are admitted one after the other, and a main function is among them. -/
def Program.Accepted (env : Environment) (main : Bool) : List Item → Prop
  | [] => main = true
  | item :: rest => item.Admitted env main ∧ Accepted (item.extend env) (main || item.isMain) rest

section Lists

variable {α : Type} {items : List α}

/-- A relation holds of any two items in order if it holds of each item and those before it. -/
theorem pairwise_iff_splits {R : α → α → Prop} :
    items.Pairwise R ↔
      ∀ before item after, items = before ++ item :: after →
        ∀ earlier ∈ before, R earlier item := by
  induction items with
  | nil => simp
  | cons first rest ih =>
    rw [List.pairwise_cons, ih]
    constructor
    · rintro ⟨hfirst, hrest⟩ before item after heq earlier hearlier
      cases before with
      | nil => exact absurd hearlier List.not_mem_nil
      | cons head before =>
        obtain ⟨rfl, rfl⟩ := List.cons.inj heq
        rcases List.mem_cons.mp hearlier with rfl | hearlier
        · exact hfirst item (by simp)
        · exact hrest before item after rfl earlier hearlier
    · intro h
      constructor
      · intro item hitem
        obtain ⟨before, after, rfl⟩ := List.append_of_mem hitem
        exact h (first :: before) item after rfl first List.mem_cons_self
      · rintro before item after rfl earlier hearlier
        exact h (first :: before) item after rfl earlier (List.mem_cons_of_mem _ hearlier)

theorem countP_eq_one_iff {p : α → Bool} :
    items.countP p = 1 ↔
      (∃ item ∈ items, p item) ∧ items.Pairwise fun earlier later => p earlier → ¬ p later := by
  induction items with
  | nil => simp
  | cons first rest ih =>
    rw [List.countP_cons, List.pairwise_cons]
    by_cases hfirst : p first
    · have hnone : rest.countP p = 0 ↔ ∀ item ∈ rest, ¬ p item := List.countP_eq_zero
      simp only [hfirst, if_true, Nat.add_eq_right, hnone]
      constructor
      · intro h
        refine ⟨⟨first, List.mem_cons_self, hfirst⟩, fun item hitem _ => h item hitem, ?_⟩
        exact List.pairwise_of_forall_mem_list fun a _ b hb _ => h b hb
      · intro h item hitem
        exact h.2.1 item hitem trivial
    · simp only [hfirst, Bool.false_eq_true, if_false, Nat.add_zero, ih]
      simp [hfirst]

end Lists

variable {env : Environment} {main : Bool} {items before after : List Item} {item : Item}
  {name : String}

theorem Item.get?_extend (hsized : item.Sized) :
    (item.extend env).get? name = none ↔ env.get? name = none ∧ item.name? ≠ some name := by
  cases item with
  | main body => simp [Item.extend, Item.name?]
  | function returns other body =>
    simp only [Item.extend, Item.name?, NameMap.get?_insert]
    by_cases h : name = other <;> simp [h, eq_comm]
  | declaration declared =>
    obtain ⟨type, htype⟩ := Option.isSome_iff_exists.mp hsized
    simp only [Item.extend, Item.name?, htype, NameMap.get?_insert]
    by_cases h : name = declared.name <;> simp [h, eq_comm]

namespace Item

theorem admitted_declaration_iff {declared : Declaration} :
    (declaration declared).Admitted env main ↔
      env.get? declared.name = none ∧ ∃ type, declared.spec.type? = some type ∧
        ∀ value, declared.initial = some value → HasType env value type := by
  constructor
  · intro h
    obtain ⟨type, htype⟩ := Option.isSome_iff_exists.mp h.sized
    exact ⟨h.fresh _ rfl, type, htype, h.typed type htype⟩
  · rintro ⟨hfresh, type, htype, htyped⟩
    refine ⟨?_, fun _ => ⟨Bool.false_ne_true, Bool.false_ne_true⟩, ?_, ?_, ?_⟩
    · intro name hname
      rw [← Option.some.inj hname]
      exact hfresh
    · intro s hs
      exact absurd hs List.not_mem_nil
    · exact Option.isSome_iff_exists.mpr ⟨type, htype⟩
    · intro other hother
      rw [← Option.some.inj (htype.symm.trans hother)]
      exact htyped

theorem admitted_function_iff {returns : Option Scalar} {body : List Statement} :
    (function returns name body).Admitted env main ↔
      main = false ∧ env.get? name = none ∧ ∀ s ∈ body, ¬ s.isDeclaration ∧
        s.Typed (extend env (function returns name body)) (returnType returns) := by
  constructor
  · intro h
    refine ⟨?_, h.fresh name rfl, fun s hs => ⟨h.global s hs, h.typed s hs⟩⟩
    exact Bool.eq_false_iff.mpr fun hmain => (h.before_main hmain).2 rfl
  · rintro ⟨rfl, hfresh, hbody⟩
    refine ⟨?_, fun hmain => absurd hmain Bool.false_ne_true, fun s hs => (hbody s hs).1, trivial,
      fun s hs => (hbody s hs).2⟩
    intro other hname
    rw [← Option.some.inj hname]
    exact hfresh

theorem admitted_main_iff {body : List Statement} :
    (Item.main body).Admitted env main ↔
      main = false ∧ ∀ s ∈ body, ¬ s.isDeclaration ∧ s.Typed env .int := by
  constructor
  · intro h
    refine ⟨?_, fun s hs => ⟨h.global s hs, h.typed s hs⟩⟩
    exact Bool.eq_false_iff.mpr fun hmain => (h.before_main hmain).1 rfl
  · rintro ⟨rfl, hbody⟩
    refine ⟨fun _ hname => ?_, fun hmain => absurd hmain Bool.false_ne_true,
      fun s hs => (hbody s hs).1, trivial, fun s hs => (hbody s hs).2⟩
    cases hname

end Item

namespace Program

theorem get?_foldl (hsized : ∀ item ∈ items, item.Sized) :
    (items.foldl Item.extend env).get? name = none ↔
      env.get? name = none ∧ ∀ item ∈ items, item.name? ≠ some name := by
  induction items generalizing env with
  | nil => simp
  | cons item items ih =>
    rw [List.foldl_cons, ih fun other hother => hsized other (List.mem_cons_of_mem _ hother),
      Item.get?_extend (hsized item List.mem_cons_self), List.forall_mem_cons, and_assoc]

/-- Just the names that the items introduce are known after them. -/
theorem get?_environment (hsized : ∀ item ∈ items, item.Sized) :
    (environment items).get? name = none ↔ ∀ item ∈ items, item.name? ≠ some name := by
  rw [environment, get?_foldl hsized]
  exact and_iff_right rfl

/-- No item takes the name of one before it. -/
theorem nodup_names_iff :
    (names items).Nodup ↔
      ∀ before item after, items = before ++ item :: after →
        ∀ name, item.name? = some name → ∀ earlier ∈ before, earlier.name? ≠ some name := by
  rw [names, List.Nodup, List.pairwise_filterMap, pairwise_iff_splits]
  constructor
  · intro h before item after heq name hname earlier hearlier hother
    exact h before item after heq earlier hearlier name hother name hname rfl
  · intro h before item after heq earlier hearlier name hother other hname hsame
    rw [← hsame] at hname
    exact h before item after heq name hname earlier hearlier hother

/-- Items are accepted when each is admitted after those before it. -/
theorem accepted_iff_splits :
    Accepted env main items ↔
      (main = true ∨ ∃ item ∈ items, item.isMain) ∧
        ∀ before item after, items = before ++ item :: after →
          item.Admitted (before.foldl Item.extend env) (main || before.any Item.isMain) := by
  induction items generalizing env main with
  | nil => simp [Accepted]
  | cons first rest ih =>
    rw [Accepted, ih]
    constructor
    · rintro ⟨hfirst, hmain, hrest⟩
      constructor
      · simpa [or_assoc] using hmain
      · intro before item after heq
        cases before with
        | nil =>
          obtain ⟨rfl, rfl⟩ := List.cons.inj heq
          simpa using hfirst
        | cons head before =>
          obtain ⟨rfl, rfl⟩ := List.cons.inj heq
          simpa [Bool.or_assoc] using hrest before item after rfl
    · rintro ⟨hmain, h⟩
      refine ⟨by simpa using h [] first rest rfl, by simpa [or_assoc] using hmain, ?_⟩
      rintro before item after rfl
      simpa [Bool.or_assoc] using h (first :: before) item after rfl

variable {program : Program}

/-- An item of a lawful program is admitted after those before it. -/
theorem Lawful.admitted (h : program.Lawful) (heq : program = before ++ item :: after) :
    item.Admitted (environment before) (before.any Item.isMain) := by
  have hitem : item ∈ program := by simp [heq]
  have hsized : ∀ earlier ∈ before, earlier.Sized := by
    intro earlier hearlier
    exact h.sized earlier (by simp [heq, hearlier])
  refine ⟨?_, ?_, h.global item hitem, h.sized item hitem, h.typed before item after heq⟩
  · intro name hname
    rw [get?_environment hsized]
    exact nodup_names_iff.mp h.distinct before item after heq name hname
  · intro hmain
    obtain ⟨earlier, hearlier, hismain⟩ := List.any_eq_true.mp hmain
    have hmains := pairwise_iff_splits.mp (countP_eq_one_iff.mp h.one_main).2
    have hlast := pairwise_iff_splits.mp h.main_last
    exact ⟨hmains before item after heq earlier hearlier hismain,
      hlast before item after heq earlier hearlier hismain⟩

/-- A program is lawful if it has a main function and every item is admitted after those before
it. -/
theorem lawful_of_admitted (hmain : ∃ item ∈ program, item.isMain)
    (h : ∀ before item after, program = before ++ item :: after →
      item.Admitted (environment before) (before.any Item.isMain)) : program.Lawful := by
  have hsome : ∀ item ∈ program, ∃ env main, item.Admitted env main := by
    intro item hitem
    obtain ⟨before, after, heq⟩ := List.append_of_mem hitem
    exact ⟨_, _, h before item after heq⟩
  have hsized : ∀ item ∈ program, item.Sized := by
    intro item hitem
    obtain ⟨_, _, hadmitted⟩ := hsome item hitem
    exact hadmitted.sized
  have hbefore : ∀ before item after, program = before ++ item :: after →
      ∀ earlier ∈ before, earlier.isMain → ¬ item.isMain ∧ ¬ item.isFunction := by
    intro before item after heq earlier hearlier hismain
    exact (h before item after heq).before_main (List.any_eq_true.mpr ⟨earlier, hearlier, hismain⟩)
  refine ⟨countP_eq_one_iff.mpr ⟨hmain, ?_⟩, ?_, ?_, ?_, hsized, ?_⟩
  · refine pairwise_iff_splits.mpr fun before item after heq earlier hearlier hismain => ?_
    exact (hbefore before item after heq earlier hearlier hismain).1
  · refine pairwise_iff_splits.mpr fun before item after heq earlier hearlier hismain => ?_
    exact (hbefore before item after heq earlier hearlier hismain).2
  · intro item hitem
    obtain ⟨_, _, hadmitted⟩ := hsome item hitem
    exact hadmitted.global
  · refine nodup_names_iff.mpr fun before item after heq name hname => ?_
    have hfresh := (h before item after heq).fresh name hname
    refine (get?_environment fun earlier hearlier => ?_).mp hfresh
    exact hsized earlier (by simp [heq, hearlier])
  · intro before item after heq
    exact (h before item after heq).typed

/-- The rules hold of a program just when its items are accepted in source order. -/
theorem lawful_iff_accepted : program.Lawful ↔ Accepted .empty false program := by
  rw [accepted_iff_splits]
  constructor
  · intro h
    refine ⟨Or.inr (countP_eq_one_iff.mp h.one_main).1, fun before item after heq => ?_⟩
    exact h.admitted heq
  · intro h
    obtain ⟨hmain, hadmitted⟩ := h
    exact lawful_of_admitted (hmain.resolve_left Bool.false_ne_true) hadmitted

end Program

end TopDown.Toy
