import TopDown.CommandLine.Log

/-!
What stages leave. A stage that goes on has printed a text and reported no problem; a stage that
ends the run has reported its problems last of all. Stages in sequence print one text after the
other, and nothing comes after a stage that has ended the run or never ends.
-/
namespace TopDown.CommandLine

namespace Output

def isRecord : Output → Bool
  | record .. => true
  | _ => false

def isProblem : Output → Bool
  | problem _ => true
  | _ => false

/-- What the standard error shows of outputs without problems are their log records. -/
theorem join_shown (level : Level) {outputs : List Output}
    (h : ∀ output ∈ outputs, output.isProblem = false) :
    String.join (outputs.map (shown level)) =
      String.join ((outputs.filter isRecord).map (shown level)) := by
  induction outputs with
  | nil => rfl
  | cons output outputs ih =>
    have hrest := ih fun other hother => h other (List.mem_cons_of_mem _ hother)
    cases output with
    | print text =>
      rw [List.map_cons, String.join_cons, hrest]
      exact String.empty_append
    | problem text => exact absurd (h _ List.mem_cons_self) Bool.noConfusion
    | record level' topic text =>
      rw [List.map_cons, String.join_cons, hrest]
      exact String.join_cons.symm

theorem filter_isRecord_problems (problems : List String) :
    (problems.map Output.problem).filter isRecord = [] := by
  induction problems with
  | nil => rfl
  | cons problem problems ih => exact ih

theorem join_printed_problems (problems : List String) :
    String.join ((problems.map Output.problem).map printed) = "" := by
  induction problems with
  | nil => rfl
  | cons problem problems ih =>
    rw [List.map_cons, List.map_cons, String.join_cons, ih]
    exact String.empty_append

end Output

namespace Stage

variable {α β : Type}

/-- The stage prints the text and then reports the problems, and comes out with the value or with
none. -/
structure Leaves (stage : Stage α) (text : String) (problems : List String)
    (value : Except Halt α) : Prop where
  value_eq : stage.value = value
  text_eq : String.join (stage.outputs.map Output.printed) = text
  problems_last : ∃ calm, stage.outputs = calm ++ problems.map .problem ∧
    ∀ output ∈ calm, output.isProblem = false

variable {stage : Stage α} {next : α → Stage β} {text later : String} {problems : List String}
  {a : α} {value : Except Halt β} {halt : Halt}

theorem leaves_pure : (pure a : Stage α).Leaves "" [] (.ok a) :=
  ⟨rfl, rfl, [], rfl, fun _ houtput => absurd houtput List.not_mem_nil⟩

theorem leaves_print : (print text).Leaves text [] (.ok ()) where
  value_eq := rfl
  text_eq := String.empty_append
  problems_last := ⟨[.print text], rfl, fun _ houtput => by rw [List.mem_singleton.mp houtput]; rfl⟩

theorem leaves_printIf {wanted : Bool} :
    (printIf wanted text).Leaves (if wanted then text else "") [] (.ok ()) := by
  cases wanted with
  | true => exact leaves_print
  | false => exact leaves_pure

/-- Log records are not printed. -/
theorem leaves_records {γ : Type} (record : γ → Output)
    (hrecord : ∀ item, (record item).isRecord = true) (items : List γ) :
    (write (items.map record)).Leaves "" [] (.ok ()) := by
  have hquiet : ∀ item, (record item).printed = "" ∧ (record item).isProblem = false := by
    intro item
    have hitem := hrecord item
    cases houtput : record item with
    | record level topic text => exact ⟨rfl, rfl⟩
    | _ =>
      rw [houtput] at hitem
      cases hitem
  refine ⟨rfl, ?_, items.map record, (List.append_nil _).symm, fun output houtput => ?_⟩
  · induction items with
    | nil => rfl
    | cons item items ih =>
      change String.join ((record item).printed :: (items.map record).map Output.printed) = ""
      rw [String.join_cons, (hquiet item).1, String.empty_append]
      exact ih
  · obtain ⟨item, _, rfl⟩ := List.mem_map.mp houtput
    exact (hquiet item).2

theorem leaves_record {level : Level} {topic : Topic} :
    (record level topic text).Leaves "" [] (.ok ()) :=
  leaves_records (fun _ : Unit => .record level topic text) (fun _ => rfl) [()]

theorem leaves_stop : (stop problems : Stage α).Leaves "" problems (.error .failed) where
  value_eq := rfl
  text_eq := Output.join_printed_problems problems
  problems_last := ⟨[], rfl, fun _ houtput => absurd houtput List.not_mem_nil⟩

theorem leaves_hang : (hang : Stage α).Leaves "" [] (.error .unending) :=
  ⟨rfl, rfl, [], rfl, fun _ houtput => absurd houtput List.not_mem_nil⟩

namespace Leaves

/-- After a stage that goes on comes the next one. -/
theorem bind (h : stage.Leaves text [] (.ok a)) (hnext : (next a).Leaves later problems value) :
    (stage >>= next).Leaves (text ++ later) problems value := by
  obtain ⟨calm, houtputs, hcalm⟩ := h.problems_last
  obtain ⟨calm', houtputs', hcalm'⟩ := hnext.problems_last
  have heq : (stage >>= next) = ⟨stage.outputs ++ (next a).outputs, (next a).value⟩ := by
    change Stage.bind stage next = _
    rw [Stage.bind, h.value_eq]
  rw [heq]
  refine ⟨hnext.value_eq, ?_, calm ++ calm', ?_, fun output houtput => ?_⟩
  · rw [List.map_append, String.join_append, h.text_eq, hnext.text_eq]
  · rw [houtputs, houtputs', List.map_nil, List.append_nil, List.append_assoc]
  · rcases List.mem_append.mp houtput with hold | hnew
    · exact hcalm output hold
    · exact hcalm' output hnew

/-- After a stage that prints nothing the text is that of the next one. -/
theorem before (h : stage.Leaves "" [] (.ok a)) (hnext : (next a).Leaves later problems value) :
    (stage >>= next).Leaves later problems value := by
  have hboth := h.bind hnext
  rwa [String.empty_append] at hboth

/-- A stage that goes on may give another value in the end. -/
theorem giving (h : stage.Leaves text [] (.ok a)) (f : α → β) :
    (stage >>= fun a => pure (f a)).Leaves text [] (.ok (f a)) := by
  have hboth : (stage >>= fun a => pure (f a)).Leaves (text ++ "") [] (.ok (f a)) :=
    h.bind leaves_pure
  rwa [String.append_empty] at hboth

/-- Nothing comes after a stage that has ended the run or never ends. -/
theorem halted (h : stage.Leaves text problems (.error halt)) :
    (stage >>= next).Leaves text problems (.error halt) := by
  have heq : (stage >>= next) = ⟨stage.outputs, .error halt⟩ := by
    change Stage.bind stage next = _
    rw [Stage.bind, h.value_eq]
  rw [heq]
  exact ⟨rfl, h.text_eq, h.problems_last⟩

/-- The standard error shows the log records, and then every problem on a line of its own. -/
theorem join_shown {ended : Except Halt α} (h : stage.Leaves text problems ended) (level : Level) :
    String.join (stage.outputs.map (Output.shown level)) =
      String.join ((stage.outputs.filter Output.isRecord).map (Output.shown level)) ++
        String.join (problems.map (· ++ "\n")) := by
  obtain ⟨calm, houtputs, hcalm⟩ := h.problems_last
  rw [houtputs, List.map_append, String.join_append, Output.join_shown level hcalm,
    List.filter_append, Output.filter_isRecord_problems, List.append_nil, List.map_map]
  rfl

end Leaves

end Stage

end TopDown.CommandLine
