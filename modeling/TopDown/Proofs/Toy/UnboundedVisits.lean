import TopDown.Proofs.Recognition
import TopDown.Proofs.Toy.LawfulPrograms
import TopDown.Proofs.Toy.OpenScopes
import TopDown.Proofs.Toy.UnboundedLookups

/-!
Visits without bounds, in trees of any grammar. What one step does to the scopes is carried through
a whole run by induction on it. The same fact keeps the lookups of the next step from running
forever, so a visit of a tree that has no node below itself is a run without bounds.
-/
namespace TopDown.Toy

open Phrase

/-- What a visit leaves: a state, and the violation if there was one. -/
abbrev Outcome := EStateM.Result (Located SemanticError) State Unit

namespace Visit

variable {tree : SyntaxTree} {id : NodeId} {returns : Option ValueType} {s t : State}

/-- The visit of the head of a definition; no other node has a body in a scope of its own. -/
def head? (tree : SyntaxTree) (id : NodeId) : Option (Visit (ValueType × NodeId)) :=
  match constructOf tree id with
  | .functionDefinition => some (functionHead tree id)
  | .mainDefinition => some (Prod.mk .int <$> mainHead tree id)
  | _ => none

/-- The visit of a node that neither is a definition nor gives way to its children. -/
def plain (tree : SyntaxTree) (returns : Option ValueType) (id : NodeId) : Visit Unit :=
  nodeOver tree (fun _ _ => return) returns id

/-- What the visit of the pending nodes ends with when no bound cuts it short. -/
inductive Runs (tree : SyntaxTree) : Option ValueType → List NodeId → State → Outcome → Prop where
  | done {returns : Option ValueType} {s : State} : Runs tree returns [] s (.ok () s)
  | composite {returns : Option ValueType} {id : NodeId} {pending : List NodeId} {s : State}
      {r : Outcome} (hid : constructOf tree id = .composite) :
      Runs tree returns (tree.children id ++ pending) s r → Runs tree returns (id :: pending) s r
  | passed {returns : Option ValueType} {id : NodeId} {pending : List NodeId} {s t : State}
      {r : Outcome} (hid : constructOf tree id ≠ .composite) (hnone : head? tree id = none)
      (hends : s.view.Settles tree) (hplain : plain tree returns id s = .ok () t) :
      Runs tree returns pending t r → Runs tree returns (id :: pending) s r
  | refused {returns : Option ValueType} {id : NodeId} {pending : List NodeId} {s t : State}
      {e : Located SemanticError} (hid : constructOf tree id ≠ .composite)
      (hnone : head? tree id = none) (hends : s.view.Settles tree)
      (hplain : plain tree returns id s = .error e t) :
      Runs tree returns (id :: pending) s (.error e t)
  | headRefused {returns : Option ValueType} {id : NodeId} {pending : List NodeId} {s t : State}
      {e : Located SemanticError} {head : Visit (ValueType × NodeId)}
      (hid : head? tree id = some head) (hhead : head s = .error e t) :
      Runs tree returns (id :: pending) s (.error e t)
  | bodyRefused {returns : Option ValueType} {id body : NodeId} {pending : List NodeId}
      {s t u : State} {e : Located SemanticError} {head : Visit (ValueType × NodeId)}
      {returned : ValueType} (hid : head? tree id = some head)
      (hhead : head s = .ok (returned, body) t) :
      Runs tree (some returned) [body] t.enter (.error e u) →
      Runs tree returns (id :: pending) s (.error e u.leave)
  | defined {returns : Option ValueType} {id body : NodeId} {pending : List NodeId}
      {s t u : State} {r : Outcome} {head : Visit (ValueType × NodeId)} {returned : ValueType}
      (hid : head? tree id = some head) (hhead : head s = .ok (returned, body) t) :
      Runs tree (some returned) [body] t.enter (.ok () u) →
      Runs tree returns pending u.leave r → Runs tree returns (id :: pending) s r

section Steps

variable {below : Option ValueType → NodeId → Visit Unit} {head : Visit (ValueType × NodeId)}

/-- The two definitions that have a head. -/
theorem head?_cases (hid : head? tree id = some head) :
    (constructOf tree id = .functionDefinition ∧ head = functionHead tree id) ∨
      (constructOf tree id = .mainDefinition ∧ head = Prod.mk .int <$> mainHead tree id) := by
  unfold head? at hid
  cases hconstruct : constructOf tree id with
  | functionDefinition =>
    rw [hconstruct] at hid
    exact Or.inl ⟨rfl, (Option.some.inj hid).symm⟩
  | mainDefinition =>
    rw [hconstruct] at hid
    exact Or.inr ⟨rfl, (Option.some.inj hid).symm⟩
  | _ =>
    rw [hconstruct] at hid
    cases hid

/-- What has no head is neither of the two definitions. -/
theorem constructOf_ne_of_head? (hnone : head? tree id = none) :
    constructOf tree id ≠ .functionDefinition ∧ constructOf tree id ≠ .mainDefinition := by
  unfold head? at hnone
  constructor <;> intro hconstruct <;> rw [hconstruct] at hnone <;> cases hnone

theorem nodeOver_definition (hid : head? tree id = some head) :
    nodeOver tree below returns id =
      head >>= fun (returned, body) => within (below (some returned) body) := by
  unfold nodeOver
  rcases head?_cases hid with ⟨hconstruct, rfl⟩ | ⟨hconstruct, rfl⟩
  · rw [hconstruct]
  · rw [hconstruct, bind_map_left]

theorem nodeOver_plain (hid : constructOf tree id ≠ .composite) (hnone : head? tree id = none) :
    nodeOver tree below returns id = plain tree returns id := by
  obtain ⟨hfunction, hmain⟩ := constructOf_ne_of_head? hnone
  unfold plain nodeOver
  cases hconstruct : constructOf tree id with
  | composite => exact absurd hconstruct hid
  | functionDefinition => exact absurd hconstruct hfunction
  | mainDefinition => exact absurd hconstruct hmain
  | _ => rfl

/-- A definition leaves its own scope to be opened, and leads down the tree. -/
theorem head_scoped (hid : head? tree id = some head) {returned : ValueType} {body : NodeId}
    (hhead : head s = .ok (returned, body) t) (hs : s.Scoped 0) :
    t.Scoped 1 ∧ t.openScopes = s.openScopes ∧ body ∈ tree.children id := by
  rcases head?_cases hid with ⟨_, rfl⟩ | ⟨_, rfl⟩
  · obtain ⟨name, _, _, _, _, _, hdeclare, hbody⟩ := functionHead_eq_ok_iff.mp hhead
    obtain ⟨_, rfl⟩ := declare_eq_ok_iff.mp hdeclare
    have hnext := hs.declaring name.token (.function returned) fun h => absurd h Bool.noConfusion
    exact ⟨hnext, rfl, mem_children_of_childNode? (childNode_eq_ok_iff.mp hbody)⟩
  · rw [map_eq_pure_bind, bind_eq_ok_iff] at hhead
    obtain ⟨block, u, hmain, hpair⟩ := hhead
    obtain ⟨heq, rfl⟩ := pure_eq_ok_iff.mp hpair
    obtain ⟨_, rfl⟩ := Prod.mk.inj heq
    obtain ⟨hfirst, hbody, rfl⟩ := mainHead_eq_ok_iff.mp hmain
    exact ⟨hs.defining hfirst, rfl, mem_children_of_childNode? (childNode_eq_ok_iff.mp hbody)⟩

/-- Of the other nodes only declarations change the state, and they do so outside of functions. -/
theorem plain_scoped (hid : constructOf tree id ≠ .composite) (hnone : head? tree id = none)
    (hplain : plain tree returns id s = .ok () t) (hs : s.Scoped 0)
    (houtside : returns = none → s.openScopes = []) :
    t.Scoped 0 ∧ t.openScopes = s.openScopes := by
  obtain ⟨hfunction, hmain⟩ := constructOf_ne_of_head? hnone
  unfold plain nodeOver at hplain
  cases hconstruct : constructOf tree id with
  | composite => exact absurd hconstruct hid
  | functionDefinition => exact absurd hconstruct hfunction
  | mainDefinition => exact absurd hconstruct hmain
  | declaration =>
    rw [hconstruct] at hplain
    obtain ⟨name, _, type, _, hreturns, _, htype, _, _, rfl⟩ := declaration_eq_ok_iff.mp hplain
    have hglobal : s.scope = globalScope := by
      rw [State.scope, houtside hreturns]
      rfl
    have hnext := hs.declaring name.token type fun _ => hglobal
    rw [isFunction_of_declaredType htype] at hnext
    exact ⟨hnext, rfl⟩
  | assignment =>
    rw [hconstruct] at hplain
    obtain ⟨rfl, _⟩ := assignment_eq_ok_iff.mp hplain
    exact ⟨hs, rfl⟩
  | returning =>
    rw [hconstruct] at hplain
    obtain ⟨rfl, _⟩ := returning_eq_ok_iff.mp hplain
    exact ⟨hs, rfl⟩
  | leaf token =>
    rw [hconstruct] at hplain
    obtain ⟨_, rfl⟩ := pure_eq_ok_iff.mp hplain
    exact ⟨hs, rfl⟩
  | _ =>
    simp only [hconstruct, bind_eq_ok_iff, get_eq_ok_iff, check_eq_ok_iff, pure_eq_ok_iff] at hplain
    obtain ⟨_, _, ⟨rfl, rfl⟩, _, _, ⟨_, rfl⟩, _, rfl⟩ := hplain
    exact ⟨hs, rfl⟩

end Steps

/-- A run ends with the scopes open that were open at its beginning, and with the scopes and the
declarations still belonging together. -/
theorem Runs.scoped {ids : List NodeId} {r : Outcome} (h : Runs tree returns ids s r)
    (hs : s.Scoped 0) (houtside : returns = none → s.openScopes = []) (hr : r = .ok () t) :
    t.Scoped 0 ∧ t.openScopes = s.openScopes := by
  induction h generalizing t with
  | done =>
    cases hr
    exact ⟨hs, rfl⟩
  | composite _ _ ih => exact ih hs houtside hr
  | passed hid hnone _ hplain _ ih =>
    obtain ⟨hnext, hopen⟩ := plain_scoped hid hnone hplain hs houtside
    rw [← hopen] at houtside ⊢
    exact ih hnext houtside hr
  | refused => cases hr
  | headRefused => cases hr
  | bodyRefused => cases hr
  | defined hid hhead _ _ ihbody ihrest =>
    obtain ⟨hnext, hopen, _⟩ := head_scoped hid hhead hs
    obtain ⟨hbody, hinner⟩ :=
      ihbody hnext.enter (fun h => absurd h (Option.some_ne_none _)) rfl
    have hleft : State.openScopes (State.leave _) = _ := congrArg List.tail hinner
    rw [← hopen] at houtside ⊢
    obtain ⟨hend, hlast⟩ := ihrest hbody.leave (fun hreturns => hleft.trans (houtside hreturns)) hr
    exact ⟨hend, hlast.trans hleft⟩

/-- Lookups end in a state whose scopes form a tree. -/
theorem settles_of_scoped {owed : Nat} (hall : ∀ i, i < tree.size → tree.Founded [i])
    (hs : s.Scoped owed) : s.view.Settles tree where
  names := fun _ => hs.tree.resolves hs.scope_lt
  types := fun i hi => ⟨_, View.infers (hall i hi) (Nat.le_refl _)⟩

theorem within_of_ok {body : Visit Unit} (h : body s.enter = .ok () t) :
    within body s = .ok () t.leave := by
  simp only [within, h]

theorem within_of_error {body : Visit Unit} {e : Located SemanticError}
    (h : body s.enter = .error e t) : within body s = .error e t.leave := by
  simp only [within, h]

/-- The bounded visits of nodes with finitely many nodes under them are a run without bounds. -/
theorem runs_forM (hall : ∀ i, i < tree.size → tree.Founded [i]) {ids : List NodeId} {n : Nat}
    (h : tree.Spans ids n) (hn : n ≤ tree.size) (hs : s.Scoped 0)
    (houtside : returns = none → s.openScopes = []) :
    Runs tree returns ids s (forM ids (node tree returns) s) := by
  -- The induction is on the nodes under the pending ones. That the state is scoped goes through it
  -- too: without it the lookups of the next step might not end.
  induction n using Nat.strongRecOn generalizing ids returns s with
  | ind n ih =>
    have hspans := h
    cases h with
    | nil => exact .done
    | @cons id ids below beside _ hlt hbelow hbeside =>
      have hrest : beside < n := by omega
      rw [List.forM_cons, node_eq ((hspans.of_mem List.mem_cons_self).mono hn)]
      by_cases hid : constructOf tree id = .composite
      · have hrun := ih _ hlt (hbelow.append hbeside) (by omega) hs houtside
        rw [List.forM_append] at hrun
        rw [nodeOver, hid]
        exact .composite hid hrun
      · cases hhead? : head? tree id with
        | none =>
          rw [nodeOver_plain hid hhead?]
          have hends := settles_of_scoped hall hs
          cases hplain : plain tree returns id s with
          | error e t =>
            rw [bind_of_error hplain]
            exact .refused hid hhead? hends hplain
          | ok _ t =>
            obtain ⟨hnext, hopen⟩ := plain_scoped hid hhead? hplain hs houtside
            rw [← hopen] at houtside
            rw [bind_of_ok hplain]
            exact .passed hid hhead? hends hplain
              (ih beside hrest hbeside (by omega) hnext houtside)
        | some head =>
          rw [nodeOver_definition hhead?]
          cases hhead : head s with
          | error e t =>
            rw [bind_assoc, bind_of_error hhead]
            exact .headRefused hhead? hhead
          | ok answer t =>
            obtain ⟨returned, body⟩ := answer
            obtain ⟨hnext, hopen, hmem⟩ := head_scoped hhead? hhead hs
            have hinside : some returned = none → t.enter.openScopes = [] :=
              fun h => absurd h (Option.some_ne_none _)
            have hbody := ih below (by omega) (hbelow.of_mem hmem) (by omega) hnext.enter hinside
            rw [List.forM_cons, List.forM_nil, bind_pure_unit] at hbody
            rw [bind_assoc, bind_of_ok hhead]
            cases hvisit : node tree (some returned) body t.enter with
            | error e u =>
              rw [hvisit] at hbody
              rw [bind_of_error (within_of_error hvisit)]
              exact .bodyRefused hhead? hhead hbody
            | ok _ u =>
              rw [hvisit] at hbody
              obtain ⟨hend, hinner⟩ := hbody.scoped hnext.enter hinside rfl
              have hleft : u.leave.openScopes = s.openScopes :=
                (congrArg List.tail hinner).trans hopen
              rw [← hleft] at houtside
              rw [bind_of_ok (within_of_ok hvisit)]
              exact .defined hhead? hhead hbody
                (ih beside hrest hbeside (by omega) hend.leave houtside)

/-- What is concluded from the visit of a whole program. -/
def verdict : Outcome → Verdict SymbolTable
  | .ok _ t => if t.mainDefined = true then .ok t.symbols else .error ⟨.missingMain, .nowhere⟩
  | .error e _ => .error e

end Visit

/-- The analysis comes to an end without any bound, and ends with the verdict. -/
structure Concludes (tree : SyntaxTree) (v : Verdict SymbolTable) : Prop where
  tokens : ∀ id, id < tree.size → tree.Finds (fun ids => ids) [id] (tree.firstToken id)
  visit : ∃ r, Visit.Runs tree none [SyntaxTree.root] .initial r ∧ v = Visit.verdict r

theorem State.Scoped.count_eq {s : State} (h : s.Scoped 0) (hmain : s.mainDefined = true) :
    s.symbols.functions + 2 = s.symbols.scopes.length := by
  have hcount := h.count
  rw [hmain] at hcount
  exact hcount.symm

/-- The analysis of any parsed tree comes to an end. If it succeeds, the scopes are numbered in an
order in which parents come first, every declaration is in one of them and in the global one unless
it declares a function, and besides the global scope and that of the main function each function
has one. -/
theorem analyze_scoped {table : Table} {start : String} {tokens : List Token} {tree : SyntaxTree}
    (hparse : table.parse start tokens = some (.ok tree)) :
    Concludes tree (analyze tree) ∧
      ∀ symbols, analyze tree = .ok symbols →
        symbols.WellScoped ∧
        (∀ e ∈ symbols.entries, e.scope < symbols.scopes.length) ∧
        (∀ e ∈ symbols.entries, e.type.isFunction = false → e.scope = globalScope) ∧
        (symbols.entries.countP fun e => e.type.isFunction) + 2 = symbols.scopes.length := by
  obtain ⟨hsize, d, _, hlayout⟩ := Grammar.exists_layout_of_parse hparse
  have hall : ∀ i, i < tree.size → tree.Founded [i] := fun i hi => hlayout.founded_of_lt hi
  have hrun : Visit.Runs tree none [SyntaxTree.root] .initial
      (Visit.node tree none SyntaxTree.root .initial) := by
    have hforM := Visit.runs_forM hall (hall _ hsize) (Nat.le_refl _) State.Scoped.initial
      fun _ : none = none => rfl
    rwa [List.forM_cons, List.forM_nil, bind_pure_unit] at hforM
  have hverdict : analyze tree = Visit.verdict (Visit.node tree none SyntaxTree.root .initial) :=
    analyze_eq tree
  refine ⟨⟨fun id hid => SyntaxTree.finds_firstToken (hall id hid), _, hrun, hverdict⟩, ?_⟩
  intro symbols hsymbols
  rw [hverdict] at hsymbols
  cases hvisit : Visit.node tree none SyntaxTree.root .initial with
  | error e t =>
    rw [hvisit] at hsymbols
    cases hsymbols
  | ok _ t =>
    rw [hvisit] at hrun hsymbols
    obtain ⟨hscoped, _⟩ := hrun.scoped State.Scoped.initial (fun _ => rfl) rfl
    obtain ⟨hmain, rfl⟩ : t.mainDefined = true ∧ t.symbols = symbols := by
      rw [Visit.verdict] at hsymbols
      split at hsymbols
      · exact ⟨‹_›, Except.ok.inj hsymbols⟩
      · cases hsymbols
    have hperm : t.symbols.entries.Perm t.symbols.declared := List.mergeSort_perm _ _
    refine ⟨hscoped.tree, fun e he => hscoped.tree.scope_lt e (hperm.mem_iff.mp he),
      fun e he => hscoped.globals e (hperm.mem_iff.mp he), ?_⟩
    rw [hperm.countP_eq]
    exact hscoped.count_eq hmain

theorem analyze_scoped_unsetNumber :
    ∃ table tree symbols, grammar.table = .ok table ∧
      table.parse grammar.start (spell unsetNumber.phrase) = some (.ok tree) ∧
      analyze tree = .ok symbols ∧ symbols.WellScoped ∧
      (symbols.entries.countP fun e => e.type.isFunction) + 2 = symbols.scopes.length := by
  obtain ⟨table, htable⟩ := exists_table
  obtain ⟨tree, hparse, hstands⟩ :=
    Program.parse_of_writtenAs htable (Program.writtenAs_spell unsetNumber)
  obtain ⟨symbols, hsymbols⟩ := (exists_analyze_iff_lawful hstands).mpr lawful_unsetNumber
  obtain ⟨hscoped, _, _, hcount⟩ := (analyze_scoped hparse).2 symbols hsymbols
  exact ⟨table, tree, symbols, htable, hparse, hsymbols, hscoped, hcount⟩

end TopDown.Toy
