import TopDown.Proofs.Machine

/-!
What becomes of a form while the lookahead stays the same: empty words are dropped and nonterminals
expanded until a symbol comes up that has to match or has no cell. A production whose body erodes in
some number of moves cannot come up inside that body, since it would take that number again. So
expansions are nested no deeper than there are cells, which bounds the moves.
-/
namespace TopDown.Table

/-- The symbol stays on top for as long as the lookahead is the same. -/
inductive Stops (table : Table) (l : Lookahead) : Symbol → Prop where
  | terminal (t : String) : Stops table l (.terminal t)
  | missing {name : String} (h : table.get? name l = none) : Stops table l (.nonterminal name)

/-- So many moves at the lookahead turn the first form into the second, where they stop. -/
inductive Erodes (table : Table) (l : Lookahead) : Nat → List Symbol → List Symbol → Prop where
  | nil : Erodes table l 0 [] []
  | stop {symbol : Symbol} (rest : List Symbol) (h : Stops table l symbol) :
      Erodes table l 0 (symbol :: rest) (symbol :: rest)
  | epsilon {n : Nat} {rest left : List Symbol} :
      Erodes table l n rest left → Erodes table l (n + 1) (.epsilon :: rest) left
  | expand {n : Nat} {name : String} {rest left : List Symbol} {p : Production}
      (hp : table.get? name l = some p) :
      Erodes table l n (p.body ++ rest) left →
        Erodes table l (n + 1) (.nonterminal name :: rest) left

namespace Erodes

variable {table : Table} {l : Lookahead} {m n : Nat} {form left rest : List Symbol}

theorem stops {symbol : Symbol} (h : table.Erodes l n form (symbol :: rest)) :
    table.Stops l symbol := by
  generalize hleft : symbol :: rest = left at h
  induction h with
  | nil => cases hleft
  | stop _ hstops =>
    cases hleft
    exact hstops
  | epsilon _ ih => exact ih hleft
  | expand _ _ ih => exact ih hleft

/-- A form erodes in one number of moves only. -/
theorem unique {left' : List Symbol} (h : table.Erodes l m form left)
    (h' : table.Erodes l n form left') : m = n := by
  induction h generalizing n with
  | nil =>
    cases h'
    rfl
  | stop rest hstops =>
    cases h' with
    | stop => rfl
    | epsilon => cases hstops
    | expand hp =>
      cases hstops with
      | missing hnone =>
        rw [hnone] at hp
        cases hp
  | epsilon _ ih =>
    cases h' with
    | stop _ hstops => cases hstops
    | epsilon h' => rw [ih h']
  | expand hp _ ih =>
    cases h' with
    | stop _ hstops =>
      cases hstops with
      | missing hnone =>
        rw [hp] at hnone
        cases hnone
    | expand hp' h' =>
      rw [hp] at hp'
      cases hp'
      rw [ih h']

/-- A form that vanishes uncovers what comes after it. -/
theorem append (h : table.Erodes l m form []) (hrest : table.Erodes l n rest left) :
    table.Erodes l (m + n) (form ++ rest) left := by
  generalize hnil : ([] : List Symbol) = gone at h
  induction h with
  | nil => rwa [Nat.zero_add]
  | stop => cases hnil
  | epsilon _ ih =>
    rw [Nat.add_right_comm]
    exact .epsilon (ih hnil)
  | expand hp _ ih =>
    have hbody := ih hnil
    rw [List.append_assoc] at hbody
    rw [Nat.add_right_comm]
    exact .expand hp hbody

/-- A form that stops covers what comes after it. -/
theorem append_of_ne_nil (h : table.Erodes l n form left) (hleft : left ≠ [])
    (rest : List Symbol) : table.Erodes l n (form ++ rest) (left ++ rest) := by
  induction h with
  | nil => exact absurd rfl hleft
  | stop _ hstops => exact .stop _ hstops
  | epsilon _ ih => exact .epsilon (ih hleft)
  | expand hp _ ih =>
    have hbody := ih hleft
    rw [List.append_assoc] at hbody
    exact .expand hp hbody

/-- Either the front vanishes and then the rest erodes, or the rest is never uncovered. -/
theorem split (h : table.Erodes l n (form ++ rest) left) :
    (∃ a b, n = a + b ∧ table.Erodes l a form [] ∧ table.Erodes l b rest left) ∨
      ∃ front, front ≠ [] ∧ left = front ++ rest ∧ table.Erodes l n form front := by
  generalize hwhole : form ++ rest = whole at h
  induction h generalizing form with
  | nil =>
    obtain ⟨rfl, rfl⟩ := List.append_eq_nil_iff.mp hwhole
    exact Or.inl ⟨0, 0, rfl, .nil, .nil⟩
  | stop after hstops =>
    cases form with
    | nil =>
      cases hwhole
      exact Or.inl ⟨0, 0, rfl, .nil, .stop _ hstops⟩
    | cons top form =>
      cases hwhole
      exact Or.inr ⟨_, List.cons_ne_nil _ form, rfl, .stop form hstops⟩
  | @epsilon n after left h ih =>
    cases form with
    | nil =>
      cases hwhole
      exact Or.inl ⟨0, n + 1, (Nat.zero_add _).symm, .nil, .epsilon h⟩
    | cons symbol form =>
      cases hwhole
      rcases ih rfl with ⟨a, b, rfl, hform, hrest⟩ | ⟨front, hfront, rfl, hform⟩
      · exact Or.inl ⟨a + 1, b, Nat.add_right_comm a b 1, .epsilon hform, hrest⟩
      · exact Or.inr ⟨front, hfront, rfl, .epsilon hform⟩
  | @expand n name after left p hp h ih =>
    cases form with
    | nil =>
      cases hwhole
      exact Or.inl ⟨0, n + 1, (Nat.zero_add _).symm, .nil, .expand hp h⟩
    | cons symbol form =>
      cases hwhole
      rcases ih (List.append_assoc _ _ _) with
        ⟨a, b, rfl, hform, hrest⟩ | ⟨front, hfront, rfl, hform⟩
      · exact Or.inl ⟨a + 1, b, Nat.add_right_comm a b 1, .expand hp hform, hrest⟩
      · exact Or.inr ⟨front, hfront, rfl, .expand hp hform⟩

end Erodes

theorem le_foldl_max (lengths : List Nat) (acc : Nat) :
    acc ≤ lengths.foldl max acc ∧ ∀ n ∈ lengths, n ≤ lengths.foldl max acc := by
  induction lengths generalizing acc with
  | nil => exact ⟨Nat.le_refl acc, fun n hn => absurd hn List.not_mem_nil⟩
  | cons first lengths ih =>
    obtain ⟨hacc, hall⟩ := ih (max acc first)
    refine ⟨Nat.le_trans (Nat.le_max_left acc first) hacc, ?_⟩
    intro n hn
    rcases List.mem_cons.mp hn with rfl | hn
    · exact Nat.le_trans (Nat.le_max_right acc n) hacc
    · exact hall n hn

variable {table : Table} {name : String} {l : Lookahead} {p : Production}

theorem length_le_longestBody (h : table.get? name l = some p) :
    p.body.length ≤ table.longestBody := by
  obtain ⟨_, hcell⟩ := cell_of_get? h
  exact (le_foldl_max _ 0).2 _ (List.mem_map_of_mem hcell)


/-- Whatever the lookahead expands in fewer moves is in the pool. -/
def Covers (table : Table) (l : Lookahead) (n : Nat) (pool : List Production) : Prop :=
  ∀ name p m left, table.get? name l = some p → table.Erodes l m p.body left → m < n → p ∈ pool

theorem Covers.of_le {m n : Nat} {pool : List Production} (h : table.Covers l n pool)
    (hle : m ≤ n) : table.Covers l m pool := by
  intro name p k left hp hk hlt
  exact h name p k left hp hk (Nat.lt_of_lt_of_le hlt hle)

/-- Inside its own body a production does not come up again. -/
theorem Covers.erase {m n : Nat} {pool : List Production} {left : List Symbol}
    (h : table.Covers l n pool) (hp : table.get? name l = some p)
    (hm : table.Erodes l m p.body left) (hlt : m < n) :
    table.Covers l m (pool.erase p) ∧ pool.length = (pool.erase p).length + 1 := by
  have hmem : p ∈ pool := h name p m left hp hm hlt
  have hpos : 0 < pool.length := List.length_pos_of_mem hmem
  constructor
  · intro name' q k left' hq hk hklt
    have hne : q ≠ p := by
      intro heq
      subst heq
      have heq := hm.unique hk
      omega
    exact (List.mem_erase_of_ne hne).mpr (h name' q k left' hq hk (Nat.lt_trans hklt hlt))
  · rw [List.length_erase_of_mem hmem]
    omega

/-- What it costs at most to be done with a symbol while so many productions can come up. -/
def symbolCost (table : Table) (productions : Nat) : Nat :=
  Nat.pow (table.longestBody + 1) productions

theorem symbolCost_succ (table : Table) (n : Nat) :
    table.symbolCost (n + 1) = table.symbolCost n * table.longestBody + table.symbolCost n := rfl

theorem symbolCost_pos (table : Table) (n : Nat) : 0 < table.symbolCost n :=
  Nat.pow_pos (Nat.succ_pos _)

/-- The moves of a form that vanishes are paid for by its symbols. The induction is on the number
of moves: a production leaves the pool for as long as its body erodes. -/
theorem Erodes.vanish_cost_le {n : Nat} {form : List Symbol} (h : table.Erodes l n form [])
    {pool : List Production} (hpool : table.Covers l n pool) :
    n ≤ table.symbolCost pool.length * form.length := by
  induction n using Nat.strongRecOn generalizing form pool with
  | ind n ih =>
    cases h with
    | nil => exact Nat.zero_le _
    | @epsilon n rest _ h =>
      have hrest := ih n (Nat.lt_succ_self n) h (hpool.of_le (Nat.le_succ n))
      have hcost := table.symbolCost_pos pool.length
      rw [List.length_cons, Nat.mul_add_one]
      omega
    | @expand n name rest _ p hp h =>
      rcases h.split with ⟨a, b, rfl, hbody, hrest⟩ | ⟨front, hfront, hnil, _⟩
      · obtain ⟨hinner, hlength⟩ := hpool.erase hp hbody (by omega)
        have ha := ih a (by omega) hbody hinner
        have hb := ih b (by omega) hrest (hpool.of_le (by omega))
        have hwidth := Nat.mul_le_mul_left (table.symbolCost (pool.erase p).length)
          (length_le_longestBody hp)
        have hcost := table.symbolCost_pos (pool.erase p).length
        have hsucc := table.symbolCost_succ (pool.erase p).length
        rw [← hlength] at hsucc
        rw [List.length_cons, Nat.mul_add_one]
        omega
      · exact absurd (List.append_eq_nil_iff.mp hnil.symm).1 hfront

/-- A total that pays for moves and for what is left pays for both at a higher price per symbol. -/
theorem paid_le {moves price left limit : Nat} (width : Nat) (hprice : 0 < price)
    (h : moves + price * left ≤ price * limit) :
    moves + (price * width + price) * left ≤ (price * width + price) * limit := by
  have hmul : price * left ≤ price * limit := Nat.le_trans (Nat.le_add_left _ _) h
  have hle : left ≤ limit := Nat.le_of_mul_le_mul_left hmul hprice
  have hrest : price * width * left ≤ price * width * limit := Nat.mul_le_mul_left _ hle
  rw [Nat.add_mul, Nat.add_mul]
  omega

/-- The moves of a form are paid for by its symbols and the bodies its productions can leave behind,
less what remains. -/
theorem Erodes.cost_le {n : Nat} {form left : List Symbol} (h : table.Erodes l n form left)
    {pool : List Production} (hpool : table.Covers l n pool) :
    n + table.symbolCost pool.length * left.length ≤
      table.symbolCost pool.length * (form.length + pool.length * table.longestBody) := by
  induction n using Nat.strongRecOn generalizing form left pool with
  | ind n ih =>
    have hcost := table.symbolCost_pos pool.length
    cases h with
    | nil => simp
    | stop rest hstops =>
      rw [Nat.zero_add]
      exact Nat.mul_le_mul_left _ (Nat.le_add_right _ _)
    | @epsilon n rest _ h =>
      have hrest := ih n (Nat.lt_succ_self n) h (hpool.of_le (Nat.le_succ n))
      rw [List.length_cons, Nat.add_right_comm rest.length, Nat.mul_add_one]
      omega
    | @expand n name rest _ p hp h =>
      rcases h.split with ⟨a, b, rfl, hbody, hrest⟩ | ⟨front, hfront, rfl, hbody⟩
      · have hmoves : table.Erodes l (a + 1) [.nonterminal name] [] := by
          refine .expand hp ?_
          rwa [List.append_nil]
        have ha := hmoves.vanish_cost_le (hpool.of_le (by omega))
        have hb := ih b (by omega) hrest (hpool.of_le (by omega))
        rw [List.length_cons, List.length_nil, Nat.zero_add, Nat.mul_one] at ha
        rw [List.length_cons, Nat.add_right_comm rest.length, Nat.mul_add_one]
        omega
      · obtain ⟨hinner, hlength⟩ := hpool.erase hp hbody (Nat.lt_succ_self n)
        have hn := ih n (Nat.lt_succ_self n) hbody hinner
        have hwidth : p.body.length + (pool.erase p).length * table.longestBody ≤
            pool.length * table.longestBody := by
          rw [hlength, Nat.succ_mul, Nat.add_comm]
          exact Nat.add_le_add_left (length_le_longestBody hp) _
        have hpaid := paid_le table.longestBody
          (table.symbolCost_pos (pool.erase p).length)
          (Nat.le_trans hn (Nat.mul_le_mul_left _ hwidth))
        rw [← symbolCost_succ, ← hlength] at hpaid
        rw [List.length_append, List.length_cons, Nat.mul_add, Nat.mul_add, Nat.mul_add_one]
        omega

end TopDown.Table
