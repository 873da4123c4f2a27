/-!
The order of names: by the code points of their characters from the left, a name coming before the
longer ones that it begins. It is a strict linear order.
-/
namespace TopDown.Text

def charsBefore : List Char → List Char → Bool
  | _, [] => false
  | [], _ :: _ => true
  | a :: as, b :: bs => a.toNat < b.toNat || (a.toNat == b.toNat && charsBefore as bs)

/-- The first name stands before the second. -/
def before (a b : String) : Bool := charsBefore a.toList b.toList

theorem charsBefore_irrefl (as : List Char) : charsBefore as as = false := by
  induction as with
  | nil => rfl
  | cons a as ih =>
    simp only [charsBefore, ih, Bool.and_false, Bool.or_false, decide_eq_false_iff_not]
    omega

theorem charsBefore_trans {as bs cs : List Char} (hab : charsBefore as bs = true)
    (hbc : charsBefore bs cs = true) : charsBefore as cs = true := by
  induction as generalizing bs cs with
  | nil =>
    cases cs with
    | nil => cases bs <;> cases hbc
    | cons c cs => rfl
  | cons a as ih =>
    cases bs with
    | nil => cases hab
    | cons b bs =>
      cases cs with
      | nil => cases hbc
      | cons c cs =>
        simp only [charsBefore, Bool.or_eq_true, Bool.and_eq_true, decide_eq_true_eq,
          beq_iff_eq] at *
        rcases hab with hab | ⟨hab, hab'⟩
        · rcases hbc with hbc | ⟨hbc, _⟩
          · exact Or.inl (by omega)
          · exact Or.inl (by omega)
        · rcases hbc with hbc | ⟨hbc, hbc'⟩
          · exact Or.inl (by omega)
          · exact Or.inr ⟨by omega, ih hab' hbc'⟩

theorem eq_of_not_charsBefore {as bs : List Char} (hab : charsBefore as bs = false)
    (hba : charsBefore bs as = false) : as = bs := by
  induction as generalizing bs with
  | nil =>
    cases bs with
    | nil => rfl
    | cons b bs => cases hab
  | cons a as ih =>
    cases bs with
    | nil => cases hba
    | cons b bs =>
      simp only [charsBefore, Bool.or_eq_false_iff, decide_eq_false_iff_not] at hab hba
      have hcode : a.toNat = b.toNat := by omega
      simp only [hcode, beq_self_eq_true, Bool.true_and] at hab hba
      rw [Char.toNat_inj.1 hcode, ih hab.2 hba.2]

theorem before_irrefl (a : String) : before a a = false := charsBefore_irrefl a.toList

theorem before_trans {a b c : String} (hab : before a b = true) (hbc : before b c = true) :
    before a c = true := charsBefore_trans hab hbc

theorem eq_of_not_before {a b : String} (hab : before a b = false) (hba : before b a = false) :
    a = b := String.toList_inj.1 (eq_of_not_charsBefore hab hba)

end TopDown.Text
