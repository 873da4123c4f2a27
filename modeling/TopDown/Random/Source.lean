/-!
Random choices. A random generator is known by the choices that it answers; where it stands is told
by the number of words that it has given. One kind of generator reads its words off a tape: to
choose among `n` candidates a word `v` is scaled to the product `v * n`, whose upper half is the
choice. Words whose lower half lies above the zone are refused so that every candidate gets the same
share, and the next word is tried.
-/
namespace TopDown.Random

/-- The number of a candidate and the place on the tape after the words that the choice took. -/
structure Choice where
  index : Nat
  position : Nat
deriving DecidableEq, Repr

/-- How a generator chooses one of so many candidates from a place on, if the choice ends at all. -/
structure Chooser where
  choose : Nat → Nat → Option Choice

/-- Every choice ends and falls on one of the candidates. -/
def Chooser.Answers (chooser : Chooser) : Prop :=
  ∀ n position, 0 < n → ∃ choice, chooser.choose n position = some choice ∧ choice.index < n

/-- An endless tape of 32-bit words. -/
structure Source where
  word : Nat → UInt32

/-- The greatest lower half that is not refused: `n` shifted left until its top bit is set, less
one. -/
def zone (n : Nat) : Nat := n <<< (31 - n.log2) - 1

/-- The count of 32-bit words. -/
def wordCount : Nat := 0x100000000

def accepts (n : Nat) (v : UInt32) : Bool := v.toNat * n % wordCount ≤ zone n

def scale (n : Nat) (v : UInt32) : Nat := v.toNat * n / wordCount

theorem scale_lt {n : Nat} (hn : 0 < n) (v : UInt32) : scale n v < n := by
  have hv : v.toNat < wordCount := v.toNat_lt
  rw [scale, Nat.div_lt_iff_lt_mul (by decide), Nat.mul_comm]
  exact Nat.mul_lt_mul_of_pos_left hv hn

namespace Source

variable (source : Source)

/-- Tries so many words from a place on, until one is not refused. -/
def choose (n : Nat) : Nat → Nat → Option Choice
  | 0, _ => none
  | tries + 1, position =>
    if accepts n (source.word position) then
      some ⟨scale n (source.word position), position + 1⟩
    else choose n tries (position + 1)

/-- The choices from a tape; one for which so many words in a row are refused is not answered. -/
def chooser (tries : Nat) : Chooser := ⟨fun n position => source.choose n tries position⟩

/-- The given words and then zeros, which are never refused. -/
def ofWords (words : List UInt32) : Source := ⟨fun i => words.getD i 0⟩

end Source

/-- The choices from the given words and zeros after them. -/
def Chooser.ofWords (words : List UInt32) : Chooser :=
  (Source.ofWords words).chooser (words.length + 1)

end TopDown.Random
