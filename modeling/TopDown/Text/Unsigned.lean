/-!
Unsigned numbers in decimal. A number is an optional plus sign and at least one digit from zero to
nine, and its value stays below a given bound; there is no other sign, separator or base.
-/
namespace TopDown.Text

def digit? (c : Char) : Option Nat :=
  if '0' ≤ c ∧ c ≤ '9' then some (c.toNat - '0'.toNat) else none

/-- Reads digits to the end of the text, `value` being what the digits so far amount to. -/
def readDigits (value : Nat) : List Char → Option Nat
  | [] => some value
  | c :: rest => do readDigits (10 * value + (← digit? c)) rest

def withoutPlus : List Char → List Char
  | '+' :: rest => rest
  | text => text

def readUnsigned (bound : Nat) (text : List Char) : Option Nat :=
  match withoutPlus text with
  | [] => none
  | digits => (readDigits 0 digits).filter (· < bound)

/-- The bound of line numbers, column numbers, array sizes and depths. -/
def wordBound : Nat := 0x10000000000000000

end TopDown.Text
