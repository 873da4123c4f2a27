/-!
Blank characters, and the words, lines and trimmed fields they delimit. Blank means the Unicode
property White_Space, twenty-five characters in all. A line ends at a line feed and loses with it
one carriage return standing directly before it; what follows the last line feed is a line of its
own when it is not empty, and keeps its carriage return.
-/
namespace TopDown.Text

/-- The ranges of White_Space, each with its two ends. -/
def blankRanges : List (Nat × Nat) :=
  [(0x09, 0x0D), (0x20, 0x20), (0x85, 0x85), (0xA0, 0xA0), (0x1680, 0x1680), (0x2000, 0x200A),
    (0x2028, 0x2029), (0x202F, 0x202F), (0x205F, 0x205F), (0x3000, 0x3000)]

def isBlank (c : Char) : Bool :=
  blankRanges.any fun range => range.1 ≤ c.toNat && c.toNat ≤ range.2

def trimLeft (text : List Char) : List Char := text.dropWhile isBlank

def trim (text : List Char) : List Char := (trimLeft (trimLeft text).reverse).reverse

theorem trimLeft_eq_nil_iff (text : List Char) :
    trimLeft text = [] ↔ ∀ c ∈ text, isBlank c = true := by
  induction text with
  | nil => simp [trimLeft]
  | cons c rest ih =>
    rw [trimLeft, List.dropWhile_cons]
    split
    · rename_i h
      exact ih.trans ⟨fun hrest => List.forall_mem_cons.2 ⟨h, hrest⟩,
        fun hall => (List.forall_mem_cons.1 hall).2⟩
    · rename_i h
      exact ⟨fun hnil => absurd hnil (List.cons_ne_nil c rest),
        fun hall => absurd (hall c List.mem_cons_self) h⟩

/-- A line without the carriage return that its line feed takes along. -/
def dropReturn (line : List Char) : List Char :=
  if line.getLast? = some '\r' then line.dropLast else line

/-- All pieces but the last were ended by a line feed. -/
def closeLines : List (List Char) → List (List Char)
  | [] => []
  | [last] => if last = [] then [] else [last]
  | piece :: rest => dropReturn piece :: closeLines rest

def lines (text : List Char) : List (List Char) := closeLines (text.splitOn '\n')

end TopDown.Text
