import TopDown.Text.Blank

/-!
The words of a line of BNF. An equals sign, also written `::=`, and a bar are words by themselves. A
quoted word ends at the next quote; in it a backslash stands for the character after it, whatever
that is, and empty quotes are the empty word. Any other word is bare and runs to the next blank, so
it may hold signs and quotes except at its start; the bare word `ε` is the empty word. A semicolon
where a word could start opens a comment that takes the rest of the line.
-/
namespace TopDown.Bnf

inductive Word where
  | equals
  | bar
  | epsilon
  | name (text : List Char)
  | quoted (text : List Char)
deriving DecidableEq, Repr

namespace Word

def ofBare (text : List Char) : Word := if text = ['ε'] then epsilon else name text

def ofQuoted (text : List Char) : Word := if text = [] then epsilon else quoted text

end Word

/-- Where in a line reading stands; `read` holds the characters of the open word, last first. -/
inductive Reading where
  | between
  | bare (read : List Char)
  | inQuotes (read : List Char)
deriving DecidableEq, Repr

/-- The words of the rest of a line; `none` if a quote is left open. -/
def wordsFrom : Reading → List Char → Option (List Word)
  | .between, [] => some []
  | .between, ':' :: ':' :: '=' :: rest => (wordsFrom .between rest).map (.equals :: ·)
  | .between, c :: rest =>
    if c = ';' then some []
    else if c = '=' then (wordsFrom .between rest).map (.equals :: ·)
    else if c = '|' then (wordsFrom .between rest).map (.bar :: ·)
    else if c = '"' then wordsFrom (.inQuotes []) rest
    else if Text.isBlank c then wordsFrom .between rest
    else wordsFrom (.bare [c]) rest
  | .bare read, [] => some [.ofBare read.reverse]
  | .bare read, c :: rest =>
    if Text.isBlank c then (wordsFrom .between rest).map (.ofBare read.reverse :: ·)
    else wordsFrom (.bare (c :: read)) rest
  | .inQuotes _, [] => none
  | .inQuotes read, '"' :: rest => (wordsFrom .between rest).map (.ofQuoted read.reverse :: ·)
  | .inQuotes _, ['\\'] => none
  | .inQuotes read, '\\' :: c :: rest => wordsFrom (.inQuotes (c :: read)) rest
  | .inQuotes read, c :: rest => wordsFrom (.inQuotes (c :: read)) rest

def words (line : List Char) : Option (List Word) := wordsFrom .between line

end TopDown.Bnf
