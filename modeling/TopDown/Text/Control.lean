/-!
Text without terminal controls. Escape sequences and control characters are left out; what stays are
visible characters and the layout characters that break and indent lines. A layout character inside
an escape or control sequence shows, and so does the text after it up to the next character that
does not show, where the sequence goes on.
-/
namespace TopDown.Text

/-- The control sequence that a reader is in the middle of. -/
inductive Sequence where
  | outside
  | escape
  | escapeIntermediate
  /-- parameters and intermediates of a control sequence -/
  | control
  | deviceEntry
  | deviceParameters
  | deviceIntermediates
  /-- an operating system command, which a bell ends -/
  | command
  /-- any other string, which a terminator ends -/
  | string
deriving DecidableEq, Repr

/-- The byte that ends a string. -/
def stringTerminator : UInt8 := 0x9c

namespace Sequence

def afterEscape (c : Char) : Sequence :=
  if c.toNat < 0x20 then escape
  else if c.toNat < 0x30 then escapeIntermediate
  else if c = '[' then control
  else if c = ']' then command
  else if c = 'P' then deviceEntry
  else if c = 'X' ∨ c = '^' ∨ c = '_' then string
  else if c.toNat < 0x7f then outside
  else escape

/-- Parameters that come too late make the rest of a device string a plain one. -/
def inDevice (s : Sequence) (c : Char) : Sequence :=
  if c.toNat < 0x20 then s
  else if c.toNat < 0x30 then deviceIntermediates
  else if c.toNat < 0x40 then
    if s = deviceIntermediates ∨ s = deviceParameters ∧ 0x3c ≤ c.toNat then string
    else deviceParameters
  else if c.toNat < 0x7f then string
  else s

/-- The sequence after one more character. Escape begins one anywhere, cancel and substitute end
it; a string also ends at a character whose encoding holds the terminator. -/
def next (s : Sequence) (c : Char) : Sequence :=
  if c = '\x1b' then escape
  else if c = '\x18' ∨ c = '\x1a' then outside
  else
    match s with
    | outside => outside
    | escape => afterEscape c
    | escapeIntermediate => if 0x30 ≤ c.toNat ∧ c.toNat < 0x7f then outside else s
    | control => if 0x40 ≤ c.toNat ∧ c.toNat < 0x7f then outside else s
    | deviceEntry | deviceParameters | deviceIntermediates => s.inDevice c
    | command => if c = '\x07' then outside else s
    | string => if stringTerminator ∈ String.utf8EncodeChar c then outside else s

end Sequence

def isLayout (c : Char) : Bool := c = '\t' || c = '\n' || c = '\x0c' || c = '\r'

def isVisible (c : Char) : Bool := 0x20 ≤ c.toNat && c ≠ '\x7f'

/-- Whether a character shows inside a sequence. -/
def Sequence.shows : Sequence → Char → Bool
  | outside, c => isVisible c || isLayout c
  | escape, c | escapeIntermediate, c | control, c => isLayout c
  | _, _ => false

/-- The characters that show; `showing` holds where the one before did. A visible character beyond
the basic ones drops the sequence that would go on. -/
def shownAfter : Sequence → Bool → List Char → List Char
  | _, _, [] => []
  | s, showing, c :: rest =>
    if s.shows c ∨ showing ∧ Sequence.outside.shows c then
      c :: shownAfter (if 0x7f < c.toNat then .outside else s) true rest
    else shownAfter (s.next c) false rest

def withoutControls (text : String) : String :=
  String.ofList (shownAfter .outside true text.toList)

end TopDown.Text
