import TopDown.Files
import TopDown.Text.Blank
import TopDown.Text.Unsigned
import TopDown.Token

/-!
Token dumps: text files with one token a line, written as kind, lexeme, line and column with tabs
between them. Blank lines are skipped. A dump with bad lines is refused with an error for every one
of them.
-/
namespace TopDown

inductive DumpError where
  | fieldCount (found : Nat)
  | badPosition (field : String)
  | file (error : FileError)
deriving DecidableEq, Repr

namespace DumpError

def message : DumpError → String
  | fieldCount found =>
    "Expected `kind<TAB>lexeme<TAB>line<TAB>column`, found " ++ toString found ++ " field(s)"
  | badPosition field => "Invalid position `" ++ field ++ "`"
  | file error => "File error: " ++ error.message

instance : Explained DumpError := ⟨message⟩

/-- Errors of reading the file are compared by their kinds. -/
def same : DumpError → DumpError → Bool
  | file a, file b => a.same b
  | a, b => a = b

end DumpError

namespace Token

/-- A number, with blanks around it allowed. -/
def readPosition (field : List Char) : Except DumpError Nat :=
  match Text.readUnsigned Text.wordBound (Text.trim field) with
  | some n => .ok n
  | none => .error (.badPosition (String.ofList field))

/-- Reads one line of a dump; the line field is looked at before the column field. -/
def ofRecord (record : List Char) : Except DumpError Token :=
  match record.splitOn '\t' with
  | [kind, lexeme, line, column] => do
    let line ← readPosition line
    let column ← readPosition column
    return ⟨String.ofList kind, String.ofList lexeme, line, column⟩
  | fields => .error (.fieldCount fields.length)

/-- The line that records a token. -/
def record (token : Token) : List Char :=
  token.kind.toList ++ '\t' :: token.lexeme.toList ++ '\t' :: (toString token.line).toList ++
    '\t' :: (toString token.column).toList

/-- The tokens of the lines if all are good, else all errors, with the numbers of their lines. -/
def ofLines (path : String) : List (List Char × Nat) →
    Except (List (Located DumpError)) (List Token)
  | [] => .ok []
  | (line, number) :: rest =>
    if Text.trim line = [] then ofLines path rest
    else
      match ofRecord line, ofLines path rest with
      | .ok token, .ok tokens => .ok (token :: tokens)
      | .ok _, .error errors => .error errors
      | .error e, .ok _ => .error [⟨e, .inFile path number⟩]
      | .error e, .error errors => .error (⟨e, .inFile path number⟩ :: errors)

/-- Reads a dump; `path` labels the errors. -/
def ofDump (path : String) (text : String) : Except (List (Located DumpError)) (List Token) :=
  ofLines path ((Text.lines text.toList).zipIdx 1)

def readDump (path : String) (content : Except FileError String) :
    Except (List (Located DumpError)) (List Token) :=
  match content with
  | .ok text => ofDump path text
  | .error e => .error [⟨.file e, .inFile path 0⟩]

/-- The same tokens, or the same errors at the same places. -/
def dumpsAgree :
    Except (List (Located DumpError)) (List Token) →
      Except (List (Located DumpError)) (List Token) → Bool
  | .ok a, .ok b => a = b
  | .error as, .error bs => Located.agree DumpError.same as bs
  | _, _ => false

end Token

end TopDown
