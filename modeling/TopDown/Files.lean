/-!
What a path gives when it is read: the text of a file, or the reason why there is none, which is an
error of the system or a fault of the path or the bytes. To tell whether two paths name one place
only their components are compared, so repeated and trailing separators and inner dots do not
matter.
-/
namespace TopDown

/-- Why there is no text: the kind by which errors are compared, and the text that is shown. -/
structure FileError where
  kind : String
  message : String
deriving DecidableEq, Repr

namespace FileError

/-- The errors of the system that opening and reading a file can meet, by their numbers: their kinds
and their texts. -/
def systemErrors : List (Nat × String × String) :=
  [(1, "PermissionDenied", "Operation not permitted"),
    (2, "NotFound", "No such file or directory"),
    (4, "Interrupted", "Interrupted system call"),
    (5, "Uncategorized", "Input/output error"),
    (6, "Uncategorized", "No such device or address"),
    (11, "WouldBlock", "Resource temporarily unavailable"),
    (12, "OutOfMemory", "Cannot allocate memory"),
    (13, "PermissionDenied", "Permission denied"),
    (16, "ResourceBusy", "Device or resource busy"),
    (19, "Uncategorized", "No such device"),
    (20, "NotADirectory", "Not a directory"),
    (21, "IsADirectory", "Is a directory"),
    (22, "InvalidInput", "Invalid argument"),
    (23, "Uncategorized", "Too many open files in system"),
    (24, "Uncategorized", "Too many open files"),
    (26, "ExecutableFileBusy", "Text file busy"),
    (36, "InvalidFilename", "File name too long"),
    (40, "FilesystemLoop", "Too many levels of symbolic links"),
    (75, "Uncategorized", "Value too large for defined data type"),
    (95, "Unsupported", "Operation not supported"),
    (110, "TimedOut", "Connection timed out"),
    (116, "StaleNetworkFileHandle", "Stale file handle")]

/-- An error of the system by its number; the text given is shown if the number is not known. -/
def system (number : Nat) (text : String) : FileError :=
  let (kind, text) := (systemErrors.lookup number).getD ("Uncategorized", text)
  ⟨kind, text ++ " (os error " ++ toString number ++ ")"⟩

def notFound : FileError := ⟨"NotFound", "No such file or directory (os error 2)"⟩

def isDirectory : FileError := ⟨"IsADirectory", "Is a directory (os error 21)"⟩

def nulInName : FileError := ⟨"InvalidInput", "file name contained an unexpected NUL byte"⟩

def invalidText : FileError := ⟨"InvalidData", "stream did not contain valid UTF-8"⟩

/-- Errors are the same if their kinds are. -/
def same (a b : FileError) : Bool := a.kind = b.kind

end FileError

/-- What is found at a path that leads somewhere. -/
inductive FileContent where
  | directory
  | bytes (content : ByteArray)

/-- Bytes are text if they are well-formed UTF-8. -/
def FileContent.text : FileContent → Except FileError String
  | directory => .error .isDirectory
  | bytes content =>
    match String.fromUTF8? content with
    | some text => .ok text
    | none => .error .invalidText

namespace Path

/-- A dot stands for something only as the first component of a relative path. -/
def components (path : String) : List String :=
  match path.toList.splitOn '/' with
  | [] => []
  | [] :: rest =>
    if rest = [] then [] else "/" :: inner rest
  | first :: rest => String.ofList first :: inner rest
where
  inner (pieces : List (List Char)) : List String :=
    (pieces.filter fun piece => piece ≠ [] ∧ piece ≠ ['.']).map String.ofList

def same (a b : String) : Bool := components a = components b

end Path

end TopDown
