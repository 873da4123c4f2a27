import TopDown.CommandLine.Run
import TopDown.Random.ChaCha

/-!
The program: reads the files that its command line names, and writes what the run answers.
-/
namespace TopDown.Program

/-- The number of an error of the system, which some calls give negated. -/
def systemNumber (code : UInt32) : Nat := if code < 0x80000000 then code.toNat else (-code).toNat

def fileError : IO.Error → FileError
  | .otherError number text | .resourceBusy number text | .resourceVanished number text
  | .unsupportedOperation number text | .hardwareFault number text
  | .unsatisfiedConstraints number text | .illegalOperation number text
  | .protocolError number text | .timeExpired number text | .alreadyExists _ number text
  | .interrupted _ number text | .noFileOrDirectory _ number text | .invalidArgument _ number text
  | .permissionDenied _ number text | .resourceExhausted _ number text
  | .inappropriateType _ number text | .noSuchThing _ number text =>
    .system (systemNumber number) text
  | .unexpectedEof => ⟨"UnexpectedEof", "unexpected end of file"⟩
  | .userError text => ⟨"Other", text⟩

/-- The text at a path, or why there is none. -/
def readPath (path : String) : IO (Except FileError String) := do
  if '\x00' ∈ path.toList then return .error .nulInName
  try
    return (FileContent.bytes (← IO.FS.readBinFile path)).text
  catch error => return .error (fileError error)

/-- The paths that a command line may ask to read. -/
def pathsOf (arguments : List String) : List String :=
  match CommandLine.Command.ofArguments arguments with
  | .run options => options.file :: options.tokens.toList
  | _ => []

def fresh : IO UInt64 := do
  let bytes ← IO.getRandomBytes 8
  return bytes.foldl (fun n byte => 256 * n + byte.toUInt64) 0

end TopDown.Program

def main (arguments : List String) : IO UInt32 := do
  let paths := TopDown.Program.pathsOf arguments
  let contents ← paths.mapM fun path => return (path, ← TopDown.Program.readPath path)
  let world : TopDown.CommandLine.World :=
    { files := fun path => (contents.lookup path).getD (.error .notFound)
      seeded := TopDown.Random.Chooser.ofSeed
      unseeded := TopDown.Random.Chooser.ofSeed (← TopDown.Program.fresh) }
  let response := TopDown.CommandLine.respond arguments world
  (← IO.getStdout).putStr response.output
  (← IO.getStderr).putStr response.errors
  -- a run without a code does not come this far
  return (response.code.getD 1).toUInt32
