import BigStep.CommandLine

/-!
# The program

Reads the arguments and, if they say so, a file; writes what `CommandLine` answers.
-/

namespace BigStep

/-- The text of a file, or why it cannot be read. -/
def readSource (path : String) : IO (Except CommandLine.ReadError String) := do
  try
    return CommandLine.textOfBytes (← IO.FS.readBinFile path)
  catch e =>
    match e with
    | .noFileOrDirectory _ _ _ => return .error .missing
    | .inappropriateType _ _ _ => return .error .directory
    | e => return .error (.other e.toString)

/-- The response to the arguments. A file is read only if the options ask for it. -/
def respondIO (args : List String) : IO CommandLine.Response := do
  match CommandLine.parse args with
  | .error stop => return stop.response
  | .ok (o, input) =>
    let contents ← if o.file then readSource input else pure (.ok "")
    return CommandLine.execute o input contents

end BigStep

/-- Answers the command line. -/
def main (args : List String) : IO UInt32 := do
  let response ← BigStep.respondIO args
  IO.print response.stdout
  IO.eprint response.stderr
  return response.code.toUInt32
