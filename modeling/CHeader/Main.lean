import CHeader.Program.Run

/-!
# The program

Reads the input, writes the output and says what `Job` has to say.
-/

namespace CHeader.Program

/-- What kept a file from being read or written. -/
def fileFault : IO.Error → FileFault
  | .noFileOrDirectory .. => .missing
  | .inappropriateType .. => .isDirectory
  | error => .other (toString error)

/-- The text of a file. -/
def readSource (name : String) : IO (Except FileFault String) := do
  try
    let bytes ← IO.FS.readBinFile name
    return match String.fromUTF8? bytes with
      | some text => .ok text
      | none => .error .notText
  catch error => return .error (fileFault error)

/-- Write the output of a job, if it goes to a file. -/
def writeTarget (job : Job) : IO (Option FileFault) := do
  match job.target? with
  | none => return none
  | some (name, content) =>
    try
      IO.FS.writeFile name content
      return none
    catch error => return some (fileFault error)

/-- The outcome of the program on some arguments. -/
def run (arguments : List String) : IO Outcome := do
  match Command.ofArguments arguments with
  | .error error => return .ofUsageError error
  | .ok .version => return .version
  | .ok (.run request) =>
    match ← readSource request.input with
    | .error fault => return .unreadable request fault
    | .ok source =>
      let job := Job.ofSource request source
      return job.outcome (← writeTarget job)

end CHeader.Program

def main (arguments : List String) : IO UInt32 := do
  let outcome ← CHeader.Program.run arguments
  (← IO.getStderr).putStr outcome.stderr
  (← IO.getStdout).putStr outcome.stdout
  return outcome.exitCode.toUInt32
