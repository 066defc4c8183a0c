import CHeader.Generator
import CHeader.Program.Arguments
import CHeader.Program.Report
import CHeader.Token.Listing

/-!
# A run of the program

What the program does between reading its input and writing its output, as a function. `Job.ofSource`
computes everything that is written from the text of the input, and `Job.outcome` what the run comes to
once it is known whether the output could be written. A run without a header fails; so does one whose
input cannot be read or whose output cannot be written.
-/

namespace CHeader

/-- Why a file cannot be read or written. -/
inductive FileFault
  | missing
  | isDirectory
  | notText
  /-- Any other cause, in the words of the system. -/
  | other (message : String)
  deriving DecidableEq, Repr

/-- The wording of a cause. -/
def FileFault.message : FileFault → String
  | missing => "No such file or directory (os error 2)"
  | isDirectory => "Is a directory (os error 21)"
  | notText => "stream did not contain valid UTF-8"
  | other message => message

/-- What a run says and how it ends. -/
structure Outcome where
  exitCode : Nat
  stdout : String := ""
  stderr : String := ""
  deriving DecidableEq, Repr

namespace Outcome

/-- The version is printed. -/
def version : Outcome :=
  { exitCode := 0, stdout := "mkhdr 0.1.0\n" }

/-- The arguments are refused. -/
def ofUsageError (error : UsageError) : Outcome :=
  { exitCode := 2, stderr := "error: " ++ error.message ++ "\n" }

/-- The input cannot be read; nothing else is said. -/
def unreadable (request : Request) (fault : FileFault) : Outcome :=
  { exitCode := 1, stderr := "error: cannot read " ++ request.input ++ ": " ++ fault.message ++ "\n" }

end Outcome

namespace Request

/-- Whether a flag was given. -/
def has (request : Request) (flag : Flag) : Bool :=
  request.flags.contains flag

/-- How the header is to be generated. -/
def options (request : Request) : Options :=
  { markers := !request.has .noMarkers, bestEffort := request.has .keepGoing }

end Request

/-- A run up to the writing of its output. -/
structure Job where
  request : Request
  /-- What is said before the output is written. -/
  log : String
  /-- The text of the output; `none` if there is no header. -/
  content : Option String
  deriving DecidableEq, Repr

namespace Job

/-- A text if a flag asks for it. -/
def textIf (condition : Bool) (text : String) : String :=
  if condition then text else ""

/-- The title of a verbose run. -/
def banner (request : Request) : String :=
  "Generating header " ++ request.input ++ " -> " ++ request.output.getD "stdout" ++ "\n"

/-- The tokens of a text; nothing for a text that has faults, which are reported later. -/
def tokenListing (source : String) : String :=
  match tokenize source with
  | .ok tokens =>
    "=== C Tokens ===\n" ++ String.join (tokens.map fun t => t.entry ++ "\n") ++ "=== End Tokens ===\n\n"
  | .error _ => ""

/-- The declarations of a text. -/
def declarationListing (list : DeclarationList) : String :=
  "=== Declarations ===\n" ++ list.listing ++ "=== End Declarations ===\n\n"

/-- The lines of a text, the last of which need not be ended. -/
def countLines (text : String) : Nat :=
  let cs := text.toList
  cs.count '\n' + if cs.getLast?.any (· ≠ '\n') then 1 else 0

/-- The figures of a verbose run. -/
def summary (list : DeclarationList) (header : String) : String :=
  toString list.items.length ++ " declarations (" ++ toString list.visible.length ++ " interface), " ++
    toString list.symbols.symbols.length ++ " symbols, " ++ toString (countLines header) ++ " lines emitted\n"

/-- A header as it is written: a line end behind it, unless it is empty. -/
def contentOf (header : String) : String :=
  if header = "" then "" else header ++ "\n"

/-- Generate the header of the input. -/
def ofSource (request : Request) (source : String) : Job :=
  let (generation, list) := generate request.options source
  let log := textIf (request.has .verbose) (banner request) ++
    textIf (request.has .dumpTokens) (tokenListing source) ++
    textIf (request.has .dumpDecls) (declarationListing list) ++
    String.join (generation.errors.map (Report.render request.input source.toList))
  match generation.header with
  | some header =>
    { request, log := log ++ textIf (request.has .verbose) (summary list header),
      content := some (contentOf header) }
  | none => { request, log := log ++ "error: " ++ describeCount generation.errors ++ "\n", content := none }

/-- The file to write and its content. -/
def target? (job : Job) : Option (String × String) := do
  let name ← job.request.output
  let content ← job.content
  some (name, content)

/-- What the run comes to, given what kept the target from being written. -/
def outcome (job : Job) (fault : Option FileFault) : Outcome :=
  match job.content, job.request.output, fault with
  | none, _, _ => { exitCode := 1, stderr := job.log }
  | some content, none, _ => { exitCode := 0, stdout := content, stderr := job.log }
  | some _, some name, some fault =>
    { exitCode := 1, stderr := job.log ++ "error: cannot write " ++ name ++ ": " ++ fault.message ++ "\n" }
  | some _, some name, none =>
    { exitCode := 0,
      stderr := job.log ++ textIf (job.request.has .verbose) ("Successfully wrote " ++ name ++ "\n") }

end Job

end CHeader
