/-!
# Command line arguments

The arguments of the program, read from left to right. An argument that begins with a hyphen and is
more than one holds options: a long name behind two hyphens, or short letters behind one, in a bundle.
Only `-o` and `--output` take a value, attached or as the next argument. Each option may be given once,
there is one input, and no name is empty. Behind `--` every argument is an input. A request for the
version counts as soon as it is read, if nothing before it is wrong.
-/

namespace CHeader

/-- An option without a value. -/
inductive Flag
  | noMarkers
  | keepGoing
  | verbose
  | dumpTokens
  | dumpDecls
  deriving DecidableEq, Repr

/-- Why arguments are refused. -/
inductive UsageError
  | unknownOption (argument : String)
  | unexpectedValue (argument : String)
  | missingValue
  | emptyName
  | repeatedOption
  | furtherInput (argument : String)
  | missingInput
  deriving DecidableEq, Repr

/-- The wording of a refusal. -/
def UsageError.message : UsageError → String
  | unknownOption argument => "unknown option in " ++ argument
  | unexpectedValue argument => "unexpected value in " ++ argument
  | missingValue => "a value is missing for --output"
  | emptyName => "a file name is empty"
  | repeatedOption => "an option is given more than once"
  | furtherInput argument => "unexpected argument " ++ argument
  | missingInput => "no input file is given"

/-- The arguments read so far. -/
structure Settings where
  input : Option String := none
  output : Option String := none
  flags : List Flag := []
  deriving DecidableEq, Repr

/-- A file to read, and what to do with it. -/
structure Request where
  input : String
  /-- The file to write; standard output if there is none. -/
  output : Option String
  flags : List Flag
  deriving DecidableEq, Repr

/-- What the arguments ask for. -/
inductive Command
  | version
  | run (request : Request)
  deriving DecidableEq, Repr

namespace Settings

/-- Take in the name of the input. -/
def setInput (s : Settings) (name : String) : Except UsageError Settings :=
  if s.input.isSome then .error (.furtherInput name)
  else if name = "" then .error .emptyName
  else .ok { s with input := some name }

/-- Take in the name of the output. -/
def setOutput (s : Settings) (name : String) : Except UsageError Settings :=
  if name = "" then .error .emptyName
  else if s.output.isSome then .error .repeatedOption
  else .ok { s with output := some name }

/-- Take in a flag. -/
def addFlag (s : Settings) (flag : Flag) : Except UsageError Settings :=
  if s.flags.contains flag then .error .repeatedOption else .ok { s with flags := flag :: s.flags }

/-- What all arguments together ask for. -/
def finish (s : Settings) : Except UsageError Command :=
  match s.input with
  | some input => .ok (.run { input, output := s.output, flags := s.flags })
  | none => .error .missingInput

end Settings

namespace Arguments

/-- Where reading stands behind an argument. -/
inductive Step
  | next (settings : Settings)
  /-- The next argument is the value of `--output`. -/
  | output (settings : Settings)
  | version
  deriving DecidableEq, Repr

/-- The flag of a short letter. -/
def shortFlag? : Char → Option Flag
  | 'k' => some .keepGoing
  | 'v' => some .verbose
  | _ => none

/-- The flag of a long name. -/
def longFlag? : String → Option Flag
  | "no-markers" => some .noMarkers
  | "keep-going" => some .keepGoing
  | "verbose" => some .verbose
  | "dump-tokens" => some .dumpTokens
  | "dump-decls" => some .dumpDecls
  | _ => none

/-- A bundle of short options. An `o` takes what is left of the bundle as its value. -/
def short (argument : String) (s : Settings) : List Char → Except UsageError Step
  | [] => .ok (.next s)
  | 'V' :: _ => .ok .version
  | ['o'] => .ok (.output s)
  | 'o' :: '=' :: value => (s.setOutput (String.ofList value)).map .next
  | 'o' :: value => (s.setOutput (String.ofList value)).map .next
  | c :: cs =>
    match shortFlag? c with
    | some flag => do short argument (← s.addFlag flag) cs
    | none => .error (.unknownOption argument)

/-- A long option, with the value behind `=` if there is one. -/
def long (argument : String) (s : Settings) (cs : List Char) : Except UsageError Step :=
  let name := String.ofList (cs.takeWhile (· ≠ '='))
  let value? := (cs.dropWhile (· ≠ '=')).tail? |>.map String.ofList
  match name, longFlag? name, value? with
  | "output", _, some value => (s.setOutput value).map .next
  | "output", _, none => .ok (.output s)
  | "version", _, none => .ok .version
  | "version", _, some _ => .error (.unexpectedValue argument)
  | _, some flag, none => (s.addFlag flag).map .next
  | _, some _, some _ => .error (.unexpectedValue argument)
  | _, none, _ => .error (.unknownOption argument)

/-- Whether an argument holds options. -/
def isOption (argument : String) : Bool :=
  match argument.toList with
  | '-' :: _ :: _ => true
  | _ => false

/-- One argument that is not `--`. -/
def step (s : Settings) (argument : String) : Except UsageError Step :=
  match argument.toList with
  | '-' :: '-' :: cs => long argument s cs
  | '-' :: c :: cs => short argument s (c :: cs)
  | _ => (s.setInput argument).map .next

/-- The arguments behind what gave `s`. -/
def read (s : Settings) : List String → Except UsageError Command
  | [] => s.finish
  | "--" :: arguments => do (← arguments.foldlM Settings.setInput s).finish
  | argument :: arguments => do
    match ← step s argument with
    | .version => .ok .version
    | .next s => read s arguments
    | .output s =>
      match arguments with
      | [] => .error .missingValue
      | value :: arguments =>
        if isOption value then .error .missingValue else read (← s.setOutput value) arguments

end Arguments

/-- What the arguments of the program ask for. -/
def Command.ofArguments (arguments : List String) : Except UsageError Command :=
  Arguments.read {} arguments

end CHeader
