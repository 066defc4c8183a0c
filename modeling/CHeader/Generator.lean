import CHeader.Emission
import CHeader.Survey

/-!
# Header generation

`generate` reads one source text and writes its header. A text that does not tokenize, or whose
conditionals are malformed, has none. Issues with single constructs leave the header to the rest, which
is written only on request.

A `Generator` is used for one text after another; each run starts afresh, and the declarations of the
last stay at hand.
-/

namespace CHeader

/-- How headers are generated. -/
structure Options where
  /-- Whether marker words and interface blocks set visibility. -/
  markers : Bool := true
  /-- Whether a header is written in spite of issues. -/
  bestEffort : Bool := false
  deriving DecidableEq, Repr, Inhabited

/-- The outcome of one run. -/
structure Generation where
  header : Option String
  errors : List Diagnostic
  deriving DecidableEq, Repr

namespace Generation

/-- Whether there is a header and nothing to report. -/
def isClean (g : Generation) : Bool :=
  g.header.isSome && g.errors.isEmpty

/-- The header of a run with nothing to report. -/
def result (g : Generation) : Except (List Diagnostic) String :=
  match g.header, g.errors with
  | some header, [] => .ok header
  | _, errors => .error errors

end Generation

/-- The survey of a source text. -/
def surveySource (markers : Bool) (source : String) : Except (List Diagnostic) Survey := do
  survey markers source (← tokenize source)

/-- The header of a source text, and the declarations it is written from. -/
def generate (options : Options) (source : String) : Generation × DeclarationList :=
  match surveySource options.markers source with
  | .error errors => (⟨none, errors⟩, {})
  | .ok { declarations, errors } =>
    let header :=
      if errors.isEmpty || options.bestEffort then some (Emission.render declarations) else none
    (⟨header, errors⟩, declarations)

/-- The header of a source text that has nothing wrong with it. -/
def generateHeader (source : String) : Except (List Diagnostic) String :=
  (generate {} source).1.result

/-- A generator between runs. -/
structure Generator where
  options : Options := {}
  /-- The declarations of the last run. -/
  declarations : DeclarationList := {}
  deriving DecidableEq, Repr, Inhabited

namespace Generator

/-- Forget the last run. -/
def reset (g : Generator) : Generator :=
  { g with declarations := {} }

/-- Run on a source text. -/
def run (g : Generator) (source : String) : Generation × Generator :=
  let (generation, declarations) := generate g.options source
  (generation, { g with declarations })

end Generator

end CHeader
