import CHeader.Construct.Entry
import CHeader.Tokens

/-!
# The declarations of a text

`survey` goes through the outline of a text. It follows the conditional directives of every run with
a tracker, and records what directives and constructs say under the guards at their start. Issues are
collected and leave the other declarations valid. A conditional directive that does not fit ends the
survey, because no guard behind it can be trusted.
-/

namespace CHeader

/-- What a text declares, and the issues that were met. -/
structure Survey where
  declarations : DeclarationList := {}
  errors : List Diagnostic := []
  deriving DecidableEq, Repr, Inhabited

namespace Survey

/-- Declare under a first name, or none, and link the others to the same declaration. -/
def declare (list : DeclarationList) (names : List String) (draft : Draft) : DeclarationList :=
  let (list, id) := list.push names.head? draft
  names.tail.foldl (·.addName · id) list

/-- Take in an entry. -/
def record (survey : Survey) : Entry → Survey
  | .mention name => { survey with declarations := (survey.declarations.intern name).1 }
  | .declare names draft => { survey with declarations := declare survey.declarations names draft }
  | .issue fault => { survey with errors := survey.errors ++ [fault] }

/-- Take in entries in order. -/
def recordAll (survey : Survey) (entries : List Entry) : Survey :=
  entries.foldl record survey

end Survey

/-- What a directive says: `#define` and `#undef` are declarations of the macro. -/
def macroEntries (t : Tracker) (token : Token) (directive : Directive) : List Entry :=
  if directive.kind = .define ∨ directive.kind = .undef then
    match directive.macroName? with
    | some name =>
      let visibility := if t.interfaceBlock = some .internal then .internal else .interface
      [.declare [name] { kind := .macroDef, text := .verbatim token.text, visibility, guard := t.guardPath,
                         span := token.span, line := token.line }]
    | none => [.issue (.ofIssue (.macroWithoutName directive.kind.keyword) token)]
  else []

/-- A survey under way. -/
structure Surveying where
  tracker : Tracker
  survey : Survey := {}

namespace Surveying

/-- Follow the conditionals of some tokens. A fault is the last of the errors. -/
def follow (s : Surveying) (tokens : List Token) : Except (List Diagnostic) Surveying :=
  match s.tracker.passAll tokens with
  | .ok tracker => .ok { s with tracker }
  | .error fault => .error (s.survey.errors ++ [fault])

/-- Take in entries. -/
def recordAll (s : Surveying) (entries : List Entry) : Surveying :=
  { s with survey := s.survey.recordAll entries }

/-- Take in a run of the outline of `source`. -/
def step (source : List Char) (markers : Bool) (s : Surveying) : Item → Except (List Diagnostic) Surveying
  | .directive token => do
    let s ← s.follow [token]
    .ok (s.recordAll ((token.directive?.map (macroEntries s.tracker token)).getD []))
  | .skipped tokens => s.follow tokens
  | .construct tokens construct => do
    let site : Site := { source, markers, guard := s.tracker.guardPath, block := s.tracker.interfaceBlock }
    let s ← s.follow tokens
    .ok (s.recordAll (construct.entries site))
  | .malformed before fault behind => do
    let s ← s.follow before
    (s.recordAll [.issue fault]).follow behind

/-- The survey at the end of the text. -/
def finish (s : Surveying) : Except (List Diagnostic) Survey :=
  match s.tracker.finish with
  | some fault => .error (s.survey.errors ++ [fault])
  | none => .ok s.survey

end Surveying

/-- The declarations of the tokens of `source`. With `markers`, marker words and interface blocks set
visibility. The conditionals of the text are at fault if the result is an error; that fault comes last,
behind the issues met before it. -/
def survey (markers : Bool) (source : String) (tokens : List Token) : Except (List Diagnostic) Survey := do
  let start : Surveying := { tracker := { recognizeBlocks := markers } }
  (← (outline markers 0 tokens).foldlM (Surveying.step source.toList markers) start).finish

end CHeader
