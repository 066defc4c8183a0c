import CHeader.Token

/-!
# Diagnostics

Everything that can go wrong with a source text, by cause. A `LexicalFault` is a piece of text that
is no token, a `ConditionalFault` a conditional directive that does not fit the ones before it, and
an `Issue` a construct that cannot be read as a declaration. Only conditional faults are fatal: no
guard after one can be trusted. Each cause has one wording, its `message`.
-/

namespace CHeader

/-- A piece of text that is no token. -/
inductive LexicalFault
  | unexpectedCharacter
  | unterminatedComment
  | unterminatedString
  | unterminatedChar
  deriving DecidableEq, Repr

/-- The directives that switch to a later branch. -/
inductive Branch
  | elif
  | otherwise
  deriving DecidableEq, Repr

/-- The keyword of the directive. -/
def Branch.keyword : Branch → String
  | .elif => "elif"
  | .otherwise => "else"

/-- A conditional directive out of place. -/
inductive ConditionalFault
  /-- `#if`, `#ifdef`, `#ifndef` or `#elif` without a condition. -/
  | missingCondition (keyword : String)
  /-- A directive outside any conditional that needs one. -/
  | unmatched (keyword : String)
  /-- A branch behind the `#else` of a conditional opened on line `opened`. -/
  | afterElse (branch : Branch) (opened : Nat)
  /-- An `#elif` in an interface block, which has none. -/
  | elifInBlock (condition : String) (opened : Nat)
  /-- A conditional without its `#endif`. -/
  | neverClosed (opening : Opening) (condition : String)
  deriving DecidableEq, Repr

/-- A construct that is no declaration. -/
inductive Issue
  | expectedDeclaration (found : TokenKind)
  | delimiterNeverClosed (opening : TokenKind)
  | missingSemicolon
  | unbalanced (closing : TokenKind)
  | unexpectedBrace
  | bodyNeverClosed (opened : Nat)
  | macroWithoutName (keyword : String)
  | typedefWithoutName
  | declaresNothing
  | severalNamesWithBody
  | missingName
  | bodyOfNonFunction
  | splitByConditional (name : String)
  deriving DecidableEq, Repr

/-- Why a diagnostic is given. -/
inductive Cause
  | lexical (fault : LexicalFault)
  | conditional (fault : ConditionalFault)
  | construct (issue : Issue)
  deriving DecidableEq, Repr

/-- The wording of a lexical fault. -/
def LexicalFault.message : LexicalFault → String
  | .unexpectedCharacter => "unexpected character"
  | .unterminatedComment => "unterminated block comment"
  | .unterminatedString => "unterminated string literal"
  | .unterminatedChar => "unterminated character literal"

/-- The wording of a conditional fault. It names the directive, and the line of the conditional where one is open. -/
def ConditionalFault.message : ConditionalFault → String
  | .missingCondition keyword => "#" ++ keyword ++ " without a condition"
  | .unmatched keyword => "#" ++ keyword ++ " without matching #if"
  | .afterElse branch opened =>
    "#" ++ branch.keyword ++ " after #else (block opened on line " ++ toString opened ++ ")"
  | .elifInBlock condition opened =>
    "#elif in #if " ++ condition ++ " block (opened on line " ++ toString opened ++ ")"
  | .neverClosed opening condition => "#" ++ opening.keyword ++ " " ++ condition ++ " is never closed"

/-- The wording of an issue. -/
def Issue.message : Issue → String
  | .expectedDeclaration found => "expected declaration, found " ++ found.describe
  | .delimiterNeverClosed opening => opening.describe ++ " is never closed"
  | .missingSemicolon => "expected ';' at end of declaration"
  | .unbalanced closing => "unbalanced " ++ closing.describe
  | .unexpectedBrace => "unexpected '\x7b' in declaration"
  | .bodyNeverClosed opened => "function body opened on line " ++ toString opened ++ " is never closed"
  | .macroWithoutName keyword => "#" ++ keyword ++ " without a macro name"
  | .typedefWithoutName => "typedef declares no name"
  | .declaresNothing => "declaration does not declare anything"
  | .severalNamesWithBody => "function definition declares more than one name"
  | .missingName => "expected a name in declarator"
  | .bodyOfNonFunction => "expected a function declarator before '\x7b'"
  | .splitByConditional name => "conditional directive inside the declaration of `" ++ name ++ "`"

/-- The wording of a cause. -/
def Cause.message : Cause → String
  | .lexical fault => fault.message
  | .conditional fault => fault.message
  | .construct issue => issue.message

/-- A fault and where it is. -/
structure Diagnostic where
  cause : Cause
  /-- The 1-based line of the fault. -/
  line : Nat
  span : Span
  deriving DecidableEq, Repr

namespace Diagnostic

/-- An issue with the construct at a token. -/
def ofIssue (issue : Issue) (token : Token) : Diagnostic :=
  ⟨.construct issue, token.line, token.span⟩

/-- Whether the fault leaves the guards of all that follows unknown. -/
def isFatal (d : Diagnostic) : Bool :=
  match d.cause with
  | .conditional _ => true
  | _ => false

/-- The diagnostic in one line. -/
def describe (d : Diagnostic) : String :=
  let context := if d.isFatal then "malformed conditionals: " else ""
  "line " ++ toString d.line ++ ": " ++ context ++ d.cause.message

end Diagnostic

/-- The summary of a list of diagnostics. -/
def describeCount (errors : List Diagnostic) : String :=
  toString errors.length ++ " error(s) while generating header"

end CHeader
