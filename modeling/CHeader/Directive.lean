import CHeader.Text.Blank
import CHeader.Text.Quoted

/-!
# Preprocessor directives

A directive is the text from a `#` to the end of its line. It is read as a keyword and arguments:
blanks may stand between `#` and the keyword, the keyword is the longest run of letters, digits
and underscores, and the arguments are what follows it, trimmed at both ends.
-/

namespace CHeader

/-- What a conditional tests: an expression, that a macro is defined, that it is not defined. -/
inductive Opening
  | expression
  | defined
  | undefined
  deriving DecidableEq, Repr, Inhabited

/-- The keyword that opens such a conditional. -/
def Opening.keyword : Opening → String
  | .expression => "if"
  | .defined => "ifdef"
  | .undefined => "ifndef"

/-- What a directive does. -/
inductive DirectiveKind
  | opening (test : Opening)
  | elif
  | otherwise
  | endif
  | define
  | undef
  | includes
  /-- Any other keyword, such as `pragma`. -/
  | other (word : String)
  /-- No keyword at all. -/
  | null
  deriving DecidableEq, Repr, Inhabited

namespace DirectiveKind

/-- The directive that a keyword names. -/
def ofKeyword : String → DirectiveKind
  | "if" => .opening .expression
  | "ifdef" => .opening .defined
  | "ifndef" => .opening .undefined
  | "elif" => .elif
  | "else" => .otherwise
  | "endif" => .endif
  | "define" => .define
  | "undef" => .undef
  | "include" => .includes
  | "" => .null
  | word => .other word

/-- The keyword as it is written behind `#`. -/
def keyword : DirectiveKind → String
  | .opening test => test.keyword
  | .elif => "elif"
  | .otherwise => "else"
  | .endif => "endif"
  | .define => "define"
  | .undef => "undef"
  | .includes => "include"
  | .other word => word
  | .null => ""

theorem keyword_ofKeyword (word : String) : (ofKeyword word).keyword = word := by
  unfold ofKeyword
  split <;> rfl

/-- The name of a directive in listings and messages. -/
def label : DirectiveKind → String
  | .opening .expression => "If"
  | .opening .defined => "Ifdef"
  | .opening .undefined => "Ifndef"
  | .elif => "Elif"
  | .otherwise => "Else"
  | .endif => "Endif"
  | .define => "Define"
  | .undef => "Undef"
  | .includes => "Include"
  | .other word => "Other(" ++ Text.quoted word ++ ")"
  | .null => "Null"

/-- Whether the directive belongs to a conditional. -/
def isConditional : DirectiveKind → Bool
  | .opening _ | .elif | .otherwise | .endif => true
  | _ => false

end DirectiveKind

/-- A directive line, continuation lines included. -/
structure Directive where
  kind : DirectiveKind
  /-- Everything behind the keyword, trimmed at both ends. -/
  args : String
  deriving DecidableEq, Repr, Inhabited

namespace Directive

/-- Characters of a directive keyword. -/
def isKeywordChar (c : Char) : Bool :=
  c.isAlphanum || c = '_'

/-- Characters of a macro name. -/
def isNameChar (c : Char) : Bool :=
  c.isAlphanum || c = '_' || c = '$'

/-- The text behind the `#`, if there is one, and the blanks that follow it. -/
def body (raw : List Char) : List Char :=
  (match raw with
    | '#' :: rest => rest
    | _ => raw).dropWhile fun c => c = ' ' || c = '\t'

/-- Read the text of a directive. -/
def parse (raw : String) : Directive :=
  let body := body raw.toList
  { kind := .ofKeyword (String.ofList (body.takeWhile isKeywordChar))
    args := String.ofList (Text.trim (body.dropWhile isKeywordChar)) }

/-- The name that a `#define` or `#undef` begins its arguments with. -/
def macroName? (directive : Directive) : Option String :=
  match directive.args.toList.takeWhile isNameChar with
  | [] => none
  | name => some (String.ofList name)

end Directive

end CHeader
