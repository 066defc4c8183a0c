import CHeader.Token

/-!
# Listing tokens

A token in one line of a listing: its kind with what it carries, its span, its line and whether white
space stands before it.
-/

namespace CHeader

/-- Named fields in braces. -/
def describeFields (name : String) (fields : List (String × String)) : String :=
  name ++ " \x7b " ++ ", ".intercalate (fields.map fun (field, value) => field ++ ": " ++ value) ++ " \x7d"

/-- A span in a listing. -/
def Span.describe (span : Span) : String :=
  describeFields "Span" [("start", toString span.start), ("end", toString span.stop)]

/-- A directive in a listing. -/
def Directive.describe (d : Directive) : String :=
  describeFields "Directive" [("kind", d.kind.label), ("args", Text.quoted d.args)]

/-- What a token carries beyond its kind. -/
def TokenKind.content? : TokenKind → Option String
  | identifier text | number text | charLiteral text | stringLiteral text => some (Text.quoted text)
  | directive d => some d.describe
  | _ => none

/-- The kind of a token in a listing. -/
def TokenKind.entry (kind : TokenKind) : String :=
  kind.label ++ ((kind.content?.map fun content => "(" ++ content ++ ")").getD "")

/-- A token in a listing. -/
def Token.entry (t : Token) : String :=
  describeFields "Token"
    [("kind", t.kind.entry), ("span", t.span.describe), ("line", toString t.line), ("spaced", toString t.spaced)]

end CHeader
