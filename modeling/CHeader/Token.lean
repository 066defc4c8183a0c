import CHeader.Directive
import CHeader.Span
import CHeader.Token.Keyword
import CHeader.Token.Punct

/-!
# Tokens

A token is a piece of source text with its kind and its place. Comments and whole directive lines
are tokens too, so that the tokens of a text account for all of it but the white space. The list of
tokens of a text ends in one of kind `eof`, which has no characters.
-/

namespace CHeader

/-- What a token is. The kinds that many spellings share carry the spelling. -/
inductive TokenKind
  | lineComment
  | blockComment
  | directive (directive : Directive)
  | keyword (keyword : Keyword)
  | identifier (name : String)
  | number (spelling : String)
  | charLiteral (spelling : String)
  | stringLiteral (spelling : String)
  | punct (punct : Punct)
  | eof
  deriving DecidableEq, Repr

instance : Inhabited TokenKind := ⟨.eof⟩

namespace TokenKind

/-- An opening bracket. -/
@[match_pattern] abbrev opening (bracket : Bracket) : TokenKind := .punct (.opening bracket)

/-- A closing bracket. -/
@[match_pattern] abbrev closing (bracket : Bracket) : TokenKind := .punct (.closing bracket)

/-- The name of the kind, without what it carries. -/
def label : TokenKind → String
  | lineComment => "LineComment"
  | blockComment => "BlockComment"
  | directive _ => "Directive"
  | keyword k => k.label
  | identifier _ => "Identifier"
  | number _ => "Number"
  | charLiteral _ => "CharLiteral"
  | stringLiteral _ => "StringLiteral"
  | punct p => p.label
  | eof => "Eof"

/-- What a message calls a token of this kind. -/
def describe : TokenKind → String
  | identifier name => "identifier '" ++ name ++ "'"
  | number spelling => "number '" ++ spelling ++ "'"
  | charLiteral spelling => "char " ++ spelling
  | stringLiteral spelling => "string " ++ spelling
  | lineComment | blockComment => "comment"
  | directive d => "directive " ++ d.kind.label
  | keyword k => "'" ++ String.ofList (k.label.toList.map Char.toLower) ++ "'"
  | punct p => "'" ++ p.spelling ++ "'"
  | eof => "end of file"

/-- Comments carry no meaning for declarations. -/
def isComment : TokenKind → Bool
  | lineComment | blockComment => true
  | _ => false

/-- Keywords that name a type or begin one. -/
def isTypeSpecifier : TokenKind → Bool
  | keyword k => k.isTypeSpecifier
  | _ => false

/-- Keywords that qualify a type. -/
def isTypeQualifier : TokenKind → Bool
  | keyword k => k.isTypeQualifier
  | _ => false

/-- Keywords that choose storage or linkage. -/
def isStorageClass : TokenKind → Bool
  | keyword k => k.isStorageClass
  | _ => false

/-- Keywords on functions, and alignment. -/
def isFunctionSpecifier : TokenKind → Bool
  | keyword k => k.isFunctionSpecifier
  | _ => false

/-- Kinds that a top-level declaration may begin with. -/
def canStartDeclaration : TokenKind → Bool
  | keyword k => k.canStart
  | identifier _ => true
  | _ => false

/-- Operators and punctuation; tokens of every other kind are spelled like words. -/
def isPunctuation : TokenKind → Bool
  | punct _ => true
  | _ => false

/-- Brackets that open a group. -/
def isOpening : TokenKind → Bool
  | opening _ => true
  | _ => false

/-- Brackets that close a group. -/
def isClosing : TokenKind → Bool
  | closing _ => true
  | _ => false

/-- Keywords that begin a type with a tag and a body. -/
def isAggregate : TokenKind → Bool
  | keyword k => k.isAggregate
  | _ => false

/-- Whether a token of this kind closes the bracket that one of kind `open_` opens. -/
def closes : TokenKind → TokenKind → Bool
  | closing b, opening b' => b = b'
  | _, _ => false

/-- The name that an identifier spells. -/
def identifier? : TokenKind → Option String
  | identifier name => some name
  | _ => none

end TokenKind

/-- A piece of the source text. -/
structure Token where
  kind : TokenKind
  /-- The characters of the token. -/
  text : String
  span : Span
  /-- The 1-based line of the first character. -/
  line : Nat
  /-- Whether white space separates the token from what stands before it. -/
  spaced : Bool
  deriving DecidableEq, Repr, Inhabited

namespace Token

/-- The token of the end of a text of `length` bytes. -/
def endOfText (length line : Nat) : Token :=
  ⟨.eof, "", ⟨length, length⟩, line, false⟩

/-- The directive that a token is. -/
def directive? (token : Token) : Option Directive :=
  match token.kind with
  | .directive d => some d
  | _ => none

/-- Whether a token belongs to the declarations themselves: neither comment nor directive. -/
def isSignificant (token : Token) : Bool :=
  match token.kind with
  | .lineComment | .blockComment | .directive _ => false
  | _ => true

end Token

end CHeader
