import CHeader.Construct.Declarator
import CHeader.Construct.Specifiers

/-!
# The shape of a construct

What the tokens collected so far say about what comes next. At an opening brace outside all groups they
are the head of a function, or they ask for the body of an aggregate or for an initializer, or the
brace is out of place. At a semicolon they may turn out to be the head of a definition in the old
style, `int f(a, b) int a, b; { … }`, whose parameter declarations have begun.
-/

namespace CHeader

open Nesting (Piece)

/-- The declarators among the tokens behind the specifiers; `stop` ends the last. -/
def declarators (stop : Token) (tokens : List Token) : List Piece :=
  if tokens.isEmpty then [] else Nesting.splitCommas stop 0 tokens

namespace Nesting.Piece

/-- The tokens before an initializer. -/
def declaring (piece : Piece) : List Token :=
  (breakAt (.punct .eq) 0 piece.tokens).1

/-- Whether the piece gives an initial value. -/
def hasInitializer (piece : Piece) : Bool :=
  !(breakAt (.punct .eq) 0 piece.tokens).2.isEmpty

/-- What the piece declares, its initializer aside. -/
def declarator (piece : Piece) : Declarator :=
  .ofTokens piece.declaring

/-- The token that the piece starts with, or the one behind an empty piece. -/
def start (piece : Piece) : Token :=
  piece.tokens.head?.getD piece.stop

end Nesting.Piece

namespace Shape

/-- The tokens behind the specifiers. -/
def behindSpecifiers (specs : Specifiers) (tokens : List Token) : List Token :=
  tokens.drop specs.tokens.length

/-- The declarator that is open at a brace. -/
def lastDeclarator? (specs : Specifiers) (brace : Token) (tokens : List Token) : Option Piece :=
  (declarators brace (behindSpecifiers specs tokens)).getLast?

/-- Whether the tokens before a brace are the head of a function. -/
def isFunctionHead (markers : Bool) (brace : Token) (tokens : List Token) : Bool :=
  let specs := Specifiers.ofTokens markers tokens
  !specs.isTypedef && (lastDeclarator? specs brace tokens).any fun piece =>
    !piece.hasInitializer && piece.declarator.isFunction

/-- Whether the tokens before a brace ask for the body of an aggregate or for an initializer. -/
def expectsBrace (markers : Bool) (brace : Token) (tokens : List Token) : Bool :=
  let specs := Specifiers.ofTokens markers tokens
  ((behindSpecifiers specs tokens).isEmpty && specs.aggregate?.any (·.body.isEmpty)) ||
    (lastDeclarator? specs brace tokens).any Piece.hasInitializer

/-- The tokens behind the first parenthesis outside all groups that follows a name. -/
def behindNamedParen? (depth : Nat) (before : Option Token) : List Token → Option (List Token)
  | [] => none
  | t :: ts =>
    if depth = 0 && t.kind = .opening .paren && before.any Token.isName then some ts
    else behindNamedParen? (Nesting.depthBehind depth t.kind) (some t) ts

/-- Whether a group without its opening bracket lists identifiers, at least one token of them. -/
def isIdentifierList (group : List Token) : Bool :=
  2 ≤ group.length && group.dropLast.all fun t => t.kind.identifier?.isSome || t.kind = .punct .comma

/-- Whether a token may begin the declaration of a parameter. -/
def startsParameter (t : Token) : Bool :=
  t.isName || t.kind.isTypeSpecifier || t.kind.isTypeQualifier || t.kind.isStorageClass

/-- The parameter declarations that have begun behind a list of identifiers. -/
def parameterDeclarations? (markers : Bool) (tokens : List Token) : Option (List Token) :=
  let specs := Specifiers.ofTokens markers tokens
  if specs.isTypedef then none
  else do
    let group ← behindNamedParen? 0 specs.tokens.getLast? (behindSpecifiers specs tokens)
    let identifiers := Nesting.closing 1 group
    let behind := group.drop identifiers.length
    if isIdentifierList identifiers && behind.head?.any startsParameter then some behind else none

end Shape

end CHeader
