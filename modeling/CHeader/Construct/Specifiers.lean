import CHeader.Conditional
import CHeader.Construct.Words
import CHeader.Declaration

/-!
# Declaration specifiers

A declaration begins with its specifiers: storage classes, qualifiers, attributes, marker words and a
type, in any order. `Specifiers.ofTokens` takes them one by one off the front of a construct's tokens.
An identifier is a specifier only while no type has been seen; after that it is the first token of
the declarators.
-/

namespace CHeader

/-- A `struct`, `union` or `enum` among the specifiers. -/
structure Aggregate where
  /-- The tokens before the body: keyword, tag and attributes. -/
  head : List Token
  tag : Option Token
  /-- The body with its braces; empty if there is none. -/
  body : List Token
  deriving DecidableEq, Repr

namespace Aggregate

/-- The tag and the attributes behind it. -/
def tagged : List Token → List Token
  | t :: ts => if t.isName then t :: attributes ts else []
  | [] => []

/-- The body that the tokens start with. -/
def bodyOf : List Token → List Token
  | t :: ts => if t.kind = .opening .brace then t :: Nesting.closing 1 ts else []
  | [] => []

/-- The aggregate that a keyword and the tokens behind it begin with. -/
def ofTokens (keyword : Token) (ts : List Token) : Aggregate :=
  let before := attributes ts
  let tagged := tagged (ts.drop before.length)
  let head := before ++ tagged
  { head := keyword :: head, tag := tagged.head?, body := bodyOf (ts.drop head.length) }

end Aggregate

/-- What a specifier says of the declaration. -/
inductive SpecifierRole
  | marker (visibility : Visibility)
  | typedef
  | static
  | inline
  | type
  | aggregate (aggregate : Aggregate)
  /-- Qualifiers, attributes, alignment, other storage classes and the linkage behind `extern`. -/
  | other
  deriving DecidableEq, Repr

/-- One specifier. -/
structure Specifier where
  role : SpecifierRole
  tokens : List Token
  deriving DecidableEq, Repr

namespace Specifier

/-- Whether the specifier is a marker word. -/
def isMarker (s : Specifier) : Bool :=
  match s.role with
  | .marker _ => true
  | _ => false

/-- Whether the specifier settles the type. -/
def isType (s : Specifier) : Bool :=
  match s.role with
  | .type | .aggregate _ => true
  | _ => false

/-- The aggregate that a specifier is. -/
def aggregate? (s : Specifier) : Option Aggregate :=
  match s.role with
  | .aggregate a => some a
  | _ => none

/-- The tokens that belong to the declaration: all but those of marker words. -/
def kept (s : Specifier) : List Token :=
  if s.isMarker then [] else s.tokens

/-- The marking of a word, where marker words count. -/
def markerOf? (markers : Bool) (t : Token) : Option Visibility :=
  match t.kind with
  | .identifier word =>
    if markers && internalMarkers.contains word then some .internal
    else if markers && exportMarkers.contains word then some .interface
    else none
  | _ => none

/-- A word with its argument in parentheses, if one follows. -/
def withArgument (role : SpecifierRole) (t : Token) (ts : List Token) : Specifier :=
  ⟨role, t :: Nesting.parenthesized ts⟩

/-- Whether a group in parentheses follows. -/
def hasArgument (ts : List Token) : Bool :=
  !(Nesting.parenthesized ts).isEmpty

/-- The specifier that an identifier is, if a type is or is not settled yet. -/
def ofIdentifier? (markers typed : Bool) (t : Token) (ts : List Token) : Option Specifier :=
  match markerOf? markers t with
  | some visibility => some ⟨.marker visibility, [t]⟩
  | none =>
    if t.isAttribute then some (withArgument .other t ts)
    else if t.isTypeof then some (withArgument .type t ts)
    else if typed then none
    else some ⟨.type, [t]⟩

/-- The specifier that a keyword begins. -/
def ofKeyword? (k : Keyword) (t : Token) (ts : List Token) : Option Specifier :=
  if k.isAggregate then
    let a := Aggregate.ofTokens t ts
    some ⟨.aggregate a, a.head ++ a.body⟩
  else
    match k with
    | .staticKw => some ⟨.static, [t]⟩
    | .typedefKw => some ⟨.typedef, [t]⟩
    | .inlineKw => some ⟨.inline, [t]⟩
    | .alignasKw => some (withArgument .other t ts)
    | .atomicKw => some (withArgument (if hasArgument ts then .type else .other) t ts)
    | _ =>
      if k.isTypeSpecifier then some ⟨.type, [t]⟩
      else if k.isTypeQualifier || k.isStorageClass || k.isFunctionSpecifier then some ⟨.other, [t]⟩
      else none

/-- The specifier at the start of `t :: ts`. A string is one directly behind `extern`. -/
def first? (markers typed behindExtern : Bool) (t : Token) (ts : List Token) : Option Specifier :=
  match t.kind with
  | .identifier _ => ofIdentifier? markers typed t ts
  | .keyword k => ofKeyword? k t ts
  | .stringLiteral _ => if behindExtern then some ⟨.other, [t]⟩ else none
  | _ => none

end Specifier

/-- The specifiers of a construct. -/
abbrev Specifiers := List Specifier

namespace Specifiers

/-- Take the specifiers off the front. -/
def take (markers typed behindExtern : Bool) : List Token → Specifiers
  | [] => []
  | t :: ts =>
    match Specifier.first? markers typed behindExtern t ts with
    | some s =>
      s :: take markers (typed || s.isType) (t.kind = .keyword .externKw) (ts.drop (s.tokens.length - 1))
    | none => []
termination_by ts => ts.length
decreasing_by simp only [List.length_drop, List.length_cons]; omega

/-- The specifiers at the front of a construct's tokens. -/
def ofTokens (markers : Bool) (tokens : List Token) : Specifiers :=
  take markers false false tokens

/-- All tokens of the specifiers. -/
def tokens (specs : Specifiers) : List Token :=
  specs.flatMap (·.tokens)

/-- The tokens that belong to the declaration. -/
def kept (specs : Specifiers) : List Token :=
  specs.flatMap (·.kept)

/-- Whether a specifier is `typedef`. -/
def isTypedef (specs : Specifiers) : Bool := specs.any (·.role = .typedef)

/-- Whether a specifier is `static`. -/
def isStatic (specs : Specifiers) : Bool := specs.any (·.role = .static)

/-- Whether a specifier is `inline`. -/
def isInline (specs : Specifiers) : Bool := specs.any (·.role = .inline)

/-- The last aggregate. -/
def aggregate? (specs : Specifiers) : Option Aggregate :=
  (specs.filterMap (·.aggregate?)).getLast?

/-- The tokens that belong to the declaration, less the body of the last aggregate. -/
def keptWithoutBody : Specifiers → List Token
  | [] => []
  | s :: specs =>
    match s.aggregate? with
    | some a =>
      if specs.any (·.aggregate?.isSome) then s.kept ++ keptWithoutBody specs else a.head ++ kept specs
    | none => s.kept ++ keptWithoutBody specs

/-- The marking of the declaration. A word that keeps it out of the header wins. -/
def marker? (specs : Specifiers) : Option Visibility :=
  if specs.any (·.role = .marker .internal) then some .internal
  else if specs.any (·.role = .marker .interface) then some .interface
  else none

/-- The visibility of a type; an internal block hides all in it. -/
def typeVisibility (specs : Specifiers) (block : Option InterfaceBlock) : Visibility :=
  if block = some .internal then .internal else specs.marker?.getD .interface

/-- The visibility of a function or variable; a static one is internal. -/
def visibility (specs : Specifiers) (block : Option InterfaceBlock) : Visibility :=
  if specs.isStatic || specs.marker? = some .internal then .internal else specs.typeVisibility block

end Specifiers

end CHeader
