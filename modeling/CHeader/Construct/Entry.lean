import CHeader.Outline

/-!
# What a construct declares

A construct stands for entries: names that it mentions, declarations, and issues, in the order in
which they are found. Types and inline functions keep the source text. Prototypes and variables are
spelled anew from their tokens, the specifiers first and then one declarator, so that each name has a
declaration of its own. A conditional directive between those tokens would be lost in the spelling, so
it is an issue.
-/

namespace CHeader

open Nesting (Piece)

/-- One thing that a text says. -/
inductive Entry
  /-- A name that occurs. -/
  | mention (name : String)
  /-- A declaration under its first name; the others are further names of it. -/
  | declare (names : List String) (draft : Draft)
  | issue (fault : Diagnostic)
  deriving DecidableEq, Repr

/-- The place of a construct, as far as its declarations depend on it. -/
structure Site where
  /-- The whole text. -/
  source : List Char
  /-- Whether marker words count. -/
  markers : Bool
  guard : GuardPath
  block : Option InterfaceBlock

/-! ### Spelling -/

/-- Whether a blank is written between two tokens: where the source has anything between them, and
where their spellings would run together. -/
def needsBlank (before behind : Token) : Bool :=
  before.span.stop < behind.span.start || (!before.kind.isPunctuation && !behind.kind.isPunctuation)

/-- The tokens behind `before`, each with the blank it needs. -/
def spellBehind (before : Token) : List Token → String
  | [] => ""
  | t :: ts => (if needsBlank before t then " " else "") ++ t.text ++ spellBehind t ts

/-- The tokens in one line. -/
def spell : List Token → String
  | [] => ""
  | t :: ts => t.text ++ spellBehind t ts

/-- The source from the start of one token to the end of another. -/
def Site.between (site : Site) (first last : Token) : String :=
  String.ofList ((Span.slice? ⟨first.span.start, last.span.stop⟩ site.source).getD [])

/-- Whether a token lies between two others. -/
def Token.isBetween (t first last : Token) : Bool :=
  first.span.start < t.span.start && t.span.start < last.span.start

namespace Construct

/-! ### Parts -/

/-- The last token. -/
def last (c : Construct) : Token :=
  match c.ending with
  | .semicolon token => token
  | .body _ closing => closing

/-- The token behind the head, where no parameter declarations follow it. -/
def stop (c : Construct) : Token :=
  match c.ending with
  | .semicolon token => token
  | .body opening _ => opening

/-- Whether the construct ends in a function body. -/
def hasBody (c : Construct) : Bool :=
  match c.ending with
  | .semicolon _ => false
  | .body _ _ => true

/-- The specifiers of the head. -/
def specifiers (c : Construct) (site : Site) : Specifiers :=
  .ofTokens site.markers c.head

/-- The declarators of the head. -/
def pieces (c : Construct) (specs : Specifiers) : List Piece :=
  declarators c.stop (Shape.behindSpecifiers specs c.head)

/-- The token that the declarations of the construct start at: marker words before it are not part of
them. -/
def start (specs : Specifiers) (first : Token) : Token :=
  specs.kept.head?.getD first

/-- A declaration of the construct. -/
def draft (c : Construct) (site : Site) (start : Token) (kind : DeclKind) (text : DeclText)
    (visibility : Visibility) : Draft :=
  { kind, text, visibility, guard := site.guard, span := ⟨start.span.start, c.last.span.stop⟩,
    line := start.line }

/-- A conditional directive between tokens of a spelling, outside the body that the spelling omits. -/
def lostConditional? (c : Construct) (omitted : List Token) (spelled : List Token) : Option Token := do
  let first ← spelled.head?
  let last ← spelled.getLast?
  c.conditionals.find? fun t => t.isBetween first last &&
    !((omitted.head?.any fun opening => omitted.getLast?.any fun closing => t.isBetween opening closing))

/-! ### Types -/

/-- A `typedef` declares all its names at once. -/
def typedefEntries (c : Construct) (site : Site) (specs : Specifiers) (start : Token) : List Entry :=
  match (c.pieces specs).filterMap fun piece => (Declarator.ofTokens piece.tokens).name with
  | [] => [.issue (.ofIssue .typedefWithoutName start)]
  | names =>
    [.declare (names.map (·.text))
      (c.draft site start .type (.verbatim (site.between start c.last)) (specs.typeVisibility site.block))]

/-- Specifiers without a declarator declare the aggregate among them. -/
def bareEntries (c : Construct) (site : Site) (specs : Specifiers) (start first : Token) : List Entry :=
  match specs.aggregate? with
  | some aggregate =>
    [.declare (aggregate.tag.map (·.text)).toList
      (c.draft site start .type (.verbatim (site.between start c.last)) (specs.typeVisibility site.block))]
  | none => [.issue (.ofIssue .declaresNothing first)]

/-- The aggregate with a tag and a body that stands before declarators. -/
def tagged? (specs : Specifiers) : Option (Aggregate × Token) := do
  let aggregate ← specs.aggregate?
  let tag ← aggregate.tag
  if aggregate.body.isEmpty then none else some (aggregate, tag)

/-- Such an aggregate is declared on its own, and its body is left out of the declarators. -/
def taggedEntries (c : Construct) (site : Site) (specs : Specifiers) (start : Token) : List Entry :=
  match tagged? specs with
  | some (aggregate, tag) =>
    let first := aggregate.head.head?.getD start
    let last := aggregate.body.getLast?.getD start
    [.declare [tag.text] (c.draft site start .type (.verbatim (site.between first last ++ ";"))
      (specs.typeVisibility site.block))]
  | none => []

/-- The tokens of the specifiers as they are spelled before each declarator. -/
def shared (specs : Specifiers) : List Token :=
  if (tagged? specs).isSome then specs.keptWithoutBody else specs.kept

/-- The body that the spelling of a declarator omits. -/
def omitted (specs : Specifiers) : List Token :=
  ((tagged? specs).map fun (aggregate, _) => aggregate.body).getD []

/-! ### Functions and variables -/

/-- The declarator of a prototype. In the old style the parameter names are left out. -/
def prototypeTokens (c : Construct) (piece : Piece) : List Token :=
  match piece.declarator.parameters with
  | some opening =>
    if c.parameters.isEmpty then piece.declaring else piece.declaring.takeWhile (· ≠ opening) ++ [opening]
  | none => piece.declaring

/-- The text of a function, or the conditional directive that it would lose. -/
def functionText (c : Construct) (site : Site) (specs : Specifiers) (start : Token) (piece : Piece) :
    Except Token DeclText :=
  if c.hasBody && specs.isInline && !specs.isStatic then .ok (.verbatim (site.between start c.last))
  else
    let tokens := shared specs ++ c.prototypeTokens piece
    match c.lostConditional? (omitted specs) tokens with
    | some directive => .error directive
    | none => .ok (.synthesized (spell tokens ++ if c.parameters.isEmpty then ";" else ");"))

/-- The text of a variable, or the conditional directive that it would lose. -/
def variableText (c : Construct) (specs : Specifiers) (piece : Piece) : Except Token DeclText :=
  let isStorage (t : Token) : Bool := t.kind = .keyword .externKw || t.kind = .keyword .staticKw
  let tokens := (shared specs).filter (!isStorage ·) ++ piece.declaring
  match c.lostConditional? (omitted specs) tokens with
  | some directive => .error directive
  | none => .ok (.synthesized ("extern " ++ spell tokens ++ ";"))

/-- The declaration of one declarator. -/
def declaratorEntry (c : Construct) (site : Site) (specs : Specifiers) (start : Token) (piece : Piece) :
    Entry :=
  let declarator := piece.declarator
  match declarator.name with
  | none => .issue (.ofIssue .missingName piece.start)
  | some name =>
    let declare (kind : DeclKind) : Except Token DeclText → Entry
      | .ok text => .declare [name.text] (c.draft site start kind text (specs.visibility site.block))
      | .error directive => .issue (.ofIssue (.splitByConditional name.text) directive)
    if declarator.isFunction then declare .function (c.functionText site specs start piece)
    else if c.hasBody then .issue (.ofIssue .bodyOfNonFunction name)
    else declare .variable (c.variableText specs piece)

/-- The declarations of all declarators; a body goes with one. -/
def declaratorEntries (c : Construct) (site : Site) (specs : Specifiers) (start first : Token) : List Entry :=
  let pieces := c.pieces specs
  if c.hasBody && 1 < pieces.length then [.issue (.ofIssue .severalNamesWithBody first)]
  else pieces.map (c.declaratorEntry site specs start)

/-! ### All entries -/

/-- The names that the specifiers mention. -/
def mentions (specs : Specifiers) : List Entry :=
  (specs.kept.filter Token.isName).map fun t => .mention t.text

/-- What the construct says. -/
def entries (c : Construct) (site : Site) : List Entry :=
  match c.head with
  | [] => []
  | first :: _ =>
    if first.kind = .keyword .staticAssertKw then []
    else
      let specs := c.specifiers site
      let start := start specs first
      mentions specs ++
        if specs.isTypedef then c.typedefEntries site specs start
        else if (c.pieces specs).isEmpty then c.bareEntries site specs start first
        else c.taggedEntries site specs start ++ c.declaratorEntries site specs start first

end Construct

end CHeader
