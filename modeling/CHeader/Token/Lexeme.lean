import CHeader.Diagnostic

/-!
# Lexemes

The shapes of the pieces a source text is made of, each as a measure: how many characters from here
on belong to the piece. Between the pieces stand gaps, which are runs of blanks and of line ends
behind a backslash. `lexeme` says what the text behind a gap starts with: the longest token, or a fault
that takes up some characters of its own, so that reading goes on behind it.
-/

namespace CHeader.Lexeme

/-! ### Character classes -/

/-- White space between tokens: space, tab, line feed, vertical tab, form feed, carriage return. -/
def isBlank (c : Char) : Bool :=
  c = ' ' || c = '\t' || c = '\n' || c = '\x0B' || c = '\x0C' || c = '\r'

/-- Characters that a word may begin with. -/
def isWordStart (c : Char) : Bool :=
  c.isAlpha || c = '_' || c = '$'

/-- Characters of a word. -/
def isWordChar (c : Char) : Bool :=
  c.isAlphanum || c = '_' || c = '$'

/-- Characters of a number. -/
def isNumberChar (c : Char) : Bool :=
  c.isAlphanum || c = '_' || c = '.'

/-- Letters of a number that a sign may follow. -/
def isExponent (c : Char) : Bool :=
  c = 'e' || c = 'E' || c = 'p' || c = 'P'

/-- Signs that belong to a number behind one of its exponent letters. -/
def isSign (c : Char) : Bool :=
  c = '+' || c = '-'

/-! ### Measures -/

/-- The gap at the start of a text. -/
def gapLength : List Char → Nat
  | [] => 0
  | '\\' :: '\n' :: cs => 2 + gapLength cs
  | '\\' :: '\r' :: '\n' :: cs => 3 + gapLength cs
  | c :: cs => if isBlank c then 1 + gapLength cs else 0

/-- The characters up to the end of the line. -/
def lineLength (cs : List Char) : Nat :=
  (cs.takeWhile (· ≠ '\n')).length

/-- The characters of a word. -/
def wordLength (cs : List Char) : Nat :=
  (cs.takeWhile isWordChar).length

/-- The characters of a number behind its first digit. -/
def numberLength : List Char → Nat
  | [] => 0
  | [c] => if isNumberChar c then 1 else 0
  | c :: d :: cs =>
    if isExponent c && isSign d then 2 + numberLength cs
    else if isNumberChar c then 1 + numberLength (d :: cs)
    else 0

/-- The characters of a block comment behind its opening, with those that close it. -/
def commentLength? : List Char → Option Nat
  | [] => none
  | '*' :: '/' :: _ => some 2
  | _ :: cs => (commentLength? cs).map (· + 1)

/-- The characters of a literal behind its opening quote, with the closing one. A backslash takes the
next character with it, and only behind one may the literal go on to another line. -/
def quotedLength? (quote : Char) : List Char → Option Nat
  | [] => none
  | ['\\'] => none
  | '\\' :: _ :: cs => (quotedLength? quote cs).map (· + 2)
  | c :: cs =>
    if c = '\n' then none
    else if c = quote then some 1
    else (quotedLength? quote cs).map (· + 1)

/-- The part of a directive behind the `#`, and whether it ends inside a block comment. -/
structure Extent where
  length : Nat
  unterminated : Bool
  deriving DecidableEq, Repr

/-- An extent with `n` characters before it. -/
def Extent.behind (n : Nat) (extent : Extent) : Extent :=
  { extent with length := n + extent.length }

/-- A directive ends with its line. A backslash before the line's end continues it, a block comment
may cross lines, a line comment runs to the end of the line whatever it holds, and a quote that the
line does not close is an ordinary character. -/
def directiveExtent : List Char → Extent
  | [] => ⟨0, false⟩
  | '\n' :: _ => ⟨0, false⟩
  | '\\' :: '\n' :: cs => (directiveExtent cs).behind 2
  | '\\' :: '\r' :: '\n' :: cs => (directiveExtent cs).behind 3
  | '/' :: '*' :: cs =>
    match commentLength? cs with
    | some n => (directiveExtent (cs.drop n)).behind (2 + n)
    | none => ⟨2 + cs.length, true⟩
  | '/' :: '/' :: cs => ⟨2 + lineLength cs, false⟩
  | c :: cs =>
    if c = '"' || c = '\'' then
      match quotedLength? c cs with
      | some n => (directiveExtent (cs.drop n)).behind (1 + n)
      | none => (directiveExtent cs).behind 1
    else (directiveExtent cs).behind 1
termination_by cs => cs.length
decreasing_by all_goals grind

/-! ### Reading -/

/-- What stands at a place of the text. -/
structure Reading where
  outcome : Except LexicalFault TokenKind
  /-- The characters it takes behind its first. -/
  tail : Nat

/-- A literal whose opening quote ends the first `opening + 1` characters of `c :: cs`. An unclosed
one takes up the rest of the line. -/
def literal (quote : Char) (kind : String → TokenKind) (fault : LexicalFault) (c : Char) (opening : Nat)
    (cs : List Char) : Reading :=
  match quotedLength? quote (cs.drop opening) with
  | some n => ⟨.ok (kind (String.ofList (c :: cs.take (opening + n)))), opening + n⟩
  | none => ⟨.error fault, opening + lineLength (cs.drop opening)⟩

/-- A character literal. -/
def charLiteral := literal '\'' .charLiteral .unterminatedChar

/-- A string literal. -/
def stringLiteral := literal '"' .stringLiteral .unterminatedString

/-- The words that may stand directly before a literal as a part of it. -/
def isLiteralPrefix (word : String) : Bool :=
  word = "L" || word = "u8" || word = "u" || word = "U"

/-- A word, or the literal that it is the beginning of. -/
def word (c : Char) (cs : List Char) : Reading :=
  let n := wordLength cs
  let spelling := String.ofList (c :: cs.take n)
  let asWord : Reading :=
    ⟨.ok (match Keyword.ofWord? spelling with | some k => .keyword k | none => .identifier spelling), n⟩
  if isLiteralPrefix spelling then
    match cs.drop n with
    | '\'' :: _ => charLiteral c (n + 1) cs
    | '"' :: _ => stringLiteral c (n + 1) cs
    | _ => asWord
  else asWord

/-- A number that begins with `c`, a digit or a point before one. -/
def number (c : Char) (cs : List Char) : Reading :=
  let n := numberLength cs
  ⟨.ok (.number (String.ofList (c :: cs.take n))), n⟩

/-- A block comment, whose slash stands before `cs`. -/
def blockComment (cs : List Char) : Reading :=
  match commentLength? (cs.drop 1) with
  | some n => ⟨.ok .blockComment, 1 + n⟩
  | none => ⟨.error .unterminatedComment, cs.length⟩

/-- A directive, whose `#` stands before `cs`. -/
def directive (cs : List Char) : Reading :=
  let extent := directiveExtent cs
  if extent.unterminated then ⟨.error .unterminatedComment, extent.length⟩
  else ⟨.ok (.directive (.parse (String.ofList ('#' :: cs.take extent.length)))), extent.length⟩

/-- An operator, or a character that begins no token. -/
def punct (c : Char) (cs : List Char) : Reading :=
  match Punct.ofStart? (c :: cs) with
  | some (p, n) => ⟨.ok (.punct p), n - 1⟩
  | none => ⟨.error .unexpectedCharacter, 0⟩

/-- Whether a digit comes next. -/
def startsWithDigit : List Char → Bool
  | d :: _ => d.isDigit
  | [] => false

/-- What the text `c :: cs`, which starts with no gap, starts with. -/
def lexeme (c : Char) (cs : List Char) : Reading :=
  if isWordStart c then word c cs
  else if c.isDigit || (c = '.' && startsWithDigit cs) then number c cs
  else if c = '\'' then charLiteral c 0 cs
  else if c = '"' then stringLiteral c 0 cs
  else if c = '#' then directive cs
  else if c = '/' && cs.head? = some '/' then ⟨.ok .lineComment, lineLength cs⟩
  else if c = '/' && cs.head? = some '*' then blockComment cs
  else punct c cs

end CHeader.Lexeme
