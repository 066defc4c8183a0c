import CHeader.LineIndex
import CHeader.Token.Lexeme

/-!
# The tokens of a text

A `Scanner` stands at a place of a source text. `Scanner.next` passes the gap there and reads one
lexeme; at the end of the text it gives the token of the end, again and again. `Scanner.items` is all
that is read until then, tokens and faults in the order of the text, and `tokenize` accepts a text
whose reading meets no fault.
-/

namespace CHeader

/-- A place in a source text. -/
structure Scanner where
  lines : LineIndex
  /-- The byte offset of the place. -/
  offset : Nat
  /-- The text from here on. -/
  rest : List Char

namespace Scanner

/-- The start of a text. -/
def ofText (text : List Char) : Scanner :=
  ⟨.ofText text, 0, text⟩

/-- The place `n` characters on. -/
def advance (s : Scanner) (n : Nat) : Scanner :=
  { s with offset := s.offset + byteLength (s.rest.take n), rest := s.rest.drop n }

/-- The place behind the gap. -/
def skipGap (s : Scanner) : Scanner :=
  s.advance (Lexeme.gapLength s.rest)

/-- Read the lexeme `c :: cs` at the place `s`, behind a gap if `spaced`. -/
def readLexeme (s : Scanner) (spaced : Bool) (c : Char) (cs : List Char) :
    Except Diagnostic Token × Scanner :=
  let reading := Lexeme.lexeme c cs
  let behind := s.advance (reading.tail + 1)
  let span : Span := ⟨s.offset, behind.offset⟩
  let line := s.lines.lineOf s.offset
  let item := match reading.outcome with
    | .ok kind => .ok ⟨kind, String.ofList (c :: cs.take reading.tail), span, line, spaced⟩
    | .error fault => .error ⟨.lexical fault, line, span⟩
  (item, behind)

/-- The next token or fault, and the place behind it. -/
def next (s : Scanner) : Except Diagnostic Token × Scanner :=
  let place := s.skipGap
  match place.rest with
  | [] => (.ok (.endOfText place.offset (place.lines.lineOf place.offset)), place)
  | c :: cs => place.readLexeme (s.offset < place.offset) c cs

/-- Whether nothing but a gap is left. -/
def atEnd (s : Scanner) : Bool :=
  s.skipGap.rest.isEmpty

theorem length_next_lt {s : Scanner} (h : s.atEnd = false) :
    s.next.2.rest.length < s.rest.length := by
  have hle : s.skipGap.rest.length ≤ s.rest.length := by simp [skipGap, advance]
  cases hr : s.skipGap.rest with
  | nil => simp [atEnd, hr] at h
  | cons c cs =>
    rw [hr, List.length_cons] at hle
    simp only [next, hr, readLexeme, advance, List.length_drop, List.length_cons]
    omega

/-- Everything up to the token of the end, which comes last. -/
def items (s : Scanner) : List (Except Diagnostic Token) :=
  match _ : s.atEnd with
  | true => [s.next.1]
  | false => s.next.1 :: s.next.2.items
termination_by s.rest.length
decreasing_by exact length_next_lt (by assumption)

end Scanner

/-- The faults among what was read. -/
def faults (items : List (Except Diagnostic Token)) : List Diagnostic :=
  items.filterMap fun
    | .error fault => some fault
    | .ok _ => none

/-- The tokens among what was read. -/
def goodTokens (items : List (Except Diagnostic Token)) : List Token :=
  items.filterMap fun
    | .error _ => none
    | .ok token => some token

/-- The tokens of a text, the token of the end last; every fault of the text if it has one. -/
def tokenize (source : String) : Except (List Diagnostic) (List Token) :=
  let items := (Scanner.ofText source.toList).items
  match faults items with
  | [] => .ok (goodTokens items)
  | errors => .error errors

end CHeader
