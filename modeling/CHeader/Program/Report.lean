import CHeader.Diagnostic

/-!
# Reports

A diagnostic as it is shown to a reader: a title, the place, the line of the source with the fault
underlined, and the message behind the underline. The gutter is as wide as the line number. A fault
that spans lines is shown on its first.

The underline has one mark for each column of the line up to the end of the fault, a caret where the
fault is and a blank elsewhere. A column more than the line has stands for the line's end, which is
not shown, so a fault that takes in the end has a caret there.
-/

namespace CHeader.Report

/-- A line of the source and the fault on it. -/
structure SourceLine where
  /-- The characters of the line, without its end. -/
  text : List Char
  /-- The bytes of the line at fault, at least one. They may lie in the line's end. -/
  fault : Span
  /-- The number of the first character at fault, from one. -/
  column : Nat

/-- The first line of the characters, without the carriage returns and NULs at its end. -/
def lineText (cs : List Char) : List Char :=
  ((cs.takeWhile (· ≠ '\n')).reverse.dropWhile fun c => c = '\r' || c = '\x00').reverse

/-- The line of `source` on which `span` starts. -/
def lineOf (source : List Char) (span : Span) : SourceLine :=
  let (earlier, rest) := (splitBytes? span.start source).getD ([], source)
  let before := (earlier.reverse.takeWhile (· ≠ '\n')).reverse
  let start := byteLength before
  { text := lineText (before ++ rest)
    fault := ⟨start, start + max 1 (span.stop - span.start)⟩
    column := before.length + 1 }

/-- The columns that a character takes behind `column` others. A tab reaches to the next multiple of
four, a control character takes none, and any other is taken to fill one. -/
def width (column : Nat) (c : Char) : Nat :=
  if c = '\t' then 4 - column % 4
  else if c.toNat < 0x20 || (0x7F ≤ c.toNat && c.toNat < 0xA0) then 0
  else 1

/-- A character on a shown line. -/
structure Cell where
  char : Char
  /-- The first of its bytes on the line. -/
  start : Nat
  /-- The columns it takes. -/
  width : Nat

/-- The cells of the characters, the first of them at a byte and a column of the line. -/
def cells (start column : Nat) : List Char → List Cell
  | [] => []
  | c :: cs =>
    let columns := width column c
    ⟨c, start, columns⟩ :: cells (start + c.utf8Size) (column + columns) cs

/-- `n` times the same character. -/
def repeated (n : Nat) (c : Char) : String :=
  String.ofList (List.replicate n c)

/-- The character as it is shown: a tab as blanks. -/
def Cell.shown (cell : Cell) : String :=
  if cell.char = '\t' then repeated cell.width ' ' else String.singleton cell.char

/-- The marks under a cell: carets if it is at fault, blanks if it stands before, none behind. -/
def Cell.marks (fault : Span) (cell : Cell) : String :=
  if cell.start < fault.stop then
    repeated cell.width (if fault.start < cell.start + cell.char.utf8Size then '^' else ' ')
  else ""

/-- The line as it is shown. -/
def SourceLine.shown (line : SourceLine) : String :=
  String.join ((cells 0 0 line.text).map Cell.shown)

/-- The marks under the line, with a blank in place of its end. -/
def SourceLine.underline (line : SourceLine) : String :=
  let lineEnd : Cell := ⟨' ', byteLength line.text, 1⟩
  String.join ((cells 0 0 line.text ++ [lineEnd]).map (Cell.marks line.fault))

/-- The title of a diagnostic. -/
def title : Cause → String
  | .lexical _ => "error: Lexer error"
  | .conditional _ => "error: Malformed conditionals"
  | .construct _ => "warning: Syntax error"

/-- The remark under a diagnostic. -/
def note? : Cause → Option String
  | .conditional _ => some "no header is produced for this input"
  | _ => none

/-- The lines of a report on the text `source` of the file `name`. -/
def lines (name : String) (source : List Char) (d : Diagnostic) : List String :=
  let line := lineOf source d.span
  let number := toString d.line
  let margin := repeated number.length ' '
  let note := match note? d.cause with
    | some note => [margin ++ " │", margin ++ " = " ++ note]
    | none => []
  [title d.cause,
    margin ++ " ┌─ " ++ name ++ ":" ++ number ++ ":" ++ toString line.column,
    margin ++ " │",
    number ++ " │ " ++ line.shown,
    margin ++ " │ " ++ line.underline ++ " " ++ d.cause.message] ++ note ++ [""]

/-- The report, every line of it ended. -/
def render (name : String) (source : List Char) (d : Diagnostic) : String :=
  String.join ((lines name source d).map (· ++ "\n"))

end CHeader.Report
