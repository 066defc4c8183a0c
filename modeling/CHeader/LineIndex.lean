import CHeader.Span

/-!
# Line numbers

A line starts at offset 0 and behind every newline. `LineIndex` keeps the offsets of the line
starts in order, and `LineIndex.lineOf` finds the line of an offset by halving the range of
starts that are still in question: the answer is the number of lines that start at or before it.
-/

namespace CHeader

/-- Byte offsets at which the lines of a text start, the first of them 0. -/
structure LineIndex where
  starts : Array Nat

namespace LineIndex

/-- The offsets behind each newline of `cs`, which itself starts at `offset`. -/
def startsFrom (offset : Nat) : List Char → List Nat
  | [] => []
  | c :: cs =>
    let next := offset + c.utf8Size
    if c = '\n' then next :: startsFrom next cs else startsFrom next cs

/-- The index of a whole text. -/
def ofText (text : List Char) : LineIndex :=
  ⟨(0 :: startsFrom 0 text).toArray⟩

/-- The first position of `lo ..< hi` whose entry exceeds `offset`, or `hi`. -/
def search (starts : Array Nat) (offset lo hi : Nat) : Nat :=
  if h : lo < hi then
    let mid := (lo + hi) / 2
    if (starts[mid]?).any (· ≤ offset) then search starts offset (mid + 1) hi
    else search starts offset lo mid
  else lo
termination_by hi - lo

/-- The 1-based line that holds `offset`; an offset beyond the text is on the last line. -/
def lineOf (lines : LineIndex) (offset : Nat) : Nat :=
  search lines.starts offset 0 lines.starts.size

end LineIndex

/-- The newlines among the first `offset` bytes of `cs`. -/
def newlinesBefore : Nat → List Char → Nat
  | 0, _ => 0
  | _ + 1, [] => 0
  | n + 1, c :: cs => (if c = '\n' then 1 else 0) + newlinesBefore (n + 1 - c.utf8Size) cs

end CHeader
