import CHeader.Declaration

/-!
# Writing a header

A header is the visible declarations in order, each under its guards. Between two declarations only
the guards that differ are touched: `transition` keeps what both paths begin with, closes the rest,
switches to a later branch of the first conditional that differs where there is one, and opens what
is left. A declaration with the guards and the text of the one before it is written once.
-/

namespace CHeader

/-- One change to the guards that are open. -/
inductive GuardStep
  /-- End the innermost conditional. -/
  | close
  /-- Begin a conditional and go to a branch of it. -/
  | enter (guard : Guard)
  /-- Go from the branch of the innermost conditional to a later one. -/
  | switch (here later : Guard)
  deriving DecidableEq, Repr

namespace GuardStep

/-- The directive lines that take the step. -/
def lines : GuardStep → List String
  | close => ["#endif"]
  | enter guard => guard.openingLines
  | switch here later => here.continuationLines later

end GuardStep

/-- The steps from the guards that are open to those of `target`, both outermost first. -/
def transition : GuardPath → GuardPath → List GuardStep
  | [], target => target.map .enter
  | here :: inner, [] => (here :: inner).map fun _ => .close
  | here :: inner, later :: target =>
    if here = later then transition inner target
    else if here.isContinuedBy later then
      (inner.map fun _ => .close) ++ .switch here later :: target.map .enter
    else ((here :: inner).map fun _ => .close) ++ (later :: target).map .enter

/-- A line of a header, or the lines of one declaration. -/
inductive HeaderLine
  | directive (text : String)
  | declaration (text : String)
  deriving DecidableEq, Repr

/-- The characters of a line. -/
def HeaderLine.text : HeaderLine → String
  | directive text | declaration text => text

/-- The guards that are open behind a step. -/
def GuardStep.apply (opened : GuardPath) : GuardStep → GuardPath
  | close => opened.dropLast
  | enter guard => opened ++ [guard]
  | switch _ later => if opened.isEmpty then [] else opened.dropLast ++ [later]

/-- A writer of headers. -/
structure Emitter where
  /-- The lines written, the latest first. -/
  written : List HeaderLine := []
  /-- The guards that are open behind them. -/
  opened : GuardPath := []
  deriving DecidableEq, Repr, Inhabited

namespace Emitter

/-- Take a step. -/
def take (e : Emitter) (step : GuardStep) : Emitter :=
  { written := (step.lines.map .directive).reverse ++ e.written, opened := step.apply e.opened }

/-- Go to the guards of `target`. -/
def moveTo (e : Emitter) (target : GuardPath) : Emitter :=
  (transition e.opened target).foldl take e

/-- Write the text of a declaration under its guards. -/
def declare (e : Emitter) (guard : GuardPath) (text : String) : Emitter :=
  let e := e.moveTo guard
  { e with written := .declaration text :: e.written }

/-- Write declarations of `list` behind the one that `previous` tells of, and close what is open. -/
def writeAll (list : DeclarationList) (e : Emitter) (previous : Option (GuardPath × String)) :
    List Declaration → Emitter
  | [] => e.moveTo []
  | d :: ds =>
    if list.effectiveVisibility d = .internal then writeAll list e previous ds
    else if previous = some (d.guard, d.text.text) then writeAll list e previous ds
    else writeAll list (e.declare d.guard d.text.text) (some (d.guard, d.text.text)) ds

/-- The lines of a header, and the writer behind them. What the writer did before does not count. -/
def emit (e : Emitter) (list : DeclarationList) : List HeaderLine × Emitter :=
  let e := { e with written := [], opened := [] }.writeAll list none list.items
  (e.written.reverse, { e with written := [] })

end Emitter

namespace Emission

/-- The lines that lead from the open guards to those of `target`. -/
def moveLines (opened target : GuardPath) : List HeaderLine :=
  ((transition opened target).flatMap GuardStep.lines).map .directive

/-- Texts under their guards, and the end of the guards that are open behind the last. -/
def lines (opened : GuardPath) : List (GuardPath × String) → List HeaderLine
  | [] => moveLines opened []
  | (guard, text) :: entries => moveLines opened guard ++ .declaration text :: lines guard entries

/-- A list without the entries that repeat the one before them. -/
def collapse [DecidableEq α] : List α → List α
  | [] => []
  | [a] => [a]
  | a :: b :: rest => if a = b then collapse (b :: rest) else a :: collapse (b :: rest)

/-- What a header says: guards and texts of the visible declarations, repeats left out. -/
def entries (list : DeclarationList) : List (GuardPath × String) :=
  collapse (list.visible.map fun d => (d.guard, d.text.text))

/-- The lines of the header. -/
def emit (list : DeclarationList) : List HeaderLine :=
  (({} : Emitter).emit list).1

/-- The header; its last line has no end. -/
def render (list : DeclarationList) : String :=
  "\n".intercalate ((emit list).map HeaderLine.text)

end Emission

end CHeader
