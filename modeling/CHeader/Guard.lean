import CHeader.Directive

/-!
# Guards

A guard is one conditional around a place of the text, with the way to that place: its opening line,
the `#elif` conditions passed and whether its `#else` was passed. It is written as the directive lines
that lead from outside the conditional to the place. A later branch of the same conditional is
reached by writing more such lines, which `continuationLines` are.
-/

namespace CHeader

/-- One conditional, seen from inside one of its branches. -/
structure Guard where
  opening : Opening
  condition : String
  /-- The conditions of the `#elif` lines passed, in order. -/
  elifs : List String := []
  /-- Whether the `#else` line was passed. -/
  inElse : Bool := false
  deriving DecidableEq, Repr, Inhabited

/-- The guards around a place, outermost first. -/
abbrev GuardPath := List Guard

namespace Guard

/-- The line that opens the conditional. -/
def openingLine (guard : Guard) : String :=
  "#" ++ guard.opening.keyword ++ " " ++ guard.condition

/-- The lines of the branches passed: the `#elif` conditions, then `#else`. -/
def branchLines (elifs : List String) (inElse : Bool) : List String :=
  elifs.map ("#elif " ++ ·) ++ if inElse then ["#else"] else []

/-- The directive lines that enter the guard's branch from outside. -/
def openingLines (guard : Guard) : List String :=
  guard.openingLine :: branchLines guard.elifs guard.inElse

/-- Whether `later` is a later branch of the same conditional. -/
def isContinuedBy (guard later : Guard) : Bool :=
  guard ≠ later && !guard.inElse && guard.opening = later.opening && guard.condition = later.condition &&
    guard.elifs.isPrefixOf later.elifs

/-- The directive lines that lead from the guard's branch to that of `later`. -/
def continuationLines (guard later : Guard) : List String :=
  branchLines (later.elifs.drop guard.elifs.length) later.inElse

end Guard

/-- The guards at the start of both paths. -/
def commonLength : GuardPath → GuardPath → Nat
  | a :: as, b :: bs => if a = b then 1 + commonLength as bs else 0
  | _, _ => 0

end CHeader
