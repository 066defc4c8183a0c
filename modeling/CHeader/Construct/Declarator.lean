import CHeader.Construct.Words

/-!
# Declarators

A declarator names what is declared, inside the pointers, groups, arrays and parameter lists that
make its type. `Declarator.ofTokens` reads it from left to right. What a parenthesis opens depends on
what stands before it: behind a name a parameter list, behind a group another one, and anywhere else a
group around an inner declarator.
-/

namespace CHeader

/-- What a declarator declares. -/
structure Declarator where
  name : Option Token := none
  /-- The parenthesis that opens the parameter list directly behind the name. -/
  parameters : Option Token := none
  deriving DecidableEq, Repr

namespace Declarator

/-- A declarator with parameters is one of a function. -/
def isFunction (d : Declarator) : Bool :=
  d.name.isSome && d.parameters.isSome

/-- What stands before a place in a declarator. -/
inductive Context
  | name
  | group
  | other
  deriving DecidableEq, Repr

/-- Read on from a place behind `context`, with `found` so far. A name counts as long as no parameter
list was met. -/
def read (context : Context) (found : Declarator) : List Token → Declarator
  | [] => found
  | t :: ts =>
    match t.kind with
    | .identifier _ =>
      if t.isAttribute then
        let argument := Nesting.parenthesized ts
        read (if argument.isEmpty then .other else .group) found (ts.drop argument.length)
      else if found.parameters.isNone then read .name { found with name := some t } ts
      else read .name found ts
    | .opening .paren =>
      let behind := ts.drop (Nesting.closing 1 ts).length
      match context with
      | .name =>
        if found.parameters.isNone then read .group { found with parameters := some t } behind
        else read .group found behind
      | .group => read .group found behind
      | .other => read .other found ts
    | .opening .square => read .group found (ts.drop (Nesting.closing 1 ts).length)
    | .closing .paren | .closing .square => read .group found ts
    | _ => read .other found ts
termination_by ts => ts.length
decreasing_by all_goals simp only [List.length_drop, List.length_cons]; omega

/-- The declarator that the tokens spell. -/
def ofTokens (tokens : List Token) : Declarator :=
  read .other {} tokens

end Declarator

end CHeader
