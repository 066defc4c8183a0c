import CHeader.Construct.Shape

/-!
# The outline of a text

The tokens of a text in runs, one for each thing at top level: a directive, tokens that declare
nothing, a construct, or tokens that make no construct. The runs together are all tokens up to the end
of the text, so what follows the directives of the text may follow them run by run.

A construct ends at a semicolon outside all brackets or behind the body of a function. Where its
tokens cannot be continued, the run goes on to a place from which reading can start again: the next
semicolon, or the end of the braces that are open.
-/

namespace CHeader

/-- How a construct ends. -/
inductive Ending
  | semicolon (token : Token)
  /-- The braces of a function body. -/
  | body (opening closing : Token)
  deriving DecidableEq, Repr

/-- A construct without its comments and directives. -/
structure Construct where
  /-- The specifiers and declarators. -/
  head : List Token
  /-- The parameter declarations of a definition in the old style; empty in any other construct. -/
  parameters : List Token
  ending : Ending
  /-- The conditional directives met between the tokens, those in a body left out. -/
  conditionals : List Token
  deriving DecidableEq, Repr

/-- A run of tokens at top level. -/
inductive Item
  | directive (token : Token)
  /-- Comments, stray semicolons, and the braces of `extern "C" { … }`. -/
  | skipped (tokens : List Token)
  | construct (tokens : List Token) (construct : Construct)
  /-- Tokens that make no construct, with the fault that is found behind the first of them. -/
  | malformed (before : List Token) (fault : Diagnostic) (behind : List Token)
  deriving DecidableEq, Repr

/-- The tokens of a run. -/
def Item.tokens : Item → List Token
  | directive token => [token]
  | skipped tokens => tokens
  | construct tokens _ => tokens
  | malformed before _ behind => before ++ behind

namespace Outline

/-- The tokens to pass over until reading can start again, with `depth` braces open. -/
def recovery : Nat → List Token → List Token
  | _, [] => []
  | depth, t :: ts =>
    match t.kind with
    | .eof => []
    | .punct .semi => if depth = 0 then [t] else t :: recovery depth ts
    | .opening .brace => t :: recovery (depth + 1) ts
    | .closing .brace => if depth ≤ 1 then [t] else t :: recovery (depth - 1) ts
    | _ => t :: recovery depth ts

/-- The inside of a body with `depth` inner braces open, and the brace that closes it. -/
def body? : Nat → List Token → Option (List Token × Token)
  | _, [] => none
  | depth, t :: ts =>
    let inside (depth : Nat) := (body? depth ts).map fun (inside, close) => (t :: inside, close)
    match t.kind with
    | .eof => none
    | .opening .brace => inside (depth + 1)
    | .closing .brace => if depth = 0 then some ([], t) else inside (depth - 1)
    | _ => inside depth

/-- The tokens before the end of the text. -/
def untilEnd (ts : List Token) : List Token :=
  ts.takeWhile (·.kind ≠ .eof)

/-- What is collected of a construct, the latest first. -/
structure Collected where
  /-- All tokens met. -/
  met : List Token
  /-- The tokens of the construct itself. -/
  tokens : List Token
  conditionals : List Token := []
  /-- The brackets that are open. -/
  opened : List Token := []
  /-- The head in order, once parameter declarations have begun behind it. -/
  head : Option (List Token) := none
  deriving Repr

namespace Collected

/-- A construct that begins with `first`. -/
def start (first : Token) : Collected :=
  { met := [first], tokens := [first] }

/-- Pass over a comment or a directive. -/
def pass (c : Collected) (t : Token) : Collected :=
  let conditional := t.directive?.any (·.kind.isConditional)
  { c with met := t :: c.met, conditionals := if conditional then t :: c.conditionals else c.conditionals }

/-- Add a token of the construct. -/
def add (c : Collected) (t : Token) : Collected :=
  { c with met := t :: c.met, tokens := t :: c.tokens }

/-- Add an opening bracket. -/
def push (c : Collected) (t : Token) : Collected :=
  { c.add t with opened := t :: c.opened }

/-- The construct that ends here. -/
def finish (c : Collected) (ending : Ending) : Construct :=
  let tokens := c.tokens.reverse
  let head := c.head.getD tokens
  { head, parameters := tokens.drop head.length, ending, conditionals := c.conditionals.reverse }

/-- Tokens that make no construct: those met, a fault, and those passed over behind it. -/
def malformed (c : Collected) (fault : Diagnostic) (behind : List Token) : Item :=
  .malformed c.met.reverse fault behind

/-- The fault of a construct that the end of the text cuts off. -/
def endFault (c : Collected) (first : Token) : Diagnostic :=
  match c.opened with
  | opening :: _ => .ofIssue (.delimiterNeverClosed opening.kind) opening
  | [] => .ofIssue .missingSemicolon first

end Collected

/-- The run that ends with the function body behind `brace`, and what follows it. -/
def function (c : Collected) (brace : Token) (ts : List Token) : Item × List Token :=
  match body? 0 ts with
  | some (inside, close) =>
    (.construct (c.met.reverse ++ brace :: (inside ++ [close])) (c.finish (.body brace close)),
      ts.drop (inside.length + 1))
  | none =>
    let inside := untilEnd ts
    (.malformed (c.met.reverse ++ brace :: inside) (.ofIssue (.bodyNeverClosed brace.line) brace) [],
      ts.drop inside.length)

/-- Braces among the open brackets. -/
def openBraces (opened : List Token) : Nat :=
  opened.countP (·.kind = .opening .brace)

/-- Collect the construct that begins with `first`; the run that it makes, and what follows it. -/
def collect (markers : Bool) (first : Token) (c : Collected) : List Token → Item × List Token
  | [] => (c.malformed (c.endFault first) [], [])
  | t :: ts =>
    match t.kind with
    | .eof => (c.malformed (c.endFault first) [], t :: ts)
    | .directive _ | .lineComment | .blockComment => collect markers first (c.pass t) ts
    | .opening bracket =>
      if bracket = .brace && c.opened.isEmpty then
        let tokens := c.tokens.reverse
        if c.head.isSome || Shape.isFunctionHead markers t tokens then function c t ts
        else if Shape.expectsBrace markers t tokens then collect markers first (c.push t) ts
        else
          let behind := recovery 0 (t :: ts)
          (c.malformed (.ofIssue .unexpectedBrace t) behind, (t :: ts).drop behind.length)
      else collect markers first (c.push t) ts
    | .closing _ =>
      let outer := c.opened.tail
      if c.opened.head?.any (t.kind.closes ·.kind) then
        collect markers first { c.add t with opened := outer } ts
      else
        let behind := recovery (openBraces outer) ts
        (c.malformed (.ofIssue (.unbalanced t.kind) t) (t :: behind), ts.drop behind.length)
    | .punct .semi =>
      if c.opened.isEmpty then
        if c.head.isSome then collect markers first (c.add t) ts
        else
          let tokens := c.tokens.reverse
          match Shape.parameterDeclarations? markers tokens with
          | some parameters =>
            let head := tokens.take (tokens.length - parameters.length)
            collect markers first { c.add t with head := some head } ts
          | none => (.construct (t :: c.met).reverse (c.finish (.semicolon t)), ts)
      else collect markers first (c.add t) ts
    | _ => collect markers first (c.add t) ts

theorem length_collect_le (markers : Bool) (first : Token) (c : Collected) (ts : List Token) :
    (collect markers first c ts).2.length ≤ ts.length := by
  fun_induction collect markers first c ts <;> grind [function]

/-- The number of tokens behind `extern` through the brace of `extern "C" {`. -/
def linkageLength? (ts : List Token) : Option Nat :=
  let insignificant (t : Token) : Bool := !t.isSignificant
  match ts.dropWhile insignificant with
  | ⟨.stringLiteral _, _, _, _, _⟩ :: behind =>
    match behind.dropWhile insignificant with
    | ⟨.opening .brace, _, _, _, _⟩ :: rest => some (ts.length - rest.length)
    | _ => none
  | _ => none

/-- The number of tokens behind `t` that declare nothing with it, and the `extern` blocks that are open
behind them; `none` if a construct should begin here. -/
def skipped? (linkage : Nat) (t : Token) (ts : List Token) : Option (Nat × Nat) :=
  match t.kind with
  | .lineComment | .blockComment | .punct .semi => some (0, linkage)
  | .closing .brace => if 0 < linkage then some (0, linkage - 1) else none
  | .keyword .externKw => (linkageLength? ts).map (·, linkage + 1)
  | _ => none

/-- The run of a construct that should begin with `t`, and what follows it. -/
def external (markers : Bool) (t : Token) (ts : List Token) : Item × List Token :=
  if t.kind.canStartDeclaration then collect markers t (.start t) ts
  else
    let behind := recovery 0 (t :: ts)
    (.malformed [] (.ofIssue (.expectedDeclaration t.kind) t) behind, ts.drop (behind.length - 1))

theorem length_external_le (markers : Bool) (t : Token) (ts : List Token) :
    (external markers t ts).2.length ≤ ts.length := by
  unfold external
  split
  · exact length_collect_le markers t (.start t) ts
  · simp

end Outline

/-- The runs of a list of tokens, inside `linkage` blocks of the form `extern "C" { … }`. -/
def outline (markers : Bool) (linkage : Nat) : List Token → List Item
  | [] => []
  | t :: ts =>
    match t.kind with
    | .eof => []
    | .directive _ => .directive t :: outline markers linkage ts
    | _ =>
      match Outline.skipped? linkage t ts with
      | some (n, linkage) => .skipped (t :: ts.take n) :: outline markers linkage (ts.drop n)
      | none =>
        let run := Outline.external markers t ts
        run.1 :: outline markers linkage run.2
termination_by ts => ts.length
decreasing_by
  · exact Nat.lt_succ_self _
  · simp only [List.length_drop, List.length_cons]; omega
  · exact Nat.lt_succ_of_le (Outline.length_external_le ..)

end CHeader
