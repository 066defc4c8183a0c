import CHeader.Diagnostic
import CHeader.Guard

/-!
# Conditional compilation

A `Tracker` follows the conditional directives of a text and knows, at each place, the guards around
it. The conditionals that wait for their `#endif` form a stack. Some blocks are set apart: `#if
INTERFACE`, `#if EXPORT_INTERFACE` and `#if LOCAL_INTERFACE` mark the declarations in them and guard
nothing, so they are in no guard path; behind their `#else` stands ordinary code.

A directive that does not fit is a fault and changes nothing. A conditional still open at the end of
the text is a fault of its own, found by `Tracker.finish`.
-/

namespace CHeader

/-- A block that marks its declarations instead of guarding them. -/
inductive InterfaceBlock
  | interface
  | exported
  | internal
  deriving DecidableEq, Repr

/-- The block that an `#if` with this condition opens. -/
def InterfaceBlock.ofCondition? (condition : String) : Option InterfaceBlock :=
  if condition = "INTERFACE" then some .interface
  else if condition = "EXPORT_INTERFACE" then some .exported
  else if condition = "LOCAL_INTERFACE" then some .internal
  else none

/-- A conditional that waits for its `#endif`. -/
structure OpenConditional where
  guard : Guard
  /-- The place of its opening line. -/
  line : Nat
  span : Span
  /-- The interface block that it opens, if it is no guard. -/
  block : Option InterfaceBlock
  deriving DecidableEq, Repr

/-- The conditionals around a place of the text. -/
structure Tracker where
  /-- Whether interface blocks are told from guards. -/
  recognizeBlocks : Bool := true
  /-- The open conditionals, innermost first. -/
  stack : List OpenConditional := []
  deriving DecidableEq, Repr, Inhabited

namespace Tracker

/-- The block that a conditional opens, where blocks are recognized. -/
def blockOf? (t : Tracker) (opening : Opening) (condition : String) : Option InterfaceBlock :=
  if t.recognizeBlocks && opening = .expression then InterfaceBlock.ofCondition? condition else none

/-- Open a conditional at a place. -/
def opened (t : Tracker) (opening : Opening) (condition : String) (line : Nat) (span : Span) : Tracker :=
  { t with stack := ⟨{ opening, condition }, line, span, t.blockOf? opening condition⟩ :: t.stack }

/-- The innermost conditional and those around it, if it may go on to another branch. -/
def innermost (t : Tracker) (branch : Branch) :
    Except ConditionalFault (OpenConditional × List OpenConditional) :=
  match t.stack with
  | [] => .error (.unmatched branch.keyword)
  | top :: outer =>
    if top.guard.inElse then .error (.afterElse branch top.line) else .ok (top, outer)

/-- The tracker behind a directive. Directives that belong to no conditional change nothing. -/
def step (t : Tracker) (directive : Directive) (line : Nat) (span : Span) :
    Except ConditionalFault Tracker :=
  match directive.kind with
  | .opening opening =>
    if directive.args = "" then .error (.missingCondition opening.keyword)
    else .ok (t.opened opening directive.args line span)
  | .elif =>
    if directive.args = "" then .error (.missingCondition Branch.elif.keyword)
    else do
      let (top, outer) ← t.innermost .elif
      if top.block.isSome then .error (.elifInBlock top.guard.condition top.line)
      else
        let guard := { top.guard with elifs := top.guard.elifs ++ [directive.args] }
        .ok { t with stack := { top with guard } :: outer }
  | .otherwise => do
    let (top, outer) ← t.innermost .otherwise
    .ok { t with stack := { top with guard := { top.guard with inElse := true } } :: outer }
  | .endif =>
    match t.stack with
    | [] => .error (.unmatched directive.kind.keyword)
    | _ :: outer => .ok { t with stack := outer }
  | _ => .ok t

/-- Take in a directive. One that does not fit is reported where it stands. -/
def process (t : Tracker) (directive : Directive) (line : Nat) (span : Span) :
    Tracker × Option Diagnostic :=
  match t.step directive line span with
  | .ok behind => (behind, none)
  | .error fault => (t, some ⟨.conditional fault, line, span⟩)

/-- The guards around the place, outermost first. -/
def guardPath (t : Tracker) : GuardPath :=
  (t.stack.reverse.filter (·.block.isNone)).map (·.guard)

/-- The innermost interface block around the place. Behind its `#else` the code is ordinary again,
whatever lies further out. -/
def interfaceBlock (t : Tracker) : Option InterfaceBlock :=
  match t.stack.find? (·.block.isSome) with
  | some conditional => if conditional.guard.inElse then none else conditional.block
  | none => none

/-- The fault of a text that ends here. -/
def finish (t : Tracker) : Option Diagnostic :=
  t.stack.head?.map fun top =>
    ⟨.conditional (.neverClosed top.guard.opening top.guard.condition), top.line, top.span⟩

/-! ### Tokens -/

/-- Take in a token; only directives matter. -/
def pass (t : Tracker) (token : Token) : Except Diagnostic Tracker :=
  match token.directive? with
  | some directive =>
    match t.process directive token.line token.span with
    | (behind, none) => .ok behind
    | (_, some fault) => .error fault
  | none => .ok t

/-- Take in tokens up to the first fault. -/
def passAll (t : Tracker) (tokens : List Token) : Except Diagnostic Tracker :=
  tokens.foldlM pass t

end Tracker

end CHeader
