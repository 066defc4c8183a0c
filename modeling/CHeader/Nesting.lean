import CHeader.Token

/-!
# Bracketed groups

Runs of tokens between brackets. A depth counts the brackets that are open; which kind they are is not
looked at, because the tokens of a construct are properly nested when they get here. `closing` is a
group without its opening bracket, as the tokens through the bracket that brings the depth to zero;
where none does, it is all there is. The other functions look at the tokens outside all groups.
-/

namespace CHeader.Nesting

/-- The depth behind a token. -/
def depthBehind (depth : Nat) (kind : TokenKind) : Nat :=
  if kind.isOpening then depth + 1 else if kind.isClosing then depth - 1 else depth

/-- The tokens through the one that closes the outermost of `depth` open brackets. -/
def closing : Nat → List Token → List Token
  | 0, _ => []
  | _ + 1, [] => []
  | depth + 1, t :: ts => t :: closing (depthBehind (depth + 1) t.kind) ts

theorem prefix_closing (depth : Nat) (ts : List Token) : closing depth ts <+: ts := by
  fun_induction closing depth ts with
  | case1 => simp
  | case2 => simp
  | case3 depth t ts ih => simpa using ih

/-- The group in parentheses that the tokens start with, if they do. -/
def parenthesized : List Token → List Token
  | t :: ts => if t.kind = .opening .paren then t :: closing 1 ts else []
  | [] => []

theorem prefix_parenthesized (ts : List Token) : parenthesized ts <+: ts := by
  cases ts with
  | nil => simp [parenthesized]
  | cons t ts =>
    by_cases h : t.kind = .opening .paren
    · simp [parenthesized, h, prefix_closing]
    · simp [parenthesized, h]

/-- The tokens before the first of kind `kind` outside all groups, and those from it on. -/
def breakAt (kind : TokenKind) (depth : Nat) : List Token → List Token × List Token
  | [] => ([], [])
  | t :: ts =>
    if depth = 0 ∧ t.kind = kind then ([], t :: ts)
    else
      let (before, behind) := breakAt kind (depthBehind depth t.kind) ts
      (t :: before, behind)

theorem breakAt_append (kind : TokenKind) (depth : Nat) (ts : List Token) :
    (breakAt kind depth ts).1 ++ (breakAt kind depth ts).2 = ts := by
  fun_induction breakAt kind depth ts with
  | case1 => rfl
  | case2 => rfl
  | case3 depth t ts _ before behind h ih => simpa [h] using ih

/-- Some of the tokens between two commas, and the token that ends them. -/
structure Piece where
  tokens : List Token
  stop : Token
  deriving DecidableEq, Repr

/-- The pieces between the commas outside all groups; `stop` ends the last. -/
def splitCommas (stop : Token) (depth : Nat) : List Token → List Piece
  | [] => [⟨[], stop⟩]
  | t :: ts =>
    if depth = 0 ∧ t.kind = .punct .comma then ⟨[], t⟩ :: splitCommas stop 0 ts
    else
      match splitCommas stop (depthBehind depth t.kind) ts with
      | piece :: pieces => ⟨t :: piece.tokens, piece.stop⟩ :: pieces
      | [] => []

end CHeader.Nesting
