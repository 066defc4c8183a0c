import CHeader.Proofs.Brackets

/-!
# Groups by position

Tokens are looked up by position here, and every look-up is checked: a result of `none` says that a position was
out of range. `matching?`, `groupEnd?` and `topLevel?` go through a stretch of positions and count the brackets that
are open. Where a stretch shows some tokens (`View.Shows`), they find what `Nesting` takes off those tokens.
-/

namespace CHeader.Checked

open Nesting (closing parenthesized depthBehind)

/-- Tokens by position; `none` where there is none. -/
abbrev View := Nat → Option Token

/-- The difference of two numbers that does not fall below zero. -/
def sub? (a b : Nat) : Option Nat :=
  if b ≤ a then some (a - b) else none

theorem sub?_of_le {a b : Nat} (h : b ≤ a) : sub? a b = some (a - b) :=
  if_pos h

namespace View

/-- The tokens stand at the positions from `i` on. -/
def Shows (view : View) : Nat → List Token → Prop
  | _, [] => True
  | i, t :: ts => view i = some t ∧ view.Shows (i + 1) ts

variable {view : View} {i : Nat} {ts us : List Token}

theorem shows_append : view.Shows i (ts ++ us) ↔ view.Shows i ts ∧ view.Shows (i + ts.length) us := by
  induction ts generalizing i with
  | nil => simp [Shows]
  | cons t ts ih => simp only [List.cons_append, Shows, ih, List.length_cons, and_assoc, Nat.add_right_comm, Nat.add_assoc]

theorem Shows.drop (h : view.Shows i ts) (n : Nat) : view.Shows (i + n) (ts.drop n) := by
  induction ts generalizing i n with
  | nil => simp [Shows]
  | cons t ts ih =>
    cases n with
    | zero => exact h
    | succ n =>
      rw [List.drop_succ_cons, Nat.add_comm n 1, ← Nat.add_assoc]
      exact ih h.2 n

theorem Shows.getElem? (h : view.Shows i ts) {k : Nat} (hk : k < ts.length) : view (i + k) = ts[k]? := by
  have hdrop := h.drop k
  rw [List.drop_eq_getElem_cons hk] at hdrop
  rw [hdrop.1, List.getElem?_eq_getElem hk]

/-- A list shows its tokens. -/
theorem shows_list (ts : List Token) : View.Shows (fun i => ts[i]?) 0 ts := by
  suffices h : ∀ before, View.Shows (fun i => (before ++ ts)[i]?) before.length ts from h []
  induction ts with
  | nil => exact fun _ => trivial
  | cons t ts ih =>
    intro before
    refine ⟨by simp, ?_⟩
    have hrest := ih (before ++ [t])
    rwa [List.append_assoc, List.length_append] at hrest

end View

/-! ### Brackets -/

/-- The position of the bracket that closes the outermost of those open, or the last before `limit`. -/
def matchingFrom? (view : View) (limit depth i : Nat) : Option Nat :=
  if i < limit then do
    let t ← view i
    if t.kind.isOpening then matchingFrom? view limit (depth + 1) (i + 1)
    else if t.kind.isClosing then
      if depth - 1 = 0 then some i else matchingFrom? view limit (depth - 1) (i + 1)
    else matchingFrom? view limit depth (i + 1)
  else some (limit - 1)
termination_by limit - i

/-- The position of the bracket that closes the one at position `i`. -/
def matching? (view : View) (limit i : Nat) : Option Nat :=
  matchingFrom? view limit 0 i

/-- The position behind the group in parentheses at position `i`, or `i` if there is none. -/
def groupEnd? (view : View) (limit i : Nat) : Option Nat :=
  if i < limit then do
    let t ← view i
    if t.kind = .opening .paren then
      let close ← matching? view limit i
      some (close + 1)
    else some i
  else some i

/-- The positions from `i` to before `stop` that are in no brackets; opening ones are, closing ones are not. -/
def topLevelFrom? (view : View) (stop depth i : Nat) : Option (List Nat) :=
  if i < stop then do
    let t ← view i
    if t.kind.isClosing then topLevelFrom? view stop (depth - 1) (i + 1)
    else
      let behind ← topLevelFrom? view stop (if t.kind.isOpening then depth + 1 else depth) (i + 1)
      some (if depth = 0 then i :: behind else behind)
  else some []
termination_by stop - i

/-- The same of a whole stretch. -/
def topLevel? (view : View) (start stop : Nat) : Option (List Nat) :=
  topLevelFrom? view stop 0 start

/-- The positions of some tokens at `i` and behind it that are in no brackets. -/
def topPlaces (i depth : Nat) : List Token → List Nat
  | [] => []
  | t :: ts =>
    let behind := topPlaces (i + 1) (depthBehind depth t.kind) ts
    if depth = 0 ∧ t.kind.isClosing = false then i :: behind else behind

section

variable {view : View} {i : Nat} {ts : List Token}

theorem add_length_cons (i : Nat) (t : Token) (ts : List Token) : i + (t :: ts).length = i + 1 + ts.length := by
  rw [List.length_cons]
  omega

theorem isOpening_of_isClosing {kind : TokenKind} (h : kind.isClosing = true) : kind.isOpening = false := by
  obtain ⟨bracket, rfl⟩ := TokenKind.isClosing_iff.1 h
  rfl

theorem matchingFrom?_eq {depth : Nat} (h : view.Shows i ts) :
    matchingFrom? view (i + ts.length) (depth + 1) i = some (i + (closing (depth + 1) ts).length - 1) := by
  induction ts generalizing i depth with
  | nil =>
    rw [matchingFrom?, if_neg (by simp)]
    simp [closing]
  | cons t ts ih =>
    obtain ⟨ht, hts⟩ := h
    rw [matchingFrom?, if_pos (by simp), ht, add_length_cons]
    simp only [Option.bind_eq_bind, Option.bind_some]
    rw [closing, depthBehind]
    split_ifs with hopening hclosing hlast
    · rw [ih hts, List.length_cons]
      congr 1
      omega
    · obtain rfl : depth = 0 := hlast
      simp [closing]
    · obtain ⟨depth, rfl⟩ := Nat.exists_eq_add_one_of_ne_zero hlast
      rw [Nat.add_sub_cancel, ih hts, List.length_cons]
      congr 1
      omega
    · rw [ih hts, List.length_cons]
      congr 1
      omega

/-- The bracket that closes an opening one is the last of the group. -/
theorem matching?_eq {t : Token} (h : view.Shows i (t :: ts)) (hopening : t.kind.isOpening = true) :
    matching? view (i + (t :: ts).length) i = some (i + (closing 1 ts).length) := by
  obtain ⟨ht, hts⟩ := h
  rw [matching?, matchingFrom?, if_pos (by simp), ht, add_length_cons]
  simp only [Option.bind_eq_bind, Option.bind_some]
  rw [if_pos hopening, matchingFrom?_eq hts, Nat.zero_add]
  congr 1
  omega

theorem groupEnd?_eq (h : view.Shows i ts) : groupEnd? view (i + ts.length) i = some (i + (parenthesized ts).length) := by
  cases ts with
  | nil =>
    rw [groupEnd?, if_neg (by simp)]
    rfl
  | cons t ts =>
    rw [groupEnd?, if_pos (by simp), h.1, parenthesized]
    simp only [Option.bind_eq_bind, Option.bind_some]
    split_ifs with hparen
    · rw [matching?_eq h (by simp [hparen, TokenKind.isOpening]), List.length_cons]
      rfl
    · rfl

theorem topLevelFrom?_eq {depth : Nat} (h : view.Shows i ts) :
    topLevelFrom? view (i + ts.length) depth i = some (topPlaces i depth ts) := by
  induction ts generalizing i depth with
  | nil =>
    rw [topLevelFrom?, if_neg (by simp)]
    rfl
  | cons t ts ih =>
    obtain ⟨ht, hts⟩ := h
    rw [topLevelFrom?, if_pos (by simp), ht, add_length_cons]
    simp only [Option.bind_eq_bind, Option.bind_some, topPlaces]
    by_cases hclosing : t.kind.isClosing = true
    · rw [if_pos hclosing, ih hts, depthBehind, isOpening_of_isClosing hclosing]
      simp [hclosing]
    · rw [if_neg hclosing, ih hts, depthBehind, if_neg hclosing]
      simp [hclosing]

theorem topLevel?_eq (h : view.Shows i ts) : topLevel? view i (i + ts.length) = some (topPlaces i 0 ts) :=
  topLevelFrom?_eq h

end

end CHeader.Checked
