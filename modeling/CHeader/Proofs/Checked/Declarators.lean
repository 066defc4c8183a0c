import CHeader.Proofs.Declaring
import CHeader.Proofs.Checked.Groups

/-!
# Declarators by position

The tokens behind the specifiers of a construct are cut into stretches at the commas, and in each of them an
initializer and the name are looked for (`splitDeclarators?`, `initializer?`, `declarator?`). They are the pieces
of `Nesting.splitCommas`, and in properly nested pieces the declarator is the one that `Declarator.ofTokens` reads.
-/

namespace CHeader.Checked

open Nesting (breakAt closing depthBehind parenthesized splitCommas Piece)

/-! ### Commas -/

/-- The positions from `start` to before `stop`. -/
structure Stretch where
  start : Nat
  stop : Nat
  deriving DecidableEq, Repr

/-- The stretches between the commas at some of the positions. -/
def splitAt? (view : View) (start stop : Nat) : List Nat → Option (List Stretch)
  | [] => some [⟨start, stop⟩]
  | i :: places => do
    let t ← view i
    if t.kind = .punct .comma then
      let behind ← splitAt? view (i + 1) stop places
      some (⟨start, i⟩ :: behind)
    else splitAt? view start stop places

/-- The stretches between the commas that are in no brackets. -/
def splitDeclarators? (view : View) (stretch : Stretch) : Option (List Stretch) :=
  if stretch.stop ≤ stretch.start then some []
  else do
    let places ← topLevel? view stretch.start stretch.stop
    splitAt? view stretch.start stretch.stop places

/-- The first of the positions that shows a token of kind `kind`. -/
def findKind? (view : View) (kind : TokenKind) : List Nat → Option (Option Nat)
  | [] => some none
  | i :: places => do
    let t ← view i
    if t.kind = kind then some (some i) else findKind? view kind places

/-- The position of the `=` before an initializer. -/
def initializer? (view : View) (stretch : Stretch) : Option (Option Nat) := do
  let places ← topLevel? view stretch.start stretch.stop
  findKind? view (.punct .eq) places

/-- The stretches of some pieces, the first of which begins at `i`. -/
def stretches (i : Nat) : List Piece → List Stretch
  | [] => []
  | piece :: pieces => ⟨i, i + piece.tokens.length⟩ :: stretches (i + piece.tokens.length + 1) pieces

variable {view : View} {i : Nat} {ts : List Token}

theorem splitAt?_eq {start depth : Nat} (stop : Token) (h : view.Shows i ts) :
    ∃ piece pieces, splitCommas stop depth ts = piece :: pieces ∧
      splitAt? view start (i + ts.length) (topPlaces i depth ts) =
        some (⟨start, i + piece.tokens.length⟩ :: stretches (i + piece.tokens.length + 1) pieces) := by
  induction ts generalizing i start depth with
  | nil => exact ⟨⟨[], stop⟩, [], rfl, rfl⟩
  | cons t ts ih =>
    obtain ⟨ht, hts⟩ := h
    rw [add_length_cons, topPlaces, splitCommas]
    by_cases hcomma : depth = 0 ∧ t.kind = .punct .comma
    · obtain ⟨piece, pieces, hsplit, hbehind⟩ := @ih (i + 1) (i + 1) 0 hts
      refine ⟨⟨[], t⟩, piece :: pieces, by rw [if_pos hcomma, hsplit], ?_⟩
      have hplaces : depth = 0 ∧ t.kind.isClosing = false := ⟨hcomma.1, by simp [hcomma.2, TokenKind.isClosing]⟩
      have hdepth : depthBehind depth t.kind = 0 := by
        simp [hcomma, depthBehind, TokenKind.isOpening, TokenKind.isClosing]
      rw [if_pos hplaces, splitAt?, ht, hdepth]
      simp [hcomma.2, hbehind, stretches]
    · obtain ⟨piece, pieces, hsplit, hbehind⟩ := @ih (i + 1) start (depthBehind depth t.kind) hts
      refine ⟨⟨t :: piece.tokens, piece.stop⟩, pieces, by rw [if_neg hcomma, hsplit], ?_⟩
      have hlength : i + (t :: piece.tokens).length = i + 1 + piece.tokens.length := add_length_cons i t piece.tokens
      simp only [hlength]
      split_ifs with hplace
      · rw [splitAt?, ht]
        simp only [Option.bind_eq_bind, Option.bind_some]
        rw [if_neg fun hkind => hcomma ⟨hplace.1, hkind⟩, hbehind]
      · exact hbehind

theorem splitDeclarators?_eq (stop : Token) (h : view.Shows i ts) :
    splitDeclarators? view ⟨i, i + ts.length⟩ = some (stretches i (declarators stop ts)) := by
  rw [splitDeclarators?, declarators]
  cases ts with
  | nil => simp [stretches]
  | cons t ts =>
    obtain ⟨piece, pieces, hsplit, hstretches⟩ := @splitAt?_eq view i (t :: ts) i 0 stop h
    rw [if_neg (by simp), topLevel?_eq h]
    simp only [Option.bind_eq_bind, Option.bind_some, List.isEmpty_cons]
    rw [hstretches, hsplit]
    rfl

theorem findKind?_eq {kind : TokenKind} {depth : Nat} (hkind : kind.isClosing = false) (h : view.Shows i ts) :
    findKind? view kind (topPlaces i depth ts) =
      some (if (breakAt kind depth ts).2 = [] then none else some (i + (breakAt kind depth ts).1.length)) := by
  induction ts generalizing i depth with
  | nil => rfl
  | cons t ts ih =>
    obtain ⟨ht, hts⟩ := h
    rw [topPlaces, breakAt]
    by_cases hfound : depth = 0 ∧ t.kind = kind
    · rw [if_pos hfound, if_pos ⟨hfound.1, by rw [hfound.2, hkind]⟩, findKind?, ht]
      simp [hfound.2]
    · rw [if_neg hfound]
      have hbehind : findKind? view kind (topPlaces (i + 1) (depthBehind depth t.kind) ts) =
          some (if (breakAt kind (depthBehind depth t.kind) ts).2 = [] then none
            else some (i + (t :: (breakAt kind (depthBehind depth t.kind) ts).1).length)) := by
        rw [ih hts, List.length_cons]
        congr 3
        omega
      by_cases hplace : depth = 0 ∧ t.kind.isClosing = false
      · rw [if_pos hplace, findKind?, ht]
        simp only [Option.bind_eq_bind, Option.bind_some]
        rw [if_neg fun h => hfound ⟨hplace.1, h⟩]
        exact hbehind
      · rw [if_neg hplace]
        exact hbehind

theorem initializer?_eq (h : view.Shows i ts) :
    initializer? view ⟨i, i + ts.length⟩ =
      some (if (breakAt (.punct .eq) 0 ts).2 = [] then none else some (i + (breakAt (.punct .eq) 0 ts).1.length)) := by
  rw [initializer?, topLevel?_eq h]
  exact findKind?_eq rfl h

/-- The pieces stand at their stretches, and the tokens that end them between these. Where `ended` holds, the token that
ends the last piece stands behind it. -/
def View.ShowsPieces (view : View) (ended : Prop) : Nat → List Piece → Prop
  | _, [] => True
  | i, piece :: pieces =>
    view.Shows i piece.tokens ∧ (ended ∨ pieces ≠ [] → view (i + piece.tokens.length) = some piece.stop) ∧
      view.ShowsPieces ended (i + piece.tokens.length + 1) pieces

theorem View.Shows.splitCommas {ended : Prop} {stop : Token} (h : view.Shows i ts)
    (hstop : ended → view (i + ts.length) = some stop) (depth : Nat) : view.ShowsPieces ended i (splitCommas stop depth ts) := by
  induction ts generalizing i depth with
  | nil => exact ⟨trivial, fun hended => hstop (hended.resolve_right fun hne => hne rfl), trivial⟩
  | cons t ts ih =>
    rw [add_length_cons] at hstop
    rw [Nesting.splitCommas]
    split_ifs with hcomma
    · exact ⟨trivial, fun _ => h.1, ih h.2 hstop 0⟩
    · have hbehind := ih h.2 hstop (depthBehind depth t.kind)
      split
      · rename_i piece pieces hsplit
        rw [hsplit] at hbehind
        obtain ⟨hpiece, hend, hpieces⟩ := hbehind
        have hlength : i + (t :: piece.tokens).length = i + 1 + piece.tokens.length := add_length_cons i t piece.tokens
        refine ⟨⟨h.1, hpiece⟩, fun hended => ?_, ?_⟩
        · rw [hlength]
          exact hend hended
        · rw [hlength]
          exact hpieces
      · trivial

theorem View.Shows.declarators {ended : Prop} {stop : Token} (h : view.Shows i ts)
    (hstop : ended → view (i + ts.length) = some stop) : view.ShowsPieces ended i (declarators stop ts) := by
  rw [CHeader.declarators]
  split_ifs
  · trivial
  · exact h.splitCommas hstop 0

/-- The last stretch is that of the last piece. -/
theorem View.ShowsPieces.getLast? {ended : Prop} {pieces : List Piece} (h : view.ShowsPieces ended i pieces) :
    (pieces = [] ∧ stretches i pieces = []) ∨
      ∃ piece j, pieces.getLast? = some piece ∧ (stretches i pieces).getLast? = some ⟨j, j + piece.tokens.length⟩ ∧
        view.Shows j piece.tokens := by
  induction pieces generalizing i with
  | nil => exact .inl ⟨rfl, rfl⟩
  | cons piece pieces ih =>
    obtain ⟨hpiece, -, hpieces⟩ := h
    right
    rcases ih hpieces with ⟨rfl, -⟩ | ⟨last, j, hlast, hstretch, hshows⟩
    · exact ⟨piece, i, rfl, rfl, hpiece⟩
    · refine ⟨last, j, ?_, ?_, hshows⟩
      · rw [List.getLast?_cons, hlast]
        rfl
      · rw [stretches, List.getLast?_cons, hstretch]
        rfl

/-- A piece is an unbroken part of the tokens, and the first is a front of them. -/
theorem infix_of_mem_splitCommas (stop : Token) (depth : Nat) (ts : List Token) :
    (∀ piece ∈ (splitCommas stop depth ts).head?, piece.tokens <+: ts) ∧
      ∀ piece ∈ splitCommas stop depth ts, piece.tokens <:+: ts := by
  induction ts generalizing depth with
  | nil => simp [splitCommas]
  | cons t ts ih =>
    rw [splitCommas]
    split_ifs with hcomma
    · refine ⟨by simp, fun piece hpiece => ?_⟩
      rcases List.mem_cons.1 hpiece with rfl | hpiece
      · exact List.nil_infix
      · exact ((ih 0).2 piece hpiece).trans (List.suffix_cons t ts).isInfix
    · obtain ⟨hhead, hall⟩ := ih (depthBehind depth t.kind)
      split
      · rename_i first rest hsplit
        rw [hsplit] at hhead hall
        have hfirst : t :: first.tokens <+: t :: ts := (List.prefix_cons_inj t).2 (hhead first rfl)
        refine ⟨by simpa using hfirst, fun piece hpiece => ?_⟩
        rcases List.mem_cons.1 hpiece with rfl | hpiece
        · exact hfirst.isInfix
        · exact (hall piece (List.mem_cons_of_mem _ hpiece)).trans (List.suffix_cons t ts).isInfix
      · simp

theorem Fits.of_mem_declarators (h : Nesting.Fits ts) {stop : Token} {piece : Piece} (hpiece : piece ∈ declarators stop ts) :
    Nesting.Fits piece.tokens := by
  rw [declarators] at hpiece
  split_ifs at hpiece
  · cases hpiece
  · exact h.of_infix ((infix_of_mem_splitCommas stop 0 ts).2 piece hpiece)

/-! ### Names -/

/-- Where a declarator has its name and the brackets of its parameter list. -/
structure PlacedDeclarator where
  name : Option Nat := none
  parameters : Option (Nat × Nat) := none
  deriving DecidableEq, Repr

/-- What a token makes of the place behind it. -/
def contextBehind (t : Token) : Declarator.Context :=
  match t.kind with
  | .identifier _ => if t.isAttribute then .other else .name
  | .closing .paren | .closing .square => .group
  | _ => .other

/-- What stands before the position `i` of a stretch that begins at `start`. -/
def contextBefore? (view : View) (start i : Nat) : Option Declarator.Context :=
  if start < i then do
    let before ← sub? i 1
    let t ← view before
    some (contextBehind t)
  else some .other

namespace PlacedDeclarator

/-- A declarator with parameters is one of a function. -/
def isFunction (d : PlacedDeclarator) : Bool :=
  d.name.isSome && d.parameters.isSome

/-- Take in the token `t` at position `i`; the position to go on from comes second. -/
def step? (view : View) (start stop : Nat) (found : PlacedDeclarator) (i : Nat) (t : Token) :
    Option (PlacedDeclarator × Nat) :=
  match t.kind with
  | .identifier _ =>
    if t.isAttribute then do
      let next ← groupEnd? view stop (i + 1)
      some (found, next)
    else if found.parameters.isNone then some ({ found with name := some i }, i + 1)
    else some (found, i + 1)
  | .opening .paren => do
    let close ← matching? view stop i
    match ← contextBefore? view start i with
    | .name =>
      let before ← sub? i 1
      if found.name = some before && found.parameters.isNone then
        some ({ found with parameters := some (i, close) }, close + 1)
      else some (found, close + 1)
    | .group => some (found, close + 1)
    | .other => some (found, i + 1)
  | .opening .square => do
    let close ← matching? view stop i
    some (found, close + 1)
  | _ => some (found, i + 1)

/-- Read on from position `i`. -/
def readFrom? (view : View) (start stop : Nat) (found : PlacedDeclarator) (i : Nat) : Option PlacedDeclarator :=
  if _ : i < stop then do
    let t ← view i
    let (found, next) ← step? view start stop found i t
    if _ : i < next then readFrom? view start stop found next else none
  else some found
termination_by stop - i

/-- The declarator that a stretch spells. -/
def ofStretch? (view : View) (stretch : Stretch) : Option PlacedDeclarator :=
  readFrom? view stretch.start stretch.stop {} stretch.start

/-- The positions are those of the tokens of `d`, in the stretch. -/
structure Finds (view : View) (start stop : Nat) (placed : PlacedDeclarator) (d : Declarator) : Prop where
  name : placed.name.map view = d.name.map some
  parameters : placed.parameters.map (fun brackets => view brackets.1) = d.parameters.map some
  within : ∀ brackets ∈ placed.parameters, start ≤ brackets.1 ∧ brackets.1 < stop

/-- Where the reading of a declarator stands: at position `i`, before the tokens `ts`, which all its brackets fit. -/
structure Reading (view : View) (start stop i : Nat) (placed : PlacedDeclarator) (context : Declarator.Context)
    (found : Declarator) (ts : List Token) : Prop where
  shows : view.Shows i ts
  ends : i + ts.length = stop
  begins : start ≤ i
  fits : Nesting.Fits ts
  behind : ts ≠ [] → contextBefore? view start i = some context
  named : ts ≠ [] → context = .name → found.parameters = none → placed.name = some (i - 1)
  finds : placed.Finds view start stop found

section Reading

variable {start stop : Nat} {placed placed' : PlacedDeclarator} {context context' : Declarator.Context}
  {found found' : Declarator} {t : Token}

theorem contextBefore?_succ (hstart : start ≤ i) (ht : view i = some t) :
    contextBefore? view start (i + 1) = some (contextBehind t) := by
  rw [contextBefore?, if_pos (by omega), sub?_of_le (by omega)]
  simp [ht]

/-- Behind one token. -/
theorem Reading.next (h : Reading view start stop i placed context found (t :: ts)) (hcontext : contextBehind t = context')
    (hfinds : placed'.Finds view start stop found')
    (hnamed : context' = .name → found'.parameters = none → placed'.name = some i) :
    Reading view start stop (i + 1) placed' context' found' ts := by
  obtain ⟨opened, behind, hnested⟩ := h.fits
  rw [Nesting.openBehind?_cons] at hnested
  obtain ⟨opened', -, hnested'⟩ := Option.bind_eq_some_iff.1 hnested
  refine ⟨h.shows.2, ?_, h.begins.trans (Nat.le_succ i), ⟨opened', behind, hnested'⟩, fun _ => ?_, fun _ => ?_, hfinds⟩
  · rw [← h.ends, add_length_cons]
  · rw [contextBefore?_succ h.begins h.shows.1, hcontext]
  · exact hnamed

/-- Behind a group. -/
theorem Reading.skip (h : Reading view start stop i placed context found (t :: ts)) {bracket : Bracket}
    (ht : t.kind = .opening bracket) (hbracket : bracket ≠ .brace) (hfinds : placed'.Finds view start stop found') :
    Reading view start stop (i + (closing 1 ts).length + 1) placed' .group found' (ts.drop (closing 1 ts).length) := by
  have hplace : i + (closing 1 ts).length + 1 = i + 1 + (closing 1 ts).length := by omega
  have hsplit := List.prefix_iff_eq_append.1 (Nesting.prefix_closing 1 ts)
  have hbegins := h.begins
  rw [hplace]
  by_cases hrest : ts.drop (closing 1 ts).length = []
  · have hends := h.ends
    rw [hrest, List.append_nil] at hsplit
    rw [add_length_cons, ← congrArg List.length hsplit] at hends
    rw [hrest]
    exact ⟨trivial, hends, by omega, ⟨[], [], rfl⟩, fun hne => absurd rfl hne, fun hne => absurd rfl hne, hfinds⟩
  · obtain ⟨opened, behind, hnested⟩ := h.fits
    rw [Nesting.openBehind?_cons, Nesting.openStep_opening ht, Option.bind_some] at hnested
    obtain ⟨inside, close, hinside, hclosing, hstep, hnested'⟩ :=
      @Nesting.exists_of_closing [] opened ts _ behind t hnested hsplit hrest
    rw [List.length_nil, Nat.zero_add] at hinside
    have hkind := ((Nesting.openStep_closing_iff hclosing ht).1 hstep).1
    refine ⟨h.shows.2.drop _, ?_, by omega, ⟨opened, behind, hnested'⟩, fun _ => ?_, fun _ hname => ?_, hfinds⟩
    · rw [← h.ends, add_length_cons, ← congrArg List.length hsplit, List.length_append]
      omega
    · have hlength : (closing 1 ts).length = inside.length + 1 := by
        rw [hinside, List.length_append]
        rfl
      have hclose : view (i + 1 + inside.length) = some close := by
        rw [h.shows.2.getElem? (by rw [← congrArg List.length hsplit, List.length_append]; omega), ← hsplit, hinside]
        simp
      rw [hlength, ← Nat.add_assoc, contextBefore?_succ (by omega) hclose]
      cases bracket <;> simp_all [contextBehind]
    · cases hname

/-- Behind an attribute word and its argument. -/
theorem Reading.attribute (h : Reading view start stop i placed context found (t :: ts)) {name : String}
    (ht : t.kind = .identifier name) (hattribute : t.isAttribute = true) :
    Reading view start stop (i + 1 + (parenthesized ts).length) placed (if (parenthesized ts).isEmpty then .other else .group)
      found (ts.drop (parenthesized ts).length) := by
  have hword : Reading view start stop (i + 1) placed .other found ts :=
    h.next (by simp [contextBehind, ht, hattribute]) h.finds (by simp)
  cases ts with
  | nil => exact hword
  | cons u us =>
    by_cases hparen : u.kind = .opening .paren
    · rw [parenthesized, if_pos hparen, List.length_cons, ← Nat.add_assoc]
      exact hword.skip hparen (by simp) h.finds
    · rw [parenthesized, if_neg hparen]
      exact hword

theorem Finds.parameters_isNone (h : placed.Finds view start stop found) :
    placed.parameters.isNone = found.parameters.isNone := by
  have hparameters := h.parameters
  cases hp : placed.parameters <;> cases hf : found.parameters <;> simp_all

/-- A bracket is closed by the last of its group. -/
theorem Reading.matching?_eq (h : Reading view start stop i placed context found (t :: ts)) (hopening : t.kind.isOpening = true) :
    matching? view stop i = some (i + (closing 1 ts).length) := by
  rw [← h.ends]
  exact Checked.matching?_eq h.shows hopening

/-- A step leads to where the reading goes on. -/
theorem Reading.of_step (h : Reading view start stop i placed context found (t :: ts)) {next : Nat} (hnext : i < next)
    (hstep : step? view start stop placed i t = some (placed', next))
    (hgoOn : ∃ last, readFrom? view start stop placed' next = some last ∧ last.Finds view start stop found') :
    ∃ last, readFrom? view start stop placed i = some last ∧ last.Finds view start stop found' := by
  have hends := h.ends
  rw [add_length_cons] at hends
  rw [readFrom?, dif_pos (by omega), h.shows.1]
  simpa only [Option.bind_eq_bind, Option.bind_some, hstep, dif_pos hnext] using hgoOn

/-- Nothing stands before the start of a stretch. -/
theorem start_lt_of_name (h : contextBefore? view start i = some .name) : start < i := by
  rw [contextBefore?] at h
  split_ifs at h with hstart
  · exact hstart
  · cases h

/-- Directly behind a name that no parameter list follows, the name is found there. -/
theorem Reading.name_before (h : Reading view start stop i placed .name found (t :: ts)) (hnone : found.parameters = none) :
    start < i ∧ placed.name = some (i - 1) :=
  ⟨start_lt_of_name (h.behind (by simp)), h.named (by simp) rfl hnone⟩

/-- What is read by position is what is read of the tokens. -/
theorem Reading.readFrom?_eq (h : Reading view start stop i placed context found ts) :
    ∃ last, readFrom? view start stop placed i = some last ∧ last.Finds view start stop (Declarator.read context found ts) := by
  fun_induction Declarator.read context found ts generalizing i placed with
  | case1 context found =>
    have hends := h.ends
    refine ⟨placed, ?_, h.finds⟩
    rw [readFrom?, dif_neg (by simp at hends; omega)]
  | case2 context found t ts name hkind hattribute argument =>
    rename_i ih
    refine h.of_step (by omega) ?_ (ih (h.attribute hkind hattribute))
    have hends := h.ends
    rw [add_length_cons] at hends
    simp [step?, hkind, hattribute, ← hends, groupEnd?_eq h.shows.2]
  | case3 context found t ts name hkind hattribute hnone ih =>
    have hfinds : PlacedDeclarator.Finds view start stop { placed with name := some i } { found with name := some t } :=
      { h.finds with name := by simp [h.shows.1] }
    refine h.of_step (Nat.lt_succ_self i) ?_ (ih (h.next (by simp [contextBehind, hkind, hattribute]) hfinds fun _ _ => rfl))
    simp [step?, hkind, hattribute, h.finds.parameters_isNone, hnone]
  | case4 context found t ts name hkind hattribute hsome ih =>
    refine h.of_step (Nat.lt_succ_self i) ?_
      (ih (h.next (by simp [contextBehind, hkind, hattribute]) h.finds fun _ hnone => absurd (by simp [hnone]) hsome))
    simp [step?, hkind, hattribute, h.finds.parameters_isNone, hsome]
  | case5 found t ts hkind behind hnone =>
    rename_i ih
    obtain ⟨hstart, hname⟩ := h.name_before (Option.isNone_iff_eq_none.1 hnone)
    have hends := h.ends
    rw [add_length_cons] at hends
    have hbegins := h.begins
    have hfinds : PlacedDeclarator.Finds view start stop { placed with parameters := some (i, i + (closing 1 ts).length) }
        { found with parameters := some t } :=
      { h.finds with
        parameters := by simp [h.shows.1]
        within := by
          rintro _ ⟨⟩
          exact ⟨h.begins, by simp; omega⟩ }
    refine h.of_step (by omega) ?_ (ih (h.skip hkind (by simp) hfinds))
    simp [step?, hkind, h.matching?_eq (by simp [hkind, TokenKind.isOpening]), h.behind, sub?_of_le (show 1 ≤ i by omega), hname,
      h.finds.parameters_isNone, hnone]
  | case6 found t ts hkind behind hsome =>
    rename_i ih
    have hbefore := h.behind (by simp)
    have hstart := start_lt_of_name hbefore
    refine h.of_step (by omega) ?_ (ih (h.skip hkind (by simp) h.finds))
    simp [step?, hkind, h.matching?_eq (by simp [hkind, TokenKind.isOpening]), hbefore, sub?_of_le (show 1 ≤ i by omega),
      h.finds.parameters_isNone, hsome]
  | case7 found t ts hkind behind =>
    rename_i ih
    refine h.of_step (by omega) ?_ (ih (h.skip hkind (by simp) h.finds))
    rw [step?]
    simp [hkind, h.matching?_eq (by simp [hkind, TokenKind.isOpening]), h.behind]
  | case8 found t ts hkind ih =>
    refine h.of_step (Nat.lt_succ_self i) ?_ (ih (h.next (by simp [contextBehind, hkind]) h.finds (by simp)))
    simp [step?, hkind, h.matching?_eq (by simp [hkind, TokenKind.isOpening]), h.behind]
  | case9 context found t ts hkind ih =>
    refine h.of_step (by omega) ?_ (ih (h.skip hkind (by simp) h.finds))
    simp [step?, hkind, h.matching?_eq (by simp [hkind, TokenKind.isOpening])]
  | case10 context found t ts hkind ih =>
    refine h.of_step (Nat.lt_succ_self i) ?_ (ih (h.next (by simp [contextBehind, hkind]) h.finds (by simp)))
    simp [step?, hkind]
  | case11 context found t ts hkind ih =>
    refine h.of_step (Nat.lt_succ_self i) ?_ (ih (h.next (by simp [contextBehind, hkind]) h.finds (by simp)))
    simp [step?, hkind]
  | case12 context found t ts hidentifier hparen hsquare hclosingParen hclosingSquare ih =>
    refine h.of_step (Nat.lt_succ_self i) ?_ (ih (h.next ?_ h.finds (by simp)))
    · rw [step?]
      split <;> simp_all
    · rw [contextBehind]
      split <;> simp_all

end Reading

/-- The declarator of a stretch is the one of its tokens, if their brackets fit. -/
theorem ofStretch?_eq (h : view.Shows i ts) (hfits : Nesting.Fits ts) :
    ∃ placed, ofStretch? view ⟨i, i + ts.length⟩ = some placed ∧
      placed.Finds view i (i + ts.length) (Declarator.ofTokens ts) := by
  have hreading : Reading view i (i + ts.length) i {} .other {} ts := by
    refine ⟨h, rfl, Nat.le_refl i, hfits, fun _ => ?_, fun _ hname => ?_, ⟨rfl, rfl, by simp⟩⟩
    · rw [contextBefore?, if_neg (Nat.lt_irrefl i)]
    · cases hname
  exact hreading.readFrom?_eq

theorem Finds.isFunction {start stop : Nat} {placed : PlacedDeclarator} {d : Declarator} (h : placed.Finds view start stop d) :
    placed.isFunction = d.isFunction := by
  have hname := congrArg Option.isSome h.name
  have hparameters := congrArg Option.isSome h.parameters
  simp only [Option.isSome_map] at hname hparameters
  rw [PlacedDeclarator.isFunction, Declarator.isFunction, hname, hparameters]

end PlacedDeclarator

end CHeader.Checked
