import CHeader.Proofs.Checked.Declarators
import CHeader.Proofs.Checked.Specifiers

/-!
# Shapes by position

Whether the tokens of a construct ask for a function body, for a brace, or for parameter declarations, found by
position with checked look-ups. The answers are those of `Shape`, as long as the brackets of the tokens fit.
-/

namespace CHeader.Checked

open Nesting (closing depthBehind)

/-- The last declarator behind the specifiers, below a limit. -/
def lastDeclarator? (view : View) (specs : PlacedSpecifiers) (limit : Nat) : Option (Option Stretch) := do
  let stretches ← splitDeclarators? view ⟨specs.stop, limit⟩
  some stretches.getLast?

/-- Whether the positions below a limit show the head of a function. -/
def isFunctionHead? (markers : Bool) (view : View) (limit : Nat) : Option Bool := do
  let specs ← PlacedSpecifiers.ofView? markers view limit
  if specs.isTypedef then some false
  else
    match ← lastDeclarator? view specs limit with
    | none => some false
    | some stretch => do
      let initializer ← initializer? view stretch
      if initializer.isSome then some false
      else
        let declarator ← PlacedDeclarator.ofStretch? view stretch
        some declarator.isFunction

/-- Whether the positions below a limit ask for the body of an aggregate or for an initializer. -/
def expectsBrace? (markers : Bool) (view : View) (limit : Nat) : Option Bool := do
  let specs ← PlacedSpecifiers.ofView? markers view limit
  if specs.stop = limit ∧ specs.aggregate.any (·.body.isNone) then some true
  else
    match ← lastDeclarator? view specs limit with
    | none => some false
    | some stretch => do
      let initializer ← initializer? view stretch
      some initializer.isSome

/-- Whether a parenthesis stands at position `i` behind a name. -/
def opensNamed? (view : View) (i : Nat) : Option Bool :=
  if 0 < i then do
    let t ← view i
    if t.kind = .opening .paren then do
      let before ← sub? i 1
      let u ← view before
      some u.isName
    else some false
  else some false

/-- The first of the positions that shows a parenthesis behind a name. -/
def namedParen? (view : View) : List Nat → Option (Option Nat)
  | [] => some none
  | i :: places => do
    if ← opensNamed? view i then some (some i) else namedParen? view places

/-- Whether all positions show identifiers and commas. -/
def listsIdentifiers? (view : View) : List Nat → Option Bool
  | [] => some true
  | i :: places => do
    let t ← view i
    if t.kind.identifier?.isSome || t.kind = .punct .comma then listsIdentifiers? view places else some false

/-- Whether the brackets at two positions enclose a list of identifiers. -/
def enclosesIdentifiers? (view : View) (opening close : Nat) : Option Bool :=
  if opening + 1 < close then listsIdentifiers? view (places (opening + 1) close) else some false

/-- Whether the declaration of a parameter begins at position `i`. -/
def startsParameter? (view : View) (limit i : Nat) : Option Bool :=
  if i < limit then do
    let t ← view i
    some (Shape.startsParameter t)
  else some false

/-- The position where the parameter declarations begin behind a list of identifiers. -/
def parameterDeclarations? (markers : Bool) (view : View) (limit : Nat) : Option (Option Nat) := do
  let specs ← PlacedSpecifiers.ofView? markers view limit
  if specs.isTypedef then some none
  else
    match ← namedParen? view (← topLevel? view specs.stop limit) with
    | none => some none
    | some opening => do
      let close ← matching? view limit opening
      let listed ← enclosesIdentifiers? view opening close
      let declares ← startsParameter? view limit (close + 1)
      some (if listed && declares then some (close + 1) else none)

variable {view : View} {i : Nat} {ts : List Token}

/-! ### Behind the specifiers -/

/-- The specifiers of some tokens, and the tokens behind them at their place. -/
theorem exists_specifiers (markers : Bool) (h : view.Shows 0 ts) :
    ∃ placed, PlacedSpecifiers.ofView? markers view ts.length = some placed ∧
      placed.Describes view (.ofTokens markers ts) ∧
      view.Shows placed.stop (Shape.behindSpecifiers (.ofTokens markers ts) ts) ∧
      ts.length = placed.stop + (Shape.behindSpecifiers (.ofTokens markers ts) ts).length := by
  obtain ⟨placed, hplaced, hdescribes⟩ := PlacedSpecifiers.ofView?_describes markers h
  refine ⟨placed, hplaced, hdescribes, ?_, ?_⟩
  · have hbehind := h.drop (Specifiers.ofTokens markers ts).tokens.length
    rw [Nat.zero_add] at hbehind
    rw [hdescribes.stop]
    exact hbehind
  · rw [hdescribes.stop, ← List.length_append, Specifiers.tokens_append_behind]

theorem LastAggregate.getLast? {placed : Option PlacedAggregate} {specs : Specifiers} (h : LastAggregate view placed specs) :
    (placed = none ∧ specs.aggregate? = none) ∨
      ∃ p a i, placed = some p ∧ specs.aggregate? = some a ∧ p.Stands view i a := by
  cases h with
  | absent hnone =>
    refine .inl ⟨rfl, ?_⟩
    rw [Specifiers.aggregate?, List.filterMap_eq_nil_iff.2 hnone]
    rfl
  | present stands aggregate last =>
    refine .inr ⟨_, _, _, rfl, ?_, stands⟩
    rw [Specifiers.aggregate?, List.filterMap_append, List.filterMap_cons_some aggregate, List.filterMap_eq_nil_iff.2 last]
    simp

/-- An aggregate lacks a body by position if it lacks one. -/
theorem isNone_body {placed : Option PlacedAggregate} {specs : Specifiers} (h : LastAggregate view placed specs) :
    placed.any (·.body.isNone) = specs.aggregate?.any (·.body.isEmpty) := by
  obtain ⟨rfl, hnone⟩ | ⟨p, a, i, rfl, hsome, hstands⟩ := h.getLast?
  · rw [hnone]
    rfl
  · rw [hsome, Option.any_some, Option.any_some, hstands.body]
    cases a.body <;> simp

/-- The last declarator, at its place. -/
theorem lastDeclarator?_eq {placed : PlacedSpecifiers} {specs : Specifiers} (brace : Token)
    (h : view.Shows placed.stop (Shape.behindSpecifiers specs ts))
    (hlength : ts.length = placed.stop + (Shape.behindSpecifiers specs ts).length) :
    (lastDeclarator? view placed ts.length = some none ∧ Shape.lastDeclarator? specs brace ts = none) ∨
      ∃ piece j, lastDeclarator? view placed ts.length = some (some ⟨j, j + piece.tokens.length⟩) ∧
        Shape.lastDeclarator? specs brace ts = some piece ∧ view.Shows j piece.tokens := by
  rw [lastDeclarator?, hlength, splitDeclarators?_eq brace h]
  simp only [Option.bind_eq_bind, Option.bind_some]
  have hpieces : view.ShowsPieces False placed.stop (declarators brace (Shape.behindSpecifiers specs ts)) := h.declarators False.elim
  obtain ⟨hnil, hstretches⟩ | ⟨piece, j, hpiece, hstretch, hshows⟩ := hpieces.getLast?
  · rw [hstretches, Shape.lastDeclarator?, hnil]
    exact .inl ⟨rfl, rfl⟩
  · rw [hstretch]
    exact .inr ⟨piece, j, rfl, hpiece, hshows⟩

/-- Whether a piece at its place has an initializer. -/
theorem initializer?_isSome {piece : Nesting.Piece} (h : view.Shows i piece.tokens) :
    ∃ found, initializer? view ⟨i, i + piece.tokens.length⟩ = some found ∧ found.isSome = piece.hasInitializer := by
  refine ⟨_, initializer?_eq h, ?_⟩
  rw [Nesting.Piece.hasInitializer]
  split_ifs with hempty
  · rw [hempty]
    rfl
  · simp [hempty]

/-! ### Braces -/

theorem isFunctionHead?_eq (markers : Bool) (brace : Token) (h : view.Shows 0 ts) (hfits : Nesting.Fits ts) :
    isFunctionHead? markers view ts.length = some (Shape.isFunctionHead markers brace ts) := by
  obtain ⟨placed, hplaced, hdescribes, hbehind, hlength⟩ := exists_specifiers markers h
  rw [isFunctionHead?, hplaced, Shape.isFunctionHead]
  simp only [Option.bind_eq_bind, Option.bind_some, hdescribes.isTypedef]
  split_ifs with htypedef
  · simp [htypedef]
  · obtain ⟨hnone, hnone'⟩ | ⟨piece, j, hstretch, hpiece, hshows⟩ := lastDeclarator?_eq brace hbehind hlength
    · simp [hnone, hnone', htypedef]
    · obtain ⟨found, hfound, hisSome⟩ := initializer?_isSome hshows
      rw [hstretch, hpiece]
      simp only [Option.bind_some, hfound, hisSome, Option.any_some]
      by_cases hinitializer : piece.hasInitializer
      · simp [hinitializer]
      · have hdeclaring : piece.declaring = piece.tokens := by
          refine Nesting.fst_breakAt ?_
          simpa [Nesting.Piece.hasInitializer] using hinitializer
        have hpiece' : Nesting.Fits piece.tokens :=
          Fits.of_mem_declarators (hfits.of_infix (List.drop_suffix _ _).isInfix) (List.mem_of_getLast? hpiece)
        obtain ⟨declarator, hdeclarator, hfinds⟩ := PlacedDeclarator.ofStretch?_eq hshows hpiece'
        rw [hdeclarator, Nesting.Piece.declarator, hdeclaring]
        simp [hinitializer, htypedef, hfinds.isFunction]

theorem expectsBrace?_eq (markers : Bool) (brace : Token) (h : view.Shows 0 ts) :
    expectsBrace? markers view ts.length = some (Shape.expectsBrace markers brace ts) := by
  obtain ⟨placed, hplaced, hdescribes, hbehind, hlength⟩ := exists_specifiers markers h
  rw [expectsBrace?, hplaced, Shape.expectsBrace]
  simp only [Option.bind_eq_bind, Option.bind_some, isNone_body hdescribes.aggregate]
  have hempty : placed.stop = ts.length ↔ (Shape.behindSpecifiers (.ofTokens markers ts) ts).isEmpty = true := by
    rw [List.isEmpty_iff_length_eq_zero]
    omega
  simp only [hempty]
  split_ifs with hbody
  · simp [hbody.1, hbody.2]
  · have hfalse : ((Shape.behindSpecifiers (.ofTokens markers ts) ts).isEmpty &&
        (Specifiers.ofTokens markers ts).aggregate?.any (·.body.isEmpty)) = false := by
      simpa using hbody
    rw [hfalse, Bool.false_or]
    obtain ⟨hnone, hnone'⟩ | ⟨piece, j, hstretch, hpiece, hshows⟩ := lastDeclarator?_eq brace hbehind hlength
    · rw [hnone, hnone']
      rfl
    · obtain ⟨found, hfound, hisSome⟩ := initializer?_isSome hshows
      rw [hstretch, hpiece]
      simp only [Option.bind_some, hfound, hisSome, Option.any_some]

/-! ### Parameter declarations -/

theorem listsIdentifiers?_eq (h : view.Shows i ts) :
    listsIdentifiers? view (places i (i + ts.length)) =
      some (ts.all fun t => t.kind.identifier?.isSome || t.kind = .punct .comma) := by
  induction ts generalizing i with
  | nil => simp [places, listsIdentifiers?]
  | cons t ts ih =>
    rw [← places_cons (by simp), add_length_cons, listsIdentifiers?, h.1, ih h.2, List.all_cons]
    simp only [Option.bind_eq_bind, Option.bind_some]
    split_ifs with ht
    · rw [ht, Bool.true_and]
    · rw [Bool.not_eq_true] at ht
      rw [ht, Bool.false_and]

/-- What stands before position `i`. -/
def Precedes (view : View) (i : Nat) : Option Token → Prop
  | some t => 0 < i ∧ view (i - 1) = some t
  | none => i = 0

theorem opensNamed?_eq {before : Option Token} {t : Token} (h : view i = some t) (hbefore : Precedes view i before) :
    opensNamed? view i = some (t.kind = .opening .paren && before.any Token.isName) := by
  rw [opensNamed?]
  cases before with
  | none =>
    obtain rfl : i = 0 := hbefore
    simp
  | some u =>
    rw [if_pos hbefore.1, h, sub?_of_le hbefore.1]
    by_cases hparen : t.kind = .opening .paren <;> simp [hparen, hbefore.2]

/-- The parenthesis is found where the tokens behind it begin. -/
theorem namedParen?_eq (depth : Nat) {before : Option Token} (h : view.Shows i ts) (hbefore : Precedes view i before) :
    (Shape.behindNamedParen? depth before ts = none ∧ namedParen? view (topPlaces i depth ts) = some none) ∨
      ∃ inside t behind, ts = inside ++ t :: behind ∧ t.kind = .opening .paren ∧
        Shape.behindNamedParen? depth before ts = some behind ∧
        namedParen? view (topPlaces i depth ts) = some (some (i + inside.length)) := by
  induction ts generalizing i depth before with
  | nil => exact .inl ⟨rfl, rfl⟩
  | cons t ts ih =>
    obtain ⟨ht, hts⟩ := h
    have hopens := opensNamed?_eq ht hbefore
    rw [Shape.behindNamedParen?, topPlaces]
    by_cases hfound : depth = 0 ∧ t.kind = .opening .paren ∧ before.any Token.isName = true
    · obtain ⟨rfl, hparen, hname⟩ := hfound
      refine .inr ⟨[], t, ts, rfl, hparen, by simp [hparen, hname], ?_⟩
      rw [if_pos ⟨rfl, by rw [hparen]; rfl⟩, namedParen?, hopens]
      simp [hparen, hname]
    · have hskip : namedParen? view (if depth = 0 ∧ t.kind.isClosing = false then
          i :: topPlaces (i + 1) (depthBehind depth t.kind) ts else topPlaces (i + 1) (depthBehind depth t.kind) ts) =
          namedParen? view (topPlaces (i + 1) (depthBehind depth t.kind) ts) := by
        split_ifs with hplace
        · rw [namedParen?, hopens]
          have hother : (decide (t.kind = .opening .paren) && before.any Token.isName) = false := by
            rw [Bool.and_eq_false_iff, decide_eq_false_iff_not]
            by_cases hparen : t.kind = .opening .paren
            · exact .inr (Bool.eq_false_iff.2 fun hname => hfound ⟨hplace.1, hparen, hname⟩)
            · exact .inl hparen
          rw [hother]
          rfl
        · rfl
      rw [hskip, if_neg (by simpa [and_assoc] using hfound)]
      have hnext : Precedes view (i + 1) (some t) := ⟨by omega, ht⟩
      obtain hnone | ⟨inside, u, behind, rfl, hparen, hbehind, hplace⟩ := ih (depthBehind depth t.kind) hts hnext
      · exact .inl hnone
      · refine .inr ⟨t :: inside, u, behind, rfl, hparen, hbehind, ?_⟩
        rw [hplace, add_length_cons]

theorem startsParameter?_eq (h : view.Shows i ts) :
    startsParameter? view (i + ts.length) i = some (ts.head?.any Shape.startsParameter) := by
  cases ts with
  | nil => simp [startsParameter?]
  | cons t ts => simp [startsParameter?, h.1]

theorem precedes_getLast? (h : view.Shows 0 ts) : Precedes view ts.length ts.getLast? := by
  rcases List.eq_nil_or_concat ts with rfl | ⟨before, t, rfl⟩
  · rfl
  · rw [List.concat_eq_append] at h ⊢
    rw [List.getLast?_concat]
    exact ⟨by simp, by simpa using (View.shows_append.1 h).2.1⟩

/-- The group behind a bracket lists identifiers, or it does not. -/
theorem enclosesIdentifiers?_eq (h : view.Shows (i + 1) ts) :
    enclosesIdentifiers? view i (i + ts.length) = some (Shape.isIdentifierList ts) := by
  rw [enclosesIdentifiers?, Shape.isIdentifierList]
  split_ifs with hlength
  · have hinside := (View.shows_append.1 (List.dropLast_append_getLast (List.ne_nil_of_length_pos (show 0 < ts.length by omega)) ▸ h)).1
    have hend : i + 1 + ts.dropLast.length = i + ts.length := by
      rw [List.length_dropLast]
      omega
    rw [← hend, listsIdentifiers?_eq hinside, decide_eq_true (by omega), Bool.true_and]
  · rw [decide_eq_false (by omega), Bool.false_and]

/-- The parameter declarations begin where those of the tokens do. -/
theorem parameterDeclarations?_eq (markers : Bool) (h : view.Shows 0 ts) :
    parameterDeclarations? markers view ts.length =
      some ((Shape.parameterDeclarations? markers ts).map fun parameters => ts.length - parameters.length) := by
  obtain ⟨placed, hplaced, hdescribes, hbehind, hlength⟩ := exists_specifiers markers h
  rw [parameterDeclarations?, hplaced, Shape.parameterDeclarations?]
  simp only [Option.bind_eq_bind, Option.bind_some, hdescribes.isTypedef]
  split_ifs with htypedef
  · rfl
  · have hbefore : Precedes view placed.stop (Specifiers.ofTokens markers ts).tokens.getLast? := by
      rw [hdescribes.stop]
      rw [← Specifiers.tokens_append_behind markers ts, View.shows_append] at h
      exact precedes_getLast? h.1
    have htop := topLevel?_eq hbehind
    rw [← hlength] at htop
    rw [htop, Option.bind_some]
    obtain ⟨hnone, hnone'⟩ | ⟨inside, t, behind, hsplit, hparen, hgroup, hplace⟩ := namedParen?_eq 0 hbehind hbefore
    · rw [hnone, hnone']
      rfl
    · rw [hsplit, View.shows_append] at hbehind
      rw [hsplit, List.length_append, ← Nat.add_assoc] at hlength
      have hclose := matching?_eq hbehind.2 (by rw [hparen]; rfl)
      have hidentifiers := Nesting.closing_append_drop 1 behind
      have hinside := hbehind.2.2
      rw [← hidentifiers, View.shows_append] at hinside
      have hstarts := startsParameter?_eq hinside.2
      have hend : placed.stop + inside.length + 1 + (closing 1 behind).length + (behind.drop (closing 1 behind).length).length =
          ts.length := by
        rw [hlength, add_length_cons, Nat.add_assoc, ← List.length_append, hidentifiers]
      rw [hend] at hstarts
      rw [← hlength] at hclose
      rw [hplace, hgroup]
      simp only [Option.bind_some]
      rw [hclose, Option.bind_some, enclosesIdentifiers?_eq hinside.1, Option.bind_some]
      rw [show placed.stop + inside.length + (closing 1 behind).length + 1 =
        placed.stop + inside.length + 1 + (closing 1 behind).length by omega, hstarts, Option.bind_some]
      split_ifs with hfound
      · simp only [Option.map_some, Option.some.injEq]
        omega
      · rfl

end CHeader.Checked
