import CHeader.Proofs.Checked.Collecting
import CHeader.Proofs.DeclaratorGrammar
import CHeader.Proofs.SpecifierEnds

/-!
# Nested tokens

The search for the partner of a bracket counts depths and takes whatever bracket comes last if none matches. That is
right because of what is searched: the tokens of a construct are properly nested, and so are its head in front of
parameter declarations, each of its declarators and each declarator in front of its initializer
(`collected_is_nested`). In nested tokens every search ends at the true partner, with nothing left to fall back on
(`Nesting.Nested.paired`).
-/

namespace CHeader

namespace Nesting

/-- Properly nested tokens: each opening bracket has a closing one of its kind behind it, with nested tokens between. -/
inductive Nested : List Token → Prop
  | nil : Nested []
  | plain {t : Token} {ts : List Token} (noBracket : t.kind.isOpening = false ∧ t.kind.isClosing = false)
      (rest : Nested ts) : Nested (t :: ts)
  | group {bracket : Bracket} {opening partner : Token} {inside ts : List Token}
      (isOpening : opening.kind = .opening bracket) (isPartner : partner.kind = .closing bracket)
      (inner : Nested inside) (rest : Nested ts) : Nested (opening :: (inside ++ partner :: ts))

/-! ### Nested tokens leave no bracket open -/

theorem Nested.openBehind? {ts : List Token} (h : Nested ts) : openBehind? [] ts = some [] := by
  induction h with
  | nil => rfl
  | plain noBracket _ ih => rw [openBehind?_cons, openStep_of_noBracket noBracket, Option.bind_some, ih]
  | @group bracket opening partner inside ts isOpening isPartner _ _ ihInner ihRest =>
    have hpartner : openStep [opening] partner = some [] :=
      (openStep_closing_iff (by simp [isPartner, TokenKind.isClosing]) isOpening).2 ⟨isPartner, rfl⟩
    rw [openBehind?_cons, openStep_opening isOpening, Option.bind_some, openBehind?_append,
      openBehind?_of_closed ihInner, Option.bind_some, openBehind?_cons, hpartner, Option.bind_some, ihRest]

/-! ### Tokens that leave no bracket open are nested -/

/-- Nested tokens behind brackets that are open, the innermost first: each has its partner among the tokens, and all
between the partners is nested. -/
inductive NestedBehind : List Token → List Token → Prop
  | nested {ts : List Token} (all : Nested ts) : NestedBehind [] ts
  | partner {bracket : Bracket} {opening partner : Token} {outer inside ts : List Token}
      (isOpening : opening.kind = .opening bracket) (isPartner : partner.kind = .closing bracket)
      (inner : Nested inside) (rest : NestedBehind outer ts) : NestedBehind (opening :: outer) (inside ++ partner :: ts)

namespace NestedBehind

variable {t : Token} {opened ts : List Token}

theorem plain (noBracket : t.kind.isOpening = false ∧ t.kind.isClosing = false) (h : NestedBehind opened ts) :
    NestedBehind opened (t :: ts) := by
  cases h with
  | nested all => exact .nested (.plain noBracket all)
  | partner isOpening isPartner inner rest => exact .partner isOpening isPartner (.plain noBracket inner) rest

/-- With the bracket that is open behind it, a token begins a group. -/
theorem group (h : NestedBehind (t :: opened) ts) : NestedBehind opened (t :: ts) := by
  cases h with
  | @partner _ _ closing _ inside behind isOpening isPartner inner rest =>
    cases rest with
    | nested all => exact .nested (.group isOpening isPartner inner all)
    | @partner _ _ closing' _ inside' _ isOpening' isPartner' inner' rest' =>
      have hgroup : Nested (t :: (inside ++ closing :: inside')) := .group isOpening isPartner inner inner'
      simpa using NestedBehind.partner isOpening' isPartner' hgroup rest'

theorem of_openBehind? (h : openBehind? opened ts = some []) : NestedBehind opened ts := by
  induction ts generalizing opened with
  | nil =>
    cases h
    exact .nested .nil
  | cons t ts ih =>
    rw [openBehind?_cons] at h
    obtain ⟨between, hstep, hts⟩ := Option.bind_eq_some_iff.1 h
    unfold openStep at hstep
    split_ifs at hstep with hopening hclosing
    · cases hstep
      exact (ih hts).group
    · obtain ⟨bracket, hkind⟩ := TokenKind.isClosing_iff.1 hclosing
      cases opened with
      | nil => cases hstep
      | cons opening outer =>
        obtain ⟨hcloses, rfl⟩ : t.kind.closes opening.kind = true ∧ outer = between := by simpa using hstep
        rw [hkind, TokenKind.closes_closing_iff] at hcloses
        exact @NestedBehind.partner _ _ _ _ [] _ hcloses hkind .nil (ih hts)
    · cases hstep
      exact (ih hts).plain (by simp [hopening, hclosing])

end NestedBehind

theorem nested_iff {ts : List Token} : Nested ts ↔ openBehind? [] ts = some [] :=
  ⟨Nested.openBehind?, fun h => by cases NestedBehind.of_openBehind? h with | nested all => exact all⟩

/-- In front of closed tokens, closed tokens are closed. -/
theorem closed_of_append {ts us : List Token} (h : openBehind? [] (ts ++ us) = some []) (hus : openBehind? [] us = some []) :
    openBehind? [] ts = some [] := by
  rw [openBehind?_append] at h
  obtain ⟨opened, hts, hbehind⟩ := Option.bind_eq_some_iff.1 h
  rw [openBehind?_of_closed hus] at hbehind
  rw [hts, hbehind]

end Nesting

namespace Checked

open Nesting (depthBehind openBehind? Nested)

/-! ### The search for a partner -/

/-- The position of the bracket that closes the outermost of those open, or `fallback` if none before `limit` does. -/
def closingOr? (view : View) (limit fallback depth i : Nat) : Option Nat :=
  if i < limit then do
    let t ← view i
    if t.kind.isOpening then closingOr? view limit fallback (depth + 1) (i + 1)
    else if t.kind.isClosing then
      if depth - 1 = 0 then some i else closingOr? view limit fallback (depth - 1) (i + 1)
    else closingOr? view limit fallback depth (i + 1)
  else some fallback
termination_by limit - i

/-- The position of the bracket that closes the one at position `i`, or `fallback` if none before `limit` does. -/
def partnerOr? (view : View) (limit fallback i : Nat) : Option Nat :=
  closingOr? view limit fallback 0 i

/-- What the search for a bracket falls back on is the last position. -/
theorem matching?_eq_partnerOr? (view : View) (limit i : Nat) : matching? view limit i = partnerOr? view limit (limit - 1) i := by
  suffices h : ∀ depth, matchingFrom? view limit depth i = closingOr? view limit (limit - 1) depth i from h 0
  intro depth
  fun_induction closingOr? view limit (limit - 1) depth i with
  | case1 depth i hi ihOpening ihClosing ihPlain =>
    rw [matchingFrom?, if_pos hi, ihOpening, ihClosing, ihPlain]
  | case2 depth i hi => rw [matchingFrom?, if_neg hi]

/-- A token that is not the one searched for. -/
theorem closingOr?_step {view : View} {limit depth i : Nat} {t : Token} (hi : i < limit) (ht : view i = some t)
    (hdepth : depthBehind depth t.kind ≠ 0) (fallback : Nat) :
    closingOr? view limit fallback depth i = closingOr? view limit fallback (depthBehind depth t.kind) (i + 1) := by
  rw [closingOr?, if_pos hi, ht]
  simp only [Option.bind_eq_bind, Option.bind_some]
  unfold depthBehind at hdepth ⊢
  by_cases hopening : t.kind.isOpening = true
  · simp only [if_pos hopening]
  · by_cases hclosing : t.kind.isClosing = true
    · simp only [if_neg hopening, if_pos hclosing] at hdepth ⊢
      rw [if_neg hdepth]
    · simp only [if_neg hopening, if_neg hclosing]

/-- Behind nested tokens, a search that is not over by then goes on with the brackets that are open there. -/
theorem closingOr?_append {view : View} {limit i : Nat} {inside : List Token} (hinside : view.Shows i inside)
    (hlimit : i + inside.length < limit) {opened behind : List Token} (h : openBehind? opened inside = some behind)
    (fallback : Nat) :
    closingOr? view limit fallback (opened.length + 1) i =
      closingOr? view limit fallback (behind.length + 1) (i + inside.length) := by
  induction inside generalizing i opened with
  | nil =>
    obtain rfl : opened = behind := Option.some.inj h
    rfl
  | cons t inside ih =>
    obtain ⟨ht, hinside⟩ := hinside
    rw [Nesting.openBehind?_cons] at h
    obtain ⟨between, hstep, hbehind⟩ := Option.bind_eq_some_iff.1 h
    have hdepth := Nesting.depthBehind_of_openStep hstep 1
    rw [add_length_cons] at hlimit ⊢
    rw [← ih hinside hlimit hbehind, closingOr?_step (by omega) ht (by simp [hdepth]), hdepth]

/-- The search for the partner of a bracket finds it behind the nested tokens that it stands behind. -/
theorem partnerOr?_eq {view : View} {limit i : Nat} {opening partner : Token} {inside rest : List Token}
    (hshows : view.Shows i (opening :: (inside ++ partner :: rest))) (hlimit : i + 1 + inside.length < limit)
    (hopening : opening.kind.isOpening = true) (hpartner : partner.kind.isClosing = true) (hinside : Nested inside)
    (fallback : Nat) : partnerOr? view limit fallback i = some (i + 1 + inside.length) := by
  obtain ⟨hi, hbehind⟩ := hshows
  obtain ⟨hshows, hplace, -⟩ := View.shows_append.1 hbehind
  rw [partnerOr?, closingOr?, if_pos (by omega), hi]
  simp only [Option.bind_eq_bind, Option.bind_some, if_pos hopening]
  have hskip := closingOr?_append hshows hlimit hinside.openBehind? fallback
  rw [List.length_nil] at hskip
  rw [hskip, closingOr?, if_pos hlimit, hplace]
  simp [isOpening_of_isClosing hpartner, hpartner]

end Checked

namespace Nesting

/-- Nested tokens in which every search for the partner of a bracket finds it: the closing bracket of its kind with
nested tokens in between. Up to the end of the tokens it is found wherever these stand, whatever the search falls back
on without one. -/
structure Paired (ts : List Token) : Prop where
  nested : Nested ts
  partner : ∀ {before behind : List Token} {opening : Token}, ts = before ++ opening :: behind →
    opening.kind.isOpening = true → ∃ inside partner rest, behind = inside ++ partner :: rest ∧ Nested inside ∧
      partner.kind.closes opening.kind = true ∧ closing 1 behind = inside ++ [partner] ∧
      ∀ (view : Checked.View) (i : Nat), view.Shows i ts →
        let place := i + before.length + 1 + inside.length
        view place = some partner ∧ Checked.matching? view (i + ts.length) (i + before.length) = some place ∧
          ∀ fallback, Checked.partnerOr? view (i + ts.length) fallback (i + before.length) = some place

/-- In nested tokens every bracket is found by its partner. -/
theorem Nested.paired {ts : List Token} (h : Nested ts) : Paired ts := by
  refine ⟨h, ?_⟩
  rintro before behind opening rfl hopening
  obtain ⟨bracket, hkind⟩ := TokenKind.isOpening_iff.1 hopening
  have hclosed := h.openBehind?
  rw [openBehind?_append] at hclosed
  obtain ⟨opened, -, hclosed⟩ := Option.bind_eq_some_iff.1 hclosed
  rw [openBehind?_cons, openStep_opening hkind, Option.bind_some] at hclosed
  obtain _ | @⟨_, _, partner, _, inside, rest, hkind, hpartner, hinside, -⟩ := NestedBehind.of_openBehind? hclosed
  have hclosing : partner.kind.isClosing = true := by simp [hpartner, TokenKind.isClosing]
  have hcloses : partner.kind.closes opening.kind = true := by simp [hpartner, hkind, TokenKind.closes]
  refine ⟨inside, partner, rest, rfl, hinside, hcloses, closing_of_nested hinside.openBehind? hclosing rest, ?_⟩
  intro view i hshows
  obtain ⟨-, hshows⟩ := Checked.View.shows_append.1 hshows
  have hlimit : i + before.length + 1 + inside.length < i + (before ++ opening :: (inside ++ partner :: rest)).length := by
    simp
    omega
  have hfound := fun fallback => Checked.partnerOr?_eq hshows hlimit hopening hclosing hinside fallback
  refine ⟨?_, ?_, hfound⟩
  · obtain ⟨-, hbehind⟩ := hshows
    exact (Checked.View.shows_append.1 hbehind).2.1
  · rw [Checked.matching?_eq_partnerOr?]
    exact hfound _

/-! ### Parts of nested tokens -/

/-- What stands before the first token of a kind outside the groups is closed, or there is no such token. -/
theorem closed_breakAt {kind : TokenKind} {opened ts : List Token} (h : openBehind? opened ts = some []) :
    openBehind? opened (breakAt kind opened.length ts).1 = some [] := by
  induction ts generalizing opened with
  | nil => exact h
  | cons t ts ih =>
    rw [breakAt]
    split_ifs with hfound
    · rw [List.length_eq_zero_iff.1 hfound.1]
      rfl
    · rw [openBehind?_cons] at h ⊢
      obtain ⟨between, hstep, hts⟩ := Option.bind_eq_some_iff.1 h
      rw [hstep, Option.bind_some, length_of_openStep hstep]
      exact ih hts

/-- Between the commas outside the groups all brackets are closed, but for those that are open before the first piece. -/
theorem closed_splitCommas (stop : Token) {opened ts : List Token} (h : openBehind? opened ts = some []) :
    ∃ first others, splitCommas stop opened.length ts = first :: others ∧ openBehind? opened first.tokens = some [] ∧
      ∀ piece ∈ others, openBehind? [] piece.tokens = some [] := by
  induction ts generalizing opened with
  | nil => exact ⟨_, [], rfl, h, by simp⟩
  | cons t ts ih =>
    rw [openBehind?_cons] at h
    obtain ⟨between, hstep, hts⟩ := Option.bind_eq_some_iff.1 h
    rw [splitCommas]
    split_ifs with hcomma
    · have hopened : opened = [] := List.length_eq_zero_iff.1 hcomma.1
      have hplain : t.kind.isOpening = false ∧ t.kind.isClosing = false := by
        simp [hcomma.2, TokenKind.isOpening, TokenKind.isClosing]
      rw [openStep_of_noBracket hplain, hopened] at hstep
      cases hstep
      obtain ⟨first, others, hsplit, hfirst, hothers⟩ := ih hts
      rw [List.length_nil] at hsplit
      rw [hopened, hsplit]
      exact ⟨_, _, rfl, rfl, List.forall_mem_cons.2 ⟨hfirst, hothers⟩⟩
    · obtain ⟨first, others, hsplit, hfirst, hothers⟩ := ih hts
      rw [length_of_openStep hstep, hsplit]
      exact ⟨_, others, rfl, by rw [openBehind?_cons, hstep, Option.bind_some, hfirst], hothers⟩

end Nesting

open Nesting (Nested Outside Paired Piece closed_of_append nested_iff openBehind?)

/-! ### Parts of a construct -/

/-- The specifiers leave closed tokens. -/
theorem Specifiers.closed_behind (markers : Bool) {ts : List Token} (h : openBehind? [] ts = some []) :
    openBehind? [] (Shape.behindSpecifiers (.ofTokens markers ts) ts) = some [] := by
  suffices hdrop : ∀ typed behindExtern,
      openBehind? [] (ts.drop (take markers typed behindExtern ts).tokens.length) = some [] from hdrop false false
  intro typed behindExtern
  fun_induction take markers typed behindExtern ts with
  | case1 => exact h
  | case2 typed behindExtern t ts s hs ih =>
    obtain ⟨inner, hinner⟩ := List.head?_eq_some_iff.1 (Specifier.prefix_of_first? hs).2
    have hdrop : (t :: ts).drop s.tokens.length = ts.drop (s.tokens.length - 1) := by simp [hinner]
    have hrest := Specifier.openBehind?_of_first? h hs
    rw [hdrop] at hrest
    have htokens : tokens (s :: take markers (typed || s.isType) (decide (t.kind = .keyword .externKw))
        (ts.drop (s.tokens.length - 1))) = s.tokens ++ tokens (take markers (typed || s.isType)
        (decide (t.kind = .keyword .externKw)) (ts.drop (s.tokens.length - 1))) := List.flatMap_cons
    rw [htokens, List.length_append, ← List.drop_drop, hdrop]
    exact ih hrest
  | case3 => exact h

namespace Shape

/-- Only the parenthesis that is found is open in front of what is behind it. -/
theorem closed_of_behindNamedParen? {opened ts behind : List Token} {before : Option Token}
    (h : openBehind? opened ts = some []) (hfound : behindNamedParen? opened.length before ts = some behind) :
    ∃ opening, openBehind? [opening] behind = some [] := by
  induction ts generalizing opened before with
  | nil => cases hfound
  | cons t ts ih =>
    rw [behindNamedParen?] at hfound
    rw [Nesting.openBehind?_cons] at h
    obtain ⟨between, hstep, hts⟩ := Option.bind_eq_some_iff.1 h
    split_ifs at hfound with hparen
    · cases hfound
      obtain ⟨⟨hdepth, hopening⟩, -⟩ : (opened.length = 0 ∧ t.kind = .opening .paren) ∧ before.any Token.isName = true := by
        simpa using hparen
      rw [Nesting.openStep_opening hopening, List.length_eq_zero_iff.1 hdepth] at hstep
      cases hstep
      exact ⟨t, hts⟩
    · rw [Nesting.length_of_openStep hstep] at hfound
      exact ih hts hfound

/-- Parameter declarations that begin in closed tokens are closed, and so is the head before them. -/
theorem closed_of_parameterDeclarations? {markers : Bool} {head parameters : List Token}
    (h : openBehind? [] (head ++ parameters) = some [])
    (hfound : parameterDeclarations? markers (head ++ parameters) = some parameters) : openBehind? [] head = some [] := by
  refine closed_of_append h ?_
  simp only [parameterDeclarations?] at hfound
  split_ifs at hfound
  obtain ⟨group, hgroup, hbegun⟩ := Option.bind_eq_some_iff.1 hfound
  split_ifs at hbegun
  obtain ⟨opening, hopening⟩ := @closed_of_behindNamedParen? [] _ _ _ (Specifiers.closed_behind markers h) hgroup
  have hclosed := (Nesting.closing_of_closed hopening (Nat.le_refl 1) []).2
  rwa [Option.some.inj hbegun] at hclosed

end Shape

/-- All tokens of a construct: those before the body of a function, or through the semicolon. -/
def Construct.tokens (c : Construct) : List Token :=
  c.head ++ c.parameters ++ Checked.semicolon c

/-- The declarators behind the specifiers of nested tokens are nested, with their initializers and without. -/
theorem paired_declarators {markers : Bool} {stop : Token} {ts : List Token} {piece : Piece} (h : Nested ts)
    (hpiece : piece ∈ declarators stop (Shape.behindSpecifiers (.ofTokens markers ts) ts)) :
    Paired piece.tokens ∧ Paired piece.declaring := by
  have hbehind := Specifiers.closed_behind markers h.openBehind?
  unfold declarators at hpiece
  split_ifs at hpiece
  · cases hpiece
  · obtain ⟨first, others, hsplit, hfirst, hothers⟩ := Nesting.closed_splitCommas stop hbehind
    rw [List.length_nil] at hsplit
    rw [hsplit] at hpiece
    have hpieces : ∀ piece ∈ first :: others, openBehind? [] piece.tokens = some [] :=
      List.forall_mem_cons.2 ⟨hfirst, hothers⟩
    have hclosed := hpieces piece hpiece
    exact ⟨(nested_iff.2 hclosed).paired, (nested_iff.2 (@Nesting.closed_breakAt (.punct .eq) [] _ hclosed)).paired⟩

namespace Outline.Collected

variable {markers : Bool} {c : Collected} {ending : Ending} {behind : List Token}

/-- The head of a construct is closed, with its parameter declarations and without. -/
theorem Divided.closed (h : c.Divided markers) (hends : c.Ends markers ending behind) :
    openBehind? [] c.tokens.reverse = some [] ∧ openBehind? [] (c.finish ending).head = some [] := by
  have hclosed : openBehind? [] c.tokens.reverse = some [] := by rw [h.opened, Checked.opened_of_ends hends]
  refine ⟨hclosed, ?_⟩
  obtain ⟨hwhole, hshape | hshape⟩ := h.finish hends
  · rwa [← hwhole, hshape.parameters, List.append_nil] at hclosed
  · obtain ⟨begun, semi, between, -, -, -, hdivision⟩ := hshape.parts
    exact Shape.closed_of_parameterDeclarations? hdivision.closed hdivision.found

end Outline.Collected

/-- How a run of tokens ends behind the tokens of its construct: with nothing more, or with the braces of a body and
what stands in them. -/
def Construct.EndsRun (c : Construct) (behind : List Token) : Prop :=
  match c.ending with
  | .semicolon _ => behind = []
  | .body brace close => ∃ inside, behind = brace :: (inside ++ [close])

/-- Every construct that is collected is well nested: all its tokens are, and its head in front of parameter
declarations, and each declarator behind the specifiers of its tokens so far, in front of its initializer and whole. In
all of them the search for the partner of a bracket finds it. If the construct has no body, then of the semicolons outside
all groups it has just the one that it ends with. -/
theorem collected_is_nested {markers : Bool} {first : Token} {ts run rest : List Token} {c : Construct}
    (hfirst : first.kind.canStartDeclaration = true)
    (h : Outline.collect markers first (.start first) ts = (.construct run c, rest)) :
    (∃ before behind, run = before ++ behind ∧ before.filter (·.isSignificant) = c.tokens ∧ c.EndsRun behind) ∧
      Paired c.tokens ∧ Paired c.head ∧
      (∀ front, front <+: c.tokens → Nested front → ∀ stop,
        ∀ piece ∈ declarators stop (Shape.behindSpecifiers (.ofTokens markers front) front),
          Paired piece.tokens ∧ Paired piece.declaring) ∧
      (c.hasBody = false → ∃ semi, c.tokens = c.head ++ [semi] ∧ semi.kind = .punct .semi ∧
        Outside (·.kind ≠ .punct .semi) 0 c.head) := by
  obtain ⟨collected, ending, behind, hdivided, rfl, rfl, hends⟩ :=
    Outline.exists_finish_of_collect (fun hgrows hdivided => hdivided.grows hgrows)
      (Outline.Collected.divided_start hfirst markers) h
  obtain ⟨hclosed, hhead⟩ := hdivided.closed hends
  have htokens : (collected.finish ending).tokens = collected.tokens.reverse ++ Checked.semicolon (collected.finish ending) := by
    rw [Construct.tokens, (hdivided.finish hends).1]
  have hfronts : ∀ front, front <+: (collected.finish ending).tokens → Nested front → ∀ stop,
      ∀ piece ∈ declarators stop (Shape.behindSpecifiers (.ofTokens markers front) front),
        Paired piece.tokens ∧ Paired piece.declaring :=
    fun _ _ hnested _ _ hpiece => paired_declarators hnested hpiece
  cases hends with
  | @semicolon t verdict =>
    obtain ⟨hsemi, -, hundivided, -⟩ := Outline.Collected.of_verdict_eq_ends verdict
    have hplain : t.kind.isOpening = false ∧ t.kind.isClosing = false := by
      simp [hsemi, TokenKind.isOpening, TokenKind.isClosing]
    have hsignificant : t.isSignificant = true := by simp [Token.isSignificant, hsemi]
    have hall : openBehind? [] (collected.finish (.semicolon t)).tokens = some [] := by
      rw [htokens, Nesting.openBehind?_append, hclosed, Option.bind_some]
      exact Nesting.openBehind?_of_noBrackets (by simpa [Checked.semicolon, Outline.Collected.finish] using hplain) []
    have hwhole : (collected.finish (.semicolon t)).head = collected.tokens.reverse := by
      simp [Outline.Collected.finish, hundivided]
    refine ⟨⟨collected.met.reverse ++ [t], [], by simp, ?_, rfl⟩, (nested_iff.2 hall).paired, (nested_iff.2 hhead).paired,
      hfronts, fun _ => ⟨t, ?_, hsemi, ?_⟩⟩
    · rw [htokens, List.filter_append, hdivided.met]
      simp [hsignificant, Checked.semicolon, Outline.Collected.finish]
    · rw [htokens, hwhole]
      rfl
    · rw [hwhole]
      exact hdivided.whole hundivided
  | @body brace inside close verdict =>
    have hall : (collected.finish (.body brace close)).tokens = collected.tokens.reverse := by
      rw [htokens]
      exact List.append_nil _
    refine ⟨⟨collected.met.reverse, _, rfl, by rw [hall, hdivided.met], inside, rfl⟩, ?_, (nested_iff.2 hhead).paired,
      hfronts, fun hbody => by cases hbody⟩
    rw [hall]
    exact (nested_iff.2 hclosed).paired

/-- A definition in the old style, with brackets of all kinds in it. -/
theorem collected_is_nested_old_style :
    let tokens := (tokenize "int f(a, b) int a[2]; struct \x7b int (*g)(int); \x7d b; \x7b \x7d").toOption.getD []
    ∃ first run c rest, tokens.head? = some first ∧
      Outline.collect true first (.start first) tokens.tail = (.construct run c, rest) ∧
      c.parameters ≠ [] ∧ Paired c.tokens ∧ Paired c.head := by
  intro tokens
  obtain ⟨first, hhead, hfirst, c, hc, hparameters⟩ : ∃ first ∈ tokens.head?, first.kind.canStartDeclaration = true ∧
      ∃ c ∈ (Outline.collect true first (.start first) tokens.tail).1.construct?, c.parameters ≠ [] := by
    decide +kernel
  cases hcollect : Outline.collect true first (.start first) tokens.tail with
  | mk item rest =>
    rw [hcollect] at hc
    cases item with
    | construct run found =>
      obtain rfl : found = c := Option.some.inj hc
      obtain ⟨-, htokens, hpaired, -⟩ := collected_is_nested hfirst hcollect
      exact ⟨first, run, found, rest, hhead, hcollect, hparameters, htokens, hpaired⟩
    | directive | skipped | malformed => cases hc

end CHeader
