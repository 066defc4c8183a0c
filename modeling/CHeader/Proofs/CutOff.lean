import CHeader.Proofs.Resuming

/-!
# Declarations that are cut off

A construct that cannot be continued is given up at a bracket, and what follows is passed over up to a semicolon or a brace.
How far that goes is told by the braces that are taken for open there. Where braces are balanced, they are never more than
are open (`Outline.openBraces_le_of_unbalanced`), but for one case: a brace closes where a parenthesis or a square bracket is
open before it. And while such a bracket is open, a construct goes on behind every semicolon. So all runs of a text end
within it, unless a declaration is cut off (`outline_within`): it has begun, and the text, or a brace around it, ends where a
parenthesis or a square bracket is still open, or before anything has ended it (`NoneCutOff`).

Declarations begin behind semicolons and braces. But a construct leaves no brace open behind it, except for one behind which
it was given up (`Outline.collect_within`). So none begins inside of a brace, as in the body of a function, unless the brace
opens a block of `extern "C"` or the brackets inside of it do not fit (`BeforeDeclaration`).

Which tokens a declaration begins with is exactly what is collected of one (`Outline.Collected.unfinished`,
`Outline.collect_of_unfinished`). One that is cut off inside a bracket takes in whatever follows (`external_of_unclosed`).
-/

namespace CHeader

open Nesting (openBehind? braces breakAt Outside)

/-! ### Declarations that are cut off -/

/-- Tokens are split at one of their places. -/
theorem forall_eq_append_iff {P : List Token → List Token → Prop} {ts : List Token} :
    (∀ front rest, ts = front ++ rest → P front rest) ↔ ∀ n < ts.length + 1, P (ts.take n) (ts.drop n) := by
  constructor
  · intro h n _
    exact h _ _ (List.take_append_drop n ts).symm
  · rintro h front rest rfl
    simpa using h front.length (by rw [List.length_append]; omega)

instance {P : List Token → List Token → Prop} [∀ front rest, Decidable (P front rest)] (ts : List Token) :
    Decidable (∀ front rest, ts = front ++ rest → P front rest) :=
  decidable_of_iff' _ forall_eq_append_iff

/-- Tokens are split before one of them. -/
theorem forall_eq_append_cons_iff {P : List Token → Token → List Token → Prop} {ts : List Token} :
    (∀ before t behind, ts = before ++ t :: behind → P before t behind) ↔
      ∀ before behind, ts = before ++ behind → ∀ t ∈ behind.head?, P before t behind.tail := by
  constructor
  · rintro h before behind hsplit t ht
    obtain ⟨behind, rfl⟩ := List.head?_eq_some_iff.1 ht
    exact h before t behind hsplit
  · intro h before t behind hsplit
    exact h before (t :: behind) hsplit t rfl

instance {P : List Token → Token → List Token → Prop} [∀ before t behind, Decidable (P before t behind)] (ts : List Token) :
    Decidable (∀ before t behind, ts = before ++ t :: behind → P before t behind) :=
  decidable_of_iff' _ forall_eq_append_cons_iff

/-- Do tokens end with an `extern` and a string, where a declaration may begin? -/
def opensLinkage (before : List Token) : Bool :=
  match before.reverse with
  | ⟨.stringLiteral _, _, _, _, _⟩ :: ⟨.keyword .externKw, _, _, _, _⟩ :: outer =>
    outer.head?.all fun t => t.kind = .punct .semi ∨ t.IsBrace
  | _ => false

/-- Tokens behind which a declaration may begin: none, or some that end with a semicolon or a brace. -/
structure BeforeDeclaration (front : List Token) : Prop where
  boundary : ∀ t ∈ front.getLast?, t.kind = .punct .semi ∨ t.IsBrace
  /-- A brace that is open behind them is one of `extern "C" {`, or the brackets behind it do not fit. -/
  entered : ∀ before brace inside, front = before ++ brace :: inside → brace.kind = .opening .brace →
    (openBehind? [] (braces inside)).isSome → opensLinkage before = true ∨ openBehind? [] inside = none

instance (front : List Token) : Decidable (BeforeDeclaration front) :=
  decidable_of_iff' ((∀ t ∈ front.getLast?, _) ∧ ∀ before brace inside, front = before ++ brace :: inside → _)
    ⟨fun h => ⟨h.boundary, h.entered⟩, fun h => ⟨h.1, h.2⟩⟩

/-- What stands before an opening brace outside all brackets asks for one: for the body of an aggregate or an initializer,
and not for the body of a function. -/
def BracesExpected (markers : Bool) (piece : List Token) : Prop :=
  ∀ before brace behind, piece = before ++ brace :: behind → brace.kind = .opening .brace →
    openBehind? [] before = some [] → Shape.expectsBrace markers brace before = true

instance (markers : Bool) (piece : List Token) : Decidable (BracesExpected markers piece) :=
  inferInstanceAs (Decidable (∀ before brace behind, piece = before ++ brace :: behind → _))

/-- Tokens that begin a declaration and do not finish it. -/
structure Unfinished (markers : Bool) (piece : List Token) : Prop where
  begins : piece.head?.any (·.kind.canStartDeclaration)
  expected : BracesExpected markers piece
  /-- If a semicolon stands outside all brackets, it ends a parameter in the old style, and no body has begun behind it. -/
  undivided : (breakAt (.punct .semi) 0 piece).2 = [] ∨
    (Shape.parameterDeclarations? markers (breakAt (.punct .semi) 0 piece).1).isSome ∧
      Outside (·.kind ≠ .opening .brace) 0 (breakAt (.punct .semi) 0 piece).2

instance (markers : Bool) (piece : List Token) : Decidable (Unfinished markers piece) :=
  decidable_of_iff' (piece.head?.any (·.kind.canStartDeclaration) = true ∧ BracesExpected markers piece ∧ (_ ∨ _ ∧ _))
    ⟨fun h => ⟨h.begins, h.expected, h.undivided⟩, fun h => ⟨h.1, h.2.1, h.2.2⟩⟩

/-- What stands behind the beginning of a declaration goes on with it. -/
structure GoesOn (piece behind : List Token) : Prop where
  /-- Where a parenthesis or a square bracket is open, the tokens do not end, and no brace closes. -/
  bracket : ∀ opened ∈ openBehind? [] piece, ∀ opening ∈ opened.head?, opening.kind ≠ .opening .brace →
    ∃ next ∈ behind.head?, next.kind ≠ .closing .brace
  /-- Outside all brackets, the tokens do not end, and neither do they with a brace that closes. -/
  outside : openBehind? [] piece = some [] → ∃ next ∈ behind.head?, next.kind = .closing .brace → behind.tail ≠ []

instance (piece behind : List Token) : Decidable (GoesOn piece behind) :=
  decidable_of_iff' ((∀ opened ∈ openBehind? [] piece, _) ∧ (openBehind? [] piece = some [] → _))
    ⟨fun h => ⟨h.bracket, h.outside⟩, fun h => ⟨h.1, h.2⟩⟩

/-- Wherever a declaration may have begun, the tokens go on with it. -/
def NoneCutOff (markers : Bool) (ts : List Token) : Prop :=
  ∀ front rest, ts = front ++ rest → BeforeDeclaration front → ∀ piece behind, rest = piece ++ behind →
    Unfinished markers piece → GoesOn piece behind

instance (markers : Bool) (ts : List Token) : Decidable (NoneCutOff markers ts) :=
  inferInstanceAs (Decidable (∀ front rest, ts = front ++ rest → _))

/-! ### Where a declaration may begin -/

/-- A token of two stretches stands in the one or in the other. -/
theorem append_eq_append_cons {ts us before behind : List Token} {t : Token} (h : ts ++ us = before ++ t :: behind) :
    (∃ more, before = ts ++ more ∧ us = more ++ t :: behind) ∨ ∃ more, ts = before ++ t :: more ∧ behind = more ++ us := by
  obtain ⟨more, rfl, hmore⟩ | ⟨more, rfl, hmore⟩ := List.append_eq_append_iff.1 h
  · exact .inl ⟨more, rfl, hmore⟩
  · cases more with
    | nil => exact .inl ⟨[], by simp, hmore.symm⟩
    | cons u more =>
      rw [List.cons_append] at hmore
      obtain ⟨rfl, rfl⟩ := List.cons.inj hmore
      exact .inr ⟨more, rfl, rfl⟩

/-- Braces that some tokens open and leave open have brackets behind them that do not fit. -/
def OpenOnMisfit (ts : List Token) : Prop :=
  ∀ before brace inside, ts = before ++ brace :: inside → brace.kind = .opening .brace →
    (openBehind? [] (braces inside)).isSome → openBehind? [] inside = none

theorem openOnMisfit_nil : OpenOnMisfit [] := by
  intro before brace inside hsplit
  simp at hsplit

theorem OpenOnMisfit.append {ts us : List Token} (hus : OpenOnMisfit us)
    (hts : ∀ before brace inside, ts = before ++ brace :: inside → brace.kind = .opening .brace →
      openBehind? [] (inside ++ us) = none) : OpenOnMisfit (ts ++ us) := by
  intro before brace inside hsplit hbrace hinside
  obtain ⟨more, rfl, hmore⟩ | ⟨more, rfl, rfl⟩ := append_eq_append_cons hsplit
  · exact hus more brace inside hmore hbrace hinside
  · exact hts before brace more rfl hbrace

theorem OpenOnMisfit.cons {t : Token} {ts : List Token} (ht : t.kind ≠ .opening .brace) (hts : OpenOnMisfit ts) :
    OpenOnMisfit (t :: ts) := by
  rw [← List.singleton_append]
  refine hts.append fun before brace inside hsplit hbrace => ?_
  obtain ⟨rfl, rfl, rfl⟩ : before = [] ∧ brace = t ∧ inside = [] := by simpa [List.singleton_eq_append_iff] using hsplit
  exact absurd hbrace ht

/-- Braces that are all closed again are not left open. -/
theorem openOnMisfit_of_closed {opened ts : List Token} (h : openBehind? opened (braces ts) = some []) : OpenOnMisfit ts := by
  rintro before brace inside rfl hbrace hinside
  obtain ⟨left, hleft⟩ := Option.isSome_iff_exists.1 hinside
  rw [Nesting.braces_append, Nesting.braces_cons, if_pos (.inl hbrace)] at h
  obtain ⟨outer, houter⟩ := Nesting.exists_outer_of_openBehind? hbrace h hleft
  simp at houter

theorem BeforeDeclaration.nil : BeforeDeclaration [] :=
  ⟨by simp, by simp⟩

theorem BeforeDeclaration.append {front ts : List Token} (h : BeforeDeclaration front)
    (hends : ∃ t ∈ ts.getLast?, t.kind = .punct .semi ∨ t.IsBrace)
    (hentered : ∀ before brace inside, ts = before ++ brace :: inside → brace.kind = .opening .brace →
      (openBehind? [] (braces inside)).isSome → opensLinkage (front ++ before) = true ∨ openBehind? [] inside = none) :
    BeforeDeclaration (front ++ ts) := by
  obtain ⟨last, hlast, hend⟩ := hends
  constructor
  · intro t ht
    rw [List.getLast?_append, Option.mem_def.1 hlast] at ht
    cases ht
    exact hend
  · intro before brace inside hsplit hbrace hinside
    obtain ⟨more, rfl, hmore⟩ | ⟨more, rfl, rfl⟩ := append_eq_append_cons hsplit
    · exact hentered more brace inside hmore hbrace hinside
    · rw [Nesting.braces_append, Nesting.openBehind?_append] at hinside
      obtain ⟨left, hleft, -⟩ := Option.bind_eq_some_iff.1 (Option.isSome_iff_exists.1 hinside).choose_spec
      refine (h.entered before brace more rfl hbrace (by simp [hleft])).imp_right fun hnone => ?_
      rw [Nesting.openBehind?_append, hnone]
      rfl

/-- A declaration may begin behind another one that leaves no brace open, or only one behind which brackets do not fit. -/
theorem BeforeDeclaration.append_of_end {front taken : List Token} (h : BeforeDeclaration front)
    (hends : ∃ t ∈ taken.getLast?, t.IsEnd) (hmisfit : OpenOnMisfit (taken.filter (·.isSignificant))) :
    BeforeDeclaration (front ++ taken.filter (·.isSignificant)) := by
  obtain ⟨t, ht, hend⟩ := hends
  obtain ⟨init, rfl⟩ := List.getLast?_eq_some_iff.1 ht
  have hsignificant : t.isSignificant = true := by
    rcases hend with hkind | hkind <;> simp [Token.isSignificant, hkind]
  refine h.append ⟨t, by simp [hsignificant], hend.imp_right .inr⟩ ?_
  exact fun before brace inside hsplit hbrace hinside => .inr (hmisfit before brace inside hsplit hbrace hinside)

namespace Outline

/-! ### One run -/

/-- Passing over stops at a token, or it goes on with as many more braces taken for open as the token leaves more open. -/
theorem recovery_step (depth : Nat) {t : Token} (ht : t.kind ≠ .eof) :
    (t.IsEnd ∧ (∀ ts, recovery depth (t :: ts) = [t]) ∧
      ∀ stack : List Token, stack.length < depth → openBehind? stack (braces [t]) = none) ∨
    ∃ depth', (∀ ts, recovery depth (t :: ts) = t :: recovery depth' ts) ∧ (t.IsEnd → 0 < depth') ∧
      ∀ stack stack', openBehind? stack (braces [t]) = some stack' → depth' + stack.length = depth + stack'.length := by
  by_cases hopening : t.kind = .opening .brace
  · refine .inr ⟨depth + 1, fun ts => by simp [recovery, hopening], fun _ => depth.succ_pos, fun stack stack' h => ?_⟩
    rw [Nesting.braces_cons, if_pos (.inl hopening), Nesting.openBehind?_cons, Nesting.openStep_opening hopening] at h
    cases h
    rw [List.length_cons]
    omega
  by_cases hclosing : t.kind = .closing .brace
  · have hstep : ∀ {stack : List Token}, openBehind? stack (braces [t]) = Nesting.openStep stack t := by
      intro stack
      rw [Nesting.braces_cons, if_pos (.inr hclosing), Nesting.openBehind?_cons]
      exact Option.bind_fun_some _
    have hnil : Nesting.openStep [] t = none := by simp [Nesting.openStep, hclosing, TokenKind.isOpening, TokenKind.isClosing]
    by_cases hone : depth ≤ 1
    · refine .inl ⟨.inr hclosing, fun ts => by simp [recovery, hclosing, hone], fun stack hstack => ?_⟩
      obtain rfl : stack = [] := List.length_eq_zero_iff.1 (by omega)
      rw [hstep, hnil]
    · refine .inr ⟨depth - 1, fun ts => by simp [recovery, hclosing, hone], fun _ => by omega, fun stack stack' h => ?_⟩
      rw [hstep] at h
      have hlength := Nesting.length_of_openStep h
      cases stack with
      | nil => cases hnil.symm.trans h
      | cons opening stack =>
        simp only [Nesting.depthBehind, hclosing, TokenKind.isOpening, TokenKind.isClosing] at hlength
        simp at hlength ⊢
        omega
  have hnone : braces [t] = [] := by simp [Nesting.braces_cons, Token.IsBrace, hopening, hclosing]
  have hsame : ∀ stack stack', openBehind? stack (braces [t]) = some stack' → depth + stack.length = depth + stack'.length := by
    intro stack stack' h
    rw [hnone] at h
    cases h
    rfl
  by_cases hsemi : t.kind = .punct .semi
  · by_cases hzero : depth = 0
    · exact .inl ⟨.inl hsemi, fun ts => by simp [recovery, hsemi, hzero], fun stack hstack => by omega⟩
    · exact .inr ⟨depth, fun ts => by simp [recovery, hsemi, hzero], fun _ => by omega, hsame⟩
  · refine .inr ⟨depth, fun ts => ?_, fun hend => (hend.elim hsemi hclosing).elim, hsame⟩
    rw [recovery]
    split <;> simp_all

/-- Tokens that end with a semicolon or a closing brace and close all braces that are open before them are not passed over
to their end and further, if no more braces are taken for open than there are. -/
theorem recovery_within {ts stack : List Token} {depth : Nat} (hbalanced : openBehind? stack (braces ts) = some [])
    (hdepth : depth ≤ stack.length) (heof : ∀ t ∈ ts, t.kind ≠ .eof) (hends : ∃ t ∈ ts.getLast?, t.IsEnd) :
    ∃ passed rest, ts = passed ++ rest ∧ (∃ t ∈ passed.getLast?, t.IsEnd) ∧
      ∀ more, recovery depth (passed ++ more) = passed := by
  induction ts generalizing stack depth with
  | nil => simp at hends
  | cons t ts ih =>
    obtain ⟨ht, heof⟩ := List.forall_mem_cons.1 heof
    rw [← List.singleton_append, Nesting.braces_append, Nesting.openBehind?_append] at hbalanced
    obtain ⟨stack', hstack, hbalanced⟩ := Option.bind_eq_some_iff.1 hbalanced
    rcases recovery_step depth ht with ⟨hend, hstops, -⟩ | ⟨depth', hstep, hpositive, hlength⟩
    · exact ⟨[t], ts, rfl, ⟨t, rfl, hend⟩, hstops⟩
    · have hdepth' := hlength stack stack' hstack
      have hne : ts ≠ [] := by
        rintro rfl
        cases hbalanced
        obtain ⟨u, hu, hend⟩ := hends
        obtain rfl : t = u := by simpa using hu
        have hmore := hpositive hend
        rw [List.length_nil] at hdepth'
        omega
      rw [List.getLast?_cons_of_ne_nil hne] at hends
      obtain ⟨passed, rest, rfl, ⟨u, hu, hend⟩, hpassed⟩ := @ih stack' depth' hbalanced (by omega) heof hends
      exact ⟨t :: passed, rest, rfl, ⟨u, List.mem_getLast?_cons hu, hend⟩, fun more => by
        rw [List.cons_append, hstep, hpassed]⟩

theorem recovery_tail {depth depth' : Nat} {t : Token} {passed : List Token}
    (hstep : ∀ ts, recovery depth (t :: ts) = t :: recovery depth' ts)
    (hpassed : ∀ more, recovery depth (t :: passed ++ more) = t :: passed) (more : List Token) :
    recovery depth' (passed ++ more) = passed :=
  (List.cons.inj ((hstep (passed ++ more)).symm.trans (hpassed more))).2

/-- What is passed over with braces taken for open closes as many as those. -/
theorem recovery_closes {passed : List Token} {depth : Nat} (heof : ∀ t ∈ passed, t.kind ≠ .eof)
    (hpassed : ∀ more, recovery depth (passed ++ more) = passed) {stack : List Token} (hstack : stack.length < depth) :
    openBehind? stack (braces passed) = none := by
  induction passed generalizing depth stack with
  | nil =>
    obtain ⟨behind, hbehind⟩ := recovery_cons depth (t := ⟨.punct .semi, "", default, 0, false⟩) (by simp) []
    cases hbehind.symm.trans (hpassed _)
  | cons t passed ih =>
    obtain ⟨ht, heof⟩ := List.forall_mem_cons.1 heof
    rw [← List.singleton_append, Nesting.braces_append, Nesting.openBehind?_append, Option.bind_eq_none_iff]
    intro stack' hstack'
    rcases recovery_step depth ht with ⟨-, -, hnone⟩ | ⟨depth', hstep, -, hlength⟩
    · cases (hnone stack hstack).symm.trans hstack'
    · have hdepth : stack'.length < depth' := by
        have hlength' := hlength stack stack' hstack'
        omega
      exact ih heof (recovery_tail hstep hpassed) hdepth

/-- What is passed over is passed over from each of its tokens on. -/
theorem recovery_behind {before behind : List Token} {depth : Nat} (heof : ∀ t ∈ before, t.kind ≠ .eof) (hne : behind ≠ [])
    (hpassed : ∀ more, recovery depth (before ++ behind ++ more) = before ++ behind) :
    ∃ depth', ∀ more, recovery depth' (behind ++ more) = behind := by
  induction before generalizing depth with
  | nil => exact ⟨depth, hpassed⟩
  | cons t before ih =>
    obtain ⟨ht, heof⟩ := List.forall_mem_cons.1 heof
    rcases recovery_step depth ht with ⟨-, hstops, -⟩ | ⟨depth', hstep, -⟩
    · have hnone := (List.cons.inj ((hstops _).symm.trans (hpassed []))).2
      exact absurd (List.append_eq_nil_iff.1 hnone.symm).2 hne
    · exact ih heof (recovery_tail hstep hpassed)

/-- What is passed over leaves none of its braces open. -/
theorem openOnMisfit_recovery {passed : List Token} {depth : Nat} (heof : ∀ t ∈ passed, t.kind ≠ .eof)
    (hpassed : ∀ more, recovery depth (passed ++ more) = passed) : OpenOnMisfit (passed.filter (·.isSignificant)) := by
  intro before brace inside hsplit hbrace hinside
  obtain ⟨before, behind, rfl, -, hbehind⟩ := List.filter_eq_append_iff.1 hsplit
  obtain ⟨between, behind, rfl, -, -, rfl⟩ := List.filter_eq_cons_iff.1 hbehind
  obtain ⟨depth, hpassed⟩ := @recovery_behind (before ++ between) (brace :: behind) depth
    (fun t ht => heof t (by simpa using Or.imp_right .inl (List.mem_append.1 ht))) (by simp) (by simpa using hpassed)
  rw [Nesting.braces_filter_isSignificant] at hinside
  rcases recovery_step depth (t := brace) (by simp [hbrace]) with ⟨hend, -⟩ | ⟨depth', hstep, -, hlength⟩
  · rcases hend with hend | hend <;> simp [hbrace] at hend
  · have hdepth := hlength [] [brace] (by
      rw [Nesting.braces_cons, if_pos (.inl hbrace), Nesting.openBehind?_cons, Nesting.openStep_opening hbrace]
      rfl)
    have hnone := @recovery_closes behind depth' (fun t ht => heof t (by simp [ht])) (recovery_tail hstep hpassed) []
      (by simp at hdepth ⊢; omega)
    simp [hnone] at hinside

namespace Collected

variable {markers : Bool} {c c' : Collected} {t : Token}

theorem Grows.bracesExpected (h : Grows markers c t c') (hdivided : c.Divided markers)
    (hexpected : BracesExpected markers c.tokens.reverse) : BracesExpected markers c'.tokens.reverse := by
  rw [h.tokens]
  split_ifs with hsignificant
  case neg => exact hexpected
  rw [List.reverse_cons]
  intro before brace behind hsplit hbrace hclosed
  rcases List.eq_nil_or_concat behind with rfl | ⟨behind, last, rfl⟩
  · obtain ⟨rfl, hlast⟩ := List.append_inj' hsplit rfl
    cases hlast
    have hopened : c.opened = [] := by simpa [hdivided.opened] using hclosed
    cases h with
    | passed kind => simp [hsignificant] at kind
    | added _ noBracket => simp [hbrace, TokenKind.isOpening] at noBracket
    | opened bracket kind expected =>
      obtain rfl : bracket = .brace := by simpa [hbrace, eq_comm] using kind
      rcases expected rfl with hinside | ⟨-, -, hexpects⟩
      · exact absurd hopened hinside
      · exact hexpects
    | closed _ kind | divided kind => simp [hbrace] at kind
  · rw [List.concat_eq_append, ← List.cons_append, ← List.append_assoc] at hsplit
    exact hexpected before brace behind (List.append_inj' hsplit rfl).1 hbrace hclosed

theorem bracesExpected_start {first : Token} (h : first.kind.canStartDeclaration = true) :
    BracesExpected markers (start first).tokens.reverse := by
  intro before brace behind hsplit hbrace
  obtain rfl : first = brace := by
    cases before <;> simp_all [start]
  simp [hbrace, TokenKind.canStartDeclaration] at h

theorem Grows.tokens_append (h : Grows markers c t c') (ts : List Token) :
    c'.tokens.reverse ++ ts.filter (·.isSignificant) = c.tokens.reverse ++ (t :: ts).filter (·.isSignificant) := by
  rw [h.tokens, List.filter_cons]
  split_ifs <;> simp

/-- What is collected of a declaration does not finish it. -/
theorem unfinished {first : Token} (hstart : first.kind.canStartDeclaration = true) (hbegins : c.Begins first)
    (hdivided : c.Divided markers) (hexpected : BracesExpected markers c.tokens.reverse) :
    Unfinished markers c.tokens.reverse := by
  refine ⟨by simp [hbegins.tokens, hstart], hexpected, ?_⟩
  cases hhead : c.head with
  | none =>
    left
    rw [Nesting.breakAt_of_outside_all (hdivided.whole hhead)]
  | some head =>
    obtain ⟨begun, semi, between, hsplit, hsemi, hdivision⟩ := hdivided.parts head hhead
    right
    rw [hsplit, hdivision.breakAt hsemi]
    refine ⟨by simp [hdivision.found], fun _ => by simp [hsemi], ?_⟩
    rw [hsemi]
    exact hdivision.unbroken

end Collected

theorem openBraces_le (opened : List Token) : openBraces opened ≤ (braces opened).length := by
  rw [openBraces, braces, ← List.countP_eq_length_filter]
  apply List.countP_mono_left
  intro t _ ht
  have hbrace : t.IsBrace := .inl (by simpa using ht)
  simpa using hbrace

/-- The braces that are open around a construct stay open while it goes on. -/
theorem Collected.Grows.openBehind?_braces {markers : Bool} {c c' : Collected} {t : Token} (h : Grows markers c t c')
    {stack ts behind : List Token} (hbraces : openBehind? (braces c.opened ++ stack) (braces (t :: ts)) = some behind) :
    openBehind? (braces c'.opened ++ stack) (braces ts) = some behind := by
  by_cases ht : t.isSignificant = true
  · have hstep : openBehind? c.opened [t] = some c'.opened := by
      rw [Nesting.openBehind?_cons, h.openStep ht]
      rfl
    have hframe := Nesting.openBehind?_frame (Nesting.openBehind?_braces hstep) stack
    rwa [← List.singleton_append, Nesting.braces_append, Nesting.openBehind?_append, hframe] at hbraces
  · have hother : ¬ t.IsBrace := by
      rintro (hkind | hkind) <;> simp [Token.isSignificant, hkind] at ht
    rw [Nesting.braces_cons, if_neg hother] at hbraces
    cases h with
    | passed => exact hbraces
    | added kind => exact absurd kind ht
    | opened _ kind | closed _ kind | divided kind => simp [Token.isSignificant, kind] at ht

/-- What stands behind a bracket that closes none of a construct closes at least the braces that are taken for open there,
unless the bracket is a brace and another kind of bracket is open before it. -/
theorem openBraces_le_of_unbalanced {c : Collected} {t : Token} {stack ts : List Token} {bracket : Bracket}
    (hkind : t.kind = .closing bracket) (hopened : bracket = .brace → c.opened = [])
    (hbalanced : openBehind? (braces c.opened ++ stack) (braces (t :: ts)) = some []) :
    ∃ stack', openBehind? stack' (braces ts) = some [] ∧ openBraces c.opened.tail ≤ stack'.length := by
  by_cases hbrace : bracket = .brace
  · subst hbrace
    rw [hopened rfl, Nesting.braces_nil, List.nil_append, Nesting.braces_cons, if_pos (.inr hkind),
      Nesting.openBehind?_cons] at hbalanced
    obtain ⟨stack', -, hbalanced⟩ := Option.bind_eq_some_iff.1 hbalanced
    exact ⟨stack', hbalanced, by simp [hopened rfl, openBraces]⟩
  · rw [Nesting.braces_cons, if_neg (by simp [Token.IsBrace, hkind, hbrace])] at hbalanced
    refine ⟨_, hbalanced, ?_⟩
    calc openBraces c.opened.tail ≤ openBraces c.opened := (List.tail_sublist c.opened).countP_le
      _ ≤ (braces c.opened).length := openBraces_le c.opened
      _ ≤ (braces c.opened ++ stack).length := by simp

namespace Collected

variable {markers : Bool} {c : Collected} {t : Token} {stack ts : List Token}

/-- What is collected of a declaration is not all of a text that goes on with it and has its braces balanced. -/
theorem Divided.ne_nil_of_goesOn (hdivided : c.Divided markers)
    (hgoesOn : GoesOn c.tokens.reverse (ts.filter (·.isSignificant)))
    (hbalanced : openBehind? (braces c.opened ++ stack) (braces ts) = some []) : ts ≠ [] := by
  rintro rfl
  have hclosed : braces c.opened = [] := (List.append_eq_nil_iff.1 (Option.some.inj hbalanced)).1
  cases hopened : c.opened with
  | nil =>
    obtain ⟨next, hnext, -⟩ := hgoesOn.outside (by rw [hdivided.opened, hopened])
    cases hnext
  | cons opening opened =>
    have hother : opening.kind ≠ .opening .brace := by
      intro hbrace
      rw [hopened, Nesting.braces_cons, if_pos (.inl hbrace)] at hclosed
      cases hclosed
    obtain ⟨next, hnext, -⟩ := hgoesOn.bracket _ hdivided.opened opening (by simp [hopened]) hother
    cases hnext

/-- Where a declaration goes on, a bracket that closes none of its brackets is not its last token, and if it is a brace, it
stands outside all of them. -/
theorem Divided.outside_of_goesOn {bracket : Bracket} (hdivided : c.Divided markers)
    (hgoesOn : GoesOn c.tokens.reverse ((t :: ts).filter (·.isSignificant))) (hkind : t.kind = .closing bracket)
    (hother : ∀ opening ∈ c.opened.head?, opening.kind ≠ .opening bracket) (hends : ∃ u ∈ (t :: ts).getLast?, u.IsEnd) :
    (bracket = .brace → c.opened = []) ∧ ts ≠ [] := by
  have hopened : bracket = .brace → c.opened = [] := by
    rintro rfl
    by_contra hne
    obtain ⟨opening, opened, hsplit⟩ := List.exists_cons_of_ne_nil hne
    have hinnermost : opening ∈ c.opened.head? := by simp [hsplit]
    obtain ⟨next, hnext, hclosing⟩ := hgoesOn.bracket _ hdivided.opened opening hinnermost (hother opening hinnermost)
    obtain rfl : t = next := by simpa [Token.isSignificant, hkind] using hnext
    exact hclosing hkind
  refine ⟨hopened, ?_⟩
  rintro rfl
  obtain ⟨u, hu, hend⟩ := hends
  obtain rfl : t = u := by simpa using hu
  obtain rfl : bracket = .brace := by simpa [Token.IsEnd, hkind] using hend
  obtain ⟨next, hnext, hmore⟩ := hgoesOn.outside (by rw [hdivided.opened, hopened rfl])
  obtain rfl : t = next := by simpa [Token.isSignificant, hkind] using hnext
  exact hmore hkind (by simp [Token.isSignificant, hkind])

/-- What is collected leaves a brace open only where what stands behind it breaks the brackets that are open. -/
theorem Divided.openOnMisfit {us : List Token} (hdivided : c.Divided markers) (hus : OpenOnMisfit us)
    (hbreaks : ∀ left opening outer, c.opened = left ++ opening :: outer → openBehind? left us = none) :
    OpenOnMisfit (c.tokens.reverse ++ us) := by
  refine hus.append fun before brace inside hsplit hbrace => ?_
  rw [Nesting.openBehind?_append]
  cases hinside : openBehind? [] inside with
  | none => rfl
  | some left =>
    have hopened := hdivided.opened
    rw [hsplit] at hopened
    obtain ⟨outer, houter⟩ := Nesting.exists_outer_of_openBehind? hbrace hopened hinside
    exact hbreaks left brace outer houter

theorem Divided.openOnMisfit_of_closed {us : List Token} (hdivided : c.Divided markers) (hopened : c.opened = [])
    (hus : OpenOnMisfit us) : OpenOnMisfit (c.tokens.reverse ++ us) :=
  hdivided.openOnMisfit hus fun left opening outer h => by simp [hopened] at h

theorem Divided.openOnMisfit_of_unbalanced {bracket : Bracket} {us : List Token} (hdivided : c.Divided markers)
    (hkind : t.kind = .closing bracket) (hother : ∀ opening ∈ c.opened.head?, opening.kind ≠ .opening bracket)
    (hus : OpenOnMisfit us) : OpenOnMisfit (c.tokens.reverse ++ t :: us) := by
  have hcons : OpenOnMisfit (t :: us) := hus.cons (by simp [hkind])
  refine hdivided.openOnMisfit hcons fun left opening outer hsplit => ?_
  have hstep : Nesting.openStep left t = none := by
    cases left with
    | nil => simp [Nesting.openStep, hkind, TokenKind.isOpening, TokenKind.isClosing]
    | cons inner left =>
      have hinner := hother inner (by simp [hsplit])
      simp [Nesting.openStep, hkind, TokenKind.isOpening, TokenKind.isClosing, TokenKind.closes_closing_iff, hinner]
  rw [Nesting.openBehind?_cons, hstep]
  rfl

end Collected

/-- A body that begins where braces are balanced is found, whatever follows. -/
theorem exists_body_of_braces {stack ts : List Token} {t : Token} (hopening : t.kind = .opening .brace)
    (hbalanced : openBehind? stack (braces (t :: ts)) = some []) (heof : ∀ u ∈ ts, u.kind ≠ .eof) :
    ∃ inside close rest, ts = inside ++ close :: rest ∧ close.kind = .closing .brace ∧
      openBehind? [] (braces (t :: (inside ++ [close]))) = some [] ∧ ∀ more, body? 0 (ts ++ more) = some (inside, close) := by
  rw [Nesting.braces_cons, if_pos (.inl hopening), Nesting.openBehind?_cons, Nesting.openStep_opening hopening,
    Option.bind_some] at hbalanced
  obtain ⟨inside, close, rest, rfl, hclose, hinside, -⟩ := @Nesting.exists_closing_brace [] stack ts t hbalanced
  refine ⟨inside, close, rest, rfl, hclose, ?_, fun more => ?_⟩
  · rw [Nesting.braces_cons, if_pos (.inl hopening), Nesting.braces_append, Nesting.openBehind?_cons,
      Nesting.openStep_opening hopening, Option.bind_some, Nesting.openBehind?_append,
      Nesting.openBehind?_of_closed hinside, Option.bind_some, Nesting.braces_cons, if_pos (.inr hclose),
      Nesting.openBehind?_cons,
      (Nesting.openStep_closing_iff (TokenKind.isClosing_iff.2 ⟨_, hclose⟩) hopening).2 ⟨hclose, rfl⟩]
    rfl
  · rw [List.append_assoc, List.cons_append]
    exact @body?_of_braces [] inside (by simp) (fun u hu => heof u (List.mem_append_left _ hu)) hinside close hclose
      (rest ++ more)

/-- A construct that nothing cuts off ends before the end of its text. -/
theorem collect_within {markers : Bool} {first : Token} {c : Collected} {front ts stack : List Token}
    (hstart : first.kind.canStartDeclaration = true) (hbegins : c.Begins first) (hdivided : c.Divided markers)
    (hexpected : BracesExpected markers c.tokens.reverse) (hfront : BeforeDeclaration front)
    (hnone : NoneCutOff markers (front ++ (c.tokens.reverse ++ ts.filter (·.isSignificant))))
    (hbalanced : openBehind? (braces c.opened ++ stack) (braces ts) = some []) (heof : ∀ t ∈ ts, t.kind ≠ .eof)
    (hends : ∃ t ∈ ts.getLast?, t.IsEnd) :
    ∃ taken rest, ts = taken ++ rest ∧ (∃ t ∈ taken.getLast?, t.IsEnd) ∧
      OpenOnMisfit (c.tokens.reverse ++ taken.filter (·.isSignificant)) ∧
      ∀ more, (collect markers first c (ts ++ more)).2 = rest ++ more := by
  induction ts generalizing c with
  | nil => simp at hends
  | cons t ts ih =>
    obtain ⟨ht, heof'⟩ := List.forall_mem_cons.1 heof
    cases hverdict : c.verdict markers t with
    | goOn c' =>
      have hgrows := Collected.grows_of_verdict hverdict
      have hdivided' := hdivided.grows hgrows
      have hexpected' := hgrows.bracesExpected hdivided hexpected
      have hbalanced' : openBehind? (braces c'.opened ++ stack) (braces ts) = some [] :=
        hgrows.openBehind?_braces hbalanced
      rw [← hgrows.tokens_append] at hnone
      have hgoesOn := hnone _ _ rfl hfront _ _ rfl
        (Collected.unfinished hstart (hgrows.begins hbegins) hdivided' hexpected')
      rw [List.getLast?_cons_of_ne_nil (hdivided'.ne_nil_of_goesOn hgoesOn hbalanced')] at hends
      obtain ⟨taken, rest, rfl, ⟨u, hu, hend⟩, hmisfit, hmore⟩ :=
        ih (hgrows.begins hbegins) hdivided' hexpected' hnone hbalanced' heof' hends
      rw [hgrows.tokens_append] at hmisfit
      refine ⟨t :: taken, rest, rfl, ⟨u, List.mem_getLast?_cons hu, hend⟩, hmisfit, fun more => ?_⟩
      rw [List.cons_append, collect_cons, hverdict]
      exact hmore more
    | ends =>
      obtain ⟨hsemi, hopened, -⟩ := Collected.of_verdict_eq_ends hverdict
      refine ⟨[t], ts, rfl, ⟨t, rfl, .inl hsemi⟩, hdivided.openOnMisfit_of_closed hopened ?_, fun more => ?_⟩
      · rw [List.filter_cons_of_pos (by simp [Token.isSignificant, hsemi])]
        exact openOnMisfit_nil.cons (by simp [hsemi])
      · rw [List.cons_append, collect_cons, hverdict]
        rfl
    | body =>
      obtain ⟨hopening, hopened, -⟩ := Collected.of_verdict_eq_body hverdict
      obtain ⟨inside, close, rest, rfl, hclose, hclosed, hbody⟩ := exists_body_of_braces hopening hbalanced heof'
      refine ⟨t :: (inside ++ [close]), rest, by simp, ⟨close, by simp [List.getLast?_cons], .inr hclose⟩,
        hdivided.openOnMisfit_of_closed hopened ?_, fun more => ?_⟩
      · exact openOnMisfit_of_closed (by rw [Nesting.braces_filter_isSignificant, hclosed])
      · rw [List.cons_append, collect_cons, hverdict]
        simp only [Collected.stop, function, hbody]
        simp
    | unexpected =>
      obtain ⟨-, hopened⟩ := of_verdict_eq_unexpected hverdict
      rw [hopened, Nesting.braces_nil, List.nil_append] at hbalanced
      obtain ⟨passed, rest, hsplit, hend, hpassed⟩ := recovery_within hbalanced (Nat.zero_le _) heof hends
      have hmisfit := openOnMisfit_recovery (fun u hu => heof u (hsplit ▸ List.mem_append_left rest hu)) hpassed
      refine ⟨passed, rest, hsplit, hend, hdivided.openOnMisfit_of_closed hopened hmisfit, fun more => ?_⟩
      rw [List.cons_append, collect_cons, hverdict]
      simp only [Collected.stop]
      rw [← List.cons_append, hsplit, List.append_assoc, hpassed, List.drop_left]
    | unbalanced =>
      obtain ⟨bracket, hkind, hother⟩ := of_verdict_eq_unbalanced hverdict
      have hgoesOn := hnone _ _ rfl hfront _ _ rfl (Collected.unfinished hstart hbegins hdivided hexpected)
      obtain ⟨hopened, hne⟩ := hdivided.outside_of_goesOn hgoesOn hkind hother hends
      obtain ⟨stack', hbalanced', hdepth⟩ := openBraces_le_of_unbalanced hkind hopened hbalanced
      rw [List.getLast?_cons_of_ne_nil hne] at hends
      obtain ⟨passed, rest, rfl, ⟨u, hu, hend⟩, hpassed⟩ := recovery_within hbalanced' hdepth heof' hends
      have hmisfit := openOnMisfit_recovery (fun u hu => heof' u (List.mem_append_left rest hu)) hpassed
      refine ⟨t :: passed, rest, rfl, ⟨u, List.mem_getLast?_cons hu, hend⟩, ?_, fun more => ?_⟩
      · rw [List.filter_cons_of_pos (by simp [Token.isSignificant, hkind])]
        exact hdivided.openOnMisfit_of_unbalanced hkind hother hmisfit
      · rw [List.cons_append, collect_cons, hverdict]
        simp only [Collected.stop]
        rw [List.append_assoc, hpassed, List.drop_left]
    | endOfText => exact absurd (Collected.verdict_eq_endOfText_iff.1 hverdict) ht

end Outline

theorem opensLinkage_append {front : List Token} {keyword string : Token} {spelling : String}
    (hfront : ∀ t ∈ front.getLast?, t.kind = .punct .semi ∨ t.IsBrace) (hkeyword : keyword.kind = .keyword .externKw)
    (hstring : string.kind = .stringLiteral spelling) : opensLinkage (front ++ [keyword, string]) = true := by
  obtain ⟨_, _, _, _, _⟩ := keyword
  obtain ⟨_, _, _, _, _⟩ := string
  cases hkeyword
  cases hstring
  cases hlast : front.getLast? with
  | none => simp [opensLinkage, hlast]
  | some t => simpa [opensLinkage, hlast] using hfront t hlast

/-- A declaration may begin behind the opening of a block. -/
theorem BeforeDeclaration.append_opening {front opening : List Token} {t : Token} (h : BeforeDeclaration front)
    (ht : t.kind = .keyword .externKw) (hopening : Outline.BlockOpening opening) :
    BeforeDeclaration (front ++ (t :: opening).filter (·.isSignificant)) := by
  obtain ⟨first, string, second, brace, rfl, hpassed, ⟨spelling, hstring⟩, hbrace⟩ := hopening
  obtain ⟨hfirst, hsecond⟩ := List.forall_mem_append.1 hpassed
  have hfilter : (t :: (first ++ string :: (second ++ [brace]))).filter (·.isSignificant) = [t, string, brace] := by
    have hnone : ∀ {us : List Token}, (∀ u ∈ us, u.isSignificant = false) → us.filter (·.isSignificant) = [] :=
      fun hus => List.filter_eq_nil_iff.2 fun u hu => by simp [hus u hu]
    have hkept : t.isSignificant = true ∧ string.isSignificant = true ∧ brace.isSignificant = true := by
      simp [Token.isSignificant, ht, hstring, hbrace]
    simp [hnone hfirst, hnone hsecond, hkept]
  rw [hfilter]
  refine h.append ⟨brace, rfl, .inr (.inl hbrace)⟩ fun before brace' inside hsplit hbrace' _ => .inl ?_
  obtain rfl : before = [t, string] := by
    rcases before with _ | ⟨u, _ | ⟨v, _ | ⟨w, before⟩⟩⟩ <;> simp at hsplit
    · simp [← hsplit.1, ht] at hbrace'
    · simp [← hsplit.2.1, hstring] at hbrace'
    · rw [hsplit.1, hsplit.2.1]
  exact opensLinkage_append h.boundary ht hstring

/-- What declares nothing lies within tokens that end with a semicolon or a brace, and a declaration may begin behind it. -/
theorem Outline.skipped?_within {linkage linkage' n : Nat} {front ts more : List Token} {t : Token}
    (h : skipped? linkage t (ts ++ more) = some (n, linkage')) (hends : ∀ u ∈ (t :: ts).getLast?, u.IsEnd)
    (hfront : BeforeDeclaration front) :
    n ≤ ts.length ∧ BeforeDeclaration (front ++ (t :: ts.take n).filter (·.isSignificant)) := by
  have hend : t.IsEnd → BeforeDeclaration (front ++ (t :: ts.take 0).filter (·.isSignificant)) := by
    intro ht
    refine hfront.append_of_end ⟨t, rfl, ht⟩ ?_
    rw [List.take_zero, List.filter_cons]
    split_ifs
    · exact openOnMisfit_nil.cons (by rcases ht with ht | ht <;> simp [ht])
    · exact openOnMisfit_nil
  unfold skipped? at h
  split at h
  case h_1 hkind | h_2 hkind =>
    cases h
    simpa [Token.isSignificant, hkind] using hfront
  case h_3 hkind =>
    cases h
    exact ⟨Nat.zero_le _, hend (.inl hkind)⟩
  case h_4 hkind =>
    split_ifs at h
    cases h
    exact ⟨Nat.zero_le _, hend (.inr hkind)⟩
  case h_5 hkind =>
    obtain ⟨m, hm, heq⟩ := Option.map_eq_some_iff.1 h
    cases heq
    have hpunctuation : ∃ u ∈ ts, u.kind.isPunctuation = true := by
      cases hlast : ts.getLast? with
      | none =>
        obtain rfl := List.getLast?_eq_none_iff.1 hlast
        exact absurd (hends t rfl) (by simp [Token.IsEnd, hkind])
      | some u =>
        have hend := hends u (by simp [List.getLast?_cons, hlast])
        exact ⟨u, List.mem_of_getLast? hlast, by rcases hend with hend | hend <;> simp [hend, TokenKind.isPunctuation]⟩
    cases hfound : linkageLength? ts with
    | none =>
      rw [@linkageLength?_append_eq_none ts [] hpunctuation (by rwa [List.append_nil]) more] at hm
      cases hm
    | some m =>
      obtain ⟨opening, hopening, hblock, rfl⟩ := linkageLength?_iff_blockOpening.1 hfound
      have hsame := linkageLength?_iff_blockOpening.2 ⟨opening, hopening.trans (List.prefix_append ts more), hblock, rfl⟩
      obtain rfl := Option.some.inj (hsame.symm.trans hm)
      refine ⟨hopening.length_le, ?_⟩
      rw [← List.prefix_iff_eq_take.1 hopening]
      exact hfront.append_opening hkind hblock
  case h_6 => cases h

/-- A run that should be a construct and that nothing cuts off ends before the end of its text. -/
theorem Outline.external_within {markers : Bool} {t : Token} {front ts stack : List Token} (hfront : BeforeDeclaration front)
    (hnone : NoneCutOff markers (front ++ (t :: ts).filter (·.isSignificant)))
    (hbalanced : openBehind? stack (braces (t :: ts)) = some []) (heof : ∀ u ∈ t :: ts, u.kind ≠ .eof)
    (hends : ∃ u ∈ (t :: ts).getLast?, u.IsEnd) :
    ∃ taken rest, ts = taken ++ rest ∧ (∃ u ∈ (t :: taken).getLast?, u.IsEnd) ∧
      OpenOnMisfit ((t :: taken).filter (·.isSignificant)) ∧ ∀ more, (external markers t (ts ++ more)).2 = rest ++ more := by
  by_cases hstart : t.kind.canStartDeclaration = true
  · have hsignificant := isSignificant_of_canStartDeclaration hstart
    have hword : ¬ t.IsBrace := by
      rintro (hkind | hkind) <;> simp [hkind, TokenKind.canStartDeclaration] at hstart
    have hne : ts ≠ [] := by
      rintro rfl
      obtain ⟨u, hu, hend⟩ := hends
      obtain rfl : t = u := by simpa using hu
      rcases hend with hkind | hkind <;> simp [hkind, TokenKind.canStartDeclaration] at hstart
    rw [List.filter_cons_of_pos (by simpa using hsignificant)] at hnone
    rw [Nesting.braces_cons, if_neg hword] at hbalanced
    rw [List.getLast?_cons_of_ne_nil hne] at hends
    obtain ⟨taken, rest, hsplit, ⟨u, hu, hend⟩, hmisfit, hmore⟩ := collect_within hstart (Collected.begins_start t)
      (Collected.divided_start hstart markers) (Collected.bracesExpected_start hstart) hfront hnone hbalanced
      (fun u hu => heof u (List.mem_cons_of_mem t hu)) hends
    refine ⟨taken, rest, hsplit, ⟨u, List.mem_getLast?_cons hu, hend⟩, ?_, fun more => ?_⟩
    · rw [List.filter_cons_of_pos hsignificant]
      exact hmisfit
    · rw [external, if_pos hstart, hmore]
  · obtain ⟨passed, rest, hsplit, ⟨u, hu, hend⟩, hpassed⟩ := recovery_within hbalanced (Nat.zero_le _) heof hends
    obtain ⟨taken, rfl⟩ : ∃ taken, passed = t :: taken := by
      obtain ⟨behind, hbehind⟩ := recovery_cons 0 (heof t List.mem_cons_self) (ts ++ [])
      rw [← List.cons_append, hsplit, List.append_assoc, hpassed] at hbehind
      exact ⟨behind, hbehind⟩
    have hmisfit := openOnMisfit_recovery (fun u hu => heof u (hsplit ▸ List.mem_append_left rest hu)) hpassed
    rw [List.cons_append] at hsplit
    obtain rfl := (List.cons.inj hsplit).2
    refine ⟨taken, rest, rfl, ⟨u, hu, hend⟩, hmisfit, fun more => ?_⟩
    rw [external, if_neg hstart, List.append_assoc, ← List.cons_append, hpassed]
    simp

/-- The runs of tokens of which no declaration is cut off end with them. -/
theorem outline_within {markers : Bool} {linkage : Nat} {front ts stack : List Token} (hfront : BeforeDeclaration front)
    (hnone : NoneCutOff markers (front ++ ts.filter (·.isSignificant)))
    (hbalanced : openBehind? stack (braces ts) = some []) (heof : ∀ t ∈ ts, t.kind ≠ .eof)
    (hplain : ∀ t ∈ ts, t.directive? = none) (hends : ∀ t ∈ ts.getLast?, t.IsEnd) (more : List Token) :
    ∃ items linkage', outline markers linkage (ts ++ more) = items ++ outline markers linkage' more := by
  induction hlength : ts.length using Nat.strongRecOn generalizing linkage front ts stack with
  | ind length ih =>
    cases ts with
    | nil => exact ⟨[], linkage, rfl⟩
    | cons t ts =>
      have hdirective := hplain t List.mem_cons_self
      have ht := heof t List.mem_cons_self
      -- behind the tokens of one run, the others are read by induction
      have hon : ∀ taken rest linkage₁, ts = taken ++ rest →
          BeforeDeclaration (front ++ (t :: taken).filter (·.isSignificant)) →
          ∃ items linkage', outline markers linkage₁ (rest ++ more) = items ++ outline markers linkage' more := by
        rintro taken rest linkage₁ rfl hfront'
        rw [← List.cons_append, List.filter_append, ← List.append_assoc] at hnone
        rw [← List.cons_append, Nesting.braces_append, Nesting.openBehind?_append] at hbalanced
        obtain ⟨stack', -, hbalanced'⟩ := Option.bind_eq_some_iff.1 hbalanced
        have hmem : ∀ u ∈ rest, u ∈ t :: (taken ++ rest) := fun u hu => by simp [hu]
        refine ih rest.length ?_ hfront' hnone hbalanced' (fun u hu => heof u (hmem u hu)) (fun u hu => hplain u (hmem u hu))
          (fun u hu => hends u ?_) rfl
        · rw [← hlength, List.length_cons, List.length_append]
          omega
        · rw [← List.cons_append, List.getLast?_append, Option.mem_def.1 hu]
          rfl
      rw [List.cons_append]
      cases hskipped : Outline.skipped? linkage t (ts ++ more) with
      | some found =>
        obtain ⟨n, linkage₁⟩ := found
        obtain ⟨hle, hfront'⟩ := Outline.skipped?_within hskipped hends hfront
        obtain ⟨items, linkage', hitems⟩ := hon (ts.take n) (ts.drop n) linkage₁ (List.take_append_drop n ts).symm hfront'
        refine ⟨.skipped (t :: (ts ++ more).take n) :: items, linkage', ?_⟩
        rw [outline_cons_skipped ht hdirective hskipped, List.drop_append_of_le_length hle, hitems, List.cons_append]
      | none =>
        have hend : ∃ u ∈ (t :: ts).getLast?, u.IsEnd :=
          ⟨(t :: ts).getLast (by simp), List.getLast?_eq_some_getLast (by simp), hends _ (List.getLast?_eq_some_getLast (by simp))⟩
        obtain ⟨taken, rest, hsplit, hends', hmisfit, hmore⟩ := Outline.external_within hfront hnone hbalanced heof hend
        obtain ⟨items, linkage', hitems⟩ := hon taken rest linkage hsplit (hfront.append_of_end hends' hmisfit)
        refine ⟨(Outline.external markers t (ts ++ more)).1 :: items, linkage', ?_⟩
        rw [outline_cons_external ht hdirective hskipped, hmore, hitems, List.cons_append]

/-! ### What is cut off -/

namespace Outline

variable {markers : Bool} {first : Token} {c : Collected} {ts : List Token}

/-- What asks for the brace of an aggregate or an initializer is no head of a function. -/
theorem isFunctionHead_eq_false {brace : Token} {tokens : List Token} (h : Shape.expectsBrace markers brace tokens = true) :
    Shape.isFunctionHead markers brace tokens = false := by
  cases hlast : Shape.lastDeclarator? (.ofTokens markers tokens) brace tokens with
  | none => simp [Shape.isFunctionHead, hlast]
  | some piece =>
    have hinitializer : piece.hasInitializer = true := by
      have hnonempty : (Shape.behindSpecifiers (.ofTokens markers tokens) tokens).isEmpty = false := by
        by_contra hempty
        simp [Shape.lastDeclarator?, declarators, Bool.not_eq_false _ ▸ hempty] at hlast
      simpa [Shape.expectsBrace, hlast, hnonempty] using h
    simp [Shape.isFunctionHead, hlast, hinitializer]

namespace Collected

variable {t : Token} {behind : List Token}

/-- An opening brace outside all brackets of an unfinished declaration goes on with it. -/
theorem expected_of_unfinished (hdivided : c.Divided markers) (hunfinished : Unfinished markers (c.tokens.reverse ++ t :: behind))
    (hopened : c.opened = []) (hbrace : t.kind = .opening .brace) :
    c.head = none ∧ Shape.isFunctionHead markers t c.tokens.reverse = false ∧
      Shape.expectsBrace markers t c.tokens.reverse = true := by
  have hexpects := hunfinished.expected _ _ _ rfl hbrace (by rw [hdivided.opened, hopened])
  refine ⟨?_, isFunctionHead_eq_false hexpects, hexpects⟩
  -- behind parameters in the old style, the brace would be the one of the body
  by_contra hhead
  obtain ⟨head, hhead⟩ := Option.ne_none_iff_exists'.1 hhead
  obtain ⟨begun, semi, parameters, hsplit, hsemi, hdivision⟩ := hdivided.parts head hhead
  have hclosed : Nesting.level 0 (head ++ begun) = 0 := Nesting.level_of_openBehind? hdivision.closed
  have hlevel : Nesting.level 0 (semi :: parameters) = 0 := by
    have hwhole := hdivided.level
    rwa [hsplit, Nesting.level_append, hclosed, hopened] at hwhole
  have hbreak : breakAt (.punct .semi) 0 (c.tokens.reverse ++ t :: behind) =
      (head ++ begun, semi :: parameters ++ t :: behind) := by
    rw [hsplit, List.append_assoc]
    exact Nesting.breakAt_of_outside hdivision.whole hclosed hsemi _
  rcases hunfinished.undivided with hnone | ⟨-, houtside⟩
  · simp [hbreak] at hnone
  · rw [hbreak, Nesting.outside_append, hlevel] at houtside
    exact houtside.2.1 rfl hbrace

/-- A semicolon outside all brackets of an unfinished declaration ends a parameter in the old style. -/
theorem parameters_of_unfinished (hdivided : c.Divided markers)
    (hunfinished : Unfinished markers (c.tokens.reverse ++ t :: behind)) (hopened : c.opened = []) (hhead : c.head = none)
    (hsemi : t.kind = .punct .semi) : (Shape.parameterDeclarations? markers c.tokens.reverse).isSome := by
  have hbreak : breakAt (.punct .semi) 0 (c.tokens.reverse ++ t :: behind) = (c.tokens.reverse, t :: behind) := by
    apply Nesting.breakAt_of_outside (hdivided.whole hhead) _ hsemi
    rw [hdivided.level, hopened]
    rfl
  rcases hunfinished.undivided with hwhole | ⟨hbegun, -⟩
  · simp [hbreak] at hwhole
  · rwa [hbreak] at hbegun

/-- Where a declaration has begun that is not finished, its next token goes on with it. -/
theorem exists_grows {opened : List Token} (hdivided : c.Divided markers) (hsignificant : t.isSignificant = true)
    (hunfinished : Unfinished markers (c.tokens.reverse ++ t :: behind))
    (hopened : openBehind? [] (c.tokens.reverse ++ t :: behind) = some opened) : ∃ c', Grows markers c t c' := by
  rw [Nesting.openBehind?_append, hdivided.opened, Option.bind_some, Nesting.openBehind?_cons] at hopened
  obtain ⟨between, hstep, -⟩ := Option.bind_eq_some_iff.1 hopened
  by_cases hdivides : c.opened = [] ∧ c.head = none ∧ t.kind = .punct .semi
  · obtain ⟨houtside, hhead, hsemi⟩ := hdivides
    obtain ⟨parameters, hbegun⟩ :=
      Option.isSome_iff_exists.1 (parameters_of_unfinished hdivided hunfinished houtside hhead hsemi)
    exact ⟨_, .divided hsemi houtside hhead parameters hbegun⟩
  · refine ⟨_, grows_of_openStep hstep hsignificant (fun hbrace => ?_) fun hsemi => ?_⟩
    · exact or_iff_not_imp_left.2 fun hinside => expected_of_unfinished hdivided hunfinished (not_not.1 hinside) hbrace
    · rw [or_iff_not_imp_left, not_not, Option.isSome_iff_ne_none]
      exact fun houtside hhead => hdivides ⟨houtside, hhead, hsemi⟩

end Collected

/-- The beginning of a declaration is collected, and nothing of it ends or breaks the construct. -/
theorem collect_of_unfinished {opened : List Token} (hdivided : c.Divided markers)
    (hunfinished : Unfinished markers (c.tokens.reverse ++ ts.filter (·.isSignificant)))
    (hopened : openBehind? [] (c.tokens.reverse ++ ts.filter (·.isSignificant)) = some opened)
    (heof : ∀ t ∈ ts, t.kind ≠ .eof) :
    ∃ c', c'.Divided markers ∧ c'.met.reverse = c.met.reverse ++ ts ∧ c'.opened = opened ∧
      ∀ more, collect markers first c (ts ++ more) = collect markers first c' more := by
  induction ts generalizing c with
  | nil =>
    have hsame : c.opened = opened := by
      rw [List.filter_nil, List.append_nil, hdivided.opened] at hopened
      exact Option.some.inj hopened
    exact ⟨c, hdivided, by simp, hsame, fun more => rfl⟩
  | cons t ts ih =>
    obtain ⟨ht, heof⟩ := List.forall_mem_cons.1 heof
    have hgrows : ∃ c', Collected.Grows markers c t c' := by
      by_cases hsignificant : t.isSignificant = true
      case neg => exact ⟨_, .passed (by simpa using hsignificant)⟩
      rw [List.filter_cons_of_pos hsignificant] at hunfinished hopened
      exact Collected.exists_grows hdivided hsignificant hunfinished hopened
    obtain ⟨c', hgrows⟩ := hgrows
    rw [← hgrows.tokens_append] at hunfinished hopened
    obtain ⟨c'', hdivided'', hmet, hsame, hmore⟩ := ih (hdivided.grows hgrows) hunfinished hopened heof
    refine ⟨c'', hdivided'', ?_, hsame, fun more => ?_⟩
    · rw [hmet, hgrows.met]
      simp
    · rw [List.cons_append, collect_cons, Collected.verdict_of_grows hgrows ht]
      exact hmore more

/-- Inside a bracket, everything goes on with a construct that does not close it. -/
theorem collect_of_inside {outer inner behind : List Token} (houter : outer ≠ []) (hopened : c.opened = inner ++ outer)
    (hfits : openBehind? inner (ts.filter (·.isSignificant)) = some behind) (heof : ∀ t ∈ ts, t.kind ≠ .eof) :
    ∃ c', c'.met.reverse = c.met.reverse ++ ts ∧ c'.opened = behind ++ outer ∧
      ∀ more, collect markers first c (ts ++ more) = collect markers first c' more := by
  induction ts generalizing c inner with
  | nil =>
    rw [List.filter_nil] at hfits
    cases hfits
    exact ⟨c, by simp, hopened, fun more => rfl⟩
  | cons t ts ih =>
    obtain ⟨ht, heof⟩ := List.forall_mem_cons.1 heof
    have hinside : c.opened ≠ [] := by simp [hopened, houter]
    have hgrows : ∃ c' between, Collected.Grows markers c t c' ∧ c'.opened = between ++ outer ∧
        openBehind? between (ts.filter (·.isSignificant)) = some behind := by
      by_cases hsignificant : t.isSignificant = true
      case neg =>
        rw [List.filter_cons_of_neg hsignificant] at hfits
        exact ⟨_, inner, .passed (by simpa using hsignificant), hopened, hfits⟩
      rw [List.filter_cons_of_pos hsignificant, Nesting.openBehind?_cons] at hfits
      obtain ⟨between, hstep, hfits⟩ := Option.bind_eq_some_iff.1 hfits
      have hframe : Nesting.openStep c.opened t = some (between ++ outer) := by
        rw [hopened]
        exact Nesting.openStep_frame hstep outer
      exact ⟨_, between, Collected.grows_of_openStep hframe hsignificant (fun _ => .inl hinside) (fun _ => .inl hinside), rfl,
        hfits⟩
    obtain ⟨c', between, hgrows, hopened', hfits'⟩ := hgrows
    obtain ⟨c'', hmet, hopened'', hmore⟩ := ih hopened' hfits' heof
    refine ⟨c'', ?_, hopened'', fun more => ?_⟩
    · rw [hmet, hgrows.met]
      simp
    · rw [List.cons_append, collect_cons, Collected.verdict_of_grows hgrows ht]
      exact hmore more

end Outline

/-- A bracket of a declaration that is left open takes in all that follows it, up to the end of the text, if the brackets
of that fit. -/
theorem external_of_unclosed {markers : Bool} {first opening last : Token} {more rest opened : List Token}
    (hstart : first.kind.canStartDeclaration = true)
    (hunfinished : Unfinished markers (first :: more.filter (·.isSignificant)))
    (hopened : openBehind? [] (first :: more.filter (·.isSignificant)) = some (opening :: opened))
    (hfits : openBehind? [] (rest.filter (·.isSignificant)) = some []) (heof : ∀ t ∈ more ++ rest, t.kind ≠ .eof)
    (hlast : last.kind = .eof) :
    Outline.external markers first (more ++ (rest ++ [last])) =
      (.malformed (first :: (more ++ rest)) (.ofIssue (.delimiterNeverClosed opening.kind) opening) [], [last]) := by
  obtain ⟨c, -, hmet, hsame, hmore⟩ := @Outline.collect_of_unfinished markers first (.start first) more (opening :: opened)
    (Outline.Collected.divided_start hstart markers) hunfinished hopened (fun t ht => heof t (List.mem_append_left rest ht))
  obtain ⟨c', hmet', hsame', hmore'⟩ := @Outline.collect_of_inside markers first c rest (opening :: opened) [] [] (by simp) hsame
    hfits (fun t ht => heof t (List.mem_append_right more ht))
  rw [Outline.external, if_pos hstart, hmore, hmore', Outline.collect_cons, Outline.Collected.verdict_eq_endOfText_iff.2 hlast]
  simp only [Outline.Collected.stop, Outline.Collected.malformed, Outline.Collected.endFault, hsame', hmet', hmet]
  simp [Outline.Collected.start]

end CHeader
