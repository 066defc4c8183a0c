import CHeader.Proofs.DeclaratorGrammar
import CHeader.Proofs.DeclaratorLists
import CHeader.Proofs.Rejected

/-!
# Definitions of functions

A body begins at a brace behind the declarator of a function, and a declarator is one of a function if its parameter list
stands directly behind the name. Where a name stands in parentheses of its own, as in `int (f)(void)`, a closing parenthesis
comes first (`DeclaresFunction.exists_head`): the brace behind such a declarator is unexpected. So specifiers, a declarator of a
function and a body are one construct exactly if the name has no parentheses of its own
(`FunctionDefinition.outline_row`), and then they declare that function (`surveySource_functionDefinition`).
-/

namespace CHeader

open Nesting (Outside Piece braces breakAt level openBehind?)

/-! ### Declarators of functions -/

/-- `NamedInGroups depth before name behind` says that `before ++ name :: behind` is a name in `depth` pairs of parentheses. -/
inductive NamedInGroups : Nat → List Token → Token → List Token → Prop
  | name {name : Token} (hname : name.isName = true) : NamedInGroups 0 [] name []
  | attributed {name : Token} {extension : List Token} (hextension : IsAttribute extension) (hname : name.isName = true) :
    NamedInGroups 0 extension name []
  | group {depth : Nat} {opening name close : Token} {before behind : List Token} (hopening : opening.kind = .opening .paren)
    (hclose : close.kind = .closing .paren) (inner : NamedInGroups depth before name behind) :
    NamedInGroups (depth + 1) (opening :: before) name (behind ++ [close])

/-- A declarator of a function: a name in `depth` pairs of parentheses of its own, the parameter list behind them, and around
both what makes the type of the value. -/
inductive DeclaresFunction (depth : Nat) : DeclaratorForm → List Token → Token → List Token → Prop
  | function {name : Token} {before behind parameters : List Token} (inner : NamedInGroups depth before name behind)
    (hparameters : IsGroup .paren parameters) : DeclaresFunction depth .direct before name (behind ++ parameters)
  | pointer {star name : Token} {qualifiers before behind : List Token} (hstar : star.kind = .punct .star)
    (hqualifiers : ∀ qualifier ∈ qualifiers, qualifier.kind.isTypeQualifier = true)
    (inner : DeclaresFunction depth .declarator before name behind) :
    DeclaresFunction depth .declarator (star :: (qualifiers ++ before)) name behind
  | direct {name : Token} {before behind : List Token} (inner : DeclaresFunction depth .direct before name behind) :
    DeclaresFunction depth .declarator before name behind
  | group {opening name close : Token} {before behind : List Token} (hopening : opening.kind = .opening .paren)
    (hclose : close.kind = .closing .paren) (inner : DeclaresFunction depth .declarator before name behind) :
    DeclaresFunction depth .direct (opening :: before) name (behind ++ [close])
  | array {name : Token} {before behind bounds : List Token} (inner : DeclaresFunction depth .direct before name behind)
    (hbounds : IsGroup .square bounds) : DeclaresFunction depth .direct before name (behind ++ bounds)
  | result {name : Token} {before behind parameters : List Token} (inner : DeclaresFunction depth .direct before name behind)
    (hparameters : IsGroup .paren parameters) : DeclaresFunction depth .direct before name (behind ++ parameters)
  | attributes {name : Token} {before behind extension : List Token}
    (inner : DeclaresFunction depth .direct before name behind) (hextension : IsAttribute extension) :
    DeclaresFunction depth .direct before name (behind ++ extension)

section Grammar

variable {depth : Nat} {form : DeclaratorForm} {before behind : List Token} {name : Token}

theorem NamedInGroups.declares (h : NamedInGroups depth before name behind) : Declares .direct before name behind := by
  induction h with
  | name hname => exact .name hname
  | attributed hextension hname => exact .attributed hextension hname
  | group hopening hclose _ ih => exact .group hopening hclose (.direct ih)

theorem DeclaresFunction.declares (h : DeclaresFunction depth form before name behind) : Declares form before name behind := by
  induction h with
  | function inner hparameters => exact .function inner.declares hparameters
  | pointer hstar hqualifiers _ ih => exact .pointer hstar hqualifiers ih
  | direct _ ih => exact .direct ih
  | group hopening hclose _ ih => exact .group hopening hclose ih
  | array _ hbounds ih => exact .array ih hbounds
  | result _ hparameters ih => exact .function ih hparameters
  | attributes _ hextension ih => exact .attributes ih hextension

/-- Behind a name in parentheses stand the ones that close them. -/
theorem NamedInGroups.head (h : NamedInGroups depth before name behind) :
    if depth = 0 then behind = [] else ∃ t ∈ behind.head?, t.kind = .closing .paren := by
  induction h with
  | name | attributed => simp
  | @group depth opening name close before behind _ hclose _ ih =>
    rw [if_neg (Nat.succ_ne_zero depth)]
    split_ifs at ih
    · exact ⟨close, by simp [ih], hclose⟩
    · obtain ⟨t, ht, hkind⟩ := ih
      exact ⟨t, by rw [List.head?_append, Option.mem_def.1 ht]; rfl, hkind⟩

/-- A parameter list stands directly behind a name without parentheses of its own. -/
theorem DeclaresFunction.exists_head (h : DeclaresFunction depth form before name behind) :
    ∃ t ∈ behind.head?, t.kind = if depth = 0 then .opening .paren else .closing .paren := by
  have hmore {behind : List Token} (more : List Token)
      (hbehind : ∃ t ∈ behind.head?, t.kind = if depth = 0 then .opening .paren else .closing .paren) :
      ∃ t ∈ (behind ++ more).head?, t.kind = if depth = 0 then .opening .paren else .closing .paren := by
    obtain ⟨t, ht, hkind⟩ := hbehind
    exact ⟨t, by rw [List.head?_append, Option.mem_def.1 ht]; rfl, hkind⟩
  induction h with
  | function inner hparameters =>
    have hhead := inner.head
    split_ifs at hhead ⊢
    · subst hhead
      obtain ⟨opening, inside, close, rfl, hopening, -⟩ := hparameters
      exact ⟨opening, rfl, hopening⟩
    · obtain ⟨t, ht, hkind⟩ := hhead
      exact ⟨t, by rw [List.head?_append, Option.mem_def.1 ht]; rfl, hkind⟩
  | pointer _ _ _ ih | direct _ ih => exact ih
  | group _ _ _ ih | array _ _ ih | result _ _ ih | attributes _ _ ih => exact hmore _ ih

/-- Such a declarator is read as one of a function if the name has no parentheses of its own. -/
theorem DeclaresFunction.isFunction (h : DeclaresFunction depth .declarator before name behind) :
    (Declarator.ofTokens (before ++ name :: behind)).name = some name ∧
      (Declarator.ofTokens (before ++ name :: behind)).isFunction = decide (depth = 0) := by
  obtain ⟨t, ht, hkind⟩ := h.exists_head
  rw [Checked.PlacedDeclarator.ofTokens_of_declares h.declares, Option.mem_def.1 ht]
  refine ⟨rfl, ?_⟩
  by_cases hdepth : depth = 0 <;> simp [Declarator.isFunction, Option.filter, hkind, hdepth]

end Grammar

/-! ### Outside the groups of a declarator -/

section Outside

variable {P : Token → Prop} (hword : ∀ t : Token, t.kind.isPunctuation = false → P t)
  (hopening : ∀ (t : Token) (bracket : Bracket), bracket ≠ .brace → t.kind = .opening bracket → P t)
  (hstar : ∀ t : Token, t.kind = .punct .star → P t)

include hopening

theorem IsGroup.outside {bracket : Bracket} {group : List Token} (h : IsGroup bracket group) (hbracket : bracket ≠ .brace) :
    Outside P 0 group := by
  obtain ⟨opening, inside, close, rfl, hkind, hclose, hinside⟩ := h
  have hcloses : close.kind.isClosing = true := by simp [hclose, TokenKind.isClosing]
  have hclosing := Nesting.closing_of_nested hinside hcloses []
  refine ⟨fun _ => hopening opening bracket hbracket hkind, ?_⟩
  rw [hkind, ← hclosing]
  exact Nesting.outside_closing 1 _

include hword

theorem IsAttribute.outside {extension : List Token} (h : IsAttribute extension) : Outside P 0 extension := by
  cases h with
  | word hattribute => exact ⟨fun _ => hword _ (isPunctuation_of_isAttribute hattribute), trivial⟩
  | applied hattribute hgroup =>
    refine ⟨fun _ => hword _ (isPunctuation_of_isAttribute hattribute), ?_⟩
    rw [Nesting.depthBehind_of_word (isPunctuation_of_isAttribute hattribute)]
    exact hgroup.outside hopening (by simp)

include hstar

/-- Outside the groups of a declarator stand words, stars and opening brackets. -/
theorem Declares.outside {form : DeclaratorForm} {before behind : List Token} {name : Token}
    (h : Declares form before name behind) : Outside P 0 (before ++ name :: behind) := by
  have hlevel {ts : List Token} (hclosed : Nesting.openBehind? [] ts = some []) : level 0 ts = 0 := Nesting.level_of_openBehind? hclosed
  have hname {t : Token} (ht : t.isName = true) : Outside P 0 [t] := ⟨fun _ => hword t (isPunctuation_of_isName ht), trivial⟩
  have hmore {before behind group : List Token} {name : Token} (hinner : Outside P 0 (before ++ name :: behind))
      (hclosed : Nesting.openBehind? [] (before ++ name :: behind) = some []) (hgroup : Outside P 0 group) :
      Outside P 0 (before ++ name :: (behind ++ group)) := by
    rw [← List.cons_append, ← List.append_assoc, Nesting.outside_append, hlevel hclosed]
    exact ⟨hinner, hgroup⟩
  induction h with
  | @pointer star name qualifiers before behind hkind hqualifiers _ ih =>
    have hwords : ∀ t ∈ qualifiers, t.kind.isPunctuation = false := by
      intro t ht
      have hqualifier := hqualifiers t ht
      unfold TokenKind.isTypeQualifier at hqualifier
      split at hqualifier <;> simp_all [TokenKind.isPunctuation]
    have hrow : Outside P 0 qualifiers ∧ level 0 qualifiers = 0 := by
      clear hqualifiers
      induction qualifiers with
      | nil => exact ⟨trivial, rfl⟩
      | cons t qualifiers ihq =>
        obtain ⟨ht, hwords⟩ := List.forall_mem_cons.1 hwords
        obtain ⟨houtside, hflat⟩ := ihq hwords
        rw [Outside, Nesting.level_cons, Nesting.depthBehind_of_word ht]
        exact ⟨⟨fun _ => hword t ht, houtside⟩, hflat⟩
    rw [List.cons_append, List.append_assoc]
    refine ⟨fun _ => hstar star hkind, ?_⟩
    rw [hkind]
    refine Nesting.outside_append.2 ⟨hrow.1, ?_⟩
    rw [show Nesting.depthBehind 0 (.punct .star) = 0 from rfl, hrow.2]
    exact ih
  | direct _ ih => exact ih
  | name hisName => exact hname hisName
  | attributed hextension hisName =>
    rw [Nesting.outside_append, hlevel (hextension.openBehind? [])]
    exact ⟨hextension.outside hword hopening, hname hisName⟩
  | @group opening name close before behind hkind hclose inner _ =>
    have hgroup : IsGroup .paren (opening :: (before ++ name :: behind ++ [close])) :=
      ⟨opening, _, close, rfl, hkind, hclose, inner.openBehind? []⟩
    simpa using hgroup.outside hopening (by simp)
  | array inner hbounds ih => exact hmore ih (inner.openBehind? []) (hbounds.outside hopening (by simp))
  | function inner hparameters ih => exact hmore ih (inner.openBehind? []) (hparameters.outside hopening (by simp))
  | attributes inner hextension ih => exact hmore ih (inner.openBehind? []) (hextension.outside hword hopening)

end Outside

/-! ### Collecting what is allowed -/

namespace Outline

/-- What is collected, with tokens behind it and the brackets that they leave open. -/
def Collected.extend (c : Collected) (ts opened : List Token) : Collected :=
  { c with met := ts.reverse ++ c.met, tokens := ts.reverse ++ c.tokens, opened }

variable {markers : Bool} {first : Token} {c : Collected} {todo opened : List Token}

/-- Tokens whose brackets fit are collected one by one, if those outside the brackets are allowed. -/
theorem collect_extend (hplain : ∀ t ∈ todo, t.isSignificant = true ∧ t.kind ≠ .eof) (hhead : c.head = none)
    (hlevel : c.Level) (hopened : openBehind? c.opened todo = some opened)
    (hallows : ∀ front t behind, todo = front ++ t :: behind → level 0 (c.tokens.reverse ++ front) = 0 →
      Allows markers (c.tokens.reverse ++ front) t) (more : List Token) :
    collect markers first c (todo ++ more) = collect markers first (c.extend todo opened) more := by
  induction todo generalizing c with
  | nil =>
    cases hopened
    rfl
  | cons t todo ih =>
    obtain ⟨⟨ht, heof⟩, hplain⟩ := List.forall_mem_cons.1 hplain
    rw [Nesting.openBehind?_cons] at hopened
    obtain ⟨between, hstep, hopened⟩ := Option.bind_eq_some_iff.1 hopened
    have hallows' : c.opened = [] → Allows markers c.tokens.reverse t := fun hnil => by
      simpa using hallows [] t todo rfl (by rw [List.append_nil, ← hlevel, hnil]; rfl)
    have hgrows : Collected.Grows markers c t (c.extend [t] between) :=
      Collected.grows_of_openStep hstep ht
        (fun hbrace => or_iff_not_imp_left.2 fun hnil => ⟨hhead, (hallows' (not_not.1 hnil)).2 hbrace⟩)
        (fun hsemi => .inl fun hnil => (hallows' hnil).1 hsemi)
    have hmore := @ih (c.extend [t] between) hplain hhead (hgrows.level hlevel) hopened fun front u behind hsplit => by
      simpa [Collected.extend] using hallows (t :: front) u behind (by rw [hsplit, List.cons_append])
    rw [List.cons_append, collect_cons, Collected.verdict_of_grows hgrows heof]
    simpa [Collected.extend] using hmore

end Outline

/-! ### Heads of functions -/

/-- Outside the groups of specifiers stands no semicolon, and a brace only where the body of an aggregate begins. -/
theorem TypedSpecifiers.allows {markers : Bool} {ss e front behind : List Token} {t : Token} (h : TypedSpecifiers markers ss e)
    (hsplit : ss = front ++ t :: behind) (hlevel : level 0 front = 0) : Outline.Allows markers front t := by
  refine ⟨?_, fun hbrace => ?_⟩
  · have hsemi := h.outside_semi
    rw [hsplit, Nesting.outside_append, hlevel] at hsemi
    exact hsemi.2.1 rfl
  · obtain ⟨hwhole, s, hs, a, ha, hbody⟩ := Specifiers.take_of_brace h.whole hsplit hlevel hbrace
    exact Shape.expectsBrace_of_specifiers hwhole hs ha hbody t

/-- The parts of a definition of a function: specifiers that settle a type, a declarator with the name in `depth` pairs of
parentheses of its own, and a body in braces. -/
structure FunctionDefinition (markers : Bool) (depth : Nat) (ss before : List Token) (name : Token) (behind : List Token)
    (brace : Token) (inside : List Token) (close : Token) : Prop where
  specifiers : TypedSpecifiers markers ss (before ++ name :: behind)
  declarator : DeclaresFunction depth .declarator before name behind
  opens : brace.kind = .opening .brace
  closes : close.kind = .closing .brace
  balanced : openBehind? [] (braces inside) = some []

namespace FunctionDefinition

variable {markers : Bool} {depth : Nat} {ss before behind inside : List Token} {name brace close : Token}

theorem outside {P : Token → Prop} (h : FunctionDefinition markers depth ss before name behind brace inside close)
    (hword : ∀ t : Token, t.kind.isPunctuation = false → P t)
    (hopening : ∀ (t : Token) (bracket : Bracket), bracket ≠ .brace → t.kind = .opening bracket → P t)
    (hstar : ∀ t : Token, t.kind = .punct .star → P t) : Outside P 0 (before ++ name :: behind) :=
  h.declarator.declares.outside hword hopening hstar

/-- No punctuation of another kind stands outside the groups of the declarator. -/
theorem outside_ne (h : FunctionDefinition markers depth ss before name behind brace inside close) {kind : TokenKind}
    (hkind : kind.isPunctuation = true) (hstar : kind ≠ .punct .star)
    (hopening : ∀ bracket, bracket ≠ .brace → kind ≠ .opening bracket) :
    Outside (·.kind ≠ kind) 0 (before ++ name :: behind) := by
  refine h.outside (fun t ht heq => ?_) (fun t bracket hbracket ht heq => ?_) (fun t ht heq => ?_)
  · rw [heq, hkind] at ht
    cases ht
  · exact hopening bracket hbracket (heq.symm.trans ht)
  · exact hstar (heq.symm.trans ht)

theorem closed (h : FunctionDefinition markers depth ss before name behind brace inside close) :
    openBehind? [] (ss ++ (before ++ name :: behind)) = some [] := by
  rw [Nesting.openBehind?_append, h.specifiers.closed, Option.bind_some, h.declarator.declares.openBehind?]

/-- The tokens before the body are allowed one after another. -/
theorem allows (h : FunctionDefinition markers depth ss before name behind brace inside close) {front rest : List Token}
    {t : Token} (hsplit : ss ++ (before ++ name :: behind) = front ++ t :: rest) (hlevel : level 0 front = 0) :
    Outline.Allows markers front t := by
  rcases List.append_eq_append_iff.1 hsplit with ⟨mine, rfl, hmine⟩ | ⟨more, hfront, hmore⟩
  · rw [Nesting.level_append, h.specifiers.level_eq] at hlevel
    have hsemi : Outside (·.kind ≠ .punct .semi) 0 (before ++ name :: behind) := h.outside_ne rfl (by simp) (by simp)
    have hbrace : Outside (·.kind ≠ .opening .brace) 0 (before ++ name :: behind) :=
      h.outside_ne rfl (by simp) fun bracket hbracket heq => by simp_all
    rw [hmine, Nesting.outside_append, hlevel] at hsemi hbrace
    exact ⟨hsemi.2.1 rfl, fun hkind => absurd hkind (hbrace.2.1 rfl)⟩
  · cases more with
    | nil =>
      -- the token is the first of the declarator
      have hhead : t ∈ (before ++ name :: behind).head? := by rw [← List.nil_append (before ++ name :: behind), ← hmore]; rfl
      obtain ⟨-, hbrace, hsemi⟩ := (h.specifiers.starts t hhead).plain
      exact ⟨hsemi, fun hkind => absurd hkind hbrace⟩
    | cons u more =>
      obtain ⟨rfl, -⟩ := List.cons.inj hmore
      exact h.specifiers.allows hfront hlevel

theorem breakAt (h : FunctionDefinition markers depth ss before name behind brace inside close) :
    Nesting.breakAt (.punct .eq) 0 (before ++ name :: behind) = (before ++ name :: behind, []) :=
  Nesting.breakAt_of_outside_all (h.outside_ne rfl (by simp) (by simp))

theorem behindSpecifiers (h : FunctionDefinition markers depth ss before name behind brace inside close) :
    Shape.behindSpecifiers (.ofTokens markers ss) (ss ++ (before ++ name :: behind)) = before ++ name :: behind := by
  rw [← h.specifiers.ofTokens_append, h.specifiers.behindSpecifiers_append]

/-- The declarator is the only one. -/
theorem declarators (h : FunctionDefinition markers depth ss before name behind brace inside close) :
    declarators brace (before ++ name :: behind) = [⟨before ++ name :: behind, brace⟩] := by
  rw [CHeader.declarators, if_neg (by simp), Nesting.splitCommas_of_outside (h.outside_ne rfl (by simp) (by simp))]

/-- The brace begins a body if the name has no parentheses of its own, and nothing otherwise. -/
theorem verdict (h : FunctionDefinition markers depth ss before name behind brace inside close) {c : Outline.Collected}
    (hopened : c.opened = []) (hhead : c.head = none) (htokens : c.tokens.reverse = ss ++ (before ++ name :: behind)) :
    c.verdict markers brace = if depth = 0 then .body else .unexpected := by
  have hfunction : Shape.isFunctionHead markers brace (ss ++ (before ++ name :: behind)) = decide (depth = 0) := by
    have hread := h.declarator.isFunction.2
    simp [Shape.isFunctionHead, Shape.lastDeclarator?, h.specifiers.ofTokens_append, h.specifiers.plain, h.behindSpecifiers,
      h.declarators, Piece.hasInitializer, Piece.declarator, Piece.declaring, h.breakAt, hread]
  have hexpects : Shape.expectsBrace markers brace (ss ++ (before ++ name :: behind)) = false := by
    simp [Shape.expectsBrace, Shape.lastDeclarator?, h.specifiers.ofTokens_append, h.behindSpecifiers, h.declarators,
      Piece.hasInitializer, h.breakAt]
  simp [Outline.Collected.verdict, h.opens, hopened, hhead, htokens, hfunction, hexpects]

/-- The construct that it is. -/
def construct (ss before : List Token) (name : Token) (behind : List Token) (brace close : Token) : Construct :=
  ⟨ss ++ (before ++ name :: behind), [], .body brace close, []⟩

/-- It is one construct if the name has no parentheses of its own, and an issue at the brace otherwise. -/
theorem outline_row (h : FunctionDefinition markers depth ss before name behind brace inside close)
    (hplain : ∀ t ∈ ss ++ (before ++ name :: behind), t.isSignificant = true ∧ t.kind ≠ .eof)
    (hinside : ∀ t ∈ inside, t.kind ≠ .eof) (more : List Token) :
    outline markers 0 (ss ++ (before ++ name :: behind) ++ brace :: (inside ++ close :: more)) =
      (if depth = 0 then
        .construct (ss ++ (before ++ name :: behind) ++ brace :: (inside ++ [close])) (construct ss before name behind brace close)
      else
        .malformed (ss ++ (before ++ name :: behind)) (.ofIssue .unexpectedBrace brace) (brace :: (inside ++ [close]))) ::
        outline markers 0 more := by
  have hss := h.specifiers
  obtain ⟨first, ts, s, rfl, hfirst⟩ := hss.exists_first
  have hword := Specifier.isPunctuation_of_first? hfirst
  have hlinked : first.kind = .keyword .externKw →
      Outline.linkageLength? (ts ++ (before ++ name :: behind) ++ brace :: (inside ++ close :: more)) = none := fun hkind =>
    Outline.linkageLength?_row hkind hss (by simp) fun u hu => (hplain u (List.mem_cons_of_mem _ hu)).1
  have houtline := @outline_cons_collect markers 0 first _ (Specifier.canStartDeclaration_of_first? hfirst) hlinked
  have hlevel : (Outline.Collected.start first).Level := by
    simp [Outline.Collected.Level, Outline.Collected.start, Nesting.depthBehind_of_word hword]
  have hopened : openBehind? [] (ts ++ (before ++ name :: behind)) = some [] := by
    have hclosed := h.closed
    rwa [List.cons_append, Nesting.openBehind?_cons, Nesting.openStep_of_noBracket (noBracket_of_word hword)] at hclosed
  have hcollect := @Outline.collect_extend markers first (.start first) (ts ++ (before ++ name :: behind)) []
    (fun t ht => hplain t (List.mem_cons_of_mem _ ht)) rfl hlevel hopened
    (fun front t rest hsplit => h.allows (by rw [List.cons_append, hsplit]; rfl)) (brace :: (inside ++ close :: more))
  have hverdict : ((Outline.Collected.start first).extend (ts ++ (before ++ name :: behind)) []).verdict markers brace =
      if depth = 0 then .body else .unexpected :=
    h.verdict rfl rfl (by simp [Outline.Collected.extend, Outline.Collected.start])
  have hbody : Outline.body? 0 (inside ++ close :: more) = some (inside, close) :=
    @Outline.body?_of_braces [] inside (by simp) hinside h.balanced close h.closes more
  rw [List.cons_append, List.cons_append, houtline, hcollect, Outline.collect_cons, hverdict]
  split_ifs with hdepth
  · simp [Outline.Collected.stop, Outline.function, hbody, Outline.Collected.finish, Outline.Collected.extend,
      Outline.Collected.start, construct]
  · have hrecovery : Outline.recovery 0 (brace :: (inside ++ close :: more)) = brace :: (inside ++ [close]) := by
      rw [Outline.recovery, h.opens]
      exact congrArg _ (Outline.recovery_of_body? hbody)
    simp [Outline.Collected.stop, Outline.Collected.malformed, hrecovery, Outline.Collected.extend,
      Outline.Collected.start]

/-- The construct declares the function, behind the aggregate that its specifiers may define. -/
theorem tellings_construct (h : FunctionDefinition markers 0 ss before name behind brace inside close) {site : Site}
    (hmarkers : site.markers = markers) :
    ((construct ss before name behind brace close).entries site).filterMap Entry.issue? = [] ∧
      ∃ types function, ((construct ss before name behind brace close).entries site).filterMap Entry.telling? =
        types ++ [function] ∧ (∀ telling ∈ types, telling.kind = .type) ∧ function.kind = .function ∧
          function.name = some name.text := by
  let c := construct ss before name behind brace close
  let specs := Specifiers.ofTokens markers ss
  let piece : Piece := ⟨before ++ name :: behind, brace⟩
  have hspecs : c.specifiers site = specs := by
    rw [Construct.specifiers, hmarkers]
    exact h.specifiers.ofTokens_append
  have hpieces : c.pieces specs = [piece] := by
    show CHeader.declarators brace (Shape.behindSpecifiers specs (ss ++ (before ++ name :: behind))) = _
    rw [h.behindSpecifiers, h.declarators]
  have hdeclaring : piece.declaring = before ++ name :: behind := by
    rw [Piece.declaring, h.breakAt]
  obtain ⟨hname, hfunction⟩ := h.declarator.isFunction
  have hdeclarator : piece.declarator.name = some name ∧ piece.declarator.isFunction = true := by
    rw [Piece.declarator, hdeclaring]
    exact ⟨hname, hfunction⟩
  have htext : ∀ start, ∃ text, c.functionText site specs start piece = .ok text := by
    intro start
    rw [Construct.functionText]
    simp only [c.lostConditional?_eq_none rfl]
    split_ifs <;> exact ⟨_, rfl⟩
  obtain ⟨first, hentries⟩ := Construct.entries_of_specifiers hspecs h.specifiers.ofTokens_ne_nil
  simp only [show specs.isTypedef = false from h.specifiers.plain, hpieces, Bool.false_eq_true, if_false, List.isEmpty_cons,
    Construct.declaratorEntries, List.length_singleton, Nat.lt_irrefl, decide_false, Bool.and_false, List.map_singleton] at hentries
  have htypes : (c.taggedEntries site specs (Construct.start specs first)).filterMap Entry.issue? = [] ∧
      ∀ telling ∈ (c.taggedEntries site specs (Construct.start specs first)).filterMap Entry.telling?, telling.kind = .type := by
    unfold Construct.taggedEntries
    cases Construct.tagged? specs with
    | none => exact ⟨rfl, by simp⟩
    | some tagged => exact ⟨rfl, by simp [Entry.telling?, Entry.named?, Draft.telling, Construct.draft]⟩
  obtain ⟨text, htext⟩ := htext (Construct.start specs first)
  have hdeclares : c.declaratorEntry site specs (Construct.start specs first) piece = .declare [name.text]
      (c.draft site (Construct.start specs first) .function text (specs.visibility site.block)) := by
    rw [Construct.declaratorEntry]
    simp only [hdeclarator, htext, if_true]
  rw [hentries, hdeclares, List.filterMap_append, List.filterMap_append, List.filterMap_append, List.filterMap_append,
    Construct.filterMap_mentions specs fun _ => rfl, Construct.filterMap_mentions specs fun _ => rfl, htypes.1]
  exact ⟨rfl, _, _, rfl, htypes.2, rfl, rfl⟩

end FunctionDefinition

/-- Specifiers, a declarator of a function and a body in braces, with comments anywhere, declare that function and nothing else
but the aggregate that the specifiers may define, if the name has no parentheses of its own. If it has some, the brace of the
body is an issue, and nothing is declared. -/
theorem surveySource_functionDefinition {markers : Bool} {source : String} {tokens : List Token} {depth : Nat}
    {ss before behind inside : List Token} {name brace close last : Token} (htokens : tokenize source = .ok tokens)
    (hplain : ∀ t ∈ tokens, t.directive? = none)
    (hrow : tokens.filter Token.stays = ss ++ (before ++ name :: behind) ++ brace :: (inside ++ [close, last]))
    (hdefinition : FunctionDefinition markers depth ss before name behind brace inside close) :
    ∃ s, surveySource markers source = .ok s ∧
      if depth = 0 then
        s.errors = [] ∧ ∃ types function, s.declarations.told = types ++ [function] ∧ (∀ telling ∈ types, telling.kind = .type) ∧
          function.kind = .function ∧ function.name = some name.text
      else s.errors = [.ofIssue .unexpectedBrace brace] ∧ s.declarations.told = [] := by
  obtain ⟨body, stop, rfl, hstop, hbody, -⟩ := tokenized_of_tokenize htokens
  have hstays : stop.stays = true := by simp [Token.stays, TokenKind.isComment, hstop]
  obtain ⟨hfront, rfl⟩ : body.filter Token.stays = ss ++ (before ++ name :: behind) ++ brace :: (inside ++ [close]) ∧ stop = last := by
    rw [List.filter_append, List.filter_cons_of_pos hstays, List.filter_nil] at hrow
    have hrow' : body.filter Token.stays ++ [stop] =
        (ss ++ (before ++ name :: behind) ++ brace :: (inside ++ [close])) ++ [last] := by simpa using hrow
    obtain ⟨hfront, hlast⟩ := List.append_inj' hrow' rfl
    exact ⟨hfront, List.singleton_inj.1 hlast⟩
  have hkinds : ∀ t ∈ ss ++ (before ++ name :: behind) ++ brace :: (inside ++ [close]), t.isSignificant = true ∧ t.kind ≠ .eof := by
    intro t ht
    rw [← hfront] at ht
    obtain ⟨ht, hkept⟩ := List.mem_filter.1 ht
    exact ⟨isSignificant_of_stays hkept (hplain t (List.mem_append_left _ ht)), hbody t ht⟩
  have hplain' : ∀ t ∈ (body ++ [stop]).filter Token.stays, t.directive? = none :=
    fun t ht => hplain t (List.mem_filter.1 ht).1
  have houtline := hdefinition.outline_row (fun t ht => hkinds t (List.mem_append_left _ ht))
    (fun t ht => (hkinds t (by simp [ht])).2) [stop]
  have hend : outline markers 0 [stop] = [] := by rw [outline, hstop]
  have hsurvey := @survey_of_noDirectives markers source _ hplain'
  rw [survey_filter leavesComments_stays, hrow, houtline, hend, List.flatMap_singleton] at hsurvey
  refine ⟨_, by rw [surveySource, htokens]; exact hsurvey, ?_⟩
  rw [Survey.errors_recordAll, Survey.told_recordAll]
  split_ifs with hdepth
  · subst hdepth
    obtain ⟨hissues, htold⟩ := @hdefinition.tellings_construct _ _ _ _ _ _ _ _ ⟨source.toList, markers, [], none⟩ rfl
    exact ⟨hissues, htold⟩
  · exact ⟨rfl, rfl⟩

/-- A function whose value is a pointer to an array, behind the definition of its elements. -/
theorem surveySource_functionDefinition_array :
    let source := "static struct s \x7b int n; \x7d (*f(void))[2] \x7b /* \x7d */ if (1) \x7b \x7d \x7d"
    ∃ tokens ss before name behind brace inside close last, tokenize source = .ok tokens ∧
      (∀ t ∈ tokens, t.directive? = none) ∧
      tokens.filter Token.stays = ss ++ (before ++ name :: behind) ++ brace :: (inside ++ [close, last]) ∧
      FunctionDefinition true 0 ss before name behind brace inside close ∧
      ∃ s, surveySource true source = .ok s ∧ s.errors = [] ∧ ∃ types function, s.declarations.told = types ++ [function] ∧
        (∀ telling ∈ types, telling.kind = .type) ∧ function.kind = .function ∧ function.name = some name.text := by
  intro source
  let tokens := (tokenize source).toOption.getD []
  let t (i : Nat) : Token := (tokens.filter Token.stays).getD i default
  have hrow : tokenize source = .ok tokens ∧ (∀ t ∈ tokens, t.directive? = none) ∧ tokens.filter Token.stays =
      [t 0, t 1, t 2, t 3, t 4, t 5, t 6, t 7] ++ ([t 8, t 9] ++ t 10 :: ([t 11, t 12, t 13] ++ [t 14] ++ [t 15, t 16, t 17])) ++
        t 18 :: ([t 19, t 20, t 21, t 22, t 23, t 24] ++ [t 25, t 26]) := by
    decide +kernel
  have hspecifiers : TypedSpecifiers true [t 0, t 1, t 2, t 3, t 4, t 5, t 6, t 7]
      ([t 8, t 9] ++ t 10 :: ([t 11, t 12, t 13] ++ [t 14] ++ [t 15, t 16, t 17])) := by
    decide +kernel
  have hparens : (t 8).kind = .opening .paren ∧ (t 11).kind = .opening .paren ∧ (t 13).kind = .closing .paren ∧
      (t 14).kind = .closing .paren := by
    decide +kernel
  have hothers : (t 9).kind = .punct .star ∧ (t 10).isName = true ∧ (t 15).kind = .opening .square ∧
      (t 17).kind = .closing .square ∧ (t 18).kind = .opening .brace ∧ (t 25).kind = .closing .brace := by
    decide +kernel
  have hinsides : openBehind? [] [t 12] = some [] ∧ openBehind? [] [t 16] = some [] ∧
      openBehind? [] (braces [t 19, t 20, t 21, t 22, t 23, t 24]) = some [] := by
    decide +kernel
  obtain ⟨htokens, hplain, hrow⟩ := hrow
  obtain ⟨h8, h11, h13, h14⟩ := hparens
  obtain ⟨h9, h10, h15, h17, h18, h25⟩ := hothers
  obtain ⟨h12, h16, hbalanced⟩ := hinsides
  have hparameters : IsGroup .paren [t 11, t 12, t 13] := ⟨t 11, [t 12], t 13, rfl, h11, h13, h12⟩
  have hpointer : DeclaresFunction 0 .declarator ([t 9] ++ []) (t 10) [t 11, t 12, t 13] :=
    @DeclaresFunction.pointer _ _ _ [] _ _ h9 (by simp) (.direct (.function (.name h10) hparameters))
  have hdeclarator : DeclaresFunction 0 .declarator [t 8, t 9] (t 10) ([t 11, t 12, t 13] ++ [t 14] ++ [t 15, t 16, t 17]) :=
    .direct (.array (.group h8 h14 hpointer) ⟨t 15, [t 16], t 17, rfl, h15, h17, h16⟩)
  have hdefinition := FunctionDefinition.mk hspecifiers hdeclarator h18 h25 hbalanced
  obtain ⟨s, hs, herrors, htold⟩ := surveySource_functionDefinition htokens hplain hrow hdefinition
  exact ⟨_, _, _, _, _, _, _, _, _, htokens, hplain, hrow, hdefinition, s, hs, herrors, htold⟩

/-- A function with its name in parentheses is not read. -/
theorem function_in_parentheses :
    let source := "int (f)(void) \x7b return 0; \x7d"
    ∃ tokens ss before name behind brace inside close last, tokenize source = .ok tokens ∧
      (∀ t ∈ tokens, t.directive? = none) ∧
      tokens.filter Token.stays = ss ++ (before ++ name :: behind) ++ brace :: (inside ++ [close, last]) ∧
      FunctionDefinition true 1 ss before name behind brace inside close ∧
      ∃ s, surveySource true source = .ok s ∧ s.errors = [.ofIssue .unexpectedBrace brace] ∧ s.declarations.items = [] := by
  intro source
  let tokens := (tokenize source).toOption.getD []
  let t (i : Nat) : Token := tokens.getD i default
  have hrow : tokenize source = .ok tokens ∧ (∀ t ∈ tokens, t.directive? = none) ∧ tokens.filter Token.stays =
      [t 0] ++ ([t 1] ++ t 2 :: ([t 3] ++ [t 4, t 5, t 6])) ++ t 7 :: ([t 8, t 9, t 10] ++ [t 11, t 12]) := by
    decide +kernel
  have hspecifiers : TypedSpecifiers true [t 0] ([t 1] ++ t 2 :: ([t 3] ++ [t 4, t 5, t 6])) := by decide +kernel
  have hkinds : (t 1).kind = .opening .paren ∧ (t 2).isName = true ∧ (t 3).kind = .closing .paren ∧
      (t 4).kind = .opening .paren ∧ openBehind? [] [t 5] = some [] ∧ (t 6).kind = .closing .paren ∧
      (t 7).kind = .opening .brace ∧ openBehind? [] (braces [t 8, t 9, t 10]) = some [] ∧ (t 11).kind = .closing .brace := by
    decide +kernel
  let s := (surveySource true source).toOption.getD {}
  have hsurvey : surveySource true source = .ok s ∧ s.errors = [.ofIssue .unexpectedBrace (t 7)] ∧ s.declarations.items = [] := by
    decide +kernel
  obtain ⟨htokens, hplain, hrow⟩ := hrow
  obtain ⟨h1, h2, h3, h4, h5, h6, h7, hbalanced, h11⟩ := hkinds
  have hdeclarator : DeclaresFunction 1 .declarator [t 1] (t 2) ([t 3] ++ [t 4, t 5, t 6]) :=
    .direct (.function (@NamedInGroups.group 0 _ _ _ [] [] h1 h3 (.name h2)) ⟨t 4, [t 5], t 6, rfl, h4, h6, h5⟩)
  exact ⟨tokens, _, _, _, _, _, _, _, _, htokens, hplain, hrow, ⟨hspecifiers, hdeclarator, h7, h11, hbalanced⟩, s, hsurvey⟩

end CHeader
