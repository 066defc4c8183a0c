import CHeader.Proofs.Apart
import CHeader.Proofs.Definitions
import CHeader.Proofs.SpecifierEnds

/-!
# Declarators behind specifiers

Specifiers that settle a type take nothing of the declarators behind them (`SpecifierRow.ofTokens_append`), and in a
sound text a list of declarators goes on to the semicolon behind it (`Outline.outline_row`): its semicolons stand in
groups, and its braces in initial values, so no body begins at them. Then each declarator says what it says by itself
behind the specifiers (`Construct.tellings_entries`, `Specifiers.declared?`), which depends on the kinds and texts of
the tokens and the blanks between them only (`Specifiers.declared?_respaced`).
-/

namespace CHeader

open Nesting (Outside Piece breakAt level openBehind? parenthesized splitCommas)

/-! ### Outside the groups of specifiers -/

section Outside

variable {P : Token → Prop} (hword : ∀ t : Token, t.kind.isPunctuation = false → P t)
  (hparen : ∀ t : Token, t.kind = .opening .paren → P t) (hbrace : ∀ t : Token, t.kind = .opening .brace → P t)

include hword hparen hbrace

theorem Aggregate.outside_ofTokens {keyword : Token} (hkeyword : keyword.kind.isPunctuation = false) (ts : List Token) :
    Outside P 0 ((ofTokens keyword ts).head ++ (ofTokens keyword ts).body) := by
  refine Nesting.outside_append.2 ⟨outside_head hword hparen hkeyword ts, ?_⟩
  rcases outside_body P keyword ts with hnone | ⟨brace, inner, hbody, hkind, hinner⟩
  · rw [hnone]
    trivial
  · rw [level_head_of_body hkeyword (by simp [hbody]), hbody]
    refine ⟨fun _ => hbrace brace hkind, ?_⟩
    rwa [hkind]

theorem Specifier.outside_tokens {markers typed behindExtern : Bool} {t : Token} {ts : List Token} {s : Specifier}
    (h : first? markers typed behindExtern t ts = some s) : Outside P 0 s.tokens := by
  have ht := isPunctuation_of_first? h
  cases form_of_first? h with
  | word => exact ⟨fun _ => hword t ht, trivial⟩
  | argument =>
    refine ⟨fun _ => hword t ht, ?_⟩
    rw [Nesting.depthBehind_of_word ht]
    exact Nesting.outside_parenthesized hparen ts
  | aggregate => exact Aggregate.outside_ofTokens hword hparen hbrace ht ts

/-- Outside the groups, specifiers are words, parentheses with arguments and braces with bodies. -/
theorem Specifiers.outside_tokens (markers typed behindExtern : Bool) (ts : List Token) :
    Outside P 0 (take markers typed behindExtern ts).tokens := by
  fun_induction take markers typed behindExtern ts with
  | case1 | case3 => trivial
  | case2 typed behindExtern t ts s hs ih =>
    rw [tokens, List.flatMap_cons, Nesting.outside_append]
    refine ⟨Specifier.outside_tokens hword hparen hbrace hs, ?_⟩
    by_cases hnil : ts.drop (s.tokens.length - 1) = []
    · rw [hnil, take]
      trivial
    · obtain ⟨hfront, hhead⟩ := Specifier.prefix_of_first? hs
      obtain ⟨inner, hinner⟩ := List.head?_eq_some_iff.1 hhead
      have hsplit : s.tokens ++ ts.drop (s.tokens.length - 1) = t :: ts := by
        have hdrop := List.prefix_iff_eq_append.1 hfront
        rw [hinner] at hdrop ⊢
        simpa using hdrop
      rw [Specifier.level_of_first? hs hsplit hnil]
      exact ih

end Outside

/-- Before a brace outside all groups, a specifier is an aggregate without its body. -/
theorem Specifier.first?_of_brace {markers typed behindExtern : Bool} {t brace : Token} {ts front inside : List Token}
    {s : Specifier} (h : first? markers typed behindExtern t ts = some s) (htokens : s.tokens = t :: front ++ brace :: inside)
    (hlevel : level 0 (t :: front) = 0) (hbrace : brace.kind = .opening .brace) :
    ∃ a, first? markers typed behindExtern t front = some ⟨.aggregate a, t :: front⟩ ∧ a.body = [] := by
  have hword := isPunctuation_of_first? h
  have hparen : ∀ u : Token, u.kind = .opening .paren → u.kind ≠ .opening .brace := fun u hu => by simp [hu]
  cases form_of_first? h with
  | word => simp at htokens
  | argument role =>
    have hargument : parenthesized ts = front ++ brace :: inside := (List.cons.inj htokens).2
    have houtside := Nesting.outside_parenthesized hparen ts
    rw [hargument, Nesting.outside_append] at houtside
    rw [Nesting.level_cons, Nesting.depthBehind_of_word hword] at hlevel
    exact absurd hbrace (houtside.2.1 hlevel)
  | aggregate =>
    obtain ⟨⟨k, hkind, hk⟩, -⟩ := keyword_of_aggregate? h rfl
    obtain ⟨inner, hinner⟩ : ∃ inner, (Aggregate.ofTokens t ts).head = t :: inner := ⟨_, rfl⟩
    simp only [hinner, List.cons_append] at htokens
    obtain rfl := (Aggregate.outside_tokens hword hinner (List.cons.inj htokens).2 hlevel).2 hbrace
    refine ⟨{ Aggregate.ofTokens t ts with body := [] }, ?_, rfl⟩
    rw [first?_of_isAggregate hkind hk, Aggregate.ofTokens_head hinner]
    simp [hinner]

/-- A brace outside all groups of specifiers opens the body of the aggregate that is the last specifier before it. -/
theorem Specifiers.take_of_brace {markers typed behindExtern : Bool} {ts front behind : List Token} {brace : Token}
    (h : (take markers typed behindExtern ts).tokens = ts) (hsplit : ts = front ++ brace :: behind)
    (hlevel : level 0 front = 0) (hbrace : brace.kind = .opening .brace) :
    (take markers typed behindExtern front).tokens = front ∧
      ∃ s ∈ (take markers typed behindExtern front).getLast?, ∃ a ∈ s.aggregate?, a.body = [] := by
  fun_induction take markers typed behindExtern ts generalizing front with
  | case1 => simp at hsplit
  | case2 typed behindExtern t ts s hs ih =>
    obtain ⟨hbegins, hhead⟩ := Specifier.prefix_of_first? hs
    obtain ⟨inner, hinner⟩ := List.head?_eq_some_iff.1 hhead
    have hword := Specifier.isPunctuation_of_first? hs
    have hne : front ≠ [] := by
      rintro rfl
      obtain rfl : t = brace := (List.cons.inj hsplit).1
      simp [hbrace, TokenKind.isPunctuation] at hword
    obtain ⟨u, front, rfl⟩ := List.exists_cons_of_ne_nil hne
    obtain ⟨rfl, hts⟩ := List.cons.inj hsplit
    have hrest : (t :: ts).drop s.tokens.length = ts.drop (s.tokens.length - 1) := by simp [hinner]
    have hwhole : s.tokens ++ ts.drop (s.tokens.length - 1) = t :: ts := by
      rw [← hrest]
      exact List.prefix_iff_eq_append.1 hbegins
    rcases List.append_eq_append_iff.1 (hwhole.trans hsplit) with ⟨later, hfront, hbehind⟩ | ⟨inside, htokens, hbehind⟩
    · -- the brace stands behind the specifier
      have hrestwhole : (take markers (typed || s.isType) (t.kind = .keyword .externKw)
          (ts.drop (s.tokens.length - 1))).tokens = ts.drop (s.tokens.length - 1) := by
        rw [tokens, List.flatMap_cons, ← hwhole] at h
        exact List.append_cancel_left h
      have hclosed := Specifier.level_of_first? hs hwhole (by rw [hbehind]; simp)
      have hlater : level 0 later = 0 := by rwa [hfront, Nesting.level_append, hclosed] at hlevel
      obtain ⟨hwholeLater, u, hu, a, ha, hbody⟩ := ih hrestwhole hbehind hlater
      have hsame := Specifier.first?_of_front hs (hfront ▸ List.prefix_append _ _) (hts ▸ List.prefix_append _ _)
      have hdrop : front.drop (s.tokens.length - 1) = later := by
        have hcut := congrArg (List.drop s.tokens.length) hfront
        rw [List.drop_left, hinner] at hcut
        simpa [hinner] using hcut
      rw [take, hsame]
      simp only [hdrop]
      refine ⟨?_, u, ?_, a, ha, hbody⟩
      · rw [tokens, List.flatMap_cons]
        exact (congrArg (s.tokens ++ ·) hwholeLater).trans hfront.symm
      · rw [List.getLast?_cons, Option.mem_def.1 hu]
        rfl
    · cases inside with
      | nil =>
        -- no specifier begins with a brace
        obtain ⟨-, u, hu, -⟩ := @ih [] (by
          rw [tokens, List.flatMap_cons, ← hwhole] at h
          exact List.append_cancel_left h) (by simpa using hbehind.symm) rfl
        simp [take] at hu
      | cons u inside =>
        obtain rfl : brace = u := (List.cons.inj hbehind).1
        obtain ⟨a, ha, hbody⟩ := Specifier.first?_of_brace hs htokens hlevel hbrace
        have hdrop : front.drop ((t :: front).length - 1) = [] := by simp
        rw [take, ha]
        simp only [hdrop, take]
        exact ⟨by simp [tokens], _, rfl, a, rfl, hbody⟩
  | case3 typed behindExtern t ts hs => simp [tokens] at h

/-! ### Rows of specifiers -/

/-- A token that a declarator begins with: a star, a parenthesis or a name. -/
def Token.StartsDeclarator (markers : Bool) (t : Token) : Prop :=
  t.kind = .punct .star ∨ t.kind = .opening .paren ∨
    t.isName = true ∧ t.isTypeof = false ∧ Specifier.markerOf? markers t = none

instance (markers : Bool) (t : Token) : Decidable (t.StartsDeclarator markers) :=
  inferInstanceAs (Decidable (_ ∨ _))

/-- Specifiers that settle a type and are complete: no word is left without its argument, and no aggregate without its
tag. None of them is `typedef`, and none has a body. -/
@[mk_iff]
structure SpecifierRow (markers : Bool) (ss : List Token) : Prop where
  closed : openBehind? [] ss = some []
  whole : (Specifiers.ofTokens markers ss).tokens = ss
  typed : (Specifiers.ofTokens markers ss).any (·.isType) = true
  plain : (Specifiers.ofTokens markers ss).isTypedef = false
  bodiless : Outside (·.kind ≠ .opening .brace) 0 ss
  complete : ∀ t ∈ ss.getLast?, t.takesArgument = false
  tagged : ∀ s ∈ (Specifiers.ofTokens markers ss).getLast?, ∀ a ∈ s.aggregate?, a.tag.isSome = true

instance (markers : Bool) (ss : List Token) : Decidable (SpecifierRow markers ss) :=
  decidable_of_iff' _ (specifierRow_iff markers ss)

theorem Token.StartsDeclarator.plain {markers : Bool} {t : Token} (h : t.StartsDeclarator markers) :
    t.isAttribute = false ∧ t.kind ≠ .opening .brace ∧ t.kind ≠ .punct .semi := by
  rcases h with hstar | hparen | ⟨hname, -, -⟩
  · simp [Token.isAttribute, TokenKind.identifier?, hstar]
  · simp [Token.isAttribute, TokenKind.identifier?, hparen]
  · have hword := isPunctuation_of_isName hname
    refine ⟨?_, ?_, ?_⟩
    · unfold Token.isName at hname
      unfold Token.isAttribute
      cases hkind : t.kind.identifier? <;> simp_all
    · intro hkind
      simp [hkind, TokenKind.isPunctuation] at hword
    · intro hkind
      simp [hkind, TokenKind.isPunctuation] at hword

/-- Once a type is settled, it begins no specifier. -/
theorem Token.StartsDeclarator.take_eq_nil {markers : Bool} {t : Token} (h : t.StartsDeclarator markers) (behind : Bool)
    (ts : List Token) : Specifiers.take markers true behind (t :: ts) = [] := by
  have hnone : Specifier.first? markers true behind t ts = none := by
    rcases h with hstar | hparen | ⟨hname, htypeof, hmarker⟩
    · simp [Specifier.first?, hstar]
    · simp [Specifier.first?, hparen]
    · have hattribute : t.isAttribute = false := (plain (.inr (.inr ⟨hname, htypeof, hmarker⟩))).1
      unfold Token.isName TokenKind.identifier? at hname
      split at hname
      · rw [Specifier.first?, ‹t.kind = _›]
        simp [Specifier.ofIdentifier?, hmarker, hattribute, htypeof]
      · simp at hname
  rw [Specifiers.take, hnone]

/-- Specifiers that settle a type, before declarators that none of them takes in. None of them is `typedef`. -/
@[mk_iff]
structure TypedSpecifiers (markers : Bool) (ss e : List Token) : Prop where
  closed : openBehind? [] ss = some []
  whole : (Specifiers.ofTokens markers ss).tokens = ss
  typed : (Specifiers.ofTokens markers ss).any (·.isType) = true
  plain : (Specifiers.ofTokens markers ss).isTypedef = false
  starts : ∀ t ∈ e.head?, t.StartsDeclarator markers
  argument : ∀ t ∈ ss.getLast?, t.takesArgument = true → ∀ u ∈ e.head?, u.kind ≠ .opening .paren
  tagged : ∀ s ∈ (Specifiers.ofTokens markers ss).getLast?, ∀ a ∈ s.aggregate?, a.tag.isSome = true ∨ a.body ≠ []

instance (markers : Bool) (ss e : List Token) : Decidable (TypedSpecifiers markers ss e) :=
  decidable_of_iff' _ (typedSpecifiers_iff markers ss e)

namespace TypedSpecifiers

variable {markers : Bool} {ss e : List Token}

theorem level_eq (h : TypedSpecifiers markers ss e) : level 0 ss = 0 :=
  Nesting.level_of_openBehind? h.closed

/-- The declarators do not change the specifiers. -/
theorem ofTokens_append (h : TypedSpecifiers markers ss e) :
    Specifiers.ofTokens markers (ss ++ e) = .ofTokens markers ss := by
  have hoff : SetOff ss e := ⟨fun u hu => ⟨(h.starts u hu).plain.1, (h.starts u hu).plain.2.1⟩, h.argument⟩
  refine Specifiers.take_append h.closed hoff (.inr h.tagged) fun behind => ?_
  have htyped : (Specifiers.take markers false false ss).any (·.isType) = true := h.typed
  rw [htyped, Bool.false_or]
  cases e with
  | nil => rw [Specifiers.take]
  | cons t e => exact (h.starts t rfl).take_eq_nil behind e

theorem behindSpecifiers_append (h : TypedSpecifiers markers ss e) :
    Shape.behindSpecifiers (.ofTokens markers (ss ++ e)) (ss ++ e) = e := by
  rw [h.ofTokens_append, Shape.behindSpecifiers, h.whole, List.drop_left]

/-- They begin with a specifier. -/
theorem exists_first (h : TypedSpecifiers markers ss e) :
    ∃ t ts s, ss = t :: ts ∧ Specifier.first? markers false false t ts = some s := by
  have htyped := h.typed
  cases ss with
  | nil => simp [Specifiers.ofTokens, Specifiers.take] at htyped
  | cons t ts =>
    cases hfirst : Specifier.first? markers false false t ts with
    | some s => exact ⟨t, ts, s, rfl, hfirst⟩
    | none => simp [Specifiers.ofTokens, Specifiers.take, hfirst] at htyped

theorem ofTokens_ne_nil (h : TypedSpecifiers markers ss e) : Specifiers.ofTokens markers ss ≠ [] := by
  intro hnil
  have htyped := h.typed
  rw [hnil] at htyped
  cases htyped

/-- No semicolon stands outside the groups. -/
theorem outside_semi (h : TypedSpecifiers markers ss e) : Outside (·.kind ≠ .punct .semi) 0 ss := by
  have hsemi : Outside (fun t => t.kind ≠ .punct .semi) 0 (Specifiers.ofTokens markers ss).tokens := by
    refine Specifiers.outside_tokens ?_ ?_ ?_ markers false false ss
    · intro t hword hkind
      simp [hkind, TokenKind.isPunctuation] at hword
    · intro t hkind
      simp [hkind]
    · intro t hkind
      simp [hkind]
  rwa [h.whole] at hsemi

end TypedSpecifiers

namespace SpecifierRow

variable {markers : Bool} {ss e : List Token}

theorem level_eq (h : SpecifierRow markers ss) : level 0 ss = 0 :=
  Nesting.level_of_openBehind? h.closed

theorem typedSpecifiers (h : SpecifierRow markers ss) (hstart : ∀ t ∈ e.head?, t.StartsDeclarator markers) :
    TypedSpecifiers markers ss e :=
  ⟨h.closed, h.whole, h.typed, h.plain, hstart, fun t ht hargument => absurd (h.complete t ht) (by simp [hargument]),
    fun s hs a ha => .inl (h.tagged s hs a ha)⟩

/-- A declarator behind them does not change the specifiers. -/
theorem ofTokens_append (h : SpecifierRow markers ss) (hstart : ∀ t ∈ e.head?, t.StartsDeclarator markers) :
    Specifiers.ofTokens markers (ss ++ e) = .ofTokens markers ss :=
  (h.typedSpecifiers hstart).ofTokens_append

theorem behindSpecifiers_append (h : SpecifierRow markers ss) (hstart : ∀ t ∈ e.head?, t.StartsDeclarator markers) :
    Shape.behindSpecifiers (.ofTokens markers (ss ++ e)) (ss ++ e) = e :=
  (h.typedSpecifiers hstart).behindSpecifiers_append

/-- A row begins with a specifier. -/
theorem exists_first (h : SpecifierRow markers ss) :
    ∃ t ts s, ss = t :: ts ∧ Specifier.first? markers false false t ts = some s :=
  (@h.typedSpecifiers _ _ [] (by simp)).exists_first

/-- None of the aggregates has a body. -/
theorem tagged?_eq_none (h : SpecifierRow markers ss) : Construct.tagged? (.ofTokens markers ss) = none := by
  rw [Option.eq_none_iff_forall_ne_some]
  rintro ⟨a, tag⟩ htagged
  obtain ⟨hlast, hbody⟩ := Construct.aggregate?_of_tagged? htagged
  obtain ⟨s, hs, ha⟩ := List.mem_filterMap.1 (List.mem_of_getLast? hlast)
  obtain ⟨before, behind, hsplit⟩ := List.append_of_mem hs
  obtain ⟨typed, behindExtern, t, us, hss, hfirst, hlevel, -⟩ := Specifiers.exists_of_take hsplit
  obtain ⟨-, rfl⟩ := Specifier.keyword_of_aggregate? hfirst ha
  obtain ⟨more, hmore⟩ := (Specifier.prefix_of_first? hfirst).1
  rcases Aggregate.outside_body (·.kind ≠ .opening .brace) t us with hnone | ⟨brace, inner, heq, hkind, -⟩
  · exact hbody hnone
  · have hbodiless := h.bodiless
    rw [hss, ← hmore, Nesting.outside_append, hlevel, Specifier.tokens_of_aggregate? hfirst ha, List.append_assoc,
      Nesting.outside_append, Aggregate.level_head_of_body (Specifier.isPunctuation_of_first? hfirst) hbody, heq] at hbodiless
    exact hbodiless.2.2.1 rfl hkind

/-- No semicolon stands outside the groups. -/
theorem outside_semi (h : SpecifierRow markers ss) : Outside (·.kind ≠ .punct .semi) 0 ss :=
  (@h.typedSpecifiers _ _ [] (by simp)).outside_semi

end SpecifierRow

/-! ### Cuts -/

namespace Nesting

theorem Outside.imp {P Q : Token → Prop} (himp : ∀ t, P t → Q t) {depth : Nat} {ts : List Token} (h : Outside P depth ts) :
    Outside Q depth ts := by
  induction ts generalizing depth with
  | nil => trivial
  | cons t ts ih => exact ⟨fun hdepth => himp t (h.1 hdepth), ih h.2⟩

/-- Where a kind does not occur outside the groups, it is looked for in what follows. -/
theorem breakAt_append_of_nil {kind : TokenKind} {depth : Nat} {first : List Token} (h : (breakAt kind depth first).2 = [])
    (rest : List Token) :
    breakAt kind depth (first ++ rest) =
      (first ++ (breakAt kind (level depth first) rest).1, (breakAt kind (level depth first) rest).2) := by
  induction first generalizing depth with
  | nil => rfl
  | cons t first ih =>
    rw [breakAt] at h
    rw [List.cons_append, breakAt]
    split_ifs at h ⊢
    rw [ih h]
    rfl

/-- Tokens without a comma outside the groups are one piece, and what is behind a comma is split as by itself. -/
theorem splitCommas_append {stop comma : Token} {depth : Nat} {first : List Token}
    (h : Outside (·.kind ≠ .punct .comma) depth first) (hlevel : level depth first = 0) (hcomma : comma.kind = .punct .comma)
    (rest : List Token) : splitCommas stop depth (first ++ comma :: rest) = ⟨first, comma⟩ :: splitCommas stop 0 rest := by
  induction first generalizing depth with
  | nil =>
    obtain rfl : depth = 0 := hlevel
    simp [splitCommas, hcomma]
  | cons t first ih =>
    obtain ⟨ht, hfirst⟩ := h
    have hnot : ¬(depth = 0 ∧ t.kind = .punct .comma) := fun h => ht h.1 h.2
    rw [List.cons_append, splitCommas, if_neg hnot, ih hfirst hlevel]

theorem splitCommas_of_outside {stop : Token} {first : List Token} (h : Outside (·.kind ≠ .punct .comma) 0 first) :
    splitCommas stop 0 first = [⟨first, stop⟩] :=
  splitCommas_of_breakAt (by rw [breakAt_of_outside_all h])

end Nesting

/-! ### The head of a declaration -/

/-- Each brace outside the groups stands in the initial value of the declarator that is open there. -/
def BracesInitialize (e : List Token) : Prop :=
  ∀ front t behind, e = front ++ t :: behind → level 0 front = 0 → t.kind = .opening .brace →
    (splitCommas t 0 front).getLast?.any Piece.hasInitializer = true

/-- It does so in declarators with a comma between them. -/
theorem BracesInitialize.append {first rest : List Token} {comma : Token} (hfirst : BracesInitialize first)
    (halone : Outside (·.kind ≠ .punct .comma) 0 first) (hlevel : level 0 first = 0) (hcomma : comma.kind = .punct .comma)
    (hrest : BracesInitialize rest) : BracesInitialize (first ++ comma :: rest) := by
  intro front t behind hsplit hfront hbrace
  have hother : t ≠ comma := by
    rintro rfl
    simp [hcomma] at hbrace
  rcases List.append_eq_append_iff.1 hsplit with ⟨more, rfl, hmore⟩ | ⟨more, rfl, hmore⟩
  · cases more with
    | nil => exact absurd (List.cons.inj hmore).1.symm hother
    | cons u more =>
      obtain ⟨rfl, rfl⟩ := List.cons.inj hmore
      rw [Nesting.level_append, hlevel, Nesting.level_cons, hcomma] at hfront
      have hlast := hrest more t behind rfl hfront hbrace
      obtain ⟨piece, hpiece, hhas⟩ := (Option.any_eq_true ..).1 hlast
      rw [Nesting.splitCommas_append halone hlevel hcomma, List.getLast?_cons, hpiece]
      exact hhas
  · cases more with
    | nil => exact absurd (List.cons.inj hmore).1 hother
    | cons u more =>
      obtain ⟨rfl, rfl⟩ := List.cons.inj hmore
      exact hfirst front t more rfl hfront hbrace

/-- Declarators as they stand behind specifiers, with commas between them. -/
structure DeclaratorList (markers : Bool) (e : List Token) : Prop where
  starts : ∃ t ∈ e.head?, t.StartsDeclarator markers
  closed : openBehind? [] e = some []
  whole : Outside (·.kind ≠ .punct .semi) 0 e
  initial : BracesInitialize e

namespace DeclaratorList

variable {markers : Bool} {ss e : List Token}

theorem head (h : DeclaratorList markers e) : ∀ t ∈ e.head?, t.StartsDeclarator markers := by
  obtain ⟨t, ht, hstart⟩ := h.starts
  intro u hu
  obtain rfl : u = t := Option.some.inj ((Option.mem_def.1 hu).symm.trans ht)
  exact hstart

theorem ne_nil (h : DeclaratorList markers e) : e ≠ [] := by
  rintro rfl
  obtain ⟨t, ht, -⟩ := h.starts
  cases ht

theorem level_eq (h : DeclaratorList markers e) : level 0 e = 0 :=
  Nesting.level_of_openBehind? h.closed

/-- A brace behind specifiers and some of the declarators opens no body of a function. -/
theorem isFunctionHead_eq_false (h : DeclaratorList markers e) (hss : SpecifierRow markers ss) {front behind : List Token}
    {brace : Token} (hsplit : front ++ brace :: behind = ss ++ e) (hlevel : level 0 front = 0)
    (hbrace : brace.kind = .opening .brace) : Shape.isFunctionHead markers brace front = false := by
  rcases List.append_eq_append_iff.1 hsplit with ⟨rest, hrest, hbehind⟩ | ⟨mine, hfront, hmine⟩
  · cases rest with
    | nil =>
      -- the declarators do not begin with a brace
      rw [List.nil_append] at hbehind
      have hhead := h.head brace (by rw [← hbehind]; rfl)
      exact absurd hbrace hhead.plain.2.1
    | cons t rest =>
      obtain ⟨rfl, -⟩ := List.cons.inj hbehind
      have houtside := hss.bodiless
      rw [hrest, Nesting.outside_append, hlevel] at houtside
      exact absurd hbrace (houtside.2.1 rfl)
  · subst hfront
    rw [Nesting.level_append, hss.level_eq] at hlevel
    have hne : mine ≠ [] := by
      rintro rfl
      have hhead := h.head brace (by rw [hmine]; rfl)
      exact absurd hbrace hhead.plain.2.1
    have hstart : ∀ t ∈ mine.head?, t.StartsDeclarator markers := by
      intro t ht
      refine h.head t ?_
      rw [hmine, List.head?_append, Option.mem_def.1 ht]
      rfl
    have hinitial := h.initial mine brace behind hmine hlevel hbrace
    obtain ⟨piece, hpiece, hhas⟩ := (Option.any_eq_true ..).1 hinitial
    have hlast : Shape.lastDeclarator? (.ofTokens markers (ss ++ mine)) brace (ss ++ mine) = some piece := by
      rw [Shape.lastDeclarator?, hss.behindSpecifiers_append hstart, declarators, if_neg (by simpa using hne)]
      exact hpiece
    simp [Shape.isFunctionHead, hlast, hhas]

/-- No semicolon stands outside the groups of specifiers and declarators. -/
theorem outside_semi (h : DeclaratorList markers e) (hss : SpecifierRow markers ss) :
    Outside (·.kind ≠ .punct .semi) 0 (ss ++ e) := by
  rw [Nesting.outside_append, hss.level_eq]
  exact ⟨hss.outside_semi, h.whole⟩

end DeclaratorList

/-- The parameter declarations that begin in some tokens behind a word, if they are the head of a definition in the old
style. -/
def Shape.parametersBehind? (before : Option Token) (ts : List Token) : Option (List Token) := do
  let group ← behindNamedParen? 0 before ts
  let identifiers := Nesting.closing 1 group
  let behind := group.drop identifiers.length
  if isIdentifierList identifiers && behind.head?.any startsParameter then some behind else none

/-- One declarator with its initial value, behind a token. Braces stand in the initial value only, and it is no head of a
definition in the old style. -/
@[mk_iff]
structure DeclaratorRow (markers : Bool) (before : Option Token) (e : List Token) : Prop where
  starts : ∃ t ∈ e.head?, t.StartsDeclarator markers
  closed : openBehind? [] e = some []
  alone : Outside (fun t => t.kind ≠ .punct .comma ∧ t.kind ≠ .punct .semi) 0 e
  bodiless : Outside (·.kind ≠ .opening .brace) 0 (breakAt (.punct .eq) 0 e).1
  undivided : Shape.parametersBehind? before e = none

instance (markers : Bool) (before : Option Token) (e : List Token) : Decidable (DeclaratorRow markers before e) :=
  decidable_of_iff' _ (declaratorRow_iff markers before e)

namespace DeclaratorRow

variable {markers : Bool} {before : Option Token} {ss e : List Token}

theorem level_eq (h : DeclaratorRow markers before e) : level 0 e = 0 :=
  Nesting.level_of_openBehind? h.closed

theorem outside_comma (h : DeclaratorRow markers before e) : Outside (·.kind ≠ .punct .comma) 0 e :=
  Nesting.Outside.imp (fun _ ht => ht.1) h.alone

theorem initial (h : DeclaratorRow markers before e) : BracesInitialize e := by
  rintro front t behind rfl hlevel hbrace
  have hcomma := (Nesting.outside_append.1 h.outside_comma).1
  rw [Nesting.splitCommas_of_outside hcomma, List.getLast?_singleton, Option.any_some]
  cases hbreak : (breakAt (.punct .eq) 0 front).2 with
  | cons u rest => simp [Piece.hasInitializer, hbreak]
  | nil =>
    -- the brace would stand before an initial value
    have hbodiless := h.bodiless
    have ht : ¬(0 = 0 ∧ t.kind = .punct .eq) := by simp [hbrace]
    rw [Nesting.breakAt_append_of_nil hbreak, Nesting.outside_append, hlevel, breakAt, if_neg ht] at hbodiless
    exact absurd hbrace (hbodiless.2.1 rfl)

/-- One declarator alone. -/
theorem list (h : DeclaratorRow markers before e) : DeclaratorList markers e :=
  ⟨h.starts, h.closed, Nesting.Outside.imp (fun _ ht => ht.2) h.alone, h.initial⟩

/-- A declarator in front of others. -/
theorem list_append (h : DeclaratorRow markers before e) {comma : Token} (hcomma : comma.kind = .punct .comma)
    {rest : List Token} (hrest : DeclaratorList markers rest) : DeclaratorList markers (e ++ comma :: rest) := by
  have hplain : comma.kind.isOpening = false ∧ comma.kind.isClosing = false := by
    simp [hcomma, TokenKind.isOpening, TokenKind.isClosing]
  refine ⟨?_, ?_, ?_, h.initial.append h.outside_comma h.level_eq hcomma hrest.initial⟩
  · obtain ⟨t, ht, hstart⟩ := h.starts
    refine ⟨t, ?_, hstart⟩
    rw [List.head?_append, Option.mem_def.1 ht]
    rfl
  · rw [Nesting.openBehind?_append, h.closed, Option.bind_some, Nesting.openBehind?_cons,
      Nesting.openStep_of_noBracket hplain]
    exact hrest.closed
  · refine Nesting.outside_append.2 ⟨h.list.whole, ?_⟩
    rw [h.level_eq]
    refine ⟨fun _ => by simp [hcomma], ?_⟩
    rw [hcomma]
    exact hrest.whole

/-- Behind specifiers, it is no head of a definition in the old style. -/
theorem parameterDeclarations?_eq_none (hss : SpecifierRow markers ss) (h : DeclaratorRow markers ss.getLast? e) :
    Shape.parameterDeclarations? markers (ss ++ e) = none := by
  have hspecs := hss.ofTokens_append h.list.head
  have hbehind := hss.behindSpecifiers_append h.list.head
  rw [hspecs] at hbehind
  rw [Shape.parameterDeclarations?]
  simp only [hspecs, hss.plain, Bool.false_eq_true, if_false, hss.whole, hbehind]
  exact h.undivided

end DeclaratorRow

namespace Outline

variable {markers : Bool} {ss e todo rest : List Token} {first semi t : Token} {c c' : Collected}

/-- A semicolon outside the groups ends a sound construct: parameter declarations would go on to the end of the text. -/
theorem collect_semicolon (hsemi : semi.kind = .punct .semi) (hopened : c.opened = []) (hhead : c.head = none)
    (hconditionals : c.conditionals = [])
    (hold : Shape.parameterDeclarations? markers c.tokens.reverse = none ∨ ∃ stop : Token, stop.kind = .eof ∧ rest = [stop])
    (hsound : (collect markers first c (semi :: rest)).1.Sound) :
    collect markers first c (semi :: rest) =
      (.construct (c.met.reverse ++ [semi]) ⟨c.tokens.reverse, [], .semicolon semi, []⟩, rest) := by
  rw [collect_cons] at hsound ⊢
  cases hparameters : Shape.parameterDeclarations? markers c.tokens.reverse with
  | none =>
    have hverdict : c.verdict markers semi = .ends := by
      simp [Collected.verdict, hsemi, hopened, hhead, hparameters]
    rw [hverdict]
    simp [Collected.stop, Collected.finish, hhead, hconditionals]
  | some parameters =>
    exfalso
    obtain ⟨stop, hstop, rfl⟩ := hold.resolve_left (by simp [hparameters])
    cases hverdict : c.verdict markers semi with
    | goOn c' =>
      simp only [hverdict] at hsound
      rw [collect_cons, Collected.verdict_eq_endOfText_iff.2 hstop] at hsound
      exact hsound
    | ends =>
      obtain ⟨-, -, -, hnone⟩ := Collected.of_verdict_eq_ends hverdict
      rw [hparameters] at hnone
      cases hnone
    | body => simp [(Collected.of_verdict_eq_body hverdict).1] at hsemi
    | unexpected | unbalanced | endOfText =>
      simp only [hverdict] at hsound
      exact hsound

/-- A construct of specifiers and declarators that is sound goes on to the semicolon behind them. -/
theorem collect_row (hss : SpecifierRow markers ss) (he : DeclaratorList markers e) (hsemi : semi.kind = .punct .semi)
    (hplain : ∀ t ∈ todo, t.isSignificant = true) (hsplit : c.tokens.reverse ++ todo = ss ++ e) (hlevel : c.Level)
    (hhead : c.head = none) (hconditionals : c.conditionals = [])
    (hold : Shape.parameterDeclarations? markers (ss ++ e) = none ∨ ∃ stop : Token, stop.kind = .eof ∧ rest = [stop])
    (hsound : (collect markers first c (todo ++ semi :: rest)).1.Sound) :
    collect markers first c (todo ++ semi :: rest) =
      (.construct (c.met.reverse ++ (todo ++ [semi])) ⟨ss ++ e, [], .semicolon semi, []⟩, rest) := by
  induction todo generalizing c with
  | nil =>
    rw [List.append_nil] at hsplit
    have hopened : c.opened = [] := by
      rw [Collected.Level, hsplit, Nesting.level_append, hss.level_eq, he.level_eq] at hlevel
      exact List.length_eq_zero_iff.1 hlevel
    rw [← hsplit] at hold ⊢
    exact collect_semicolon hsemi hopened hhead hconditionals hold hsound
  | cons t todo ih =>
    have hsplit' : c.tokens.reverse ++ t :: todo = ss ++ e := hsplit
    have houtside : c.opened = [] → t.kind ≠ .punct .semi := by
      intro hopened
      have hwhole := he.outside_semi hss
      rw [← hsplit', Nesting.outside_append, ← hlevel, hopened] at hwhole
      exact hwhole.2.1 rfl
    rw [List.cons_append] at hsound ⊢
    rw [collect_cons] at hsound ⊢
    cases hverdict : c.verdict markers t with
    | goOn c' =>
      simp only [hverdict] at hsound ⊢
      have hgrows := Collected.grows_of_verdict hverdict
      have htokens : c'.tokens = t :: c.tokens := by rw [hgrows.tokens, if_pos (hplain t List.mem_cons_self)]
      have hsame : c'.head = none ∧ c'.conditionals = [] := by
        cases hgrows with
        | passed kind => simp [hplain t List.mem_cons_self] at kind
        | divided kind outside => exact absurd kind (houtside outside)
        | _ => exact ⟨hhead, hconditionals⟩
      rw [ih (fun u hu => hplain u (List.mem_cons_of_mem _ hu)) (by simpa [htokens] using hsplit') (hgrows.level hlevel)
        hsame.1 hsame.2 hsound, hgrows.met]
      simp
    | ends =>
      obtain ⟨hkind, hopened, -⟩ := Collected.of_verdict_eq_ends hverdict
      exact absurd hkind (houtside hopened)
    | body =>
      obtain ⟨hbrace, hopened, hbody⟩ := Collected.of_verdict_eq_body hverdict
      have hlevel' : level 0 c.tokens.reverse = 0 := by rw [← hlevel, hopened, List.length_nil]
      have hnone := he.isFunctionHead_eq_false hss hsplit' hlevel' hbrace
      simp [hhead, hnone] at hbody
    | unexpected | unbalanced | endOfText =>
      simp only [hverdict] at hsound
      exact hsound.elim

/-- The first significant token stands at the front of significant tokens. -/
theorem exists_cons_of_passed {passed behind row more : List Token} (h : passed ++ t :: behind = row ++ more)
    (hpassed : ∀ u ∈ passed, u.isSignificant = false) (hrow : ∀ u ∈ row, u.isSignificant = true) (hne : row ≠ []) :
    ∃ row', row = t :: row' ∧ behind = row' ++ more := by
  obtain ⟨u, row, rfl⟩ := List.exists_cons_of_ne_nil hne
  cases passed with
  | nil =>
    obtain ⟨rfl, rfl⟩ := List.cons.inj h
    exact ⟨row, rfl, rfl⟩
  | cons v passed =>
    obtain ⟨rfl, -⟩ := List.cons.inj h
    have hsignificant := hrow v List.mem_cons_self
    simp [hpassed v List.mem_cons_self] at hsignificant

/-- Specifiers and declarators do not begin as `extern "C" {`. -/
theorem linkageLength?_row (ht : t.kind = .keyword .externKw) (hss : TypedSpecifiers markers (t :: todo) e) (hne : e ≠ [])
    (hplain : ∀ u ∈ todo ++ e, u.isSignificant = true) : linkageLength? (todo ++ e ++ semi :: rest) = none := by
  rw [Option.eq_none_iff_forall_ne_some]
  intro n h
  obtain ⟨_, ⟨more, hmore⟩, ⟨first, string, second, brace, rfl, hpassed, ⟨spelling, hstring⟩, hbrace⟩, -⟩ :=
    linkageLength?_iff_blockOpening.1 h
  -- neither the string nor the brace begins the declarators, and the brace is not outside the groups of the specifiers
  have hstart : ∀ u ∈ e.head?, u.kind ≠ .stringLiteral spelling ∧ u.kind ≠ .opening .brace := by
    intro u hu
    refine ⟨fun hkind => ?_, (hss.starts u hu).plain.2.1⟩
    rcases hss.starts u hu with hstar | hparen | ⟨hname, -, -⟩
    · simp [hstar] at hkind
    · simp [hparen] at hkind
    · simp [Token.isName, TokenKind.identifier?, hkind] at hname
  have hlist : first ++ string :: (second ++ brace :: more) = (todo ++ e) ++ semi :: rest := by simpa using hmore
  have hne' : ∀ ts : List Token, ts ++ e ≠ [] := fun ts hnil => hne (List.append_eq_nil_iff.1 hnil).2
  obtain ⟨row, hrow, hbehind⟩ := exists_cons_of_passed hlist (fun u hu => hpassed u (List.mem_append_left _ hu)) hplain (hne' _)
  cases todo with
  | nil =>
    have hhead : e = string :: row := hrow
    exact (hstart string (by rw [hhead]; rfl)).1 hstring
  | cons u todo =>
    obtain ⟨rfl, rfl⟩ := List.cons.inj hrow
    obtain ⟨row, hrow, -⟩ := exists_cons_of_passed hbehind (fun u hu => hpassed u (List.mem_append_right _ hu))
      (fun u hu => hplain u (List.mem_cons_of_mem _ hu)) (hne' _)
    cases todo with
    | nil =>
      have hhead : e = brace :: row := hrow
      exact (hstart brace (by rw [hhead]; rfl)).2 hbrace
    | cons v todo =>
      obtain ⟨rfl, -⟩ := List.cons.inj hrow
      have hlevel : level 0 [t, u] = 0 := by
        simp [Nesting.depthBehind, TokenKind.isOpening, TokenKind.isClosing, ht, hstring, level]
      obtain ⟨-, s, hs, a, ha, -⟩ := @Specifiers.take_of_brace markers false false _ [t, u] _ v hss.whole rfl hlevel hbrace
      have hpair : Specifiers.take markers false false [t, u] = [⟨.other, [t]⟩, ⟨.other, [u]⟩] := by
        simp [Specifiers.take, Specifier.first?, Specifier.ofKeyword?, ht, hstring, Keyword.isAggregate, Keyword.isTypeSpecifier,
          Keyword.isTypeQualifier, Keyword.isStorageClass]
      rw [hpair] at hs
      obtain rfl := Option.some.inj hs
      cases ha

/-- Where the first run is sound, specifiers and declarators with a semicolon behind them are a construct. -/
theorem outline_row (hss : SpecifierRow markers ss) (he : DeclaratorList markers e) (hsemi : semi.kind = .punct .semi)
    (hplain : ∀ t ∈ ss ++ e, t.isSignificant = true)
    (hold : Shape.parameterDeclarations? markers (ss ++ e) = none ∨ ∃ stop : Token, stop.kind = .eof ∧ rest = [stop])
    (hsound : ∀ item ∈ (outline markers 0 (ss ++ e ++ semi :: rest)).head?, item.Sound) :
    outline markers 0 (ss ++ e ++ semi :: rest) =
      .construct (ss ++ e ++ [semi]) ⟨ss ++ e, [], .semicolon semi, []⟩ :: outline markers 0 rest := by
  obtain ⟨t, ts, s, rfl, hfirst⟩ := hss.exists_first
  have ht := Specifier.isPunctuation_of_first? hfirst
  have hstart := Specifier.canStartDeclaration_of_first? hfirst
  have houtline := @outline_cons_collect markers 0 t (ts ++ e ++ semi :: rest) hstart fun hkind =>
    linkageLength?_row hkind (hss.typedSpecifiers he.head) he.ne_nil fun u hu => hplain u (List.mem_cons_of_mem _ hu)
  have hhere : (collect markers t (.start t) (ts ++ e ++ semi :: rest)).1.Sound := by
    refine hsound _ ?_
    rw [List.cons_append, List.cons_append, houtline]
    rfl
  have hlevel : (Collected.start t).Level := by
    simp [Collected.Level, Collected.start, Nesting.depthBehind_of_word ht]
  have hrow := @collect_row markers (t :: ts) e (ts ++ e) rest t semi (.start t) hss he hsemi
    (fun u hu => hplain u (List.mem_cons_of_mem _ hu)) rfl hlevel rfl rfl hold hhere
  rw [List.cons_append, List.cons_append, houtline, hrow]
  rfl

end Outline

/-! ### What a declarator says -/

/-- What a declarator with its initial value says behind specifiers. -/
def Specifiers.declared? (specs : Specifiers) (guard : GuardPath) (block : Option InterfaceBlock) (ts : List Token) :
    Option Telling :=
  let declaring := (breakAt (.punct .eq) 0 ts).1
  let declarator := Declarator.ofTokens declaring
  declarator.name.map fun name =>
    if declarator.isFunction then
      ⟨some name.text, .function, specs.visibility block, guard, .synthesized (spell (Construct.shared specs ++ declaring) ++ ";")⟩
    else
      ⟨some name.text, .variable, specs.visibility block, guard,
        .synthesized ("extern " ++ spell ((Construct.shared specs).filter (!isLinkage ·) ++ declaring) ++ ";")⟩

namespace Construct

variable {c : Construct} {site : Site} {specs : Specifiers} {markers : Bool} {ss e : List Token} {semi : Token}

/-- Without directives, no spelling loses one. -/
theorem lostConditional?_eq_none (h : c.conditionals = []) (omitted spelled : List Token) :
    c.lostConditional? omitted spelled = none := by
  unfold lostConditional?
  cases spelled.head? <;> cases spelled.getLast? <;> simp [h]

/-- In a declaration without directives, an entry of a declarator says just that. -/
theorem telling?_declaratorEntry (hbody : c.hasBody = false) (hparameters : c.parameters = [])
    (hconditionals : c.conditionals = []) (start : Token) (piece : Piece) :
    (c.declaratorEntry site specs start piece).telling? = specs.declared? site.guard site.block piece.tokens := by
  have hlost := c.lostConditional?_eq_none hconditionals
  have hprototype : c.prototypeTokens piece = piece.declaring := by
    unfold prototypeTokens
    split <;> simp [hparameters]
  have hfunction : c.functionText site specs start piece = .ok (.synthesized (spell (shared specs ++ piece.declaring) ++ ";")) := by
    simp [functionText, hbody, hlost, hprototype, hparameters]
  have hvariable : c.variableText specs piece =
      .ok (.synthesized ("extern " ++ spell ((shared specs).filter (!isLinkage ·) ++ piece.declaring) ++ ";")) := by
    simp only [variableText, hlost]
    rfl
  have hdeclaring : (breakAt (.punct .eq) 0 piece.tokens).1 = piece.declaring := rfl
  have hdeclarator : Declarator.ofTokens piece.declaring = piece.declarator := rfl
  rw [declaratorEntry, hfunction, hvariable, Specifiers.declared?]
  simp only [hdeclaring, hdeclarator]
  cases hname : piece.declarator.name with
  | none => rfl
  | some name =>
    cases hisFunction : piece.declarator.isFunction with
    | true => simp [Entry.telling?, Entry.named?, Draft.telling, draft]
    | false => simp [hbody, Entry.telling?, Entry.named?, Draft.telling, draft]

/-- Specifiers with declarators behind them say what each declarator says. -/
theorem tellings_entries (hss : SpecifierRow markers ss) (he : DeclaratorList markers e) (hmarkers : site.markers = markers) :
    ((⟨ss ++ e, [], .semicolon semi, []⟩ : Construct).entries site).filterMap Entry.telling? =
      (splitCommas semi 0 e).filterMap fun piece =>
        (Specifiers.ofTokens markers ss).declared? site.guard site.block piece.tokens := by
  let c : Construct := ⟨ss ++ e, [], .semicolon semi, []⟩
  have hspecs : c.specifiers site = .ofTokens markers ss := by
    rw [specifiers, hmarkers]
    exact hss.ofTokens_append he.head
  have hpieces : c.pieces (.ofTokens markers ss) = splitCommas semi 0 e := by
    have hbehind := hss.behindSpecifiers_append he.head
    rw [hss.ofTokens_append he.head] at hbehind
    simp only [pieces, c, hbehind, declarators, stop]
    rw [if_neg (by simpa using he.ne_nil)]
  have hne : (splitCommas semi 0 e).isEmpty = false := by simpa using Nesting.splitCommas_ne_nil semi 0 e
  obtain ⟨first, hentries⟩ := entries_of_specifiers hspecs (hss.typedSpecifiers he.head).ofTokens_ne_nil
  have htagged : c.taggedEntries site (.ofTokens markers ss) (start (.ofTokens markers ss) first) = [] := by
    rw [taggedEntries, hss.tagged?_eq_none]
  have hbody : c.hasBody = false := rfl
  simp only [hss.plain, hpieces, hne, Bool.false_eq_true, if_false, htagged, List.nil_append, declaratorEntries, hbody,
    Bool.false_and] at hentries
  rw [hentries, List.filterMap_append, filterMap_mentions _ fun _ => rfl, List.nil_append, List.filterMap_map]
  exact List.filterMap_congr fun piece _ => telling?_declaratorEntry rfl rfl rfl _ piece

end Construct

/-! ### Other tokens of the same kinds -/

section Kinds

variable {f : Token → Token} {markers : Bool} {before before' : Option Token} {ss e : List Token}

theorem Nesting.outside_map {P : Token → Prop} (hf : KeepsKinds f) (hP : ∀ t, P t → P (f t)) {depth : Nat} {ts : List Token}
    (h : Outside P depth ts) : Outside P depth (ts.map f) := by
  induction ts generalizing depth with
  | nil => trivial
  | cons t ts ih =>
    refine ⟨fun hdepth => hP t (h.1 hdepth), ?_⟩
    rw [hf t]
    exact ih h.2

theorem Nesting.openBehind?_map (hf : KeepsKinds f) (opened ts : List Token) :
    openBehind? (opened.map f) (ts.map f) = (openBehind? opened ts).map (List.map f) := by
  induction ts generalizing opened with
  | nil => rfl
  | cons t ts ih =>
    have hstep : openStep (opened.map f) (f t) = (openStep opened t).map (List.map f) := by
      unfold openStep
      rw [hf t]
      split_ifs
      · rfl
      · cases opened with
        | nil => rfl
        | cons opening outer =>
          simp only [List.map_cons, hf opening]
          split_ifs <;> rfl
      · rfl
    rw [List.map_cons, openBehind?_cons, openBehind?_cons, hstep]
    cases openStep opened t with
    | none => rfl
    | some opened => exact ih opened

theorem Token.takesArgument_map (hf : KeepsKinds f) (t : Token) : (f t).takesArgument = t.takesArgument := by
  simp [Token.takesArgument, hf.isAttribute, hf.isTypeof, hf t]

theorem Token.StartsDeclarator.map (hf : KeepsKinds f) {t : Token} (h : t.StartsDeclarator markers) :
    (f t).StartsDeclarator markers := by
  unfold StartsDeclarator Specifier.markerOf? at h ⊢
  rwa [hf.isName, hf.isTypeof, hf t]

theorem SpecifierRow.map (hf : KeepsKinds f) (h : SpecifierRow markers ss) : SpecifierRow markers (ss.map f) := by
  have hspecs : Specifiers.ofTokens markers (ss.map f) = (Specifiers.ofTokens markers ss).map f :=
    Specifiers.ofTokens_map hf markers ss
  refine ⟨?_, ?_, ?_, ?_, Nesting.outside_map hf (fun t ht => by rwa [hf t]) h.bodiless, ?_, ?_⟩
  · have hclosed := Nesting.openBehind?_map hf [] ss
    rwa [h.closed] at hclosed
  · rw [hspecs, Specifiers.tokens_map, h.whole]
  · have htyped := h.typed
    rw [hspecs, Specifiers.map, List.any_map]
    simpa [Function.comp_def] using htyped
  · rw [hspecs, Specifiers.isTypedef_map, h.plain]
  · intro t ht
    rw [List.getLast?_map] at ht
    obtain ⟨u, hu, rfl⟩ := Option.map_eq_some_iff.1 ht
    rw [Token.takesArgument_map hf, h.complete u hu]
  · intro s hs a ha
    rw [hspecs, Specifiers.map, List.getLast?_map] at hs
    obtain ⟨given, hgiven, rfl⟩ := Option.map_eq_some_iff.1 hs
    rw [Specifier.aggregate?_map] at ha
    obtain ⟨a', ha', rfl⟩ := Option.map_eq_some_iff.1 ha
    simpa [Aggregate.map] using h.tagged given hgiven a' ha'

/-- Of the token in front of a declarator it matters only whether it is a name. -/
theorem Shape.parametersBehind?_congr (h : before'.any Token.isName = before.any Token.isName) (ts : List Token) :
    parametersBehind? before' ts = parametersBehind? before ts := by
  cases ts with
  | nil => rfl
  | cons t ts => simp only [parametersBehind?, behindNamedParen?, h]

theorem Shape.parametersBehind?_map (hf : KeepsKinds f) (before : Option Token) (ts : List Token) :
    parametersBehind? (before.map f) (ts.map f) = (parametersBehind? before ts).map (List.map f) := by
  simp only [parametersBehind?, behindNamedParen?_map hf]
  cases behindNamedParen? 0 before ts with
  | none => rfl
  | some group =>
    have hhead : ((group.drop (Nesting.closing 1 group).length).map f).head?.any startsParameter =
        (group.drop (Nesting.closing 1 group).length).head?.any startsParameter := by
      rw [List.head?_map]
      cases (group.drop (Nesting.closing 1 group).length).head? <;> simp [startsParameter_map hf]
    simp only [Option.map_some, Option.bind_eq_bind, Option.bind_some, Nesting.closing_map hf, isIdentifierList_map hf,
      List.length_map, ← List.map_drop, hhead]
    split_ifs <;> rfl

theorem DeclaratorRow.map (hf : KeepsKinds f) (hbefore : before'.any Token.isName = before.any Token.isName)
    (h : DeclaratorRow markers before e) : DeclaratorRow markers before' (e.map f) := by
  refine ⟨?_, ?_, Nesting.outside_map hf (fun t ht => by rwa [hf t]) h.alone, ?_, ?_⟩
  · obtain ⟨t, ht, hstart⟩ := h.starts
    refine ⟨f t, ?_, hstart.map hf⟩
    rw [List.head?_map, Option.mem_def.1 ht]
    rfl
  · have hclosed := Nesting.openBehind?_map hf [] e
    rwa [h.closed] at hclosed
  · rw [Nesting.breakAt_map hf]
    exact Nesting.outside_map hf (fun t ht => by rwa [hf t]) h.bodiless
  · have hsame : before'.any Token.isName = (before.map f).any Token.isName := by
      rw [hbefore]
      cases before <;> simp [hf.isName]
    rw [Shape.parametersBehind?_congr hsame, Shape.parametersBehind?_map hf, h.undivided]
    rfl

theorem Specifiers.visibility_map (specs : Specifiers) (block : Option InterfaceBlock) :
    (specs.map f).visibility block = specs.visibility block := by
  simp only [visibility, typeVisibility, isStatic_map, marker?_map]

/-- Where tokens are spelled with the same blanks, declarators say the same. -/
theorem Specifiers.declared?_respaced (hf : Respaces f (ss ++ e)) (guard : GuardPath) (block : Option InterfaceBlock) :
    (ofTokens markers (ss.map f)).declared? guard block (e.map f) = (ofTokens markers ss).declared? guard block e := by
  have hspecs : ofTokens markers (ss.map f) = (ofTokens markers ss).map f := ofTokens_map hf.keepsKinds markers ss
  have hdeclaring : (breakAt (.punct .eq) 0 (e.map f)).1 = (breakAt (.punct .eq) 0 e).1.map f := by
    rw [Nesting.breakAt_map hf.keepsKinds]
  have hfront : (breakAt (.punct .eq) 0 e).1 <+: e := ⟨_, Nesting.breakAt_append (.punct .eq) 0 e⟩
  have hshared : (Construct.shared (ofTokens markers ss)).Sublist ss :=
    (Construct.sublist_shared markers ss).trans (prefix_ofTokens markers ss).sublist
  have hspell : ∀ us : List Token, us.Sublist (Construct.shared (ofTokens markers ss)) →
      spell (us.map f ++ (breakAt (.punct .eq) 0 e).1.map f) = spell (us ++ (breakAt (.punct .eq) 0 e).1) := by
    intro us hus
    rw [← List.map_append]
    exact (hf.sublist ((hus.trans hshared).append hfront.sublist)).spell
  have hfilter : ((Construct.shared (ofTokens markers ss)).map f).filter (!isLinkage ·) =
      ((Construct.shared (ofTokens markers ss)).filter (!isLinkage ·)).map f := by
    rw [List.filter_map]
    congr 1
    refine List.filter_congr fun t _ => ?_
    simp [isLinkage, hf.keepsKinds t]
  have hname : ∀ d : Declarator, (d.map f).name = d.name.map f := fun _ => rfl
  rw [declared?, declared?, hdeclaring, hspecs, Declarator.ofTokens_map hf.keepsKinds, Construct.shared_map, hfilter,
    hspell _ (List.Sublist.refl _), hspell _ List.filter_sublist]
  simp only [Declarator.isFunction_map, visibility_map, hname, Option.map_map, Function.comp_def, hf.text]

end Kinds

/-! ### Lists of declarators -/

/-- The tokens of declarators, each with what ends it. -/
def listed (pieces : List Piece) : List Token :=
  pieces.flatMap fun piece => piece.tokens ++ [piece.stop]

/-- Declarators with commas behind them, in front of the last one. -/
theorem DeclaratorList.of_listed {markers : Bool} {before : Option Token} {init : List Piece} {last : List Token}
    (hinit : ∀ piece ∈ init, piece.stop.kind = .punct .comma ∧ DeclaratorRow markers before piece.tokens)
    (hlast : DeclaratorRow markers before last) : DeclaratorList markers (listed init ++ last) := by
  induction init with
  | nil => exact hlast.list
  | cons piece init ih =>
    obtain ⟨⟨hcomma, hpiece⟩, hinit⟩ := List.forall_mem_cons.1 hinit
    have hrest := hpiece.list_append hcomma (ih hinit)
    simpa [listed] using hrest

theorem Nesting.splitCommas_listed {init : List Piece} {last : Piece}
    (hinit : ∀ piece ∈ init, piece.stop.kind = .punct .comma ∧ level 0 piece.tokens = 0 ∧
      Outside (·.kind ≠ .punct .comma) 0 piece.tokens)
    (hlast : Outside (·.kind ≠ .punct .comma) 0 last.tokens) :
    splitCommas last.stop 0 (listed init ++ last.tokens) = init ++ [last] := by
  induction init with
  | nil => exact splitCommas_of_outside hlast
  | cons piece init ih =>
    obtain ⟨⟨hcomma, hlevel, halone⟩, hinit⟩ := List.forall_mem_cons.1 hinit
    have hsplit := @splitCommas_append last.stop piece.stop 0 piece.tokens halone hlevel hcomma (listed init ++ last.tokens)
    rw [ih hinit] at hsplit
    simpa [listed] using hsplit

end CHeader
