import CHeader.Proofs.CutOff

/-!
# Texts that are broken

A text in which the brackets do not fit is read with an issue: without one, they would fit as its braces do, but for the
bodies of functions, in which braces alone are looked at (`exists_withoutBodies`). If no declaration of it is cut off, it is
read to its end, and no further. So it leaves the texts around it alone (`survey_around_broken`).

A declaration that is cut off takes in what follows (`unbalanced_text_takes_next_or_passes`). At the end of a type without its
semicolon that is as it should be. Where a bracket is never closed, one fault costs the rest of the text.
-/

namespace CHeader

open Nesting (openBehind? braces)

/-! ### Bodies left out -/

/-- The tokens before the brace of a function's body. -/
structure FunctionHead (markers : Bool) (head : List Token) (brace : Token) : Prop where
  closed : openBehind? [] head = some []
  shape : Shape.isFunctionHead markers brace head = true ∨ ∃ declared semi between, head = declared ++ semi :: between ∧
    semi.kind = .punct .semi ∧ (Shape.parameterDeclarations? markers declared).isSome

/-- Some tokens without what stands in the bodies of some functions among them. -/
inductive WithoutBodies (markers : Bool) : List Token → List Token → Prop
  | all (ts : List Token) : WithoutBodies markers ts ts
  | body (front : List Token) {head inside behind us : List Token} {opening closing : Token}
      (hhead : FunctionHead markers head opening) (hopening : opening.kind = .opening .brace)
      (hinside : openBehind? [] (braces inside) = some []) (hclosing : closing.kind = .closing .brace)
      (hbehind : WithoutBodies markers behind us) :
      WithoutBodies markers (front ++ (head ++ opening :: (inside ++ closing :: behind)))
        (front ++ (head ++ opening :: closing :: us))

namespace WithoutBodies

variable {markers : Bool} {ts us ts' us' : List Token}

theorem append_left (h : WithoutBodies markers ts us) (front : List Token) :
    WithoutBodies markers (front ++ ts) (front ++ us) := by
  cases h with
  | all => exact .all (front ++ ts)
  | body before hhead hopening hinside hclosing hbehind =>
    rw [← List.append_assoc, ← List.append_assoc front]
    exact .body (front ++ before) hhead hopening hinside hclosing hbehind

theorem append (h : WithoutBodies markers ts us) (h' : WithoutBodies markers ts' us') :
    WithoutBodies markers (ts ++ ts') (us ++ us') := by
  induction h with
  | all ts => exact h'.append_left ts
  | body front hhead hopening hinside hclosing _ ih =>
    simp only [List.append_assoc, List.cons_append]
    exact .body front hhead hopening hinside hclosing ih

/-- A bracket that does not fit before all braces does not fit without the bodies either. -/
theorem openBehind?_eq_none (h : WithoutBodies markers (ts ++ ts') us) (hts : ∀ t ∈ ts, t.kind ≠ .opening .brace)
    (hmisfit : openBehind? [] ts = none) : openBehind? [] us = none := by
  have hprefix : ts <+: us := by
    generalize hwhole : ts ++ ts' = whole at h
    cases h with
    | all =>
      rw [← hwhole]
      exact List.prefix_append ts ts'
    | @body front head inside behind us opening closing hhead hopening =>
      rw [← List.append_assoc] at hwhole ⊢
      obtain ⟨more, hmore⟩ | ⟨more, hmore⟩ := List.prefix_or_prefix_of_prefix (List.prefix_append ts ts')
        (hwhole ▸ List.prefix_append (front ++ head) _)
      · exact ⟨more ++ opening :: closing :: us, by rw [← List.append_assoc, hmore]⟩
      · cases more with
        | nil => exact ⟨opening :: closing :: us, by rw [← hmore, List.append_nil]⟩
        | cons brace more =>
          rw [← hmore, List.append_assoc, List.append_cancel_left_eq] at hwhole
          obtain rfl : brace = opening := (List.cons.inj hwhole).1
          exact absurd hopening (hts brace (by simp [← hmore]))
  obtain ⟨more, rfl⟩ := hprefix
  rw [Nesting.openBehind?_append, hmisfit]
  rfl

end WithoutBodies

/-- Without its body, the brackets of a construct fit. -/
theorem Outline.exists_withoutBodies_of_collect {markers : Bool} {first : Token} {c : Collected} {ts tokens rest : List Token}
    {construct : Construct} (hdivided : c.Divided markers)
    (h : collect markers first c ts = (.construct tokens construct, rest)) :
    ∃ us, WithoutBodies markers (tokens.filter (·.isSignificant)) us ∧ openBehind? [] us = some [] := by
  induction ts generalizing c with
  | nil => cases h
  | cons t ts ih =>
    rw [collect_cons] at h
    cases hverdict : c.verdict markers t with
    | goOn c' =>
      simp only [hverdict] at h
      exact ih (hdivided.grows (Collected.grows_of_verdict hverdict)) h
    | ends =>
      simp only [hverdict, Collected.stop] at h
      cases h
      obtain ⟨hsemi, hopened, -⟩ := Collected.of_verdict_eq_ends hverdict
      refine ⟨_, .all _, ?_⟩
      rw [List.reverse_cons, List.filter_append, hdivided.met, Nesting.openBehind?_append, hdivided.opened, hopened,
        Option.bind_some]
      apply Nesting.openBehind?_of_noBrackets
      simp [hsemi, TokenKind.isOpening, TokenKind.isClosing]
    | body =>
      simp only [hverdict, Collected.stop, function] at h
      split at h
      case h_2 => cases h
      case h_1 inside close hbody =>
        cases h
        obtain ⟨hkind, hopened, hfunction⟩ := Collected.of_verdict_eq_body hverdict
        obtain ⟨hinside, hclose⟩ := @braces_of_body? close ts inside [] (by simp) hbody
        have hclosed : openBehind? [] c.tokens.reverse = some [] := by rw [hdivided.opened, hopened]
        have hhead : FunctionHead markers c.tokens.reverse t := by
          refine ⟨hclosed, ?_⟩
          cases hhead : c.head with
          | none => exact .inl (by simpa [hhead] using hfunction)
          | some head =>
            obtain ⟨begun, semi, between, hsplit, hsemi, hdivision⟩ := hdivided.parts head hhead
            exact .inr ⟨head ++ begun, semi, between, hsplit, hsemi, by simp [hdivision.found]⟩
        rw [← Nesting.braces_filter_isSignificant] at hinside
        refine ⟨[] ++ (c.tokens.reverse ++ t :: close :: []), ?_, ?_⟩
        · have htokens : (c.met.reverse ++ t :: (inside ++ [close])).filter (·.isSignificant) =
              [] ++ (c.tokens.reverse ++ t :: (inside.filter (·.isSignificant) ++ close :: [])) := by
            simp only [List.filter_append, hdivided.met, List.nil_append]
            simp [Token.isSignificant, hkind, hclose]
          rw [htokens]
          exact .body [] hhead hkind hinside hclose (.all [])
        · rw [List.nil_append, Nesting.openBehind?_append, hclosed, Option.bind_some, Nesting.openBehind?_cons,
            Nesting.openStep_opening hkind, Option.bind_some, Nesting.openBehind?_cons,
            (Nesting.openStep_closing_iff (TokenKind.isClosing_iff.2 ⟨_, hclose⟩) hkind).2 ⟨hclose, rfl⟩]
          rfl
    | unexpected | unbalanced | endOfText =>
      simp only [hverdict, Collected.stop] at h
      cases h

/-- Without the bodies of functions, the brackets of a run that is no broken construct fit as its braces do. -/
theorem exists_withoutBodies_of_mem_outline {markers : Bool} {linkage : Nat} {ts : List Token} {item : Item}
    (hitem : item ∈ outline markers linkage ts) (hsound : item.Sound ∨ item.IsStray) :
    ∃ us, WithoutBodies markers (item.tokens.filter (·.isSignificant)) us ∧
      ∀ opened, openBehind? opened us = openBehind? opened (braces item.tokens) := by
  -- nothing is left out of a run whose only brackets are braces
  have honly : ∀ tokens : List Token, (∀ t ∈ tokens, t.IsBrace ∨ t.kind.isOpening = false ∧ t.kind.isClosing = false) →
      ∃ us, WithoutBodies markers (tokens.filter (·.isSignificant)) us ∧
        ∀ opened, openBehind? opened us = openBehind? opened (braces tokens) := by
    intro tokens htokens
    refine ⟨_, .all _, fun opened => ?_⟩
    rw [Nesting.openBehind?_of_onlyBraces fun t ht => htokens t (List.mem_filter.1 ht).1,
      Nesting.braces_filter_isSignificant]
  fun_induction outline markers linkage ts with
  | case1 | case2 => cases hitem
  | case3 linkage t ts directive hkind ih =>
    rcases List.mem_cons.1 hitem with rfl | hitem
    · exact honly [t] (by simp [hkind, TokenKind.isOpening, TokenKind.isClosing])
    · exact ih hitem
  | case4 linkage t ts n linkage' hskipped _ _ ih =>
    rcases List.mem_cons.1 hitem with rfl | hitem
    · refine honly (t :: ts.take n) ?_
      cases Outline.skips_of_skipped? hskipped with
      | alone kind => simpa using .inr kind
      | closed kind => simpa [Token.IsBrace] using .inl (.inr kind)
      | opened kind inner brace block front =>
        obtain ⟨hbrace, hinner⟩ := block.noBracket
        have htake : ts.take (inner.length + 1) = inner ++ [brace] := by
          rw [← List.length_singleton (a := brace), ← List.length_append, ← List.prefix_iff_eq_take.1 front]
        rw [htake]
        intro u hu
        simp only [List.mem_cons, List.mem_append, List.not_mem_nil, or_false] at hu
        rcases hu with rfl | hu | rfl
        · exact .inr (by simp [kind, TokenKind.isOpening, TokenKind.isClosing])
        · exact .inr (hinner u hu)
        · exact .inl (.inl hbrace)
    · exact ih hitem
  | case5 linkage t ts hskipped run heof hdirective ih =>
    rcases List.mem_cons.1 hitem with rfl | hitem
    case inr => exact ih hitem
    rcases hsound with hsound | hstray
    · obtain ⟨tokens, construct, rest, hexternal, hstart, hcollect⟩ := external_of_sound hsound
      have hdivided := Outline.Collected.divided_start hstart markers
      obtain ⟨us, hus, hclosed⟩ := Outline.exists_withoutBodies_of_collect hdivided hcollect
      have hconstruct : run.1 = .construct tokens construct := congrArg Prod.fst hexternal
      rw [hconstruct]
      refine ⟨us, hus, fun opened => ?_⟩
      rw [Item.tokens, Nesting.openBehind?_of_closed hclosed,
        Nesting.openBehind?_of_closed (Outline.openBehind?_of_collect hdivided hcollect)]
    · cases hfound : run.1 with
      | malformed before fault behind =>
        rw [hfound] at hstray
        obtain ⟨brace, rfl, rfl, hkind⟩ := hstray
        have hbrace : brace.IsBrace := .inr hkind
        exact honly [brace] (by simpa using .inl hbrace)
      | directive | skipped | construct =>
        rw [hfound] at hstray
        cases hstray

/-- Without the bodies of functions, the brackets of runs that are no broken constructs fit as their braces do. -/
theorem exists_withoutBodies {markers : Bool} {linkage : Nat} {ts : List Token} {items : List Item}
    (hitems : items ⊆ outline markers linkage ts) (hsound : ∀ item ∈ items, item.Sound ∨ item.IsStray) :
    ∃ us, WithoutBodies markers ((items.flatMap Item.tokens).filter (·.isSignificant)) us ∧
      ∀ opened, openBehind? opened us = openBehind? opened (braces (items.flatMap Item.tokens)) := by
  induction items with
  | nil => exact ⟨[], .all [], fun opened => rfl⟩
  | cons item items ih =>
    obtain ⟨hmem, hrest⟩ := List.cons_subset.1 hitems
    obtain ⟨hitem, hsound⟩ := List.forall_mem_cons.1 hsound
    obtain ⟨us, hus, hbraces⟩ := exists_withoutBodies_of_mem_outline hmem hitem
    obtain ⟨us', hus', hbraces'⟩ := ih hrest hsound
    refine ⟨us ++ us', ?_, fun opened => ?_⟩
    · rw [List.flatMap_cons, List.filter_append]
      exact hus.append hus'
    · rw [List.flatMap_cons, Nesting.braces_append, Nesting.openBehind?_append, Nesting.openBehind?_append, hbraces]
      simp only [hbraces']

/-! ### Texts that are broken -/

/-- A text without directives that ends with a semicolon or a brace, in which the braces are balanced, but not all brackets
outside the bodies of functions, and in which no declaration is cut off. -/
structure Broken (markers : Bool) (source : String) (body : List Token) (last : Token) : Prop where
  tokens : tokenize source = .ok (body ++ [last])
  plain : ∀ t ∈ body, t.directive? = none
  balanced : openBehind? [] (braces body) = some []
  misfit : ∀ us, WithoutBodies markers (body.filter (·.isSignificant)) us → openBehind? [] us ≠ some []
  ends : ∃ t ∈ body.getLast?, t.IsEnd
  uncut : NoneCutOff markers (body.filter (·.isSignificant))

namespace Broken

variable {markers : Bool} {source : String} {body : List Token} {last : Token}

/-- A semicolon behind such a text stands alone: neither a construct nor what is passed over behind a fault goes on there. -/
theorem outline_semicolon (h : Broken markers source body last) {semi : Token} (hsemi : semi.kind = .punct .semi) :
    ∃ items, outline markers 0 (body ++ [semi, last]) = items ++ [.skipped [semi]] ∧ items.flatMap Item.tokens = body := by
  obtain ⟨body', last', hsplit, hlast, hinner, -⟩ := tokenized_of_tokenize h.tokens
  obtain ⟨rfl, hlast'⟩ := List.append_inj' hsplit rfl
  cases hlast'
  obtain ⟨t, ht, hend⟩ := h.ends
  have hends : ∀ u ∈ body.getLast?, u.IsEnd := by
    intro u hu
    obtain rfl := Option.some.inj ((Option.mem_def.1 ht).symm.trans hu)
    exact hend
  obtain ⟨items, linkage, hitems⟩ := @outline_within markers 0 [] body [] .nil h.uncut h.balanced
    hinner h.plain hends [semi, last]
  have hstray : outline markers linkage [semi, last] = [.skipped [semi]] := by
    have hskipped : Outline.skipped? linkage semi [last] = some (0, linkage) := by simp [Outline.skipped?, hsemi]
    rw [outline_cons_skipped (by simp [hsemi]) (by simp [Token.directive?, hsemi]) hskipped, List.take_zero, List.drop_zero,
      outline, hlast]
  rw [hstray] at hitems
  refine ⟨items, hitems, ?_⟩
  have htokens := flatMap_tokens_outline markers 0 (body ++ [semi] ++ [last])
  have hinner' : ∀ u ∈ body ++ [semi], u.kind ≠ .eof := by
    intro u hu
    rcases List.mem_append.1 hu with hu | hu
    · exact hinner u hu
    · simp [List.mem_singleton.1 hu, hsemi]
  rw [Outline.untilEnd_concat_eof hlast hinner', List.append_assoc, List.singleton_append, hitems, List.flatMap_append] at htokens
  exact List.append_cancel_right htokens

/-- The tokens of such a text, put anywhere, make runs of their own, one of which is a broken construct. -/
theorem placed (h : Broken markers source body last) {us : List Token} (hkinds : us.map (·.kind) = body.map (·.kind))
    (linkage : Nat) :
    ∃ items linkage', (∀ more, outline markers linkage (us ++ more) = items ++ outline markers linkage' more) ∧
      (∀ t : Tracker, t.passAll (items.flatMap Item.tokens) = .ok t) ∧ ¬ ∀ item ∈ items, item.Sound := by
  obtain ⟨body', last', hsplit, hlast, hinner, htokenized⟩ := tokenized_of_tokenize h.tokens
  obtain ⟨rfl, hlast'⟩ := List.append_inj' hsplit rfl
  cases hlast'
  obtain ⟨f, hf, rfl⟩ := exists_keepsKinds htokenized.ordered.nodup hkinds
  let semi : Token := { last with kind := .punct .semi }
  obtain ⟨read, hread, hbody⟩ := h.outline_semicolon (show semi.kind = .punct .semi from rfl)
  obtain ⟨items, linkage', hmore, hall⟩ := outline_cut hf hread (by simp) linkage
  rw [Nat.zero_add, hbody] at hmore
  refine ⟨items, linkage', hmore, ?_, ?_⟩
  · have hinner' : ∀ u ∈ body.map f, u.kind ≠ .eof := by
      intro u hu
      obtain ⟨t, ht, rfl⟩ := List.mem_map.1 hu
      rw [hf t]
      exact hinner t ht
    have hend : outline markers linkage' [last] = [] := by rw [outline, hlast]
    have hitems : outline markers linkage (body.map f ++ [last]) = items := by rw [hmore, hend, List.append_nil]
    have hnone : (body.map f).filterMap Token.directive? = [] := by
      rw [hf.filterMap_directive?, List.filterMap_eq_nil_iff]
      exact h.plain
    intro t
    rw [← hitems, flatMap_tokens_outline, Outline.untilEnd_concat_eof hlast hinner']
    exact Tracker.passAll_of_not_isConditional (by simp [hnone])
  · intro hsound
    have hmem : read ⊆ outline markers 0 (body ++ [semi, last]) := by
      rw [hread]
      exact List.subset_append_left read _
    obtain ⟨us, hus, hbraces⟩ := exists_withoutBodies hmem (sound_or_isStray_of_forall₂ hall hsound)
    rw [hbody] at hus hbraces
    exact h.misfit us hus (by rw [hbraces, h.balanced])

end Broken

/-- A text that is broken and of which no declaration is cut off, put between two texts without errors, is read with an
error, and the declarations of the texts around it stay. Those of the first come first, and those of the second last, with
their names, kinds, visibilities, guards and texts; only the numbers, the spans and the lines of the second are counted from
the start of the whole. -/
theorem survey_around_broken {markers : Bool} {a g b : String} {first second : Survey} {body : List Token} {last : Token}
    (ha : surveySource markers a = .ok first) (hfirst : first.errors = [])
    (hends : ¬['\\'] <:+ a.toList ∧ ¬['\\', '\r'] <:+ a.toList) (hg : Broken markers g body last)
    (hb : surveySource markers b = .ok second) (hsecond : second.errors = []) :
    ∃ whole between, surveySource markers (a ++ "\n" ++ g ++ "\n" ++ b) = .ok whole ∧ whole.errors ≠ [] ∧
      whole.declarations.shown = first.declarations.shown ++ between ++ second.declarations.shown.map fun entry =>
        ((entry.1.1.moved (byteLength (a ++ "\n" ++ g ++ "\n").toList) ((a ++ "\n" ++ g ++ "\n").toList.count '\n'),
          entry.1.2), entry.2 + (first.declarations.items.length + between.length)) := by
  obtain ⟨bodyA, lastA, hA, rfl⟩ := Faultless.of_survey ha hfirst
  obtain ⟨bodyB, lastB, hB, rfl⟩ := Faultless.of_survey hb hsecond
  obtain ⟨items, hbroken, hpass, hsurvey⟩ := hA.survey_between hends hg.tokens hg.ends hB
    fun gs rest ws _ hstands hws _ => hg.placed (hws.map_kind.trans hstands.map_kind.symm)
  generalize hbetween : entriesFrom (a ++ "\n" ++ g ++ "\n" ++ b).toList markers { recognizeBlocks := markers } items =
    between at hsurvey
  refine ⟨_, _, hsurvey, ?_, shown_between _ between _⟩
  intro hnone
  apply hbroken
  rw [Survey.errors_recordAll, List.filterMap_append, List.filterMap_append] at hnone
  obtain ⟨-, hissues⟩ := List.append_eq_nil_iff.1 hnone
  obtain ⟨-, hissues⟩ := List.append_eq_nil_iff.1 hissues
  obtain ⟨hissues, -⟩ := List.append_eq_nil_iff.1 hissues
  exact sound_of_entriesFrom (hpass _) (by rw [hbetween, hissues])

/-- A broken array, a structure and a function with a bracket left open in its body, between a variable and a function. -/
theorem survey_around_broken_array :
    let a := "int z;"
    let g := "int x[3), y;\nstruct s \x7b int n; \x7d v;\nint f(int b) \x7b return (b; \x7d"
    let b := "int b(void);"
    ∃ first second body last whole between, surveySource true a = .ok first ∧ first.errors = [] ∧
      (¬['\\'] <:+ a.toList ∧ ¬['\\', '\r'] <:+ a.toList) ∧ Broken true g body last ∧
      surveySource true b = .ok second ∧ second.errors = [] ∧
      surveySource true (a ++ "\n" ++ g ++ "\n" ++ b) = .ok whole ∧ whole.errors ≠ [] ∧
      whole.declarations.shown = first.declarations.shown ++ between ++ second.declarations.shown.map fun entry =>
        ((entry.1.1.moved (byteLength (a ++ "\n" ++ g ++ "\n").toList) ((a ++ "\n" ++ g ++ "\n").toList.count '\n'),
          entry.1.2), entry.2 + (first.declarations.items.length + between.length)) := by
  intro a g b
  have ha : surveySource true a = .ok ((surveySource true a).toOption.getD {}) := by decide +kernel
  have hb : surveySource true b = .ok ((surveySource true b).toOption.getD {}) := by decide +kernel
  have hfirst : ((surveySource true a).toOption.getD {}).errors = [] := by decide +kernel
  have hsecond : ((surveySource true b).toOption.getD {}).errors = [] := by decide +kernel
  have hends : ¬['\\'] <:+ a.toList ∧ ¬['\\', '\r'] <:+ a.toList := by decide +kernel
  let body := ((tokenize g).toOption.getD []).dropLast
  let last := ((tokenize g).toOption.getD []).getLast?.getD default
  -- the bracket that does not fit stands before all braces
  obtain ⟨htokens, hplain, hbalanced, hend, huncut, hsplit, hnone, hmisfit⟩ : tokenize g = .ok (body ++ [last]) ∧
      (∀ t ∈ body, t.directive? = none) ∧ openBehind? [] (braces body) = some [] ∧ (∃ t ∈ body.getLast?, t.IsEnd) ∧
      NoneCutOff true (body.filter (·.isSignificant)) ∧ body.filter (·.isSignificant) = body.take 5 ++ body.drop 5 ∧
      (∀ t ∈ body.take 5, t.kind ≠ .opening .brace) ∧ openBehind? [] (body.take 5) = none := by
    decide +kernel
  have hg : Broken true g body last := by
    refine ⟨htokens, hplain, hbalanced, fun us hus => ?_, hend, huncut⟩
    rw [hsplit] at hus
    simp [hus.openBehind?_eq_none hnone hmisfit]
  obtain ⟨whole, between, hwhole, herrors, hshown⟩ := survey_around_broken ha hfirst hends hg hb hsecond
  exact ⟨_, _, _, _, whole, between, ha, hfirst, hends, hg, hb, hsecond, hwhole, herrors, hshown⟩

/-- A text without directives that begins as declarations do and ends in a semicolon or a brace, in which the braces are
balanced, but not all brackets. -/
structure Unbalanced (source : String) (body : List Token) (last : Token) : Prop where
  tokens : tokenize source = .ok (body ++ [last])
  plain : ∀ t ∈ body, t.directive? = none
  begins : body.head?.any (·.kind.canStartDeclaration)
  balanced : openBehind? [] (braces body) = some []
  misfit : openBehind? [] body ≠ some []
  ends : body.getLast?.any fun t => t.kind = .punct .semi ∨ t.kind = .closing .brace

instance (source : String) (body : List Token) (last : Token) : Decidable (Unbalanced source body last) :=
  decidable_of_iff' (_ = _ ∧ (∀ t ∈ body, _) ∧ _ = _ ∧ _ = _ ∧ _ ≠ _ ∧ _ = _)
    ⟨fun h => ⟨h.tokens, h.plain, h.begins, h.balanced, h.misfit, h.ends⟩,
      fun h => ⟨h.1, h.2.1, h.2.2.1, h.2.2.2.1, h.2.2.2.2.1, h.2.2.2.2.2⟩⟩

/-- Such a text is not always read with an error and to its end. A parenthesis that nothing closes takes in the text behind it;
so does a brace that closes where one is open, which is still counted as open then; and so does a type without its
semicolon, whatever is broken before it. A bracket in the body of a function is not looked at. -/
theorem unbalanced_text_takes_next_or_passes :
    let a := "int z;"
    let unclosed := "int a(void;"
    let overrun := "struct s \x7b int a(; \x7d;"
    let unfinished := "int a];\nstruct s \x7b int n; \x7d"
    let passed := "int f(void) \x7b ( \x7d"
    let b := "int b(void);"
    let told (s : Survey) := s.declarations.shown.map fun entry =>
      (entry.1.1.kind, entry.1.2, entry.1.1.guard, entry.1.1.text.text)
    ∃ first second, surveySource true a = .ok first ∧ first.errors = [] ∧
      (¬['\\'] <:+ a.toList ∧ ¬['\\', '\r'] <:+ a.toList) ∧ surveySource true b = .ok second ∧ second.errors = [] ∧
      (∀ g ∈ [unclosed, overrun, unfinished], ∃ body last whole, Unbalanced g body last ∧
        surveySource true (a ++ "\n" ++ g ++ "\n" ++ b) = .ok whole ∧ ¬ told second <:+ told whole) ∧
      ∃ body last whole, Unbalanced passed body last ∧
        surveySource true (a ++ "\n" ++ passed ++ "\n" ++ b) = .ok whole ∧ whole.errors = [] := by
  intro a unclosed overrun unfinished passed b told
  let first := (surveySource true a).toOption.getD {}
  let second := (surveySource true b).toOption.getD {}
  let body (g : String) := ((tokenize g).toOption.getD []).dropLast
  let last (g : String) := ((tokenize g).toOption.getD []).getLast?.getD default
  let whole (g : String) := (surveySource true (a ++ "\n" ++ g ++ "\n" ++ b)).toOption.getD {}
  refine ⟨first, second, by decide +kernel, by decide +kernel, by decide +kernel, by decide +kernel, by decide +kernel, ?_, ?_⟩
  · intro g hg
    refine ⟨body g, last g, whole g, ?_⟩
    simp only [List.mem_cons, List.not_mem_nil, or_false] at hg
    rcases hg with rfl | rfl | rfl <;> decide +kernel
  · exact ⟨body passed, last passed, whole passed, by decide +kernel⟩

end CHeader
