import CHeader.Proofs.TextOrigins

/-!
# Conditionals in copies

A macro, a type or an inline function is declared in the words of the source, directives and all. The copy reaches from
one token of the source to another, and where constructs begin and end has nothing to do with where conditionals do. So
a copy closes what it opens, and nothing else, exactly if the conditionals around the tokens that are copied are left
alone there (`verbatim_closed_iff`).
-/

namespace CHeader

open Lexed (allChars)

/-! ### Undisturbed conditionals -/

namespace Tracker

/-- Some tokens touch none of the conditionals around them, and close those that they open. -/
structure Undisturbed (t : Tracker) (tokens : List Token) : Prop where
  around : ∀ front there, front <+: tokens → t.passAll front = .ok there → t.stack <:+ there.stack
  closed : t.passAll tokens = .ok t

variable {outer : List OpenConditional} {t outside behind' : Tracker} {directive : Directive}

/-- A directive that leaves the conditionals around as they are fits inside of them, too. -/
theorem Inside.step_of_suffix (h : t.Inside outer outside) {line' : Nat} {span' : Span}
    (hstep : outside.step directive line' span' = .ok behind') (hkept : outer <:+ behind'.stack) (line : Nat) (span : Span) :
    ∃ behind, t.step directive line span = .ok behind := by
  obtain ⟨inner, hinner, hmap⟩ := h.stack
  cases inner with
  | nil =>
    -- All that is open is around: it would be switched or closed.
    rw [List.nil_append] at hinner
    cases steps_of_step_eq_ok hstep with
    | opened kind condition => exact ⟨_, (Steps.opened kind condition).step_eq_ok⟩
    | elif _ _ stack =>
      rw [← hinner, stack] at hkept
      have helifs := congrArg (·.guard.elifs.length) (List.cons.inj (hkept.eq_of_length rfl)).1
      simp at helifs
    | otherwise _ stack branch =>
      rw [← hinner, stack] at hkept
      have helse := congrArg (·.guard.inElse) (List.cons.inj (hkept.eq_of_length rfl)).1
      simp [branch] at helse
    | endif _ stack =>
      rw [← hinner, stack] at hkept
      exact absurd hkept.length_le (Nat.not_succ_le_self _)
    | other kind => exact ⟨t, (Steps.other kind).step_eq_ok⟩
  | cons found inner =>
    obtain ⟨top, rest, hstack, hfound, -⟩ := List.map_eq_cons_iff.1 hmap.symm
    obtain ⟨hguard, hblock⟩ := Prod.mk.inj hfound
    have hfirst : ∀ {top' rest'}, outside.stack = top' :: rest' → top' = found := fun hcons =>
      (List.cons.inj (hcons.symm.trans hinner)).1
    cases steps_of_step_eq_ok hstep with
    | opened kind condition => exact ⟨_, (Steps.opened kind condition).step_eq_ok⟩
    | elif kind condition stack branch ordinary =>
      obtain rfl := hfirst stack
      exact ⟨_, (Steps.elif kind condition hstack (hguard ▸ branch) (hblock ▸ ordinary)).step_eq_ok⟩
    | otherwise kind stack branch =>
      obtain rfl := hfirst stack
      exact ⟨_, (Steps.otherwise kind hstack (hguard ▸ branch)).step_eq_ok⟩
    | endif kind => exact ⟨_, (Steps.endif kind hstack).step_eq_ok⟩
    | other kind => exact ⟨t, (Steps.other kind).step_eq_ok⟩

/-- Where the conditionals around are left as they are, tokens are followed inside of them as outside. -/
theorem Inside.passAll_of_suffix (h : t.Inside outer outside) {ts : List Token} (hpass : outside.passAll ts = .ok behind')
    (hkept : ∀ front there, front <+: ts → outside.passAll front = .ok there → outer <:+ there.stack) :
    ∃ behind, t.passAll ts = .ok behind ∧ behind.Inside outer behind' := by
  suffices hok : ∃ behind, t.passAll ts = .ok behind by
    obtain ⟨behind, hbehind⟩ := hok
    obtain ⟨there, hthere, hinside⟩ := h.passAll rfl hbehind
    rw [hpass] at hthere
    cases hthere
    exact ⟨behind, hbehind, hinside⟩
  induction ts generalizing t outside with
  | nil => exact ⟨t, rfl⟩
  | cons token ts ih =>
    obtain ⟨between, hfirst, hrest⟩ := passAll_cons_eq_ok_iff.1 hpass
    have hkept' : ∀ front there, front <+: ts → between.passAll front = .ok there → outer <:+ there.stack := fun front there hfront h =>
      hkept (token :: front) there (List.cons_prefix_cons.2 ⟨rfl, hfront⟩) (passAll_cons_eq_ok_iff.2 ⟨between, hfirst, h⟩)
    obtain ⟨between', hpass', hinside⟩ : ∃ between', t.pass token = .ok between' ∧ between'.Inside outer between := by
      cases hdirective : token.directive? with
      | none =>
        rw [pass_of_directive?_eq_none hdirective] at hfirst ⊢
        cases hfirst
        exact ⟨t, rfl, h⟩
      | some directive =>
        rw [pass_eq_ok_iff hdirective] at hfirst
        obtain ⟨between', hstep⟩ := h.step_of_suffix hfirst (hkept' [] between (List.nil_prefix) rfl) token.line token.span
        obtain ⟨there, hthere, hinside⟩ := h.step hstep token.line token.span
        rw [hfirst] at hthere
        cases hthere
        exact ⟨between', (pass_eq_ok_iff hdirective).2 hstep, hinside⟩
    obtain ⟨behind, hbehind⟩ := ih hinside hrest hkept'
    exact ⟨behind, passAll_cons_eq_ok_iff.2 ⟨between', hpass', hbehind⟩⟩

/-- Tokens leave the conditionals around them alone exactly if they are followed from no conditional to none. -/
theorem undisturbed_iff {ts : List Token} :
    t.Undisturbed ts ↔
      Tracker.passAll { recognizeBlocks := t.recognizeBlocks } ts = .ok { recognizeBlocks := t.recognizeBlocks } := by
  have hinside : Inside t.stack { recognizeBlocks := t.recognizeBlocks } t := ⟨rfl, [], rfl, rfl⟩
  constructor
  · intro h
    obtain ⟨behind, hpass, hblocks, inner, hstack, hinner⟩ := hinside.passAll_of_suffix h.closed h.around
    obtain rfl : inner = [] := by simpa using hstack
    have hnone : behind.stack = [] := by simpa using hinner.symm
    rw [hpass]
    obtain ⟨blocks, stack⟩ := behind
    obtain rfl : stack = [] := hnone
    obtain rfl : blocks = t.recognizeBlocks := hblocks.symm
    rfl
  · intro h
    refine ⟨fun front there ⟨rest, hrest⟩ hthere => ?_, passAll_of_closed rfl h⟩
    rw [← hrest] at h
    obtain ⟨between, hfront, -⟩ := passAll_append_eq_ok_iff.1 h
    obtain ⟨there', hthere', hinside'⟩ := hinside.passAll rfl hfront
    rw [hthere] at hthere'
    cases hthere'
    obtain ⟨inner, hstack, -⟩ := hinside'.stack
    exact ⟨inner, hstack.symm⟩

theorem fault?_eq_none_iff {tokens : List Token} {markers : Bool} :
    Tracker.fault? { recognizeBlocks := markers } tokens = none ↔
      Tracker.passAll { recognizeBlocks := markers } tokens = .ok { recognizeBlocks := markers } := by
  unfold fault?
  cases hpass : Tracker.passAll { recognizeBlocks := markers } tokens with
  | error fault => simp
  | ok behind =>
    have hblocks : behind.recognizeBlocks = markers := recognizeBlocks_passAll hpass
    obtain ⟨blocks, stack⟩ := behind
    obtain rfl : blocks = markers := hblocks
    cases stack <;> simp [finish]

end Tracker

/-! ### Copies -/

/-- A text of lexemes has the directives of tokens of the same kinds. -/
theorem directives_of_reads {text : String} {ls : List Lexed} (htext : text.toList = allChars ls) (hreads : Reads ls [])
    {ts : List Token} (hkinds : ls.map (·.kind) = ts.map (·.kind)) :
    ∃ copies, tokenize text = .ok copies ∧ copies.filterMap Token.directive? = ts.filterMap Token.directive? := by
  obtain ⟨body, last, htokens, hstands, hlast⟩ := @tokenize_of_reads text ls [] (by rw [htext, List.append_nil]) hreads rfl
  have hnone : last.directive? = none := by rw [Token.directive?, hlast]
  refine ⟨_, htokens, ?_⟩
  rw [List.filterMap_append, List.filterMap_cons_none hnone]
  simpa using filterMap_directive?_of_map_kind (hstands.map_kind.trans hkinds)

section Source

variable {source : List Char} {before copied behind : List Token} {token : Token}

/-- The directives of a copy are those of the tokens that are copied. -/
theorem IsCopy.directives {text : String} (h : IsCopy source copied text) (hbody : Tokenized source (before ++ copied ++ behind)) :
    ∃ copies, tokenize text = .ok copies ∧ copies.filterMap Token.directive? = copied.filterMap Token.directive? := by
  obtain ⟨first, last, written, hfirst, hlast, hslice, htext⟩ := h
  obtain ⟨ts, rfl⟩ := List.head?_eq_some_iff.1 hfirst
  obtain ⟨l, row, -, hreads, hkinds, hslice'⟩ := hbody.cut hlast
  obtain rfl : written = allChars (l :: row) := Option.some_inj.1 (hslice.symm.trans hslice')
  rcases htext with rfl | ⟨hsignificant, rfl⟩
  · exact directives_of_reads String.toList_ofList hreads hkinds
  · have hreads' := hreads.concat_semicolon hkinds fun t ht => by
      rw [hlast] at ht
      rwa [← Option.some_inj.1 ht]
    obtain ⟨copies, hcopies, hdirectives⟩ :=
      @directives_of_reads (String.ofList (allChars (l :: row)) ++ ";") _ (by simp) hreads' (first :: ts ++ [writtenSemicolon])
        (by rw [List.map_append, List.map_append, hkinds]; rfl)
    refine ⟨copies, hcopies, hdirectives.trans ?_⟩
    rw [List.filterMap_append]
    simp [writtenSemicolon, Token.written, Token.directive?]

/-- The directive of a macro is a copy. -/
theorem isCopy_directive (hbody : Tokenized source (before ++ [token] ++ behind)) : IsCopy source [token] token.text := by
  obtain ⟨front, later, hread⟩ := hbody.readIn (show token ∈ before ++ [token] ++ behind by simp)
  exact ⟨token, token, token.text.toList, rfl, rfl, hread.slice, .inl String.ofList_toList.symm⟩

/-- What a run declares in the words of the source is a copy of some of its tokens. -/
theorem exists_copied_of_mem_outline {markers : Bool} {linkage : Nat} {tokens : List Token} {item : Item}
    (hitem : item ∈ outline markers linkage tokens) (hbody : Tokenized source (before ++ item.tokens ++ behind)) {t : Tracker}
    {names : List String} {draft : Draft} (h : .declare names draft ∈ item.entries source markers t) {text : String}
    (htext : draft.text = .verbatim text) :
    ∃ front copied rest, item.tokens = front ++ copied ++ rest ∧ IsCopy source copied text := by
  cases item with
  | skipped => cases h
  | malformed => simp [Item.entries] at h
  | directive token =>
    obtain ⟨directive, -, -, -, visibility, rfl⟩ := macro_of_mem_entries h
    obtain rfl := DeclText.verbatim.inj htext
    exact ⟨[], [token], [], rfl, isCopy_directive hbody⟩
  | construct run c =>
    obtain ⟨start, ts, rest, hstart, hcollect⟩ := collect_of_mem_outline hitem
    obtain ⟨us, horigin⟩ := exists_textFrom_of_mem_entries hbody hstart hcollect rfl h
    rw [htext] at horigin
    cases horigin with
    | whole _ hrun _ hcopy => exact ⟨_, us, [], by rw [List.append_nil]; exact hrun, hcopy⟩
    | apart _ _ hrun _ _ hcopy => exact ⟨_, us, _, hrun, hcopy⟩

end Source

/-- What is declared in the words of the source has the directives of the tokens that are copied. It closes the
conditionals that it opens, and no others, exactly if the conditionals around those tokens are left alone by them. -/
theorem verbatim_closed_iff {markers : Bool} {source : String} {tokens : List Token} (htokens : tokenize source = .ok tokens)
    {s : Survey} (hsurvey : surveySource markers source = .ok s) {d : Declaration} (hd : d ∈ s.declarations.items)
    {text : String} (htext : d.text = .verbatim text) :
    ∃ before copied behind here copies, tokens = before ++ copied ++ behind ∧ IsCopy source.toList copied text ∧
      Tracker.passAll { recognizeBlocks := markers } before = .ok here ∧ tokenize text = .ok copies ∧
      copies.filterMap Token.directive? = copied.filterMap Token.directive? ∧
      (Tracker.fault? { recognizeBlocks := markers } copies = none ↔ here.Undisturbed copied) := by
  obtain ⟨hfault, rfl⟩ := recorded_of_surveySource htokens hsurvey
  obtain ⟨earlier, item, later, here, first, names, houtline, -, hentry, -, hhere, -⟩ := exists_run_of_mem_recordAll hd
  obtain ⟨hbody, last, -, htokens'⟩ := tokenized_run htokens houtline
  obtain ⟨front, copied, behind, hitem, hcopy⟩ :=
    exists_copied_of_mem_outline (show item ∈ outline markers 0 tokens by simp [houtline]) hbody hentry htext
  have hsplit : earlier.flatMap Item.tokens ++ item.tokens ++ later.flatMap Item.tokens =
      earlier.flatMap Item.tokens ++ front ++ copied ++ (behind ++ later.flatMap Item.tokens) := by
    rw [hitem]
    simp
  rw [hsplit] at hbody htokens'
  obtain ⟨copies, hcopies, hdirectives⟩ := hcopy.directives hbody
  have hpass := Tracker.fault?_eq_none_iff.1 hfault
  rw [← flatMap_tokens_outline markers 0, houtline, List.flatMap_append, List.flatMap_cons, ← List.append_assoc, hsplit] at hpass
  obtain ⟨between, hbefore, -⟩ := Tracker.passAll_append_eq_ok_iff.1 hpass
  obtain ⟨there, hthere, -⟩ := Tracker.passAll_append_eq_ok_iff.1 hbefore
  have hblocks : there.recognizeBlocks = markers := Tracker.recognizeBlocks_passAll hthere
  refine ⟨_, copied, behind ++ later.flatMap Item.tokens ++ [last], there, copies, ?_, hcopy, hthere, hcopies, hdirectives, ?_⟩
  · rw [htokens', List.append_assoc]
  · rw [Tracker.fault?_eq_none_iff, Tracker.undisturbed_iff, hblocks]
    let start : Tracker := { recognizeBlocks := markers }
    exact ⟨start.passAll_of_closed hdirectives.symm, start.passAll_of_closed hdirectives⟩

/-- A type with a conditional in its body, which the copy closes. -/
theorem verbatim_closed_iff_body :
    let source := "#ifdef X\nEXPORT struct s \x7b\n#ifdef Y\nint y;\n#endif\n\x7d;\n#endif"
    let text := "struct s \x7b\n#ifdef Y\nint y;\n#endif\n\x7d;"
    ∃ tokens s, tokenize source = .ok tokens ∧ surveySource true source = .ok s ∧
      ∃ d ∈ s.declarations.items, d.text = .verbatim text ∧
        ∃ before copied behind here copies, tokens = before ++ copied ++ behind ∧ IsCopy source.toList copied text ∧
          Tracker.passAll {} before = .ok here ∧ tokenize text = .ok copies ∧
          copies.filterMap Token.directive? = copied.filterMap Token.directive? ∧
          (Tracker.fault? {} copies = none ↔ here.Undisturbed copied) := by
  intro source text
  have htokens : tokenize source = .ok ((tokenize source).toOption.getD []) := by decide +kernel
  have hsurvey : surveySource true source = .ok ((surveySource true source).toOption.getD {}) := by decide +kernel
  have hdeclared : ∃ d ∈ ((surveySource true source).toOption.getD {}).declarations.items, d.text = .verbatim text := by
    decide +kernel
  obtain ⟨d, hd, htext⟩ := hdeclared
  exact ⟨_, _, htokens, hsurvey, d, hd, htext, verbatim_closed_iff htokens hsurvey hd htext⟩

/-- A construct may end inside a conditional that begins in it. -/
theorem verbatim_left_open :
    let source := "struct s \x7b\n#ifdef X\nint x; \x7d;\n#endif"
    let text := "struct s \x7b\n#ifdef X\nint x; \x7d;"
    ∃ s, surveySource true source = .ok s ∧ s.errors = [] ∧ (∃ d ∈ s.declarations.items, d.text = .verbatim text) ∧
      ∃ copies, tokenize text = .ok copies ∧ Tracker.fault? {} copies ≠ none := by
  intro source text
  have hsurvey : surveySource true source = .ok ((surveySource true source).toOption.getD {}) := by decide +kernel
  have hcopies : tokenize text = .ok ((tokenize text).toOption.getD []) := by decide +kernel
  exact ⟨_, hsurvey, by decide +kernel, by decide +kernel, _, hcopies, by decide +kernel⟩

end CHeader
