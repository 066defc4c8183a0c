import CHeader.Proofs.CutOff
import CHeader.Proofs.DeclaratorRows
import CHeader.Proofs.GuardLineEnds
import CHeader.Proofs.Meaning

/-!
# Texts whose header is read back

What a header has to fulfil to be read back (`ReadBack`) is found in the text that it is written from
(`readBack_of_regular`): the directives of the text stand outside of its declarations, none of them runs on over the end
of its line, and what is spelled of a construct are specifiers that settle a type and a declarator that is told from them
(`Construct.Regular`). A row of those is one construct before a semicolon (`Outline.outline_declarator`), as nothing in it
ends or breaks the construct earlier. So its tokens are rebuilt where they are spelled (`SpelledRow.rebuildable`).
-/

namespace CHeader

open Nesting (Outside breakAt level openBehind?)
open Lexeme (directiveRunsOn)

/-! ### Rows that are one construct -/

namespace Outline

variable {markers : Bool} {ss e ts rest : List Token} {first semi : Token}

/-- Tokens that begin a declaration, with no bracket left open and no parameters behind them, are one with the semicolon. -/
theorem sound_of_unfinished (hstart : first.kind.canStartDeclaration = true) (hunfinished : Unfinished markers (first :: ts))
    (hclosed : openBehind? [] (first :: ts) = some []) (hwhole : Outside (·.kind ≠ .punct .semi) 0 (first :: ts))
    (hold : Shape.parameterDeclarations? markers (first :: ts) = none) (hplain : ∀ t ∈ first :: ts, t.isSignificant = true)
    (heof : ∀ t ∈ ts, t.kind ≠ .eof) (hsemi : semi.kind = .punct .semi) :
    (collect markers first (.start first) (ts ++ semi :: rest)).1.Sound := by
  have hfilter : ts.filter (·.isSignificant) = ts :=
    List.filter_eq_self.2 fun t ht => hplain t (List.mem_cons_of_mem _ ht)
  obtain ⟨c, hdivided, hmet, hopened, hmore⟩ := @collect_of_unfinished markers first (.start first) ts []
    (Collected.divided_start hstart markers) (by simpa [Collected.start, hfilter] using hunfinished)
    (by simpa [Collected.start, hfilter] using hclosed) heof
  have htokens : c.tokens.reverse = first :: ts := by
    rw [← hdivided.met, hmet]
    simp [Collected.start, hfilter, hplain first List.mem_cons_self]
  have hhead : c.head = none := by
    rw [Option.eq_none_iff_forall_ne_some]
    intro head hhead
    -- the semicolon of a parameter would stand outside all brackets
    obtain ⟨begun, semi', between, hsplit, hsemi', hdivision⟩ := hdivided.parts head hhead
    have hlevel : level 0 (head ++ begun) = 0 := Nesting.level_of_openBehind? hdivision.closed
    rw [← htokens, hsplit, Nesting.outside_append, hlevel] at hwhole
    exact hwhole.2.1 rfl hsemi'
  have hverdict : c.verdict markers semi = .ends := by
    simp [Collected.verdict, hsemi, hopened, hhead, htokens, hold]
  rw [hmore, collect_cons, hverdict]
  trivial

/-- Specifiers and a declarator without an initial value are a construct with the semicolon behind them. -/
theorem outline_declarator (hss : SpecifierRow markers ss) (he : DeclaratorRow markers ss.getLast? e)
    (hequals : (breakAt (.punct .eq) 0 e).2 = []) (hplain : ∀ t ∈ ss ++ e, t.isSignificant = true)
    (heof : ∀ t ∈ ss ++ e, t.kind ≠ .eof) (hsemi : semi.kind = .punct .semi) :
    outline markers 0 (ss ++ e ++ semi :: rest) =
      .construct (ss ++ e ++ [semi]) ⟨ss ++ e, [], .semicolon semi, []⟩ :: outline markers 0 rest := by
  have hold := DeclaratorRow.parameterDeclarations?_eq_none hss he
  refine outline_row hss he.list hsemi hplain (.inl hold) ?_
  obtain ⟨t, ts, s, rfl, hfirst⟩ := hss.exists_first
  have hstart := Specifier.canStartDeclaration_of_first? hfirst
  rw [List.cons_append, List.cons_append, outline_cons_collect hstart fun hkind => linkageLength?_row hkind
    (hss.typedSpecifiers he.list.head) he.list.ne_nil fun u hu => hplain u (List.mem_cons_of_mem _ hu)]
  rintro item ⟨⟩
  have hbraces : Outside (·.kind ≠ .opening .brace) 0 (t :: ts ++ e) := by
    have hbodiless := he.bodiless
    rw [Nesting.fst_breakAt hequals] at hbodiless
    rw [Nesting.outside_append, hss.level_eq]
    exact ⟨hss.bodiless, hbodiless⟩
  have hwhole := he.list.outside_semi hss
  refine sound_of_unfinished hstart ⟨by simpa using hstart, ?_, .inl ?_⟩ ?_ hwhole hold hplain
    (fun u hu => heof u (List.mem_cons_of_mem _ hu)) hsemi
  · intro before brace behind hsplit hbrace hclosed
    have hlevel : level 0 before = 0 := Nesting.level_of_openBehind? hclosed
    rw [List.cons_append, hsplit, Nesting.outside_append, hlevel] at hbraces
    exact absurd hbrace (hbraces.2.1 rfl)
  · rw [← List.cons_append, Nesting.breakAt_of_outside_all hwhole]
  · rw [← List.cons_append, Nesting.openBehind?_append, hss.closed]
    exact he.closed

end Outline

/-- Specifiers without marker words, and a declarator behind them that is told from them. -/
structure SpelledRow (ss e : List Token) : Prop where
  specifiers : SpecifierRow true ss
  kept : (Specifiers.ofTokens true ss).kept = ss
  declarator : DeclaratorRow true ss.getLast? e

instance (ss e : List Token) : Decidable (SpelledRow ss e) :=
  decidable_of_iff (SpecifierRow true ss ∧ (Specifiers.ofTokens true ss).kept = ss ∧ DeclaratorRow true ss.getLast? e)
    ⟨fun ⟨specifiers, kept, declarator⟩ => ⟨specifiers, kept, declarator⟩, fun h => ⟨h.specifiers, h.kept, h.declarator⟩⟩

/-- Where they are spelled they are told apart again. -/
theorem SpelledRow.rebuildable {ss e : List Token} (h : SpelledRow ss e) {isFunction : Bool} (hdeclarator : IsDeclarator e isFunction)
    (hplain : ∀ t ∈ ss ++ e, t.isSignificant = true ∧ t.kind ≠ .eof)
    (hlinkage : isFunction = false → ss.filter (!isLinkage ·) = ss.tail) : Rebuildable (ss ++ e) isFunction := by
  obtain ⟨hss, hkept, he⟩ := h
  have hspecs := hss.ofTokens_append he.list.head
  have hbehind := hss.behindSpecifiers_append he.list.head
  refine ⟨?_, ?_, ?_, ?_, ?_⟩
  · have houtline := @Outline.outline_declarator true ss e [.endOfText 0 0] writtenSemicolon hss he hdeclarator.equals
      (fun t ht => (hplain t ht).1) (fun t ht => (hplain t ht).2) rfl
    rw [IsConstruct, List.append_assoc, List.singleton_append, houtline, outline]
    rfl
  · obtain ⟨t, ts, s, rfl, -⟩ := hss.exists_first
    rw [hspecs, hss.whole]
    exact List.cons_ne_nil t ts
  · rw [hspecs, hss.whole, Construct.shared, hss.tagged?_eq_none]
    exact hkept
  · rwa [hspecs, hss.whole]
  · rwa [hbehind]

/-! ### Constructs -/

/-- A construct of which everything can be spelled: behind its specifiers stand declarators that are told from them, and
no type is defined on the way of an inline function. -/
structure Construct.Regular (c : Construct) : Prop where
  inlined : (Specifiers.ofTokens true c.head).isInline = true → tagged? (.ofTokens true c.head) = none
  prototype : ∀ piece ∈ c.pieces (.ofTokens true c.head), piece.declarator.isFunction = true →
    SpelledRow (shared (.ofTokens true c.head)) (c.prototypeTokens piece ++ c.closing)
  external : ∀ piece ∈ c.pieces (.ofTokens true c.head), piece.declarator.isFunction = false →
    piece.declarator.name.isSome = true → SpelledRow (writtenExtern :: c.variableSpecifiers) piece.declaring

instance (c : Construct) : Decidable c.Regular :=
  decidable_of_iff
    (((Specifiers.ofTokens true c.head).isInline = true → Construct.tagged? (.ofTokens true c.head) = none) ∧
      (∀ piece ∈ c.pieces (.ofTokens true c.head), piece.declarator.isFunction = true →
        SpelledRow (Construct.shared (.ofTokens true c.head)) (c.prototypeTokens piece ++ c.closing)) ∧
      ∀ piece ∈ c.pieces (.ofTokens true c.head), piece.declarator.isFunction = false →
        piece.declarator.name.isSome = true → SpelledRow (writtenExtern :: c.variableSpecifiers) piece.declaring)
    ⟨fun ⟨inlined, prototype, external⟩ => ⟨inlined, prototype, external⟩, fun h => ⟨h.inlined, h.prototype, h.external⟩⟩

theorem TakenFrom.plain {source : List Char} {ts : List Token} (h : TakenFrom source ts) :
    ∀ t ∈ ts, t.isSignificant = true ∧ t.kind ≠ .eof := by
  intro t ht
  obtain ⟨before, behind, hread⟩ := h.read t ht
  have hreads : Reads [⟨[], t.kind, t.text.toList⟩] behind := ⟨by simpa using hread.read, trivial⟩
  exact ⟨h.significant t ht, hreads.kind_ne_eof _ (List.mem_singleton_self _)⟩

/-- What is spelled of a regular construct is read as it was made. -/
theorem Construct.Regular.restorable {source : String} {tokens run : List Token} (htokens : tokenize source = .ok tokens)
    {c : Construct} (hrun : .construct run c ∈ outline true 0 tokens) (h : c.Regular) (draft : Draft) : c.Restorable draft := by
  obtain ⟨earlier, later, houtline⟩ := List.append_of_mem hrun
  have hbody := (tokenized_run htokens houtline).1
  obtain ⟨first, ts, rest, hstart, hcollect⟩ := collect_of_mem_outline hrun
  have htaken : ∀ {us : List Token}, us.Sublist c.head → TakenFrom source.toList us :=
    takenFrom_head hbody hstart hcollect
  refine ⟨fun _ _ => h.inlined, fun piece hpiece hfunction _ => ?_, fun piece hpiece hvariable hnamed _ => ?_⟩
  · have htokens := sublist_head (List.Sublist.refl _)
      ((sublist_prototypeTokens c piece).trans (sublist_declaring hpiece))
    have hnodup : piece.declaring.Nodup :=
      (htaken ((List.sublist_append_right _ _).trans (sublist_head (List.Sublist.refl _) (sublist_declaring hpiece)))).ordered.nodup
    have hdeclarator := isDeclarator_prototypeTokens hpiece hnodup hfunction
    rw [List.append_assoc]
    refine (h.prototype piece hpiece hfunction).rebuildable hdeclarator ?_ (by simp)
    rw [← List.append_assoc]
    refine List.forall_mem_append.2 ⟨(htaken htokens).plain, ?_⟩
    unfold closing
    split_ifs <;> decide
  · have hdeclarator := isDeclarator_declaring hpiece hnamed
    rw [hvariable] at hdeclarator
    rw [← List.cons_append]
    refine (h.external piece hpiece hvariable hnamed).rebuildable hdeclarator ?_ fun _ => ?_
    · refine List.forall_mem_cons.2 ⟨by decide, ?_⟩
      exact (htaken (sublist_head (@List.filter_sublist _ (!isLinkage ·) _) (sublist_declaring hpiece))).plain
    · simp [variableSpecifiers, isLinkage, writtenExtern, Token.written]

/-! ### Lines -/

/-- A text without directives begins with none, so its line does not run on. -/
theorem runsOn_of_readsAs {text : String} (h : ReadsAs text.toList (Item.Declares [] text)) :
    (HeaderLine.declaration text).runsOn = false := by
  obtain ⟨ls, hchars, hreads, hruns⟩ := h
  obtain ⟨body, last, -, hstands, -⟩ := @tokenize_of_reads text ls [] (by rw [hchars, List.append_nil]) hreads rfl
  obtain ⟨item, hdeclares, houtline⟩ := hruns [] [] body hstands
  have htokens := Item.tokens_of_outline hreads hstands (houtline 0).choose_spec
  have hnone := hdeclares.directives
  rw [htokens] at hnone
  unfold HeaderLine.runsOn
  split
  case h_2 => rfl
  rename_i cs htext
  change text.toList = '#' :: cs at htext
  rw [htext] at hchars
  cases ls with
  | nil => cases hchars
  | cons l ls =>
    obtain ⟨-, -, -, -, hkind⟩ := hreads.directive_of_hash ((List.append_nil _).trans hchars)
    obtain _ | ⟨hkind', -, -, -, -⟩ := hstands
    simp [Token.directive?, hkind', hkind] at hnone

/-- The line of a directive with a condition runs on where the condition does. -/
theorem runsOn_line {d : Directive} (hkind : d.kind = .elif ∨ ∃ opening, d.kind = .opening opening) :
    (HeaderLine.directive d.line).runsOn = directiveRunsOn d.args.toList := by
  have hordinary : ∀ c ∈ d.kind.keyword.toList ++ [' '], Lexeme.Ordinary c := by
    refine List.forall_mem_append.2 ⟨fun c hc => ?_, ?_⟩
    · exact Lexeme.ordinary_of_isKeywordChar ((Directive.keyword_of_condition hkind).1 c hc)
    · exact List.forall_mem_singleton.2 (Lexeme.ordinary_of_isBlank rfl (by decide))
  rw [HeaderLine.runsOn, HeaderLine.text, Directive.toList_line]
  simpa using Lexeme.directiveRunsOn_append hordinary d.args.toList

/-- The lines that lead to guards do not run on if the conditions of the guards do not. -/
theorem runsOn_of_mem_moveLines {opened target : GuardPath}
    (h : ∀ guard ∈ target, ∀ condition ∈ guard.condition :: guard.elifs, directiveRunsOn condition.toList = false) :
    ∀ line ∈ Emission.moveLines opened target, line.runsOn = false := by
  intro line hline
  obtain ⟨text, -, rfl⟩ := List.mem_map.1 hline
  rcases Emission.line_of_mem_moveLines hline with rfl | rfl | ⟨guard, hguard, rfl | ⟨condition, hcondition, rfl⟩⟩
  · simp [HeaderLine.runsOn, HeaderLine.text, directiveRunsOn]
  · simp [HeaderLine.runsOn, HeaderLine.text, directiveRunsOn]
  · rw [runsOn_line (.inr ⟨_, rfl⟩)]
    exact h guard hguard _ List.mem_cons_self
  · rw [runsOn_line (.inl rfl)]
    exact h guard hguard _ (List.mem_cons_of_mem _ hcondition)

/-! ### Texts -/

/-- A text that is read as a run whose directives are of no conditionals is balanced. -/
theorem isBalanced_of_restates {text : String} (h : ReadsAs text.toList (Item.Restates text)) (hnone : Unconditional text) :
    isBalanced text = true := by
  obtain ⟨body, last, htokens, hlast, -⟩ := h.of_tokenize
  have hdirectives : ∀ directive ∈ (body ++ [last]).filterMap Token.directive?, directive.kind.isConditional = false := by
    have hkinds := hnone.kinds
    rwa [directivesOf, htokens] at hkinds
  simp [isBalanced, htokens, Tracker.passAll_of_not_isConditional hdirectives]

/-- What is declared by a run whose directives stand alone begins with a directive only if the run is one. -/
theorem runsOn_of_mem_entries {source : List Char} {tokens : List Token} {item : Item} (hitem : item ∈ outline true 0 tokens)
    (hlone : item.Lone) {t : Tracker} {names : List String} {draft : Draft}
    (hentry : .declare names draft ∈ item.entries source true t)
    (hdirectives : directivesOf draft.text.text = item.tokens.filterMap Token.directive?)
    (hreads : ReadsAs draft.text.text.toList (Item.Restates draft.text.text))
    (hends : ∀ token ∈ item.tokens, ∀ directive ∈ token.directive?, (HeaderLine.declaration token.text).runsOn = false) :
    (HeaderLine.declaration draft.text.text).runsOn = false := by
  cases item with
  | skipped => cases hentry
  | malformed => simp [Item.entries] at hentry
  | construct run c =>
    have hnone : directivesOf draft.text.text = [] := hdirectives.trans (hlone.directives_construct hitem)
    exact runsOn_of_readsAs (hreads.imp fun _ _ h => hnone ▸ h.declares)
  | directive token =>
    obtain ⟨directive, hdirective, -, -, visibility, rfl⟩ := macro_of_mem_entries hentry
    exact hends token (List.mem_singleton_self token) directive hdirective

section Regular

variable {source : String} {tokens : List Token} (htokens : tokenize source = .ok tokens) {s : Survey}
  (hsurvey : surveySource true source = .ok s) (hlone : ∀ item ∈ outline true 0 tokens, item.Lone)
  (hends : ∀ token ∈ tokens, ∀ directive ∈ token.directive?, directiveRunsOn directive.args.toList = false ∧
    (HeaderLine.declaration token.text).runsOn = false)

include htokens hsurvey hlone hends

/-- What a header shows of a text whose directives stand alone has no conditionals in it. Neither it nor a condition
around it runs on if no directive of the text does. -/
theorem unconditional_of_mem_visible {d : Declaration} (hd : d ∈ s.declarations.visible)
    (hrestorable : ∀ run c, .construct run c ∈ outline true 0 tokens → (Specifiers.ofTokens true c.head).isTypedef = false →
      d.span.stop = c.last.span.stop → c.Restorable d.toDraft) :
    isBalanced d.text.text = true ∧ (HeaderLine.declaration d.text.text).runsOn = false ∧
      ∀ guard ∈ d.guard, ∀ condition ∈ guard.condition :: guard.elifs, directiveRunsOn condition.toList = false := by
  obtain ⟨-, hrecorded⟩ := recorded_of_surveySource htokens hsurvey
  have hmem : d ∈ s.declarations.items := (List.mem_filter.1 hd).1
  rw [hrecorded] at hmem
  obtain ⟨hrestored, -⟩ := restored_of_mem_items htokens Tracker.sound_start hmem hrestorable
  obtain ⟨earlier, item, later, here, first, names, hsplit, -, hentry, -, hhere, hguard⟩ := exists_run_of_mem_recordAll hmem
  have hitem : item ∈ outline true 0 tokens := by simp [hsplit]
  obtain ⟨hbody, last, -, hall⟩ := tokenized_run htokens hsplit
  obtain ⟨htext, hdirectives, hreads⟩ := restates_of_mem_entries hitem (hlone item hitem) hbody hentry hrestored
  refine ⟨isBalanced_of_restates hreads htext, ?_, fun guard hmem => ?_⟩
  · refine runsOn_of_mem_entries hitem (hlone item hitem) hentry hdirectives hreads fun token htoken directive hdirective => ?_
    exact (hends token (by simp [hall, htoken]) directive hdirective).2
  · rw [hguard] at hmem
    have hstart : Tracker.Conditions (fun condition => directiveRunsOn condition.toList = false) {} := by simp [Tracker.Conditions]
    refine (hstart.passAll (fun token htoken directive hdirective _ => ?_) hhere).of_mem_guardPath hmem
    exact (hends token (by simp [hall, htoken]) directive hdirective).1

/-- If the directives of a text stand outside of its declarations and none of them runs on, and its constructs are
regular, the header of the text is read back. -/
theorem readBack_of_regular (hregular : ∀ item ∈ outline true 0 tokens, ∀ c ∈ item.construct?,
    (Specifiers.ofTokens true c.head).isTypedef = false → c.Regular) : ReadBack tokens s.declarations := by
  have hrestorable : ∀ run c, .construct run c ∈ outline true 0 tokens → (Specifiers.ofTokens true c.head).isTypedef = false →
      ∀ draft, c.Restorable draft :=
    fun run c hrun hplain => (hregular _ hrun c rfl hplain).restorable htokens hrun
  have hshown := fun d hd => unconditional_of_mem_visible htokens hsurvey hlone hends (d := d) hd fun run c hrun hplain _ =>
    hrestorable run c hrun hplain d.toDraft
  have hentries : ∀ entry ∈ Emission.entries s.declarations, ∃ d ∈ s.declarations.visible, entry = (d.guard, d.text.text) := by
    intro entry hentry
    obtain ⟨d, hd, rfl⟩ := List.mem_map.1 (Emission.mem_of_mem_collapse hentry)
    exact ⟨d, hd, rfl⟩
  refine ⟨fun line hline => ?_, fun d hd _ => (hshown d hd).1, ?_⟩
  · rw [Emission.emit_eq_lines] at hline
    rcases Emission.cases_of_mem_lines line (List.mem_of_mem_dropLast hline) with
      ⟨opened, target, htarget, hmove⟩ | ⟨entry, hentry, rfl⟩
    · refine runsOn_of_mem_moveLines (fun guard hguard => ?_) line hmove
      rcases htarget with rfl | ⟨entry, hentry, rfl⟩
      · cases hguard
      · obtain ⟨d, hd, rfl⟩ := hentries entry hentry
        exact (hshown d hd).2.2 guard hguard
    · obtain ⟨d, hd, rfl⟩ := hentries entry hentry
      exact (hshown d hd).2.1
  · intro item hitem c hc hplain d _ _
    obtain ⟨run, rfl⟩ : ∃ run, item = .construct run c := by
      cases item <;> cases hc
      exact ⟨_, rfl⟩
    exact hrestorable run c hitem hplain d.toDraft

end Regular

example :
    let source := "#ifdef A\nstruct s \x7b int x; \x7d *p, q[2];\n#define B 1\nint f(a) int a; \x7b return a; \x7d\n#endif\n"
    ReadBack ((tokenize source).toOption.getD []) ((surveySource true source).toOption.getD {}).declarations := by
  intro source
  let tokens := (tokenize source).toOption.getD []
  obtain ⟨htokens, hsurvey, hlone, hends, hregular⟩ : tokenize source = .ok tokens ∧
      surveySource true source = .ok ((surveySource true source).toOption.getD {}) ∧
      (∀ item ∈ outline true 0 tokens, item.Lone) ∧
      (∀ token ∈ tokens, ∀ directive ∈ token.directive?, directiveRunsOn directive.args.toList = false ∧
        (HeaderLine.declaration token.text).runsOn = false) ∧
      ∀ item ∈ outline true 0 tokens, ∀ c ∈ item.construct?, (Specifiers.ofTokens true c.head).isTypedef = false → c.Regular := by
    decide +kernel
  exact readBack_of_regular htokens hsurvey hlone hends hregular

end CHeader
