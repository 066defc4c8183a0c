import CHeader.Proofs.CopiedConditionals
import CHeader.Proofs.HeaderMeaning

/-!
# The meaning of conditionals

Which declarations of a text are active depends on what is defined before it and in it. A header merges conditionals of
the text that look the same, and goes on to their later branches. As long as those are decided alike in the text, the
header has the same declarations active, whatever is defined before it (`active_declarations_header`). So it is if the
header defines nothing (`isChain_of_no_macros`). If a macro is defined between two such conditionals, the header may have
other declarations active (`header_merges_across_macro`).

Interface blocks are no conditionals for a header. So the text has none here, and its directives stand at top level.
-/

namespace CHeader

open Emission (collapse)

/-- A run with no directive in it, unless it is one that opens no interface block. -/
def Item.Plain (item : Item) : Prop :=
  ∀ token ∈ item.tokens, ∀ directive ∈ token.directive?, item = .directive token ∧
    (directive.kind = .opening .expression → InterfaceBlock.ofCondition? directive.args = none)

instance (item : Item) : Decidable item.Plain :=
  inferInstanceAs (Decidable (∀ token ∈ item.tokens, ∀ directive ∈ token.directive?, item = .directive token ∧
    (directive.kind = .opening .expression → InterfaceBlock.ofCondition? directive.args = none)))

/-- The conditionals around a declaration, with their branches where it begins. -/
def Declaration.branched (place : Nat → Evaluation) (d : Declaration) : List Branched :=
  d.guard.zip (place d.span.start).branches.reverse

theorem Item.Plain.lone {item : Item} (h : item.Plain) : item.Lone := by
  intro t ht hdirective
  obtain ⟨directive, hsome⟩ := Option.isSome_iff_exists.1 hdirective
  rw [(h t ht directive hsome).1]
  rfl

/-- The directives of a plain run: none, or the run itself. -/
theorem Item.Plain.directives {item : Item} (h : item.Plain) :
    item.tokens.filterMap Token.directive? = [] ∨
      ∃ token directive, item = .directive token ∧ token.directive? = some directive ∧
        (directive.kind = .opening .expression → InterfaceBlock.ofCondition? directive.args = none) := by
  rcases List.eq_nil_or_concat (item.tokens.filterMap Token.directive?) with hnone | ⟨front, directive, hsome⟩
  · exact .inl hnone
  · have hmem : directive ∈ item.tokens.filterMap Token.directive? := by simp [hsome]
    obtain ⟨token, htoken, hdirective⟩ := List.mem_filterMap.1 hmem
    obtain ⟨hitem, hopens⟩ := h token htoken directive hdirective
    exact .inr ⟨token, directive, hitem, hdirective, hopens⟩

/-! ### The course of a text -/

section Course

variable {decision : Decision} {place : Nat → Evaluation} {t behind last : Tracker} {e : Evaluation} {ds later : List Declaration}

/-- The course of a text from one place on: directives that define nothing, and declarations that a header shows, with
the macros that they define. -/
inductive Course (decision : Decision) (place : Nat → Evaluation) : Tracker → Evaluation → List Declaration → Prop
  | done (t : Tracker) (e : Evaluation) : Course decision place t e []
  | directive {t behind : Tracker} {e : Evaluation} {ds : List Declaration} {directive : Directive} {line : Nat} {span : Span}
      (steps : t.Steps directive line span behind) (plain : directive.kind ≠ .define ∧ directive.kind ≠ .undef)
      (rest : Course decision place behind (e.step decision directive) ds) : Course decision place t e ds
  | shown {t : Tracker} {e : Evaluation} {d : Declaration} {ds : List Declaration}
      (guards : d.guard = t.stack.reverse.map (·.guard)) (evaluated : place d.span.start = e)
      (text : Unconditional d.text.text) (rest : Course decision place t (e.run decision (directivesOf d.text.text)) ds) :
      Course decision place t e (d :: ds)

/-- The conditionals around a declaration are those around the place where it begins. -/
theorem Around.branched {here : List Branched} (h : Around t e here) {d : Declaration}
    (guards : d.guard = t.stack.reverse.map (·.guard)) (evaluated : place d.span.start = e) :
    d.guard = here.map Prod.fst ∧ d.branched place = here := by
  have hguard : d.guard = here.map Prod.fst := by rw [guards, List.map_reverse, h.guards, List.reverse_reverse]
  refine ⟨hguard, ?_⟩
  rw [Declaration.branched, hguard, evaluated, h.branches, inward, List.reverse_reverse, List.zip_map']
  exact List.map_id' here

/-- If conditionals that look the same are decided alike, the declarations that are active are those that a header has
active. -/
theorem Course.filter_eq (h : Course decision place t e ds) {start here : List Branched}
    (hreach : Reach decision e.macros true start here) (haround : Around t e here) (haligned : Aligned start)
    (halike : (start :: ds.map (·.branched place)).IsChain DecidedAlike) :
    ((ds.filter fun d => (place d.span.start).isActive).map fun d => (d.guard, d.text.text)) =
      activeEntries decision e.macros start (ds.map fun d => (d.guard, d.text.text)) := by
  induction h generalizing start here with
  | done => rfl
  | directive steps plain rest ih =>
    obtain ⟨there, hreach', haround', hmacros⟩ := reach_of_steps steps plain hreach haround
    rw [← hmacros] at hreach' ⊢
    exact ih hreach' haround' haligned halike
  | @shown t e d ds guards evaluated text rest ih =>
    obtain ⟨hguard, hbranched⟩ := haround.branched guards evaluated
    obtain ⟨hguards, hbranches, haligned'⟩ := haround
    rw [List.map_cons, hbranched] at halike
    obtain ⟨halike, halike'⟩ := List.isChain_cons_cons.1 halike
    have hcarry : carry decision e.macros true start d.guard = here := by
      rw [hguard]
      exact (hreach.eq_carry haligned halike).symm
    have he : (⟨e.macros, inward here⟩ : Evaluation) = e := by rw [← hbranches]
    have hrest := ih (Reach.refl true here) ⟨hguards, by rw [text.branches_run, hbranches], haligned'⟩ haligned' halike'
    rw [List.filter_cons, List.map_cons, activeEntries, evaluated]
    simp only [hcarry, he]
    split_ifs
    · rw [List.map_cons, hrest]
    · exact hrest

/-- As long as nothing is defined, conditionals are decided as they are at the start. -/
theorem Course.branched_eq (h : Course decision place t e ds)
    (hdefines : ∀ d ∈ ds, ∀ directive ∈ directivesOf d.text.text, directive.kind ≠ .define ∧ directive.kind ≠ .undef)
    {here : List Branched} (hreach : Reach decision e.macros true [] here) (haround : Around t e here) :
    ∀ d ∈ ds, d.branched place = evaluate decision e.macros true d.guard := by
  induction h generalizing here with
  | done => simp
  | directive steps plain rest ih =>
    obtain ⟨there, hreach', haround', hmacros⟩ := reach_of_steps steps plain hreach haround
    rw [← hmacros] at hreach' ⊢
    exact ih hdefines hreach' haround'
  | @shown t e d ds guards evaluated text rest ih =>
    obtain ⟨hguard, hbranched⟩ := haround.branched guards evaluated
    obtain ⟨htext, hdefines⟩ := List.forall_mem_cons.1 hdefines
    have hrun : e.run decision (directivesOf d.text.text) = e := by
      obtain hnone | ⟨directive, hone, hkind⟩ := text.eq_nil_or_singleton
      · rw [hnone]
        rfl
      · rw [hone, Evaluation.run_cons, Evaluation.step_of_other hkind, directive.apply_of_ne (htext directive (by simp [hone]))]
        exact ite_self e
    rw [hrun] at ih
    refine List.forall_mem_cons.2 ⟨?_, ih hdefines hreach haround⟩
    cases hreach with
    | anew path => rw [hbranched, hguard, map_fst_evaluate]

theorem Course.append {shown : List Declaration}
    (hshown : ∀ d ∈ shown, d.guard = t.stack.reverse.map (·.guard) ∧ place d.span.start = e ∧ directivesOf d.text.text = [])
    (h : Course decision place t e ds) : Course decision place t e (shown ++ ds) := by
  induction shown with
  | nil => exact h
  | cons d shown ih =>
    obtain ⟨⟨hguards, hplace, hnone⟩, hshown⟩ := List.forall_mem_cons.1 hshown
    refine .shown hguards hplace ⟨by simp [hnone], by simp [hnone]⟩ ?_
    rw [hnone]
    exact ih hshown

/-- Directives that open no interface block leave the conditionals without any. -/
theorem Tracker.Steps.ordinary {directive : Directive} {line : Nat} {span : Span} (h : t.Steps directive line span behind)
    (hopens : directive.kind = .opening .expression → InterfaceBlock.ofCondition? directive.args = none)
    (hordinary : ∀ conditional ∈ t.stack, conditional.block = none) : ∀ conditional ∈ behind.stack, conditional.block = none := by
  cases h with
  | @opened opening kind condition =>
    refine List.forall_mem_cons.2 ⟨?_, hordinary⟩
    change t.blockOf? opening directive.args = none
    unfold blockOf?
    split_ifs with hblock
    · exact hopens (by simp_all)
    · rfl
  | elif kind condition stack branch ordinary =>
    rw [stack] at hordinary
    exact List.forall_mem_cons.2 ⟨ordinary, (List.forall_mem_cons.1 hordinary).2⟩
  | otherwise kind stack =>
    rw [stack] at hordinary
    obtain ⟨htop, houter⟩ := List.forall_mem_cons.1 hordinary
    exact List.forall_mem_cons.2 ⟨htop, houter⟩
  | endif kind stack =>
    rw [stack] at hordinary
    exact (List.forall_mem_cons.1 hordinary).2
  | other => exact hordinary

/-- Plain runs leave the conditionals without interface blocks. -/
theorem Item.Plain.ordinary {item : Item} (h : item.Plain) (hpass : t.passAll item.tokens = .ok behind)
    (hordinary : ∀ conditional ∈ t.stack, conditional.block = none) :
    ∀ conditional ∈ behind.stack, conditional.block = none := by
  rcases h.directives with hnone | ⟨token, directive, rfl, hdirective, hopens⟩
  · rw [Tracker.passAll_of_not_isConditional (by simp [hnone])] at hpass
    cases hpass
    exact hordinary
  · have hfirst : t.pass token = .ok behind := (Tracker.passAll_singleton t token).symm.trans hpass
    exact (Tracker.steps_of_step_eq_ok ((Tracker.pass_eq_ok_iff hdirective).1 hfirst)).ordinary hopens hordinary

/-- Outside of interface blocks, a macro that is no issue is declared for all to see. -/
theorem macroEntries_eq {token : Token} {directive : Directive} (hdefines : directive.kind = .define ∨ directive.kind = .undef)
    (hordinary : ∀ conditional ∈ t.stack, conditional.block = none)
    (hissues : (macroEntries t token directive).filterMap Entry.issue? = []) :
    ∃ name, macroEntries t token directive =
      [.declare [name] { kind := .macroDef, text := .verbatim token.text, visibility := .interface, guard := t.guardPath,
                         span := token.span, line := token.line }] := by
  have hblock : t.interfaceBlock = none := by
    have hnone : t.stack.find? (·.block.isSome) = none :=
      List.find?_eq_none.2 fun conditional hconditional => by simp [hordinary conditional hconditional]
    rw [Tracker.interfaceBlock, hnone]
  rw [macroEntries, if_pos hdefines, hblock] at hissues ⊢
  cases hname : directive.macroName? with
  | none =>
    rw [hname] at hissues
    cases hissues
  | some name => exact ⟨name, rfl⟩

/-- A run without issues, and the course behind it. -/
theorem Course.of_run {source : List Char} {item : Item} (hplain : item.Plain) (hpass : t.passAll item.tokens = .ok behind)
    (hordinary : ∀ conditional ∈ t.stack, conditional.block = none)
    (hissues : (item.entries source true t).filterMap Entry.issue? = []) {here : List Declaration}
    (hdrafts : here.map (·.toDraft) = (item.entries source true t).filterMap Entry.draft?)
    (hstands : ∀ d ∈ here, d.guard = t.stack.reverse.map (·.guard) ∧ place d.span.start = e) {shown : Declaration → Bool}
    (hmacros : ∀ d ∈ here, d.kind = .macroDef → d.visibility = .interface → shown d = true)
    (htexts : ∀ d ∈ here, shown d = true →
      Unconditional d.text.text ∧ directivesOf d.text.text = item.tokens.filterMap Token.directive?)
    (h : Course decision place behind (e.run decision (item.tokens.filterMap Token.directive?)) ds) :
    Course decision place t e (here.filter shown ++ ds) := by
  rcases hplain.directives with hnone | ⟨token, directive, rfl, hdirective, -⟩
  · rw [Tracker.passAll_of_not_isConditional (by simp [hnone])] at hpass
    cases hpass
    rw [hnone] at h htexts
    refine h.append fun d hd => ?_
    obtain ⟨hmem, hshown⟩ := List.mem_filter.1 hd
    obtain ⟨hguard, hplace⟩ := hstands d hmem
    exact ⟨hguard, hplace, (htexts d hmem hshown).2⟩
  · have hentries : (Item.directive token).entries source true t = macroEntries t token directive := by
      rw [Item.entries, hdirective]
      rfl
    have hone : (Item.directive token).tokens.filterMap Token.directive? = [directive] := by simp [Item.tokens, hdirective]
    have hfirst : t.pass token = .ok behind := (Tracker.passAll_singleton t token).symm.trans hpass
    have hsteps := Tracker.steps_of_step_eq_ok ((Tracker.pass_eq_ok_iff hdirective).1 hfirst)
    rw [hone] at h htexts
    rw [hentries] at hissues hdrafts
    by_cases hdefines : directive.kind = .define ∨ directive.kind = .undef
    · obtain rfl := hsteps.eq_of_not_isConditional (DirectiveKind.isConditional_of_defines hdefines)
      obtain ⟨name, hdeclared⟩ := macroEntries_eq hdefines hordinary hissues
      rw [hdeclared] at hdrafts
      obtain ⟨d, others, rfl, hd, hothers⟩ := List.map_eq_cons_iff.1 hdrafts
      obtain rfl : others = [] := List.map_eq_nil_iff.1 hothers
      have hself : d ∈ [d] := List.mem_singleton_self d
      have hshown : shown d = true := hmacros d hself (congrArg (·.kind) hd) (congrArg (·.visibility) hd)
      obtain ⟨hguard, hplace⟩ := hstands d hself
      obtain ⟨htext, hdirectives⟩ := htexts d hself hshown
      rw [List.filter_cons_of_pos hshown]
      exact .shown hguard hplace htext (hdirectives ▸ h)
    · rw [macroEntries, if_neg hdefines] at hdrafts
      obtain rfl : here = [] := List.map_eq_nil_iff.1 hdrafts
      exact .directive hsteps (not_or.1 hdefines) h

/-- The runs of a text without issues are its course. -/
theorem course_of_entriesFrom {source : List Char} {tokens : List Token} (hplain : ∀ item ∈ outline true 0 tokens, item.Plain)
    {items : List Item} (hitems : items ⊆ outline true 0 tokens) (hpass : t.passAll (items.flatMap Item.tokens) = .ok last)
    (hordinary : ∀ conditional ∈ t.stack, conditional.block = none) (hplaces : Places decision place source e items)
    (hissues : (entriesFrom source true t items).filterMap Entry.issue? = [])
    (hdrafts : ds.map (·.toDraft) = (entriesFrom source true t items).filterMap Entry.draft?) {shown : Declaration → Bool}
    (hmacros : ∀ d ∈ ds, d.kind = .macroDef → d.visibility = .interface → shown d = true)
    (htexts : ∀ d ∈ ds, shown d = true → ∀ item ∈ outline true 0 tokens, ∀ t names,
      .declare names d.toDraft ∈ item.entries source true t →
      Unconditional d.text.text ∧ directivesOf d.text.text = item.tokens.filterMap Token.directive?) :
    Course decision place t e (ds.filter shown) := by
  induction items generalizing t e ds with
  | nil =>
    obtain rfl : ds = [] := by simpa [entriesFrom] using hdrafts
    exact .done t e
  | cons item items ih =>
    obtain ⟨hitem, hitems⟩ := List.cons_subset.1 hitems
    obtain ⟨between, hfirst, hrest⟩ := Tracker.passAll_append_eq_ok_iff.1 hpass
    simp only [entriesFrom, hfirst, List.filterMap_append, List.append_eq_nil_iff] at hissues hdrafts
    obtain ⟨here, later, rfl, hhere, hlater⟩ := List.map_eq_append_iff.1 hdrafts
    have hmade : ∀ d ∈ here, ∃ names, .declare names d.toDraft ∈ item.entries source true t := fun d hd =>
      Entry.mem_of_mem_drafts (hhere ▸ List.mem_map_of_mem hd)
    have hunder : t.Under (t.stack.reverse.map (·.guard)) := ⟨rfl, hordinary⟩
    have hcourse : Course decision place between (e.run decision (item.tokens.filterMap Token.directive?)) (later.filter shown) :=
      ih hitems hrest ((hplain item hitem).ordinary hfirst hordinary) hplaces.tail hissues.2 hlater
        (fun d hd => hmacros d (List.mem_append_right _ hd)) fun d hd => htexts d (List.mem_append_right _ hd)
    rw [List.filter_append]
    refine hcourse.of_run (hplain item hitem) hfirst hordinary hissues.1 hhere (fun d hd => ?_)
      (fun d hd => hmacros d (List.mem_append_left _ hd)) fun d hd hshown => ?_
    · obtain ⟨names, hentry⟩ := hmade d hd
      exact ⟨(standsUnder_of_mem_outline hitem hentry).trans hunder.guardPath_eq, hplaces.head hentry⟩
    · obtain ⟨names, hentry⟩ := hmade d hd
      exact htexts d (List.mem_append_left _ hd) hshown item hitem t names hentry

end Course

/-! ### Texts of declarations -/

/-- A text has the directives of the run that it is read as. -/
theorem ReadsAs.directivesOf {text : String} {P : List Char → Item → Prop} (h : ReadsAs text.toList P)
    {directives : List Directive} (hdirectives : ∀ source item, P source item → item.tokens.filterMap Token.directive? = directives) :
    directivesOf text = directives := by
  obtain ⟨body, last, htokens, hlast, ⟨source, item, hitem, hkinds⟩, -⟩ := h.of_tokenize
  have hnone : last.directive? = none := by rw [Token.directive?, hlast]
  rw [CHeader.directivesOf, htokens, ← hdirectives source item hitem, filterMap_directive?_of_map_kind hkinds]
  simp [Except.toOption, hnone]

/-- A construct whose directives stand alone has none. -/
theorem Item.Lone.directives_construct {tokens run : List Token} {c : Construct} (h : (Item.construct run c).Lone)
    (hitem : .construct run c ∈ outline true 0 tokens) : run.filterMap Token.directive? = [] := by
  rw [List.filterMap_eq_nil_iff]
  intro t ht
  by_contra hsome
  obtain ⟨first, hstart, hfirst, -⟩ := first_of_mem_outline hitem
  have hone : run = [t] := h t ht (Option.isSome_iff_ne_none.2 hsome)
  obtain rfl : t = first := by simpa [hone] using hfirst
  obtain ⟨directive, hdirective⟩ := Option.ne_none_iff_exists'.1 hsome
  simp [Token.kind_of_directive? hdirective, TokenKind.canStartDeclaration] at hstart

/-- A text that is read as one thing, and has no directives, declares it as a whole. -/
theorem restates_of_readsAs {text : String} (h : ReadsAs text.toList (Item.Declares [] text)) :
    Unconditional text ∧ directivesOf text = [] ∧ ReadsAs text.toList (Item.Restates text) := by
  have hof : directivesOf text = [] := h.directivesOf fun _ _ hdeclares => hdeclares.directives
  refine ⟨⟨by simp [hof], by simp [hof]⟩, hof, h.imp fun source item hdeclares => ⟨hof ▸ hdeclares, ?_⟩⟩
  intro t ht hsome
  obtain ⟨directive, hdirective⟩ := Option.isSome_iff_exists.1 hsome
  exact absurd (List.mem_filterMap.2 ⟨t, ht, hdirective⟩) (by simp [hdeclares.directives])

/-- What a run declares whose directives stand alone has the directives of the run, and is declared again as a whole
wherever it stands. -/
theorem restates_of_mem_entries {source : List Char} {before behind tokens : List Token} {item : Item}
    (hitem : item ∈ outline true 0 tokens) (hlone : item.Lone) (hbody : Tokenized source (before ++ item.tokens ++ behind))
    {t : Tracker} {names : List String} {draft : Draft} (h : .declare names draft ∈ item.entries source true t)
    (hrestored : draft.Restored) :
    Unconditional draft.text.text ∧ directivesOf draft.text.text = item.tokens.filterMap Token.directive? ∧
      ReadsAs draft.text.text.toList (Item.Restates draft.text.text) := by
  cases item with
  | skipped => cases h
  | malformed => simp [Item.entries] at h
  | construct run c =>
    have hnone := hlone.directives_construct hitem
    obtain ⟨directives, hreads, hspelled⟩ := hrestored
    have hempty : directives = [] := by
      cases htext : draft.text with
      | synthesized text => exact hspelled (by rw [htext]; rfl)
      | verbatim text =>
        obtain ⟨front, copied, rest, hrun, hcopy⟩ := exists_copied_of_mem_outline hitem hbody h htext
        have hcut : Tokenized source (before ++ front ++ copied ++ (rest ++ behind)) := by simpa [hrun] using hbody
        obtain ⟨copies, hcopies, hdirectives⟩ := hcopy.directives hcut
        obtain rfl : run = front ++ copied ++ rest := hrun
        rw [List.filterMap_append, List.filterMap_append, List.append_eq_nil_iff, List.append_eq_nil_iff] at hnone
        have hof : directivesOf draft.text.text = directives := hreads.directivesOf fun _ _ hdeclares => hdeclares.directives
        rw [← hof, htext, DeclText.text, directivesOf, hcopies]
        exact hdirectives.trans hnone.1.2
    rw [hempty] at hreads
    obtain ⟨htext, hof, hrestates⟩ := restates_of_readsAs hreads
    exact ⟨htext, hof.trans hnone.symm, hrestates⟩
  | directive token =>
    obtain ⟨directive, hdirective, hdefines, ⟨name, hname, -⟩, visibility, rfl⟩ := macro_of_mem_entries h
    have hreads := readsAs_macroDirective hbody (by simp [Item.tokens]) (Token.kind_of_directive? hdirective) hdefines hname
    have hof : directivesOf token.text = [directive] := hreads.directivesOf fun _ _ h => h.2.directives
    have hother := DirectiveKind.isConditional_of_defines hdefines
    refine ⟨⟨by simp [DeclText.text, hof], by simpa [DeclText.text, hof] using hother⟩, ?_, hreads.imp fun source item h => ?_⟩
    · simp [DeclText.text, hof, Item.tokens, hdirective]
    · obtain ⟨⟨t, rfl⟩, hdeclares⟩ := h
      refine ⟨by rw [DeclText.text, hof]; exact hdeclares, fun u hu _ => ?_⟩
      rw [List.mem_singleton.1 hu]
      rfl

/-! ### Headers -/

/-- What a header shows of a plain text has the directives of its run, and is declared again as a whole. -/
theorem restates_of_mem_visible {source : String} {tokens : List Token} (htokens : tokenize source = .ok tokens) {s : Survey}
    (hsurvey : surveySource true source = .ok s) (hplain : ∀ item ∈ outline true 0 tokens, item.Plain)
    (hback : ReadBack tokens s.declarations) {d : Declaration} (hd : d ∈ s.declarations.visible) {item : Item}
    (hitem : item ∈ outline true 0 tokens) {t : Tracker} {names : List String}
    (hentry : .declare names d.toDraft ∈ item.entries source.toList true t) :
    Unconditional d.text.text ∧ directivesOf d.text.text = item.tokens.filterMap Token.directive? ∧
      ReadsAs d.text.text.toList (Item.Restates d.text.text) := by
  obtain ⟨-, hrecorded⟩ := recorded_of_surveySource htokens hsurvey
  have hmem : d ∈ s.declarations.items := (List.mem_filter.1 hd).1
  rw [hrecorded] at hmem
  obtain ⟨hrestored, -⟩ := restored_of_mem_items htokens Tracker.sound_start hmem fun run c hc hordinary =>
    hback.restorable _ hc c rfl hordinary d hd
  obtain ⟨earlier, later, houtline⟩ := List.append_of_mem hitem
  exact restates_of_mem_entries hitem (hplain item hitem).lone (tokenized_run htokens houtline).1 hentry hrestored

/-- The course of a text, from its start. -/
theorem course_visible {source : String} {tokens : List Token} (htokens : tokenize source = .ok tokens) {s : Survey}
    (hsurvey : surveySource true source = .ok s) (hclean : s.errors = [])
    (hplain : ∀ item ∈ outline true 0 tokens, item.Plain) (hback : ReadBack tokens s.declarations)
    (decision : Decision) (macros : Macros) :
    Course decision (evaluationAt decision macros tokens) {} { macros } s.declarations.visible := by
  have htexts := @restates_of_mem_visible source tokens htokens s hsurvey hplain hback
  obtain ⟨hfault, hrecorded⟩ := recorded_of_surveySource htokens hsurvey
  have hplaces := @places_of_outline decision source tokens htokens (fun item hitem => (hplain item hitem).lone) macros
  rw [← flatMap_tokens_outline true 0, Tracker.fault?_eq_none_iff] at hfault
  have hissues : (entriesFrom source.toList true {} (outline true 0 tokens)).filterMap Entry.issue? = [] := by
    rw [hrecorded, Survey.errors_recordAll] at hclean
    exact hclean
  have hdrafts := Survey.drafts_recordAll {} (entriesFrom source.toList true {} (outline true 0 tokens))
  rw [← hrecorded] at hdrafts
  have hmacros : ∀ d ∈ s.declarations.items, d.kind = .macroDef → d.visibility = .interface →
      decide (s.declarations.effectiveVisibility d = .interface) = true := by
    intro d _ hkind hvisibility
    simp [DeclarationList.effectiveVisibility, hkind, DeclKind.hasLinkage, hvisibility]
  refine course_of_entriesFrom hplain (List.Subset.refl _) hfault (by simp) hplaces hissues hdrafts hmacros ?_
  intro d hd hshown item hitem t names hentry
  obtain ⟨htext, hdirectives, -⟩ := htexts (List.mem_filter.2 ⟨hd, hshown⟩) hitem hentry
  exact ⟨htext, hdirectives⟩

/-- If nothing is defined by what a header shows, conditionals that look the same are decided alike. -/
theorem isChain_of_no_macros {source : String} {tokens : List Token} (htokens : tokenize source = .ok tokens) {s : Survey}
    (hsurvey : surveySource true source = .ok s) (hclean : s.errors = [])
    (hplain : ∀ item ∈ outline true 0 tokens, item.Plain) (hback : ReadBack tokens s.declarations)
    (hdefines : ∀ d ∈ s.declarations.visible, ∀ directive ∈ directivesOf d.text.text,
      directive.kind ≠ .define ∧ directive.kind ≠ .undef) (decision : Decision) (macros : Macros) :
    (s.declarations.visible.map (·.branched (evaluationAt decision macros tokens))).IsChain DecidedAlike := by
  have hbranched := (course_visible htokens hsurvey hclean hplain hback decision macros).branched_eq hdefines
    (Reach.refl true []) ⟨rfl, rfl, by simp [Aligned]⟩
  rw [List.map_congr_left hbranched]
  refine (List.pairwise_map.2 (List.pairwise_of_forall_mem_list fun d _ d' _ => ?_)).isChain
  exact decidedAlike_evaluate true d.guard d'.guard

/-- If conditionals that look the same are decided alike, guards and texts tell what is active in a text. -/
theorem activeDeclarations_visible {source : String} {tokens : List Token} (htokens : tokenize source = .ok tokens) {s : Survey}
    (hsurvey : surveySource true source = .ok s) (hclean : s.errors = [])
    (hplain : ∀ item ∈ outline true 0 tokens, item.Plain) (hback : ReadBack tokens s.declarations)
    {decision : Decision} {macros : Macros}
    (halike : (s.declarations.visible.map (·.branched (evaluationAt decision macros tokens))).IsChain DecidedAlike) :
    activeDeclarations decision macros tokens s.declarations.visible =
      activeEntries decision macros [] (s.declarations.visible.map fun d => (d.guard, d.text.text)) := by
  have hcourse := course_visible htokens hsurvey hclean hplain hback decision macros
  refine hcourse.filter_eq (Reach.refl true []) ⟨rfl, rfl, by simp [Aligned]⟩ (by simp [Aligned]) ?_
  cases hvisible : s.declarations.visible with
  | nil => exact .singleton []
  | cons d ds =>
    rw [hvisible] at halike
    exact .cons_cons trivial halike

/-- Where conditionals that look the same are decided alike, the header of a text has the same declarations active as the
text. -/
theorem active_declarations_header {source header : String} (hheader : generateHeader source = .ok header) {tokens : List Token}
    (htokens : tokenize source = .ok tokens) {s : Survey} (hsurvey : surveySource true source = .ok s)
    (hplain : ∀ item ∈ outline true 0 tokens, item.Plain) (hback : ReadBack tokens s.declarations)
    (decision : Decision) (macros : Macros)
    (halike : (s.declarations.visible.map (·.branched (evaluationAt decision macros tokens))).IsChain DecidedAlike) :
    ∃ written again, tokenize header = .ok written ∧ surveySource true header = .ok again ∧
      collapse (activeDeclarations decision macros written again.declarations.items) =
        collapse (activeDeclarations decision macros tokens s.declarations.visible) := by
  obtain ⟨hclean, hrender⟩ := render_of_generateHeader hheader hsurvey
  have hlines := endsItsLine_of_mem_lines htokens hsurvey hback
  rw [Emission.render, Emission.emit_eq_lines] at hrender
  have hshown : ∀ entry ∈ s.declarations.visible.map fun d => (d.guard, d.text.text),
      Unconditional entry.2 ∧ ReadsAs entry.2.toList (Item.Restates entry.2) := by
    refine List.forall_mem_map.2 fun d hd => ?_
    obtain ⟨-, hrecorded⟩ := recorded_of_surveySource htokens hsurvey
    have hmem : d ∈ s.declarations.items := (List.mem_filter.1 hd).1
    rw [hrecorded] at hmem
    obtain ⟨earlier, item, later, here, first, names, houtline, -, hentry, -⟩ := exists_run_of_mem_recordAll hmem
    obtain ⟨htext, -, hreads⟩ := restates_of_mem_visible htokens hsurvey hplain hback hd (by simp [houtline]) hentry
    exact ⟨htext, hreads⟩
  have hentries : ∀ entry ∈ Emission.entries s.declarations, (∀ guard ∈ entry.1, guard.Writable) ∧
      Unconditional entry.2 ∧ ReadsAs entry.2.toList (Item.Restates entry.2) := by
    intro entry hentry
    obtain ⟨d, -, rfl, -, hwritable⟩ := restored_of_mem_entries_header htokens hsurvey hback entry hentry
    exact ⟨hwritable, hshown _ (Emission.mem_of_mem_collapse hentry)⟩
  obtain ⟨written, again, hwritten, hagain, hactive⟩ := activeDeclarations_lines (fun entry h => (hentries entry h).1)
    (fun entry h => (hentries entry h).2.1) (fun entry h => (hentries entry h).2.2) hlines hrender decision macros
  refine ⟨written, again, hwritten, hagain, ?_⟩
  rw [hactive, activeDeclarations_visible htokens hsurvey hclean hplain hback halike]
  exact collapse_activeEntries (fun entry h => (hshown entry h).1) macros []

/-- A branch that the header goes on to, and a conditional that it opens again behind another. -/
theorem active_declarations_header_branches :
    let header := "#ifdef A\n#define B 1\n#else\nextern int x;\n#endif\n#ifdef B\nvoid f(void);\n#endif"
    ∃ written again, tokenize header = .ok written ∧ surveySource true header = .ok again ∧
      collapse (activeDeclarations (fun _ _ => false) (· = "A") written again.declarations.items) =
        [([⟨.defined, "A", [], false⟩], "#define B 1"), ([⟨.defined, "B", [], false⟩], "void f(void);")] := by
  intro header
  let source := "#ifdef A\n#define B 1\n#endif\n#ifdef A\n#else\nint x;\n#endif\n#ifdef B\nvoid f(void) \x7b\x7d\n#endif"
  let tokens := (tokenize source).toOption.getD []
  let s := (surveySource true source).toOption.getD {}
  obtain ⟨hheader, htokens, hsurvey, hplain, hback⟩ : generateHeader source = .ok header ∧ tokenize source = .ok tokens ∧
      surveySource true source = .ok s ∧ (∀ item ∈ outline true 0 tokens, item.Plain) ∧ ReadBack tokens s.declarations := by
    decide +kernel
  obtain ⟨written, again, hwritten, hagain, hactive⟩ := active_declarations_header hheader htokens hsurvey hplain hback
    (fun _ _ => false) (· = "A") (by decide +kernel)
  refine ⟨written, again, hwritten, hagain, hactive.trans ?_⟩
  decide +kernel

/-- What stands behind the definition of a macro is merged with what stands before it. -/
theorem header_merges_across_macro :
    let source := "#ifndef A\n#define A\n#endif\n#ifndef A\nint b;\n#endif"
    let header := "#ifndef A\n#define A\nextern int b;\n#endif"
    let here : GuardPath := [⟨.undefined, "A", [], false⟩]
    let active := activeDeclarations (fun _ _ => false) (fun _ => false)
    generateHeader source = .ok header ∧
      (∃ tokens s, tokenize source = .ok tokens ∧ surveySource true source = .ok s ∧ (∀ item ∈ outline true 0 tokens, item.Plain) ∧
        collapse (active tokens s.declarations.visible) = [(here, "#define A")]) ∧
      ∃ written again, tokenize header = .ok written ∧ surveySource true header = .ok again ∧
        collapse (active written again.declarations.items) = [(here, "#define A"), (here, "extern int b;")] := by
  intro source header here active
  have htokens : ∀ text ∈ [source, header], tokenize text = .ok ((tokenize text).toOption.getD []) := by decide +kernel
  have hsurvey : ∀ text ∈ [source, header], surveySource true text = .ok ((surveySource true text).toOption.getD {}) := by
    decide +kernel
  exact ⟨by decide +kernel, ⟨_, _, htokens source (by simp), hsurvey source (by simp), by decide +kernel, by decide +kernel⟩,
    _, _, htokens header (by simp), hsurvey header (by simp), by decide +kernel⟩

end CHeader
