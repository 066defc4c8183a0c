import CHeader.Generator
import CHeader.Proofs.Partition
import CHeader.Proofs.Recording
import CHeader.Proofs.Steps

/-!
# A survey follows the conditionals of the text

A survey goes through the runs of the outline, and the tracker through the directives in them. Since
the runs are the tokens of the text, the tracker takes in every directive once and in order, whatever
run it is in. So a survey fails as the directives do, taken by themselves (`Tracker.fault?`), and the
guards of a declaration are those that the directives before it lead to. What a run says depends on
the text before it through that tracker only (`Item.entries`), and a survey that does not fail records
what its runs say (`entriesFrom`).
-/

namespace CHeader

/-- The first fault of the conditionals of a text: of a directive, or of its end. -/
def Tracker.fault? (t : Tracker) (tokens : List Token) : Option Diagnostic :=
  match t.passAll tokens with
  | .ok behind => behind.finish
  | .error fault => some fault

namespace Item

/-- What a run says behind directives that lead to `t`. -/
def entries (source : List Char) (markers : Bool) (t : Tracker) : Item → List Entry
  | directive token => (token.directive?.map (macroEntries t token)).getD []
  | skipped _ => []
  | construct _ c => c.entries { source, markers, guard := t.guardPath, block := t.interfaceBlock }
  | malformed _ fault _ => [.issue fault]

/-- The token that a run with declarations begins with: the directive, or the first of the construct. -/
def Begins (first : Token) : Item → Prop
  | directive token => token = first
  | construct tokens c => tokens.head? = some first ∧ c.head.head? = some first
  | skipped _ | malformed .. => False

end Item

/-- What runs say behind directives that lead to `t`, up to a fault of the conditionals. -/
def entriesFrom (source : List Char) (markers : Bool) (t : Tracker) : List Item → List Entry
  | [] => []
  | item :: items =>
    item.entries source markers t ++
      match t.passAll item.tokens with
      | .ok behind => entriesFrom source markers behind items
      | .error _ => []

/-- Runs without directives all say what they say with the tracker before them. -/
theorem entriesFrom_of_noDirectives {source : List Char} {markers : Bool} {t : Tracker} {items : List Item}
    (h : ∀ item ∈ items, ∀ token ∈ item.tokens, token.directive? = none) :
    entriesFrom source markers t items = items.flatMap (·.entries source markers t) := by
  induction items with
  | nil => rfl
  | cons item items ih =>
    obtain ⟨hitem, hitems⟩ := List.forall_mem_cons.1 h
    rw [entriesFrom, Tracker.passAll_of_noDirectives hitem, List.flatMap_cons]
    simp only [ih hitems]

/-! ### Tokens that pass -/

namespace Tracker

theorem pass_eof {token : Token} (h : token.kind = .eof) (t : Tracker) : t.pass token = .ok t :=
  pass_of_directive?_eq_none (by rw [Token.directive?, h])

/-- The end of the text is no directive. -/
theorem fault?_append_eof {last : Token} (h : last.kind = .eof) (t : Tracker) (body : List Token) :
    t.fault? (body ++ [last]) = t.fault? body := by
  rw [fault?, fault?, passAll_append]
  cases t.passAll body with
  | ok behind => simp [Except.bind, passAll_singleton, pass_eof h]
  | error fault => rfl

/-- `#define` and `#undef` stand under the guards before them and behind them. -/
theorem step_macro {t behind : Tracker} {directive : Directive} {line : Nat} {span : Span}
    (hkind : directive.kind = .define ∨ directive.kind = .undef) (h : t.step directive line span = .ok behind) :
    behind = t :=
  (steps_of_step_eq_ok h).eq_of_not_isConditional (DirectiveKind.isConditional_of_defines hkind)

end Tracker

theorem entries_directive {t behind : Tracker} {token : Token} (h : t.pass token = .ok behind) (source : List Char)
    (markers : Bool) :
    (Item.directive token).entries source markers behind = (Item.directive token).entries source markers t := by
  simp only [Item.entries]
  cases hdirective : token.directive? with
  | none => rfl
  | some directive =>
    by_cases hkind : directive.kind = .define ∨ directive.kind = .undef
    · rw [Tracker.step_macro hkind ((Tracker.pass_eq_ok_iff hdirective).1 h)]
    · simp [macroEntries, hkind]

/-! ### Runs -/

namespace Surveying

/-- A run whose directives fit is recorded. -/
theorem step_of_ok {source : List Char} {markers : Bool} {s : Surveying} {item : Item} {behind : Tracker}
    (h : s.tracker.passAll item.tokens = .ok behind) :
    s.step source markers item = .ok ⟨behind, s.survey.recordAll (item.entries source markers s.tracker)⟩ := by
  cases item with
  | directive token =>
    have hpass : s.tracker.pass token = .ok behind := by rwa [Item.tokens, Tracker.passAll_singleton] at h
    have hentries := entries_directive hpass source markers
    simp only [Item.entries] at hentries
    rw [Item.tokens] at h
    simp [step, follow, h, recordAll, bind, Except.bind, Item.entries, hentries]
  | skipped tokens =>
    rw [Item.tokens] at h
    simp [step, follow, h, Item.entries, Survey.recordAll]
  | construct tokens c =>
    rw [Item.tokens] at h
    simp [step, follow, h, recordAll, bind, Except.bind, Item.entries]
  | malformed before fault rest =>
    rw [Item.tokens, Tracker.passAll_append] at h
    cases hbefore : s.tracker.passAll before with
    | ok between =>
      rw [hbefore] at h
      have hrest : between.passAll rest = .ok behind := h
      simp [step, follow, hbefore, recordAll, bind, Except.bind, Item.entries, hrest]
    | error other =>
      rw [hbefore] at h
      cases h

/-- A directive of a run that does not fit ends the survey; before it an issue of the run may have been found. -/
theorem step_of_error {source : List Char} {markers : Bool} {s : Surveying} {item : Item} {fault : Diagnostic}
    (h : s.tracker.passAll item.tokens = .error fault) :
    ∃ issues, s.step source markers item = .error (s.survey.errors ++ issues ++ [fault]) ∧
      ∀ issue ∈ issues, .issue issue ∈ item.entries source markers s.tracker := by
  cases item with
  | directive token =>
    rw [Item.tokens] at h
    exact ⟨[], by simp [step, follow, h, bind, Except.bind], by simp⟩
  | skipped tokens =>
    rw [Item.tokens] at h
    exact ⟨[], by simp [step, follow, h], by simp⟩
  | construct tokens c =>
    rw [Item.tokens] at h
    exact ⟨[], by simp [step, follow, h, bind, Except.bind], by simp⟩
  | malformed before issue rest =>
    rw [Item.tokens, Tracker.passAll_append] at h
    cases hbefore : s.tracker.passAll before with
    | ok between =>
      rw [hbefore] at h
      have hrest : between.passAll rest = .error fault := h
      refine ⟨[issue], ?_, by simp [Item.entries]⟩
      simp [step, follow, hbefore, recordAll, bind, Except.bind, hrest, Survey.recordAll, Survey.record]
    | error other =>
      rw [hbefore] at h
      cases h
      exact ⟨[], by simp [step, follow, hbefore, bind, Except.bind], by simp⟩

/-- Runs whose directives fit are recorded one behind the other. -/
theorem foldlM_step_of_ok {source : List Char} {markers : Bool} {s : Surveying} {items : List Item} {behind : Tracker}
    (h : s.tracker.passAll (items.flatMap Item.tokens) = .ok behind) :
    items.foldlM (step source markers) s =
      .ok ⟨behind, s.survey.recordAll (entriesFrom source markers s.tracker items)⟩ := by
  induction items generalizing s with
  | nil =>
    cases h
    rfl
  | cons item items ih =>
    rw [List.flatMap_cons, Tracker.passAll_append] at h
    cases hitem : s.tracker.passAll item.tokens with
    | ok between =>
      rw [hitem] at h
      rw [List.foldlM_cons, step_of_ok hitem]
      have hrest := @ih ⟨between, s.survey.recordAll (item.entries source markers s.tracker)⟩ h
      simp only [bind, Except.bind, hrest, entriesFrom, hitem, Survey.recordAll_append]
    | error fault =>
      rw [hitem] at h
      cases h

/-- A directive that does not fit ends the survey, behind issues that the runs before it gave. -/
theorem foldlM_step_of_error {source : List Char} {markers : Bool} {s : Surveying} {items : List Item}
    {fault : Diagnostic} (h : s.tracker.passAll (items.flatMap Item.tokens) = .error fault) :
    ∃ issues, items.foldlM (step source markers) s = .error (s.survey.errors ++ issues ++ [fault]) ∧
      ∀ issue ∈ issues, .issue issue ∈ entriesFrom source markers s.tracker items := by
  induction items generalizing s with
  | nil => cases h
  | cons item items ih =>
    rw [List.flatMap_cons, Tracker.passAll_append] at h
    rw [List.foldlM_cons]
    cases hitem : s.tracker.passAll item.tokens with
    | ok between =>
      rw [hitem] at h
      obtain ⟨issues, hrun, hissues⟩ := @ih ⟨between, s.survey.recordAll (item.entries source markers s.tracker)⟩ h
      refine ⟨(item.entries source markers s.tracker).filterMap Entry.issue? ++ issues, ?_, ?_⟩
      · rw [step_of_ok hitem]
        simp only [bind, Except.bind, hrun, Survey.errors_recordAll, List.append_assoc]
      · intro issue hissue
        rw [entriesFrom, hitem]
        rcases List.mem_append.1 hissue with hissue | hissue
        · exact List.mem_append_left _ (Entry.mem_of_mem_issues hissue)
        · exact List.mem_append_right _ (hissues issue hissue)
    | error other =>
      rw [hitem] at h
      cases h
      obtain ⟨issues, hstep, hissues⟩ := @step_of_error source markers _ _ _ hitem
      refine ⟨issues, by simp [hstep, bind, Except.bind], ?_⟩
      intro issue hissue
      simp [entriesFrom, hissues issue hissue]

end Surveying

/-! ### Surveys -/

/-- An entry is said by one of the runs, behind the directives of the runs before it. -/
theorem mem_entriesFrom {source : List Char} {markers : Bool} {t : Tracker} {items : List Item} {entry : Entry}
    (h : entry ∈ entriesFrom source markers t items) :
    ∃ earlier item later here, items = earlier ++ item :: later ∧
      t.passAll (earlier.flatMap Item.tokens) = .ok here ∧ entry ∈ item.entries source markers here := by
  induction items generalizing t with
  | nil => cases h
  | cons item items ih =>
    rw [entriesFrom] at h
    rcases List.mem_append.1 h with h | h
    · exact ⟨[], item, items, t, rfl, rfl, h⟩
    · cases hitem : t.passAll item.tokens with
      | ok between =>
        rw [hitem] at h
        obtain ⟨earlier, other, later, here, rfl, hearlier, hentry⟩ := ih h
        refine ⟨item :: earlier, other, later, here, rfl, ?_, hentry⟩
        rw [List.flatMap_cons, Tracker.passAll_append, hitem]
        exact hearlier
      | error fault =>
        rw [hitem] at h
        cases h

/-- A directive declares the macro that it defines, in the words of it. -/
theorem macro_of_mem_entries {source : List Char} {markers : Bool} {t : Tracker} {token : Token} {names : List String}
    {draft : Draft} (h : .declare names draft ∈ (Item.directive token).entries source markers t) :
    ∃ directive, token.directive? = some directive ∧ (directive.kind = .define ∨ directive.kind = .undef) ∧
      (∃ name, directive.macroName? = some name ∧ names = [name]) ∧
      ∃ visibility, draft = { kind := .macroDef, text := .verbatim token.text, visibility, guard := t.guardPath,
                              span := token.span, line := token.line } := by
  rw [Item.entries] at h
  cases hdirective : token.directive? with
  | none => simp [hdirective] at h
  | some directive =>
    rw [hdirective, Option.map_some, Option.getD_some, macroEntries] at h
    by_cases hdefines : directive.kind = .define ∨ directive.kind = .undef
    · rw [if_pos hdefines] at h
      split at h
      · obtain ⟨rfl, rfl⟩ := Entry.declare.inj (List.mem_singleton.1 h)
        exact ⟨directive, rfl, hdefines, ⟨_, ‹_›, rfl⟩, _, rfl⟩
      · cases List.mem_singleton.1 h
    · rw [if_neg hdefines] at h
      cases h

theorem standsUnder_macroEntries {t : Tracker} {token : Token} {directive : Directive} {entry : Entry}
    (h : entry ∈ macroEntries t token directive) : entry.StandsUnder t.guardPath := by
  unfold macroEntries at h
  by_cases hkind : directive.kind = .define ∨ directive.kind = .undef
  · rw [if_pos hkind] at h
    split at h
    · rw [List.mem_singleton.1 h]
      rfl
    · rw [List.mem_singleton.1 h]
      exact Entry.standsUnder_ofIssue ..
  · rw [if_neg hkind] at h
    cases h

/-- The entries of the runs of an outline stand under the guards of their places. -/
theorem standsUnder_of_mem_outline {markers : Bool} {linkage : Nat} {ts : List Token} {item : Item}
    (hitem : item ∈ outline markers linkage ts) {source : List Char} {t : Tracker} {entry : Entry}
    (h : entry ∈ item.entries source markers t) : entry.StandsUnder t.guardPath := by
  cases item with
  | directive token =>
    rw [Item.entries] at h
    cases hdirective : token.directive? with
    | none => simp [hdirective] at h
    | some directive =>
      rw [hdirective] at h
      exact standsUnder_macroEntries h
  | skipped tokens => cases h
  | construct tokens c =>
    obtain ⟨_, _, _, hmade⟩ := Construct.madeBy_entries h
    exact hmade.standsUnder
  | malformed before fault behind =>
    rw [List.mem_singleton.1 h]
    exact issue_of_mem_outline hitem

/-- A run that makes a declaration begins with a token of its own. -/
theorem begins_of_mem_outline {markers : Bool} {linkage : Nat} {ts : List Token} {item : Item}
    (hitem : item ∈ outline markers linkage ts) {source : List Char} {t : Tracker} {names : List String} {draft : Draft}
    (h : .declare names draft ∈ item.entries source markers t) :
    ∃ first, item.Begins first ∧ item.tokens.head? = some first := by
  cases item with
  | directive token => exact ⟨token, rfl, rfl⟩
  | skipped tokens => cases h
  | construct tokens c =>
    obtain ⟨first, -, htokens, hhead⟩ := first_of_mem_outline hitem
    exact ⟨first, ⟨htokens, hhead⟩, htokens⟩
  | malformed before fault behind => simp [Item.entries] at h

/-- The survey of tokens whose directives fit records what the runs of their outline say. -/
theorem survey_of_fault?_eq_none {markers : Bool} {source : String} {tokens : List Token}
    (h : Tracker.fault? { recognizeBlocks := markers } (Outline.untilEnd tokens) = none) :
    survey markers source tokens = .ok (Survey.recordAll {}
      (entriesFrom source.toList markers { recognizeBlocks := markers } (outline markers 0 tokens))) := by
  rw [← flatMap_tokens_outline markers 0 tokens, Tracker.fault?] at h
  split at h
  · have hrun := @Surveying.foldlM_step_of_ok source.toList markers ⟨{ recognizeBlocks := markers }, {}⟩ _ _ ‹_›
    simp only [survey, hrun, bind, Except.bind, Surveying.finish, h]
  · cases h

theorem directive?_of_mem_outline {markers : Bool} {linkage : Nat} {tokens : List Token}
    (h : ∀ t ∈ tokens, t.directive? = none) : ∀ item ∈ outline markers linkage tokens, ∀ t ∈ item.tokens, t.directive? = none := by
  intro item hitem t ht
  refine h t ((Outline.untilEnd_prefix tokens).subset ?_)
  rw [← flatMap_tokens_outline markers linkage]
  exact List.mem_flatMap.2 ⟨item, hitem, ht⟩

/-- Without directives, the runs leave a tracker as it was. -/
theorem Tracker.passAll_outline {markers : Bool} {linkage : Nat} {tokens : List Token} (h : ∀ t ∈ tokens, t.directive? = none)
    (t : Tracker) : t.passAll ((outline markers linkage tokens).flatMap Item.tokens) = .ok t := by
  refine passAll_of_noDirectives fun token htoken => ?_
  obtain ⟨item, hitem, hmem⟩ := List.mem_flatMap.1 htoken
  exact directive?_of_mem_outline h item hitem token hmem

/-- Without directives, all runs are at the same place. -/
theorem survey_of_noDirectives {markers : Bool} {source : String} {tokens : List Token}
    (h : ∀ t ∈ tokens, t.directive? = none) :
    survey markers source tokens = .ok (Survey.recordAll {}
      ((outline markers 0 tokens).flatMap (·.entries source.toList markers { recognizeBlocks := markers }))) := by
  have hfault : Tracker.fault? { recognizeBlocks := markers } (Outline.untilEnd tokens) = none := by
    rw [← flatMap_tokens_outline markers 0, Tracker.fault?, Tracker.passAll_outline h]
    rfl
  rw [survey_of_fault?_eq_none hfault, entriesFrom_of_noDirectives (directive?_of_mem_outline h)]

/-- The survey of tokens whose directives do not fit fails with their fault, behind issues of the runs. -/
theorem survey_of_fault?_eq_some {markers : Bool} {source : String} {tokens : List Token} {fault : Diagnostic}
    (h : Tracker.fault? { recognizeBlocks := markers } (Outline.untilEnd tokens) = some fault) :
    ∃ issues, survey markers source tokens = .error (issues ++ [fault]) ∧
      ∀ issue ∈ issues, .issue issue ∈
        entriesFrom source.toList markers { recognizeBlocks := markers } (outline markers 0 tokens) := by
  rw [← flatMap_tokens_outline markers 0 tokens, Tracker.fault?] at h
  split at h
  · have hrun := @Surveying.foldlM_step_of_ok source.toList markers ⟨{ recognizeBlocks := markers }, {}⟩ _ _ ‹_›
    refine ⟨_, by simp only [survey, hrun, bind, Except.bind, Surveying.finish, h]; rfl, ?_⟩
    intro issue hissue
    rw [Survey.errors_recordAll] at hissue
    exact Entry.mem_of_mem_issues (by simpa using hissue)
  · cases h
    obtain ⟨issues, hrun, hissues⟩ :=
      @Surveying.foldlM_step_of_error source.toList markers ⟨{ recognizeBlocks := markers }, {}⟩ _ _ ‹_›
    refine ⟨issues, ?_, hissues⟩
    simp [survey, hrun, bind, Except.bind]

/-- A text that has a survey has no fault of the conditionals, and its survey records what the runs say. -/
theorem recorded_of_surveySource {markers : Bool} {source : String} {tokens : List Token}
    (htokens : tokenize source = .ok tokens) {s : Survey} (h : surveySource markers source = .ok s) :
    Tracker.fault? { recognizeBlocks := markers } (Outline.untilEnd tokens) = none ∧
      s = Survey.recordAll {}
        (entriesFrom source.toList markers { recognizeBlocks := markers } (outline markers 0 tokens)) := by
  simp only [surveySource, htokens, bind, Except.bind] at h
  cases hfault : Tracker.fault? { recognizeBlocks := markers } (Outline.untilEnd tokens) with
  | none =>
    rw [survey_of_fault?_eq_none hfault] at h
    exact ⟨rfl, (Except.ok.inj h).symm⟩
  | some fault =>
    obtain ⟨issues, herror, -⟩ := @survey_of_fault?_eq_some markers source tokens fault hfault
    rw [herror] at h
    cases h

/-- A declaration is made by one of the runs, and stands under the guards that the tokens of the runs
before it lead to. -/
theorem exists_run_of_mem_recordAll {markers : Bool} {source : List Char} {t : Tracker} {tokens : List Token}
    {d : Declaration}
    (h : d ∈ (Survey.recordAll {} (entriesFrom source markers t (outline markers 0 tokens))).declarations.items) :
    ∃ earlier item later here first names,
      outline markers 0 tokens = earlier ++ item :: later ∧
      item.Begins first ∧ .declare names d.toDraft ∈ item.entries source markers here ∧
      (∃ behind, Outline.untilEnd tokens = earlier.flatMap Item.tokens ++ first :: behind) ∧
      t.passAll (earlier.flatMap Item.tokens) = .ok here ∧ d.guard = here.guardPath := by
  have hdraft : d.toDraft ∈ (entriesFrom source markers t (outline markers 0 tokens)).filterMap Entry.draft? := by
    have hmem := @List.mem_map_of_mem _ _ _ _ Declaration.toDraft h
    have hdrafts := Survey.drafts_recordAll {} (entriesFrom source markers t (outline markers 0 tokens))
    rw [DeclarationList.drafts] at hdrafts
    rw [hdrafts] at hmem
    simpa [DeclarationList.drafts] using hmem
  obtain ⟨names, hentry⟩ := Entry.mem_of_mem_drafts hdraft
  obtain ⟨earlier, item, later, here, hsplit, hearlier, hentry⟩ := mem_entriesFrom hentry
  have hitem : item ∈ outline markers 0 tokens := by simp [hsplit]
  obtain ⟨first, hbegins, hfirst⟩ := begins_of_mem_outline hitem hentry
  obtain ⟨behind, hbehind⟩ : ∃ behind, item.tokens = first :: behind := List.head?_eq_some_iff.1 hfirst
  refine ⟨earlier, item, later, here, first, names, hsplit, hbegins, hentry, ?_, hearlier, ?_⟩
  · refine ⟨behind ++ later.flatMap Item.tokens, ?_⟩
    rw [← flatMap_tokens_outline markers 0 tokens, hsplit, List.flatMap_append, List.flatMap_cons, hbehind,
      List.cons_append]
  · exact standsUnder_of_mem_outline hitem hentry

/-- Every directive reaches the tracker once and in order. A survey fails if and only if the directives of
the text do not fit, one after another or at its end. Their first fault is then the last error, and the
errors before it are issues of constructs. A survey that succeeds puts each declaration under the guards
that the directives before its run lead to; its run is the directive of a macro, or begins with the first
token of its construct. -/
theorem survey_follows_directives (markers : Bool) (source : String) (body : List Token) (last : Token)
    (hlast : last.kind = .eof) (hbody : ∀ t ∈ body, t.kind ≠ .eof) :
    let start : Tracker := { recognizeBlocks := markers }
    let tokens := body ++ [last]
    ((∃ errors, survey markers source tokens = .error errors) ↔ (start.fault? tokens).isSome) ∧
    (∀ errors, survey markers source tokens = .error errors → ∃ issues fault,
      errors = issues ++ [fault] ∧ start.fault? tokens = some fault ∧
        ∀ issue ∈ issues, ∃ cause, issue.cause = .construct cause) ∧
    (∀ s, survey markers source tokens = .ok s → ∀ d ∈ s.declarations.items,
      ∃ earlier item later here first names,
        outline markers 0 tokens = earlier ++ item :: later ∧
        item.Begins first ∧ .declare names d.toDraft ∈ item.entries source.toList markers here ∧
        (∃ behind, body = earlier.flatMap Item.tokens ++ first :: behind) ∧
        start.passAll (earlier.flatMap Item.tokens) = .ok here ∧ d.guard = here.guardPath) := by
  intro start tokens
  have huntil : Outline.untilEnd tokens = body := Outline.untilEnd_concat_eof hlast hbody
  have hfault : start.fault? (Outline.untilEnd tokens) = start.fault? tokens := by
    rw [huntil, Tracker.fault?_append_eof hlast]
  cases hfits : start.fault? tokens with
  | none =>
    have hsurvey := @survey_of_fault?_eq_none markers source tokens (hfault.trans hfits)
    refine ⟨by simp [hsurvey], by simp [hsurvey], ?_⟩
    rintro s hs d hd
    rw [hsurvey] at hs
    cases hs
    rw [← huntil]
    exact exists_run_of_mem_recordAll hd
  | some fault =>
    obtain ⟨issues, hsurvey, hissues⟩ := @survey_of_fault?_eq_some markers source tokens fault (hfault.trans hfits)
    refine ⟨by simp [hsurvey], ?_, by simp [hsurvey]⟩
    rintro errors herrors
    rw [hsurvey] at herrors
    cases herrors
    refine ⟨issues, fault, rfl, rfl, ?_⟩
    intro issue hissue
    obtain ⟨earlier, item, later, here, hsplit, -, hentry⟩ := mem_entriesFrom (hissues issue hissue)
    exact @standsUnder_of_mem_outline markers 0 tokens item (by simp [hsplit]) _ _ _ hentry

/-- Directives inside a structure, in the body of a function and among the tokens that are passed over behind a fault are
followed as those between declarations are. A second `#else` in a body is the last error of its text, behind the issue of
a construct. -/
theorem survey_follows_directives_inside :
    let fits := "#ifdef A\nstruct s \x7b\n#ifdef B\nint x;\n#endif\n\x7d;\nint f(void) \x7b\n#if C\n#endif\n\x7d\nint a]\n#ifdef D\n;\nint d;\n#endif\n#endif"
    let misfits := "int a];\nint f(void) \x7b\n#if C\n#else\n#else\n\x7d"
    let body (source : String) := ((tokenize source).toOption.getD []).dropLast
    let last (source : String) := ((tokenize source).toOption.getD []).getLast?.getD default
    (∃ s, tokenize fits = .ok (body fits ++ [last fits]) ∧ survey true fits (body fits ++ [last fits]) = .ok s ∧
      ∃ d ∈ s.declarations.items, d.text.text = "extern int d;" ∧
        d.guard = [{ opening := .defined, condition := "A" }, { opening := .defined, condition := "D" }] ∧
        ∃ earlier item later here first names, outline true 0 (body fits ++ [last fits]) = earlier ++ item :: later ∧
          item.Begins first ∧ .declare names d.toDraft ∈ item.entries fits.toList true here ∧
          (∃ behind, body fits = earlier.flatMap Item.tokens ++ first :: behind) ∧
          Tracker.passAll { recognizeBlocks := true } (earlier.flatMap Item.tokens) = .ok here ∧ d.guard = here.guardPath) ∧
    ∃ issues fault, tokenize misfits = .ok (body misfits ++ [last misfits]) ∧
      survey true misfits (body misfits ++ [last misfits]) = .error (issues ++ [fault]) ∧ issues.length = 1 ∧
      fault.cause = .conditional (.afterElse .otherwise 3) ∧ fault.line = 5 ∧
      ∀ issue ∈ issues, ∃ cause, issue.cause = .construct cause := by
  intro fits misfits body last
  constructor
  · let s := (survey true fits (body fits ++ [last fits])).toOption.getD {}
    obtain ⟨⟨htokens, hlast, hbody⟩, hs, d, hd, htext, hguard⟩ :
        (tokenize fits = .ok (body fits ++ [last fits]) ∧ (last fits).kind = .eof ∧ ∀ t ∈ body fits, t.kind ≠ .eof) ∧
          survey true fits (body fits ++ [last fits]) = .ok s ∧ ∃ d ∈ s.declarations.items, d.text.text = "extern int d;" ∧
            d.guard = [{ opening := .defined, condition := "A" }, { opening := .defined, condition := "D" }] := by
      decide +kernel
    have hfollows := survey_follows_directives true fits (body fits) (last fits) hlast hbody
    exact ⟨s, htokens, hs, d, hd, htext, hguard, hfollows.2.2 s hs d hd⟩
  · let fault? := Tracker.fault? { recognizeBlocks := true } (body misfits ++ [last misfits])
    obtain ⟨⟨htokens, hlast, hbody⟩, ⟨fault, hfound, hcause, hline⟩, hcount⟩ :
        (tokenize misfits = .ok (body misfits ++ [last misfits]) ∧ (last misfits).kind = .eof ∧
            ∀ t ∈ body misfits, t.kind ≠ .eof) ∧
          (∃ fault ∈ fault?, fault.cause = .conditional (.afterElse .otherwise 3) ∧ fault.line = 5) ∧
          (match survey true misfits (body misfits ++ [last misfits]) with
            | .error errors => errors.length
            | .ok _ => 0) = 2 := by
      decide +kernel
    have hfollows := survey_follows_directives true misfits (body misfits) (last misfits) hlast hbody
    obtain ⟨errors, herrors⟩ := hfollows.1.2 (Option.isSome_iff_exists.2 ⟨fault, hfound⟩)
    obtain ⟨issues, fault', rfl, hfault, hissues⟩ := hfollows.2.1 errors herrors
    obtain rfl := Option.some.inj (hfound.symm.trans hfault)
    have hlength : issues.length = 1 := by simpa [herrors] using hcount
    exact ⟨issues, fault, htokens, herrors, hlength, hcause, hline, hissues⟩

end CHeader
