import CHeader.Proofs.Following

/-!
# Runs of one generator

A generator keeps the declarations of its last run, and a run begins by forgetting them. `Generator.runInPlace` is a run
as a change of that state, step by step, and it comes to what `Generator.run` computes. So an answer depends on the
options and the source alone, whatever was asked before (`answers_eq`).

The options meet the answer in one place. What is reported and what is kept is decided by the survey; whether there is a
header is decided by the errors, of which every text without a survey has one that is lexical or fatal
(`surveySource_errors`), and every other text only issues of single constructs.
-/

namespace CHeader

/-! ### The errors of a text -/

namespace Diagnostic

/-- Whether a piece of the text is no token. -/
def isLexical (d : Diagnostic) : Bool :=
  match d.cause with
  | .lexical _ => true
  | _ => false

/-- Whether a single construct is at fault. -/
def isIssue (d : Diagnostic) : Bool :=
  !d.isLexical && !d.isFatal

theorem isIssue_of_cause {d : Diagnostic} {issue : Issue} (h : d.cause = .construct issue) : d.isIssue = true := by
  simp [isIssue, isLexical, isFatal, h]

theorem isIssue_iff {d : Diagnostic} : d.isIssue = true ↔ ¬ d.isLexical ∧ ¬ d.isFatal := by
  simp [isIssue]

end Diagnostic

namespace Scanner

theorem isLexical_of_next {s : Scanner} {fault : Diagnostic} (h : s.next.1 = .error fault) : fault.isLexical = true := by
  simp only [next] at h
  split at h
  · cases h
  · simp only [readLexeme] at h
    split at h
    · cases h
    · cases h
      rfl

/-- What cannot be read as a token is a lexical fault. -/
theorem isLexical_of_mem_items {s : Scanner} {fault : Diagnostic} (h : .error fault ∈ s.items) :
    fault.isLexical = true := by
  induction s using items.induct with
  | case1 s hend =>
    rw [items, hend] at h
    exact isLexical_of_next (List.mem_singleton.1 h).symm
  | case2 s hend ih =>
    rw [items, hend] at h
    rcases List.mem_cons.1 h with h | h
    · exact isLexical_of_next h.symm
    · exact ih h

end Scanner

/-- A text without tokens has lexical faults, and reports nothing else. -/
theorem isLexical_of_tokenize {source : String} {errors : List Diagnostic} (h : tokenize source = .error errors) :
    errors ≠ [] ∧ ∀ e ∈ errors, e.isLexical = true := by
  simp only [tokenize] at h
  split at h
  · cases h
  · rename_i hfaults
    cases h
    refine ⟨hfaults, ?_⟩
    intro e he
    obtain ⟨item, hitem, hfault⟩ := List.mem_filterMap.1 he
    cases item with
    | ok token => cases hfault
    | error fault =>
      obtain rfl := Option.some.inj hfault
      exact Scanner.isLexical_of_mem_items hitem

namespace Tracker

/-- A directive out of place is a fault of the conditionals. -/
theorem isFatal_of_passAll {t : Tracker} {tokens : List Token} {fault : Diagnostic}
    (h : t.passAll tokens = .error fault) : fault.isFatal = true := by
  induction tokens generalizing t with
  | nil => cases h
  | cons token tokens ih =>
    rw [passAll_cons] at h
    cases hpass : t.pass token with
    | ok behind =>
      rw [hpass] at h
      exact ih h
    | error other =>
      rw [hpass] at h
      cases h
      simp only [pass, process] at hpass
      split at hpass
      · split at hpass
        · cases hpass
        · rename_i hprocess
          split at hprocess
          · cases hprocess
          · cases hprocess
            cases hpass
            rfl
      · cases hpass

/-- The first fault of the conditionals is a fault of the conditionals. -/
theorem isFatal_of_fault? {t : Tracker} {tokens : List Token} {fault : Diagnostic} (h : t.fault? tokens = some fault) :
    fault.isFatal = true := by
  unfold fault? at h
  split at h
  · obtain ⟨top, -, rfl⟩ := Option.map_eq_some_iff.1 h
    rfl
  · cases h
    exact isFatal_of_passAll ‹_›

end Tracker

/-- What a survey records as an error is an issue with a construct. -/
theorem isIssue_of_mem_entriesFrom {markers : Bool} {linkage : Nat} {ts : List Token} {source : List Char} {t : Tracker}
    {fault : Diagnostic} (h : .issue fault ∈ entriesFrom source markers t (outline markers linkage ts)) :
    fault.isIssue = true := by
  obtain ⟨earlier, item, later, here, hsplit, -, hentry⟩ := mem_entriesFrom h
  have hitem : item ∈ outline markers linkage ts := by simp [hsplit]
  obtain ⟨issue, hissue⟩ := standsUnder_of_mem_outline hitem hentry
  exact Diagnostic.isIssue_of_cause hissue

/-- A text has no survey where a piece of it is no token, or a conditional out of place; a survey reports issues of
constructs only. -/
theorem surveySource_errors (markers : Bool) (source : String) :
    match surveySource markers source with
    | .error errors => ∃ e ∈ errors, e.isIssue = false
    | .ok s => ∀ e ∈ s.errors, e.isIssue = true := by
  cases htokens : tokenize source with
  | error errors =>
    obtain ⟨hne, hlexical⟩ := isLexical_of_tokenize htokens
    obtain ⟨e, he⟩ := List.exists_mem_of_ne_nil errors hne
    simp only [surveySource, htokens, bind, Except.bind]
    exact ⟨e, he, by simp [Diagnostic.isIssue, hlexical e he]⟩
  | ok tokens =>
    simp only [surveySource, htokens, bind, Except.bind]
    cases hfault : Tracker.fault? { recognizeBlocks := markers } (Outline.untilEnd tokens) with
    | none =>
      rw [survey_of_fault?_eq_none hfault]
      intro e he
      rw [Survey.errors_recordAll, List.nil_append] at he
      exact isIssue_of_mem_entriesFrom (Entry.mem_of_mem_issues he)
    | some fault =>
      obtain ⟨issues, hsurvey, -⟩ := @survey_of_fault?_eq_some markers source tokens fault hfault
      rw [hsurvey]
      exact ⟨fault, by simp, by simp [Diagnostic.isIssue, Tracker.isFatal_of_fault? hfault]⟩

/-! ### Runs -/

namespace Generator

/-- A run as a change of the generator: it forgets the last run, and keeps the declarations of a text that has a survey.
The header is written from what it keeps. -/
def runInPlace (source : String) : StateM Generator Generation := do
  modify reset
  match tokenize source with
  | .error errors => return ⟨none, errors⟩
  | .ok tokens =>
    match survey (← get).options.markers source tokens with
    | .error errors => return ⟨none, errors⟩
    | .ok outcome =>
      modify fun g => { g with declarations := outcome.declarations }
      let g ← get
      let header := if outcome.errors.isEmpty || g.options.bestEffort then some (Emission.render g.declarations) else none
      return ⟨header, outcome.errors⟩

/-- Step by step, a run comes to what the options and the source give. -/
theorem runInPlace_eq_run (source : String) (g : Generator) : (runInPlace source).run g = g.run source := by
  cases htokens : tokenize source with
  | error errors =>
    simp only [runInPlace, htokens, run, generate, surveySource]
    rfl
  | ok tokens =>
    have hsource : surveySource g.options.markers source = survey g.options.markers source tokens := by
      rw [surveySource, htokens]
      rfl
    cases hsurvey : survey g.options.markers source tokens with
    | error errors =>
      simp only [runInPlace, htokens, StateT.run_bind, StateT.run_modify, reset, pure_bind, StateT.run_get, hsurvey,
        StateT.run_pure, run, generate, hsource]
      rfl
    | ok s =>
      simp only [runInPlace, htokens, StateT.run_bind, StateT.run_modify, reset, pure_bind, StateT.run_get, hsurvey,
        StateT.run_pure, run, generate, hsource]
      rfl

/-- A call of a generator. -/
inductive Call
  | generate (source : String)
  | reset
  deriving DecidableEq, Repr

namespace Call

/-- What a call returns, with the declarations that are at hand behind it. -/
def answer : Call → StateM Generator (Option Generation × DeclarationList)
  | generate source => do
    let generation ← runInPlace source
    return (some generation, (← get).declarations)
  | reset => do
    modify Generator.reset
    return (none, (← get).declarations)

/-- A call keeps the options, and its answer does not depend on the last run. -/
theorem answer_run (call : Call) (g : Generator) :
    (call.answer.run g).2.options = g.options ∧
      (call.answer.run g).1 = (call.answer.run { options := g.options }).1 := by
  cases call with
  | generate source =>
    have hanswer : ∀ g : Generator, (answer (generate source)).run g =
        ((some (g.run source).1, (g.run source).2.declarations), (g.run source).2) := by
      intro g
      rw [← runInPlace_eq_run]
      rfl
    rw [hanswer, hanswer]
    constructor <;> rfl
  | reset => constructor <;> rfl

end Call

/-- Each call of a generator is answered as by a generator with the same options that no call was made of. -/
theorem answers_eq (calls : List Call) (g : Generator) :
    ((calls.mapM Call.answer).run g).1 = calls.map fun call => (call.answer.run { options := g.options }).1 := by
  induction calls generalizing g with
  | nil => rfl
  | cons call calls ih =>
    obtain ⟨hoptions, hanswer⟩ := call.answer_run g
    rw [List.mapM_cons, List.map_cons, ← hanswer, ← hoptions, ← ih]
    rfl

/-- A run on a text without a survey keeps nothing. -/
theorem declarations_of_fault {g : Generator} {source : String} {e : Diagnostic}
    (he : e ∈ (g.run source).1.errors) (hfault : e.isLexical ∨ e.isFatal) : (g.run source).2.declarations = {} := by
  have herrors := surveySource_errors g.options.markers source
  unfold run generate at he ⊢
  cases hsurvey : surveySource g.options.markers source with
  | error errors => rfl
  | ok s =>
    rw [hsurvey] at he herrors
    have hissue := Diagnostic.isIssue_iff.1 (herrors e he)
    rcases hfault with hlexical | hfatal
    · exact absurd hlexical hissue.1
    · exact absurd hfatal hissue.2

/-- Without the option for a header in spite of issues, a header is a sign that there are no errors. -/
theorem isSome_header_strict (markers : Bool) (declarations : DeclarationList) (source : String) :
    let g : Generator := { options := { markers, bestEffort := false }, declarations }
    (g.run source).1.header.isSome ↔ (g.run source).1.errors = [] := by
  have herrors := surveySource_errors markers source
  simp only [run, generate]
  cases hsurvey : surveySource markers source with
  | error errors =>
    rw [hsurvey] at herrors
    obtain ⟨e, he, -⟩ := herrors
    have hne : errors ≠ [] := List.ne_nil_of_mem he
    simp [hne]
  | ok s => by_cases hnone : s.errors = [] <;> simp [hnone]

/-- With the option, a header is a sign that the text has a survey. -/
theorem isSome_header_bestEffort (markers : Bool) (declarations : DeclarationList) (source : String) :
    let g : Generator := { options := { markers, bestEffort := true }, declarations }
    (g.run source).1.header.isSome ↔ ∀ e ∈ (g.run source).1.errors, ¬ e.isLexical ∧ ¬ e.isFatal := by
  have herrors := surveySource_errors markers source
  simp only [run, generate]
  cases hsurvey : surveySource markers source with
  | error errors =>
    rw [hsurvey] at herrors
    obtain ⟨e, he, hfault⟩ := herrors
    simp only [Option.isSome_none, Bool.false_eq_true, false_iff]
    intro hall
    rw [Diagnostic.isIssue_iff.2 (hall e he)] at hfault
    cases hfault
  | ok s =>
    rw [hsurvey] at herrors
    simp only [Bool.or_true, if_true, Option.isSome_some, true_iff]
    intro e he
    exact Diagnostic.isIssue_iff.1 (herrors e he)

/-- The option adds a header, and changes nothing else. -/
theorem run_bestEffort (markers : Bool) (declarations : DeclarationList) (source : String) :
    let strict : Generator := { options := { markers, bestEffort := false }, declarations }
    let eager : Generator := { options := { markers, bestEffort := true }, declarations }
    (strict.run source).1.errors = (eager.run source).1.errors ∧
      (strict.run source).2.declarations = (eager.run source).2.declarations ∧
      ∀ header, (strict.run source).1.header = some header → (eager.run source).1.header = some header := by
  simp only [run, generate]
  cases hsurvey : surveySource markers source with
  | error errors => exact ⟨rfl, rfl, fun header hheader => hheader⟩
  | ok s =>
    refine ⟨rfl, rfl, ?_⟩
    intro header hheader
    simp only [Bool.or_false, Option.ite_none_right_eq_some] at hheader
    simpa using hheader.2

/-- Runs of one generator do not see each other, and the option for a header in spite of issues sees only the header.
In whatever order a generator is asked and reset, each answer is that of a generator with the same options and no
history: the header, the errors, and the declarations and names that are kept. A run with a lexical or a fatal error
keeps nothing. With the option and without it, the errors are equal and so is what is kept. Without it there is a header
exactly if there are no errors, with it exactly if none is lexical or fatal, and a header without it is also the one
with it. -/
theorem runs_are_isolated :
    (∀ (options : Options) (calls : List Call),
      ((calls.mapM Call.answer).run { options }).1 = calls.map fun call => (call.answer.run { options }).1) ∧
    (∀ (g : Generator) (source : String),
      let (generation, behind) := (runInPlace source).run g
      (∃ e ∈ generation.errors, e.isLexical ∨ e.isFatal) → behind.declarations = {}) ∧
    (∀ (markers : Bool) (source : String),
      let (strict, behind) := (runInPlace source).run { options := { markers, bestEffort := false } }
      let (eager, behind') := (runInPlace source).run { options := { markers, bestEffort := true } }
      strict.errors = eager.errors ∧ behind.declarations = behind'.declarations ∧
      (strict.header.isSome ↔ strict.errors = []) ∧
      (eager.header.isSome ↔ ∀ e ∈ eager.errors, ¬ e.isLexical ∧ ¬ e.isFatal) ∧
      ∀ header, strict.header = some header → eager.header = some header) := by
  refine ⟨?_, ?_, ?_⟩
  · intro options calls
    exact answers_eq calls { options }
  · intro g source
    rw [runInPlace_eq_run]
    rintro ⟨e, he, hfault⟩
    exact declarations_of_fault he hfault
  · intro markers source
    rw [runInPlace_eq_run, runInPlace_eq_run]
    obtain ⟨herrors, hkept, hheader⟩ := run_bestEffort markers {} source
    refine ⟨herrors, hkept, ?_, ?_, hheader⟩
    · apply isSome_header_strict
    · apply isSome_header_bestEffort

/-- A stray character leaves nothing of the run before. -/
theorem runs_are_isolated_stray :
    let g := (Generator.run {} "int a;").2
    g.declarations ≠ {} ∧ (∃ e ∈ ((runInPlace "@").run g).1.errors, e.isLexical ∨ e.isFatal) ∧
      ((runInPlace "@").run g).2.declarations = {} := by
  intro g
  have hfault : ∃ e ∈ ((runInPlace "@").run g).1.errors, e.isLexical ∨ e.isFatal := by decide +kernel
  refine ⟨by decide +kernel, hfault, ?_⟩
  exact runs_are_isolated.2.1 g "@" hfault

end Generator

end CHeader
