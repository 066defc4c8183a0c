import CHeader.Guard
import Mathlib.Data.List.Infix
import Mathlib.Order.Defs.Unbundled

/-!
# Later branches of a conditional

A guard is written as the lines that lead into its branch, whatever texts its conditions are, and no two guards
are written alike. `Guard.isContinuedBy` compares guards field by field; on the lines it is the proper prefix
(`Guard.openingLines_prefix_iff`), and what is left of the longer ones are the lines that lead on
(`Guard.openingLines_of_isContinuedBy`). So the branches of conditionals are ordered as their lines are
(`Guard.isContinuedBy_iff_lines_go_on`).
-/

namespace CHeader.Guard

variable {guard later last : Guard}

theorem isContinuedBy_iff :
    guard.isContinuedBy later = true ↔ guard ≠ later ∧ guard.inElse = false ∧ guard.opening = later.opening ∧
      guard.condition = later.condition ∧ guard.elifs <+: later.elifs := by
  simp only [isContinuedBy, Bool.and_eq_true, decide_eq_true_eq, Bool.not_eq_true', List.isPrefixOf_iff_prefix, and_assoc]

theorem isContinuedBy_asymm (h : guard.isContinuedBy later = true) : ¬later.isContinuedBy guard = true := by
  intro h'
  obtain ⟨hne, helse, hopening, hcondition, hprefix⟩ := isContinuedBy_iff.1 h
  obtain ⟨-, helse', -, -, hprefix'⟩ := isContinuedBy_iff.1 h'
  have helifs : guard.elifs = later.elifs := hprefix.eq_of_length_le hprefix'.length_le
  apply hne
  cases guard
  cases later
  simp_all

/-! ### Lines -/

/-- The line that opens a conditional tells how it is opened and the condition. -/
theorem openingLine_inj :
    guard.openingLine = later.openingLine ↔ guard.opening = later.opening ∧ guard.condition = later.condition := by
  obtain ⟨opening, condition, -, -⟩ := guard
  obtain ⟨opening', condition', -, -⟩ := later
  simp only [openingLine, ← String.toList_inj, String.toList_append]
  cases opening <;> cases opening' <;> simp [Opening.keyword]

theorem elifLine_inj {condition condition' : String} :
    "#elif " ++ condition = "#elif " ++ condition' ↔ condition = condition' := by
  simp [← String.toList_inj]

theorem elifLine_ne_elseLine (condition : String) : "#elif " ++ condition ≠ "#else" := by
  simp [← String.toList_inj]

theorem branchLines_nil_true : branchLines [] true = ["#else"] := rfl

theorem branchLines_cons (condition : String) (elifs : List String) (inElse : Bool) :
    branchLines (condition :: elifs) inElse = ("#elif " ++ condition) :: branchLines elifs inElse := rfl

/-- The lines of a branch go on to those of another only by `#elif` lines behind its own, or an `#else` line. -/
theorem branchLines_prefix_iff {elifs elifs' : List String} {inElse inElse' : Bool} :
    branchLines elifs inElse <+: branchLines elifs' inElse' ↔
      (inElse = false ∧ elifs <+: elifs') ∨ (elifs = elifs' ∧ inElse = inElse') := by
  induction elifs generalizing elifs' with
  | nil =>
    cases inElse with
    | false => simp [branchLines]
    | true =>
      rw [branchLines_nil_true]
      cases elifs' with
      | nil => cases inElse' <;> simp [branchLines]
      | cons condition' elifs' =>
        rw [branchLines_cons, List.cons_prefix_cons]
        simp [(elifLine_ne_elseLine condition').symm]
  | cons condition elifs ih =>
    cases elifs' with
    | nil =>
      rw [branchLines_cons]
      cases inElse' <;> simp [branchLines, elifLine_ne_elseLine]
    | cons condition' elifs' =>
      rw [branchLines_cons, branchLines_cons, List.cons_prefix_cons, elifLine_inj, ih, List.cons_prefix_cons,
        List.cons.injEq]
      tauto

/-- The lines of a guard are the first ones of those of another if that one is the same, or a later branch. -/
theorem openingLines_prefix_iff :
    guard.openingLines <+: later.openingLines ↔ guard = later ∨ guard.isContinuedBy later = true := by
  rw [openingLines, openingLines, List.cons_prefix_cons, openingLine_inj, branchLines_prefix_iff, isContinuedBy_iff]
  constructor
  · rintro ⟨⟨hopening, hcondition⟩, ⟨helse, hprefix⟩ | ⟨helifs, helse⟩⟩
    · by_cases hsame : guard = later
      · exact .inl hsame
      · exact .inr ⟨hsame, helse, hopening, hcondition, hprefix⟩
    · left
      cases guard
      cases later
      simp_all
  · rintro (rfl | ⟨-, helse, hopening, hcondition, hprefix⟩)
    · exact ⟨⟨rfl, rfl⟩, .inr ⟨rfl, rfl⟩⟩
    · exact ⟨⟨hopening, hcondition⟩, .inl ⟨helse, hprefix⟩⟩

/-- No two guards are written alike. -/
theorem openingLines_injective : Function.Injective openingLines := by
  intro guard later h
  have hprefix : guard.openingLines <+: later.openingLines := by rw [h]
  have hprefix' : later.openingLines <+: guard.openingLines := by rw [h]
  rcases openingLines_prefix_iff.1 hprefix with hsame | hcontinued
  · exact hsame
  · rcases openingLines_prefix_iff.1 hprefix' with hsame | hcontinued'
    · exact hsame.symm
    · exact absurd hcontinued' (isContinuedBy_asymm hcontinued)

/-- A later branch is written by the lines of an earlier one and those that lead on. -/
theorem openingLines_of_isContinuedBy (h : guard.isContinuedBy later = true) :
    later.openingLines = guard.openingLines ++ guard.continuationLines later := by
  obtain ⟨-, helse, hopening, hcondition, more, hmore⟩ := isContinuedBy_iff.1 h
  have hline : later.openingLine = guard.openingLine := openingLine_inj.2 ⟨hopening.symm, hcondition.symm⟩
  rw [openingLines, openingLines, hline, continuationLines, ← hmore, List.drop_left]
  simp [branchLines, helse]

/-! ### Order -/

/-- A conditional that may go on to a branch, and from there to another, may go on to that one. -/
theorem isContinuedBy_trans (h : guard.isContinuedBy later = true) (h' : later.isContinuedBy last = true) :
    guard.isContinuedBy last = true := by
  have hlines : guard.openingLines <+: last.openingLines :=
    (openingLines_prefix_iff.2 (.inr h)).trans (openingLines_prefix_iff.2 (.inr h'))
  rcases openingLines_prefix_iff.1 hlines with rfl | hcontinued
  · exact absurd h' (isContinuedBy_asymm h)
  · exact hcontinued

/-- A guard is continued by those that are written by its lines and more, which are the lines that lead on. So
guards are strictly ordered, and to go on twice is to write the lines of both ways. -/
theorem isContinuedBy_iff_lines_go_on :
    (∀ guard later : Guard, guard.isContinuedBy later = true ↔
      guard.openingLines <+: later.openingLines ∧ guard.openingLines ≠ later.openingLines) ∧
    (∀ guard later : Guard, guard.isContinuedBy later = true →
      later.openingLines = guard.openingLines ++ guard.continuationLines later) ∧
    IsStrictOrder Guard (fun guard later => guard.isContinuedBy later = true) ∧
    ∀ guard later last : Guard, guard.isContinuedBy later = true → later.isContinuedBy last = true →
      guard.continuationLines last = guard.continuationLines later ++ later.continuationLines last := by
  refine ⟨fun guard later => ?_, fun guard later => openingLines_of_isContinuedBy, ?_, ?_⟩
  · rw [openingLines_prefix_iff, openingLines_injective.ne_iff]
    constructor
    · intro h
      exact ⟨.inr h, (isContinuedBy_iff.1 h).1⟩
    · rintro ⟨hsame | hcontinued, hne⟩
      · exact absurd hsame hne
      · exact hcontinued
  · exact { irrefl := fun guard h => isContinuedBy_asymm h h
            trans := fun guard later last => isContinuedBy_trans }
  · intro guard later last h h'
    have hall := openingLines_of_isContinuedBy (isContinuedBy_trans h h')
    rw [openingLines_of_isContinuedBy h', openingLines_of_isContinuedBy h, List.append_assoc] at hall
    exact (List.append_cancel_left hall).symm

/-- From a first branch over an `#elif`, whose condition looks like a directive itself, to the `#else`. -/
theorem isContinuedBy_iff_lines_go_on_else :
    let guard : Guard := ⟨.defined, "A", [], false⟩
    let later : Guard := ⟨.defined, "A", ["#else"], false⟩
    let last : Guard := ⟨.defined, "A", ["#else"], true⟩
    guard.isContinuedBy later = true ∧ later.isContinuedBy last = true ∧
      later.openingLines = guard.openingLines ++ ["#elif #else"] ∧
      guard.continuationLines last = guard.continuationLines later ++ ["#else"] := by
  intro guard later last
  have h : guard.isContinuedBy later = true := by decide
  have h' : later.isContinuedBy last = true := by decide
  exact ⟨h, h', isContinuedBy_iff_lines_go_on.2.1 guard later h,
    isContinuedBy_iff_lines_go_on.2.2.2 guard later last h h'⟩

end CHeader.Guard
