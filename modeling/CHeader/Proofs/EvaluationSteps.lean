import CHeader.Proofs.Evaluation
import CHeader.Proofs.Steps
import Mathlib.Data.List.Induction

/-!
# Evaluating directives

Evaluation goes through the directives of a text, as a tracker does. Where the tracker finds that a directive fits, the
branches around the place shift with the guards (`shift_of_steps`). The lines by which a header goes from some guards to
others carry the branches along (`run_transition`).
-/

namespace CHeader

/-- Whether the place inside some conditionals is active, if the place outside is. -/
def onBehind (around : Bool) : List Branched → Bool
  | [] => around
  | (_, branches) :: inner => onBehind (isOn branches) inner

theorem onBehind_concat (around : Bool) (base : List Branched) (innermost : Branched) :
    onBehind around (base ++ [innermost]) = isOn innermost.2 := by
  induction base generalizing around with
  | nil => rfl
  | cons first base ih => exact ih _

/-- The branches of conditionals, the innermost first. -/
def inward (here : List Branched) : List (List Bool) :=
  (here.map Prod.snd).reverse

theorem inward_concat (base : List Branched) (innermost : Branched) :
    inward (base ++ [innermost]) = innermost.2 :: inward base := by
  simp [inward]

theorem activeIn_inward (here : List Branched) : Evaluation.activeIn (inward here) = onBehind true here := by
  rcases List.eq_nil_or_concat here with rfl | ⟨base, innermost, rfl⟩
  · rfl
  · rw [List.concat_eq_append, inward_concat, onBehind_concat]
    rfl

section Steps

variable {decision : Decision} {macros : Macros} {around : Bool}

theorem Shift.append {base inner inner' : List Branched} (h : Shift decision macros (onBehind around base) inner inner') :
    Shift decision macros around (base ++ inner) (base ++ inner') := by
  induction base generalizing around with
  | nil => exact h
  | cons first base ih => exact .inside (ih h)

theorem Shift.aligned {here there : List Branched} (h : Shift decision macros around here there) (haligned : Aligned here) :
    Aligned there := by
  induction h with
  | enter => simp [Aligned, length_branchOff, Guard.place]
  | @switch around guard later continued branches =>
    have hplace : branches.length = guard.place := by simpa [Aligned] using haligned
    obtain ⟨-, helse, -, -, more, hmore⟩ := Guard.isContinuedBy_iff.1 continued
    simp only [Aligned, List.mem_singleton, forall_eq, length_branchOffs, hplace, Guard.place, helse, ← hmore]
    simp
    omega
  | leave => simp [Aligned]
  | inside shift ih =>
    obtain ⟨hfirst, hinner⟩ := List.forall_mem_cons.1 haligned
    exact List.forall_mem_cons.2 ⟨hfirst, ih hinner⟩

/-- The conditionals around a place, as a tracker and an evaluation know them. -/
structure Around (t : Tracker) (e : Evaluation) (here : List Branched) : Prop where
  guards : t.stack.map (·.guard) = (here.map Prod.fst).reverse
  branches : e.branches = inward here
  aligned : Aligned here

theorem Around.innermost {t : Tracker} {e : Evaluation} {here : List Branched} (h : Around t e here) {top : OpenConditional}
    {outer : List OpenConditional} (hstack : t.stack = top :: outer) :
    ∃ base branches, here = base ++ [(top.guard, branches)] ∧ outer.map (·.guard) = (base.map Prod.fst).reverse ∧
      e.branches = branches :: inward base := by
  have hguards := h.guards
  have hbranches := h.branches
  rcases List.eq_nil_or_concat here with rfl | ⟨base, innermost, rfl⟩
  · simp [hstack] at hguards
  · rw [List.concat_eq_append] at hguards hbranches ⊢
    rw [hstack, List.map_cons, List.map_append, List.reverse_append] at hguards
    obtain ⟨hguard, houter⟩ := List.cons.inj hguards
    refine ⟨base, innermost.2, ?_, houter, by rw [hbranches, inward_concat]⟩
    rw [hguard]

theorem branchOffs_elif (branches : List Bool) {guard : Guard} (helse : guard.inElse = false) (condition : String) :
    let later : Guard := { guard with elifs := guard.elifs ++ [condition] }
    guard.isContinuedBy later = true ∧
      branchOffs decision macros around branches (later.elifs.drop guard.elifs.length) later.inElse =
        branchOff around (decision condition macros) branches := by
  refine ⟨Guard.isContinuedBy_iff.2 ⟨fun h => ?_, helse, rfl, rfl, List.prefix_append _ _⟩, ?_⟩
  · have helifs := congrArg (·.elifs.length) h
    simp at helifs
  · simp [branchOffs, helse]

theorem branchOffs_otherwise (branches : List Bool) {guard : Guard} (helse : guard.inElse = false) :
    let later : Guard := { guard with inElse := true }
    guard.isContinuedBy later = true ∧
      branchOffs decision macros around branches (later.elifs.drop guard.elifs.length) later.inElse =
        branchOff around true branches := by
  refine ⟨Guard.isContinuedBy_iff.2 ⟨fun h => ?_, helse, rfl, rfl, List.prefix_refl _⟩, ?_⟩
  · have hinElse := congrArg (·.inElse) h
    rw [helse] at hinElse
    cases hinElse
  · simp [branchOffs]

/-- A directive of a conditional that fits shifts the branches around the place with the guards. -/
theorem shift_of_steps {t behind : Tracker} {directive : Directive} {line : Nat} {span : Span}
    (h : t.Steps directive line span behind) (hconditional : directive.kind.isConditional = true) {e : Evaluation}
    {here : List Branched} (haround : Around t e here) :
    ∃ there, Shift decision e.macros true here there ∧ Around behind (e.step decision directive) there ∧
      (e.step decision directive).macros = e.macros := by
  suffices hshift : ∃ there, Shift decision e.macros true here there ∧
      behind.stack.map (·.guard) = (there.map Prod.fst).reverse ∧ e.step decision directive = { e with branches := inward there } by
    obtain ⟨there, hshift, hguards, hstep⟩ := hshift
    exact ⟨there, hshift, ⟨hguards, by rw [hstep], hshift.aligned haround.aligned⟩, by rw [hstep]⟩
  cases h with
  | @opened opening kind condition =>
    refine ⟨here ++ [(⟨opening, directive.args, [], false⟩,
      branchOff (onBehind true here) (opening.holds decision e.macros directive.args) [])], ?_, ?_, ?_⟩
    · have hshift := @Shift.append decision e.macros true here [] _ (.enter (onBehind true here) opening directive.args)
      rwa [List.append_nil] at hshift
    · simp [Tracker.opened, haround.guards]
    · rw [inward_concat, ← activeIn_inward, ← haround.branches]
      simp [Evaluation.step, kind, Evaluation.isActive]
  | elif kind condition stack branch =>
    obtain ⟨base, branches, rfl, houter, hbranches⟩ := haround.innermost stack
    obtain ⟨hcontinued, heq⟩ := @branchOffs_elif decision e.macros (onBehind true base) branches _ branch directive.args
    refine ⟨_, .append (.switch hcontinued branches), ?_, ?_⟩
    · simp [houter]
    · rw [inward_concat, heq, ← activeIn_inward]
      simp [Evaluation.step, kind, Evaluation.switch, hbranches]
  | otherwise kind stack branch =>
    obtain ⟨base, branches, rfl, houter, hbranches⟩ := haround.innermost stack
    obtain ⟨hcontinued, heq⟩ := @branchOffs_otherwise decision e.macros (onBehind true base) branches _ branch
    refine ⟨_, .append (.switch hcontinued branches), ?_, ?_⟩
    · simp [houter]
    · rw [inward_concat, heq, ← activeIn_inward]
      simp [Evaluation.step, kind, Evaluation.switch, hbranches]
  | endif kind stack =>
    obtain ⟨base, branches, rfl, houter, hbranches⟩ := haround.innermost stack
    refine ⟨base ++ [], .append (.leave _ _), ?_, ?_⟩
    · simp [houter]
    · simp [Evaluation.step, kind, hbranches]
  | other kind =>
    rw [kind] at hconditional
    cases hconditional

namespace Evaluation

variable {e : Evaluation}

theorem run_cons (e : Evaluation) (directive : Directive) (directives : List Directive) :
    e.run decision (directive :: directives) = (e.step decision directive).run decision directives := rfl

theorem run_append (e : Evaluation) (first rest : List Directive) :
    e.run decision (first ++ rest) = (e.run decision first).run decision rest :=
  List.foldl_append

/-- Directives that belong to no conditional leave the branches as they are. -/
theorem step_of_other {directive : Directive} (h : directive.kind.isConditional = false) :
    e.step decision directive = if e.isActive then { e with macros := directive.apply e.macros } else e := by
  unfold DirectiveKind.isConditional at h
  unfold step
  split at h <;> simp_all

end Evaluation

theorem Directive.apply_of_ne {directive : Directive} (h : directive.kind ≠ .define ∧ directive.kind ≠ .undef) (macros : Macros) :
    directive.apply macros = macros := by
  unfold apply
  split <;> simp_all

/-- Behind a directive that defines nothing, the branches come from those at the start, too. -/
theorem reach_of_steps {t behind : Tracker} {directive : Directive} {line : Nat} {span : Span}
    (h : t.Steps directive line span behind) (hplain : directive.kind ≠ .define ∧ directive.kind ≠ .undef) {e : Evaluation}
    {start here : List Branched} (hreach : Reach decision e.macros true start here) (haround : Around t e here) :
    ∃ there, Reach decision e.macros true start there ∧ Around behind (e.step decision directive) there ∧
      (e.step decision directive).macros = e.macros := by
  by_cases hconditional : directive.kind.isConditional = true
  · obtain ⟨there, hshift, haround', hmacros⟩ := shift_of_steps h hconditional haround
    exact ⟨there, hreach.shift hshift, haround', hmacros⟩
  · have hother : directive.kind.isConditional = false := by simpa using hconditional
    have hstep : e.step decision directive = e := by
      rw [Evaluation.step_of_other hother, directive.apply_of_ne hplain]
      exact ite_self e
    rw [hstep]
    obtain rfl := h.eq_of_not_isConditional hother
    exact ⟨here, hreach, haround, rfl⟩

end Steps

/-! ### Guard lines -/

section Lines

variable {decision : Decision} {macros : Macros}

open Evaluation

/-- The directives of some lines. -/
def parsed (lines : List String) : List Directive :=
  lines.map Directive.parse

theorem parsed_append (first rest : List String) : parsed (first ++ rest) = parsed first ++ parsed rest :=
  List.map_append

theorem parsed_close (opened : GuardPath) :
    parsed ((opened.map fun _ => GuardStep.close).flatMap GuardStep.lines) = List.replicate opened.length ⟨.endif, ""⟩ := by
  induction opened with
  | nil => rfl
  | cons guard opened ih =>
    rw [List.map_cons, List.flatMap_cons, parsed_append, ih, List.length_cons, List.replicate_succ, ← Guard.parse_endifLine]
    rfl

theorem run_branchLines (outer : List (List Bool)) (branches : List Bool) {elifs : List String}
    (helifs : ∀ condition ∈ elifs, Text.Trimmed condition) (inElse : Bool) :
    run decision ⟨macros, branches :: outer⟩ (parsed (Guard.branchLines elifs inElse)) =
      ⟨macros, branchOffs decision macros (activeIn outer) branches elifs inElse :: outer⟩ := by
  induction elifs generalizing branches with
  | nil =>
    cases inElse with
    | false => rfl
    | true =>
      have hparse : parsed (Guard.branchLines [] true) = [⟨.otherwise, ""⟩] := by
        simp [parsed, Guard.branchLines, Guard.parse_elseLine]
      rw [hparse]
      rfl
  | cons condition elifs ih =>
    obtain ⟨hfirst, hrest⟩ := List.forall_mem_cons.1 helifs
    have hparse : parsed (Guard.branchLines (condition :: elifs) inElse) =
        ⟨.elif, condition⟩ :: parsed (Guard.branchLines elifs inElse) := by
      simp [parsed, Guard.branchLines, Guard.parse_elifLine hfirst]
    rw [hparse, run_cons]
    exact ih _ hrest

theorem run_openingLines (outer : List (List Bool)) {guard : Guard} (hguard : guard.WellFormed) :
    run decision ⟨macros, outer⟩ (parsed guard.openingLines) =
      ⟨macros, guard.branches decision macros (activeIn outer) :: outer⟩ := by
  have hparse : parsed guard.openingLines =
      ⟨.opening guard.opening, guard.condition⟩ :: parsed (Guard.branchLines guard.elifs guard.inElse) := by
    simp [parsed, Guard.openingLines, guard.parse_openingLine hguard.condition]
  rw [hparse, run_cons]
  exact run_branchLines outer _ hguard.elifs guard.inElse

theorem run_continuationLines (outer : List (List Bool)) (branches : List Bool) (here : Guard) {later : Guard}
    (hlater : later.WellFormed) :
    run decision ⟨macros, branches :: outer⟩ (parsed (here.continuationLines later)) =
      ⟨macros, branchOffs decision macros (activeIn outer) branches (later.elifs.drop here.elifs.length) later.inElse :: outer⟩ :=
  run_branchLines outer branches (fun condition hcondition => hlater.elifs condition (List.mem_of_mem_drop hcondition)) _

theorem run_enter (base : List Branched) {target : GuardPath} (hwell : ∀ guard ∈ target, guard.WellFormed) :
    run decision ⟨macros, inward base⟩ (parsed ((target.map GuardStep.enter).flatMap GuardStep.lines)) =
      ⟨macros, inward (base ++ evaluate decision macros (onBehind true base) target)⟩ := by
  induction target generalizing base with
  | nil => simp [run, parsed, evaluate]
  | cons guard target ih =>
    obtain ⟨hfirst, hrest⟩ := List.forall_mem_cons.1 hwell
    have hnext := ih (base ++ [(guard, guard.branches decision macros (onBehind true base))]) hrest
    rw [inward_concat, onBehind_concat, List.append_assoc, List.singleton_append] at hnext
    have hlines : parsed (((guard :: target).map GuardStep.enter).flatMap GuardStep.lines) =
        parsed guard.openingLines ++ parsed ((target.map GuardStep.enter).flatMap GuardStep.lines) := by
      simp [parsed, GuardStep.lines]
    rw [hlines, run_append, run_openingLines _ hfirst, activeIn_inward, evaluate]
    exact hnext

theorem run_close (base inner : List Branched) :
    run decision ⟨macros, inward (base ++ inner)⟩ (List.replicate inner.length ⟨.endif, ""⟩) = ⟨macros, inward base⟩ := by
  induction inner using List.reverseRecOn with
  | nil => rw [List.append_nil]; rfl
  | append_singleton inner innermost ih =>
    rw [List.length_append, List.length_singleton, List.replicate_succ, run_cons, ← List.append_assoc, inward_concat]
    exact ih

/-- The lines from some guards to others carry the branches along. -/
theorem run_transition (base here : List Branched) {target : GuardPath} (hwell : ∀ guard ∈ target, guard.WellFormed) :
    run decision ⟨macros, inward (base ++ here)⟩ (parsed ((transition (here.map Prod.fst) target).flatMap GuardStep.lines)) =
      ⟨macros, inward (base ++ carry decision macros (onBehind true base) here target)⟩ := by
  induction here generalizing base target with
  | nil => simpa [transition, carry] using run_enter base hwell
  | cons first inner ih =>
    obtain ⟨guard, branches⟩ := first
    cases target with
    | nil =>
      rw [List.map_cons, transition, carry, List.append_nil, parsed_close, List.length_cons, List.length_map]
      exact run_close base ((guard, branches) :: inner)
    | cons later target =>
      obtain ⟨hlater, htarget⟩ := List.forall_mem_cons.1 hwell
      rw [List.map_cons, transition, carry]
      split_ifs with hsame hcontinued
      · have hnext := ih (base ++ [(guard, branches)]) htarget
        rw [onBehind_concat] at hnext
        simpa using hnext
      · have hclose := @run_close decision macros (base ++ [(guard, branches)]) inner
        have henter := @run_enter decision macros (base ++ [(later, branchOffs decision macros (onBehind true base) branches
          (later.elifs.drop guard.elifs.length) later.inElse)]) target htarget
        rw [onBehind_concat, inward_concat, List.append_assoc, List.singleton_append] at henter
        rw [inward_concat, List.append_assoc, List.singleton_append] at hclose
        rw [List.flatMap_append, List.flatMap_cons, parsed_append, parsed_append, run_append, run_append, parsed_close,
          List.length_map, hclose, GuardStep.lines, run_continuationLines _ _ _ hlater, activeIn_inward]
        exact henter
      · have hclose := @run_close decision macros base ((guard, branches) :: inner)
        rw [List.flatMap_append, parsed_append, run_append, parsed_close, List.length_cons, List.length_map]
        rw [List.length_cons] at hclose
        rw [hclose]
        exact run_enter base hwell

end Lines

end CHeader
