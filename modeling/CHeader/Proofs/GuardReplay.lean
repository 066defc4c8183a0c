import CHeader.Proofs.Emitting
import CHeader.Proofs.Steps

/-!
# A header's guards followed again

The guard lines of a header are directives, so a `Tracker` can follow them. `Tracker.Under` says that
the guards around a place are a given path, all of them ordinary. Each kind of guard line moves a
tracker from one path to another whatever line numbers and spans the lines are given (`Leads`), and so
do the steps of a transition. Replaying a header therefore finds, at each declaration, the guards that
the declaration was written for.
-/

namespace CHeader

/-- The tracker stands under the guards of `path`, outermost first, and in no interface block. -/
structure Tracker.Under (t : Tracker) (path : GuardPath) : Prop where
  guards : t.stack.reverse.map (·.guard) = path
  ordinary : ∀ conditional ∈ t.stack, conditional.block = none

namespace Tracker

/-- Whether a guard opens no interface block where such blocks are told from guards. -/
def Admits (blocks : Bool) (guard : Guard) : Prop :=
  Tracker.blockOf? { recognizeBlocks := blocks } guard.opening guard.condition = none

theorem admits_false (guard : Guard) : Admits false guard := rfl

theorem Under.guardPath_eq {t : Tracker} {path : GuardPath} (h : t.Under path) : t.guardPath = path := by
  have hall : t.stack.reverse.filter (·.block.isNone) = t.stack.reverse := by
    rw [List.filter_eq_self]
    intro conditional hmem
    simp [h.ordinary conditional (List.mem_reverse.1 hmem)]
  rw [guardPath, hall, h.guards]

theorem Under.finish_eq_none {t : Tracker} (h : t.Under []) : t.finish = none := by
  have hstack : t.stack = [] := by
    have := h.guards
    simpa using this
  simp [finish, hstack]

theorem under_start (blocks : Bool) : Tracker.Under { recognizeBlocks := blocks } [] :=
  ⟨rfl, by simp⟩

/-- Under `path ++ [guard]` the innermost conditional is that of `guard`. -/
theorem Under.innermost {t : Tracker} {path : GuardPath} {guard : Guard} (h : t.Under (path ++ [guard])) :
    ∃ top outer, t.stack = top :: outer ∧ top.guard = guard ∧ top.block = none ∧
      ({ t with stack := outer } : Tracker).Under path := by
  have hguards := h.guards
  cases hstack : t.stack with
  | nil => simp [hstack] at hguards
  | cons top outer =>
    simp only [hstack, List.reverse_cons, List.map_append, List.map_cons, List.map_nil] at hguards
    obtain ⟨hpath, hguard⟩ := List.append_inj' hguards rfl
    refine ⟨top, outer, rfl, by simpa using hguard, h.ordinary top (by simp [hstack]), hpath, ?_⟩
    intro conditional hmem
    exact h.ordinary conditional (by simpa [hstack] using Or.inr hmem)

/-- Put a conditional inside. -/
theorem Under.push {t : Tracker} {path : GuardPath} (h : t.Under path) (conditional : OpenConditional)
    (hblock : conditional.block = none) :
    ({ t with stack := conditional :: t.stack } : Tracker).Under (path ++ [conditional.guard]) := by
  refine ⟨by simp [h.guards], ?_⟩
  intro other hmem
  rcases List.mem_cons.1 hmem with rfl | hmem
  · exact hblock
  · exact h.ordinary other hmem

/-- A directive with its place. -/
abbrev Placed := Directive × Nat × Span

/-- Take in directives one after another. -/
def processAll (t : Tracker) : List Placed → Tracker × Option Diagnostic
  | [] => (t, none)
  | (directive, line, span) :: rest =>
    match t.process directive line span with
    | (behind, none) => behind.processAll rest
    | (behind, some fault) => (behind, some fault)

theorem processAll_append (t : Tracker) {first : List Placed} {between : Tracker}
    (h : t.processAll first = (between, none)) (rest : List Placed) :
    t.processAll (first ++ rest) = between.processAll rest := by
  fun_induction processAll t first with
  | case1 t => simp_all
  | case2 t directive line span first behind hb ih => simp [processAll, hb, ih h]
  | case3 => simp at h

/-- Whatever their places are, the directive lines lead from the guards of `here` to those of `there`. -/
def Leads (blocks : Bool) (here : GuardPath) (lines : List String) (there : GuardPath) : Prop :=
  ∀ (t : Tracker) (placed : List Placed), t.recognizeBlocks = blocks → t.Under here →
    placed.map Prod.fst = lines.map Directive.parse →
    ∃ behind, t.processAll placed = (behind, none) ∧ behind.recognizeBlocks = blocks ∧ behind.Under there

theorem leads_nil (blocks : Bool) (path : GuardPath) : Leads blocks path [] path := by
  intro t placed hblocks hunder hplaced
  obtain rfl : placed = [] := by simpa using hplaced
  exact ⟨t, rfl, hblocks, hunder⟩

theorem Leads.append {blocks : Bool} {here between there : GuardPath} {first rest : List String}
    (hfirst : Leads blocks here first between) (hrest : Leads blocks between rest there) :
    Leads blocks here (first ++ rest) there := by
  intro t placed hblocks hunder hplaced
  rw [List.map_append] at hplaced
  obtain ⟨p, q, rfl, hp, hq⟩ := List.map_eq_append_iff.1 hplaced
  obtain ⟨t', ht', hblocks', hunder'⟩ := hfirst t p hblocks hunder hp
  obtain ⟨t'', ht'', hblocks'', hunder''⟩ := hrest t' q hblocks' hunder' hq
  exact ⟨t'', by rw [processAll_append t ht', ht''], hblocks'', hunder''⟩

/-- One line leads as its directive does. -/
theorem leads_singleton {blocks : Bool} {here there : GuardPath} {line : String}
    (h : ∀ (t : Tracker) (number : Nat) (span : Span), t.recognizeBlocks = blocks → t.Under here →
      ∃ behind, t.step (Directive.parse line) number span = .ok behind ∧ behind.recognizeBlocks = blocks ∧
        behind.Under there) :
    Leads blocks here [line] there := by
  intro t placed hblocks hunder hplaced
  obtain ⟨⟨directive, number, span⟩, rfl, hdirective⟩ := List.map_eq_singleton_iff.1 hplaced
  subst hdirective
  obtain ⟨behind, hstep, hblocks', hunder'⟩ := h t number span hblocks hunder
  exact ⟨behind, by simp [processAll, process, hstep], hblocks', hunder'⟩

theorem leads_opening {blocks : Bool} (path : GuardPath) {guard : Guard} (hcondition : Text.Trimmed guard.condition)
    (hadmits : Admits blocks guard) :
    Leads blocks path [guard.openingLine] (path ++ [{ opening := guard.opening, condition := guard.condition }]) := by
  apply leads_singleton
  intro t number span hblocks hunder
  have hblock : t.blockOf? guard.opening guard.condition = none := by
    rw [← hadmits, ← hblocks]
    rfl
  refine ⟨t.opened guard.opening guard.condition number span, ?_, hblocks, ?_⟩
  · rw [Guard.parse_openingLine guard hcondition]
    simp [step, hcondition.1]
  · exact hunder.push _ hblock

theorem leads_elif (blocks : Bool) (path : GuardPath) (guard : Guard) (helse : guard.inElse = false)
    {condition : String} (hcondition : Text.Trimmed condition) :
    Leads blocks (path ++ [guard]) ["#elif " ++ condition]
      (path ++ [{ guard with elifs := guard.elifs ++ [condition] }]) := by
  apply leads_singleton
  intro t number span hblocks hunder
  obtain ⟨top, outer, hstack, rfl, hblock, houter⟩ := hunder.innermost
  have hstep : t.step ⟨.elif, condition⟩ number span = .ok
      { t with stack := { top with guard := { top.guard with elifs := top.guard.elifs ++ [condition] } } :: outer } := by
    simp [step, innermost, hstack, helse, hblock, hcondition.1, bind, Except.bind]
  have hpush := houter.push { top with guard := { top.guard with elifs := top.guard.elifs ++ [condition] } } hblock
  refine ⟨_, ?_, ?_, hpush⟩
  · rw [Guard.parse_elifLine hcondition, hstep]
  · exact hblocks

theorem leads_else (blocks : Bool) (path : GuardPath) (guard : Guard) (helse : guard.inElse = false) :
    Leads blocks (path ++ [guard]) ["#else"] (path ++ [{ guard with inElse := true }]) := by
  apply leads_singleton
  intro t number span hblocks hunder
  obtain ⟨top, outer, hstack, rfl, hblock, houter⟩ := hunder.innermost
  have hstep : t.step ⟨.otherwise, ""⟩ number span = .ok
      { t with stack := { top with guard := { top.guard with inElse := true } } :: outer } := by
    simp [step, innermost, hstack, helse, bind, Except.bind]
  have hpush := houter.push { top with guard := { top.guard with inElse := true } } hblock
  refine ⟨_, ?_, ?_, hpush⟩
  · rw [Guard.parse_elseLine, hstep]
  · exact hblocks

theorem leads_endif (blocks : Bool) (path : GuardPath) (guard : Guard) :
    Leads blocks (path ++ [guard]) ["#endif"] path := by
  apply leads_singleton
  intro t number span hblocks hunder
  obtain ⟨top, outer, hstack, -, -, houter⟩ := hunder.innermost
  exact ⟨{ t with stack := outer }, by rw [Guard.parse_endifLine]; simp [step, hstack], hblocks, houter⟩

/-- The branch lines lead on from the branches passed before. -/
theorem leads_branchLines (blocks : Bool) (path : GuardPath) (guard : Guard) (helse : guard.inElse = false)
    (elifs : List String) (helifs : ∀ condition ∈ elifs, Text.Trimmed condition) (inElse : Bool) :
    Leads blocks (path ++ [guard]) (Guard.branchLines elifs inElse)
      (path ++ [{ guard with elifs := guard.elifs ++ elifs, inElse }]) := by
  induction elifs generalizing guard with
  | nil =>
    cases inElse with
    | false =>
      have hguard : { guard with elifs := guard.elifs ++ [], inElse := false } = guard := by
        cases guard
        simp_all
      rw [hguard]
      exact leads_nil blocks _
    | true => simpa [Guard.branchLines] using leads_else blocks path guard helse
  | cons condition elifs ih =>
    have hfirst := leads_elif blocks path guard helse (helifs condition (by simp))
    have hrest := ih { guard with elifs := guard.elifs ++ [condition] } helse
      fun c hc => helifs c (List.mem_cons_of_mem _ hc)
    simpa [Guard.branchLines] using hfirst.append hrest

/-- The opening lines of a guard lead into it. -/
theorem leads_openingLines {blocks : Bool} (path : GuardPath) {guard : Guard} (hguard : guard.WellFormed)
    (hadmits : Admits blocks guard) : Leads blocks path guard.openingLines (path ++ [guard]) := by
  have hopen := leads_opening path hguard.condition hadmits
  have hbranch := leads_branchLines blocks path
    { opening := guard.opening, condition := guard.condition } rfl guard.elifs hguard.elifs guard.inElse
  simpa [Guard.openingLines] using hopen.append hbranch

/-- The continuation lines of a guard lead to the later branch. -/
theorem leads_continuationLines (blocks : Bool) (path : GuardPath) {guard later : Guard}
    (hcontinued : guard.isContinuedBy later = true) (hlater : later.WellFormed) :
    Leads blocks (path ++ [guard]) (guard.continuationLines later) (path ++ [later]) := by
  obtain ⟨-, helse, hopening, hcondition, more, hmore⟩ := Guard.isContinuedBy_iff.1 hcontinued
  have hdrop : later.elifs.drop guard.elifs.length = more := by simp [← hmore]
  have h := leads_branchLines blocks path guard helse more
    (fun c hc => hlater.elifs c (by simp [← hmore, hc])) later.inElse
  rw [hmore, hopening, hcondition] at h
  rwa [Guard.continuationLines, hdrop]

/-- The lines of a step that can be taken lead where the step does. -/
theorem leads_step {blocks : Bool} {opened behind : GuardPath} {step : GuardStep} (h : step.perform? opened = some behind)
    (hwell : ∀ guard, (step = .enter guard ∨ ∃ here, step = .switch here guard) →
      guard.WellFormed ∧ Admits blocks guard) : Leads blocks opened step.lines behind := by
  rcases GuardStep.perform?_cases h with ⟨guard, rfl, rfl⟩ | ⟨guard, rfl, rfl⟩ | ⟨outer, here, later, rfl, hcontinued, rfl, rfl⟩
  · exact leads_endif blocks behind guard
  · obtain ⟨hguard, hadmits⟩ := hwell guard (.inl rfl)
    exact leads_openingLines opened hguard hadmits
  · obtain ⟨hlater, -⟩ := hwell later (.inr ⟨here, rfl⟩)
    exact leads_continuationLines blocks outer hcontinued hlater

theorem leads_walk {blocks : Bool} {opened target : GuardPath} {steps : List GuardStep}
    (h : walk? opened steps = some target)
    (hwell : ∀ guard, (.enter guard ∈ steps ∨ ∃ here, .switch here guard ∈ steps) →
      guard.WellFormed ∧ Admits blocks guard) : Leads blocks opened (steps.flatMap GuardStep.lines) target := by
  induction steps generalizing opened with
  | nil =>
    obtain rfl : opened = target := Option.some_inj.1 h
    exact leads_nil blocks opened
  | cons step steps ih =>
    obtain ⟨behind, hstep, hrest⟩ := Option.bind_eq_some_iff.1 h
    have hfirst : Leads blocks opened step.lines behind := by
      apply leads_step hstep
      rintro guard (rfl | ⟨here, rfl⟩)
      · exact hwell guard (.inl List.mem_cons_self)
      · exact hwell guard (.inr ⟨here, List.mem_cons_self⟩)
    have hmore : Leads blocks behind (steps.flatMap GuardStep.lines) target := by
      apply ih hrest
      rintro guard (henter | ⟨here, hswitch⟩)
      · exact hwell guard (.inl (List.mem_cons_of_mem _ henter))
      · exact hwell guard (.inr ⟨here, List.mem_cons_of_mem _ hswitch⟩)
    rw [List.flatMap_cons]
    exact hfirst.append hmore

/-- The lines of a transition lead from the guards that are open to those of the target. -/
theorem leads_transition {blocks : Bool} (base opened target : GuardPath)
    (hwell : ∀ guard ∈ target, guard.WellFormed) (hadmits : ∀ guard ∈ target, Admits blocks guard) :
    Leads blocks (base ++ opened) ((transition opened target).flatMap GuardStep.lines) (base ++ target) := by
  apply leads_walk (walk?_transition base opened target)
  intro guard hguard
  have hmem := mem_target_of_mem_transition hguard
  exact ⟨hwell guard hmem, hadmits guard hmem⟩

end Tracker

end CHeader
