import CHeader.Proofs.GuardReplay

/-!
# The tracker changed in place

`Tracker.process` gives a new tracker, which is the old one where a directive does not fit. Here the one tracker that
there is changes, check after check and field after field, and what was changed ahead of a fault stays changed
(`Changing`). The checks stand in such places that nothing was: `Changing.run_call` says that a call in place leaves the
tracker that `process` gives.

Calls go on behind one that fails (`Changing.each`). A run of them is a run of those that fit alone
(`processAll_fitting`), and a failed call may be left out of it or put into it (`failed_call_changes_nothing`).
-/

namespace CHeader

open Tracker (Placed)

/-- A change of a tracker in place. What changed ahead of a fault stays changed. -/
abbrev Changing (α : Type) : Type :=
  ExceptT ConditionalFault (StateM Tracker) α

namespace Changing

/-- Put a conditional inside the others. -/
def push (conditional : OpenConditional) : Changing Unit :=
  modify fun t => { t with stack := conditional :: t.stack }

/-- Take the innermost conditional away. Without one this says so and does nothing. -/
def pop : Changing (Option OpenConditional) :=
  modifyGet fun t => (t.stack.head?, { t with stack := t.stack.tail })

/-- Change the innermost conditional. -/
def modifyTop (f : OpenConditional → OpenConditional) : Changing Unit :=
  modify fun t => { t with stack := t.stack.modifyHead f }

/-- The innermost conditional, if it may go on to another branch. -/
def branchTop (branch : Branch) : Changing OpenConditional := do
  match (← get).stack with
  | [] => throw (.unmatched branch.keyword)
  | top :: _ => if top.guard.inElse then throw (.afterElse branch top.line) else return top

/-- Take in a directive. -/
def change (directive : Directive) (line : Nat) (span : Span) : Changing Unit :=
  match directive.kind with
  | .opening opening =>
    if directive.args = "" then throw (.missingCondition opening.keyword)
    else do
      let block := (← get).blockOf? opening directive.args
      push ⟨{ opening, condition := directive.args }, line, span, block⟩
  | .elif =>
    if directive.args = "" then throw (.missingCondition Branch.elif.keyword)
    else do
      let top ← branchTop .elif
      if top.block.isSome then throw (.elifInBlock top.guard.condition top.line)
      else modifyTop fun top => { top with guard := { top.guard with elifs := top.guard.elifs ++ [directive.args] } }
  | .otherwise => do
    let _ ← branchTop .otherwise
    modifyTop fun top => { top with guard := { top.guard with inElse := true } }
  | .endif => do
    if (← pop).isNone then throw (.unmatched directive.kind.keyword)
  | _ => pure ()

/-- A call with a directive, and the fault that it reports. -/
def call : Placed → StateM Tracker (Option Diagnostic)
  | (directive, line, span) => do
    match ← (change directive line span).run with
    | .ok () => return none
    | .error fault => return some ⟨.conditional fault, line, span⟩

/-- Calls one after another, whatever becomes of each. -/
def each (calls : List Placed) : StateM Tracker (List (Option Diagnostic)) :=
  calls.mapM call

/-- The calls that report no fault. -/
def fitting (calls : List Placed) (reported : List (Option Diagnostic)) : List Placed :=
  ((calls.zip reported).filter (·.2.isNone)).map (·.1)

/-! ### One call -/

variable {α β : Type}

theorem run_bind (first : Changing α) (rest : α → Changing β) (t : Tracker) :
    (first >>= rest).run.run t =
      match first.run.run t with
      | (.ok a, behind) => (rest a).run.run behind
      | (.error fault, behind) => (.error fault, behind) := by
  rw [ExceptT.run_bind, StateT.run_bind]
  show (match first.run.run t with | (result, behind) => _) = _
  rcases first.run.run t with ⟨_ | _, behind⟩ <;> rfl

/-- What follows finds the innermost conditional, and the tracker as it was. -/
theorem run_branchTop_bind (branch : Branch) (rest : OpenConditional → Changing α) (t : Tracker) :
    (branchTop branch >>= rest).run.run t =
      match t.innermost branch with
      | .ok (top, _) => (rest top).run.run t
      | .error fault => (.error fault, t) := by
  have hbranchTop : (branchTop branch).run.run t = ((t.innermost branch).map (·.1), t) := by
    obtain ⟨blocks, stack⟩ := t
    cases stack with
    | nil => rfl
    | cons top outer =>
      show (if top.guard.inElse then _ else _ : Changing _).run.run _ =
        ((if top.guard.inElse then _ else _ : Except _ _).map _, _)
      cases top.guard.inElse <;> rfl
  rw [run_bind, hbranchTop]
  cases t.innermost branch <;> rfl

theorem run_modifyTop {t : Tracker} {top : OpenConditional} {outer : List OpenConditional}
    (h : t.stack = top :: outer) (f : OpenConditional → OpenConditional) :
    (modifyTop f).run.run t = (.ok (), { t with stack := f top :: outer }) := by
  obtain ⟨blocks, stack⟩ := t
  cases h
  rfl

theorem run_pop (t : Tracker) : pop.run.run t = (.ok t.stack.head?, { t with stack := t.stack.tail }) := rfl

/-- A directive is taken in in place as it is otherwise, and one that does not fit changes nothing. -/
theorem run_change (t : Tracker) (directive : Directive) (line : Nat) (span : Span) :
    (change directive line span).run.run t =
      match t.step directive line span with
      | .ok behind => (.ok (), behind)
      | .error fault => (.error fault, t) := by
  unfold change Tracker.step
  cases directive.kind with
  | opening opening =>
    simp only
    split_ifs <;> rfl
  | elif =>
    by_cases hargs : directive.args = ""
    · simp only [if_pos hargs]
      rfl
    simp only [if_neg hargs]
    rw [run_branchTop_bind]
    cases hinner : t.innermost .elif with
    | error fault => rfl
    | ok found =>
      obtain ⟨hstack, -⟩ := Tracker.innermost_eq_ok_iff.1 hinner
      simp only [bind, Except.bind]
      split_ifs
      · rfl
      · rw [run_modifyTop hstack]
  | otherwise =>
    simp only
    rw [run_branchTop_bind]
    cases hinner : t.innermost .otherwise with
    | error fault => rfl
    | ok found =>
      obtain ⟨hstack, -⟩ := Tracker.innermost_eq_ok_iff.1 hinner
      simp only [bind, Except.bind]
      rw [run_modifyTop hstack]
  | endif =>
    -- The only fault found behind a change: `pop` found no conditional, and so took none away.
    simp only
    rw [run_bind, run_pop]
    obtain ⟨blocks, stack⟩ := t
    cases stack <;> rfl
  | _ => rfl

theorem run_call (t : Tracker) (placed : Placed) :
    (call placed).run t = (t.process placed.1 placed.2.1 placed.2.2).swap := by
  obtain ⟨directive, line, span⟩ := placed
  rw [call, StateT.run_bind, run_change]
  simp only [Tracker.process]
  cases t.step directive line span <;> rfl

/-! ### Calls one after another -/

variable {t between behind : Tracker} {calls more : List Placed} {reported others : List (Option Diagnostic)}

theorem run_each_cons {first : Placed} {fault? : Option Diagnostic} (hfirst : (call first).run t = (fault?, between))
    (hrest : (each calls).run between = (others, behind)) :
    (each (first :: calls)).run t = (fault? :: others, behind) := by
  rw [each] at hrest ⊢
  rw [List.mapM_cons, StateT.run_bind, hfirst]
  show ((calls.mapM call).run between).map (fault? :: ·) id = _
  rw [hrest]
  rfl

theorem run_each_append (hfirst : (each calls).run t = (reported, between))
    (hrest : (each more).run between = (others, behind)) :
    (each (calls ++ more)).run t = (reported ++ others, behind) := by
  rw [each] at hfirst hrest ⊢
  rw [List.mapM_append, StateT.run_bind, hfirst]
  show ((more.mapM call).run between).map (reported ++ ·) id = _
  rw [hrest]
  rfl

/-- Calls leave what those of them that report no fault leave by themselves. -/
theorem processAll_fitting (hcalls : (each calls).run t = (reported, behind)) :
    t.processAll (fitting calls reported) = (behind, none) := by
  induction calls generalizing t reported with
  | nil =>
    cases hcalls
    rfl
  | cons first calls ih =>
    obtain ⟨directive, line, span⟩ := first
    have hcall := run_call t (directive, line, span)
    simp only [Tracker.process] at hcall
    cases hstep : t.step directive line span with
    | error fault =>
      simp only [hstep, Prod.swap_prod_mk] at hcall
      cases (run_each_cons hcall rfl).symm.trans hcalls
      exact ih rfl
    | ok between =>
      simp only [hstep, Prod.swap_prod_mk] at hcall
      cases (run_each_cons hcall rfl).symm.trans hcalls
      show t.processAll ((directive, line, span) :: fitting calls _) = _
      simp only [Tracker.processAll, Tracker.process, hstep]
      exact ih rfl

/-- A directive with a fault leaves the tracker as it was. `start` takes in any calls, some of which may fail, and stands
at `here`; there `process` finds a fault in a directive. Then the tracker gives the same guards, the same interface block
and the same end as before, also where it is changed in place; further calls report and leave what they would without
the directive. So a tracker behind any calls is one behind directives that all fit. -/
theorem failed_call_changes_nothing {start here behind : Tracker} {earlier : List Placed}
    {reported : List (Option Diagnostic)} {directive : Directive} {line : Nat} {span : Span} {fault : Diagnostic}
    (hearlier : (each earlier).run start = (reported, here))
    (hfailing : here.process directive line span = (behind, some fault)) :
    (∀ t placed, (call placed).run t = (t.process placed.1 placed.2.1 placed.2.2).swap) ∧
    (behind.guardPath = here.guardPath ∧ behind.interfaceBlock = here.interfaceBlock ∧ behind.finish = here.finish) ∧
    (∀ later, ∃ others last, (each later).run behind = (others, last) ∧ (each later).run here = (others, last) ∧
      (each (earlier ++ (directive, line, span) :: later)).run start = (reported ++ some fault :: others, last) ∧
      (each (earlier ++ later)).run start = (reported ++ others, last)) ∧
    start.processAll (fitting earlier reported) = (here, none) := by
  have hcall : (call (directive, line, span)).run here = (some fault, behind) := by
    rw [run_call, hfailing, Prod.swap_prod_mk]
  obtain rfl : here = behind := by
    simp only [Tracker.process] at hfailing
    split at hfailing <;> simp_all
  refine ⟨fun t placed => run_call t placed, ⟨rfl, rfl, rfl⟩, ?_, ?_⟩
  · intro later
    refine ⟨((each later).run here).1, ((each later).run here).2, rfl, rfl, ?_, ?_⟩
    · exact run_each_append hearlier (run_each_cons hcall rfl)
    · exact run_each_append hearlier rfl
  · exact processAll_fitting hearlier

/-- In a block an `#elif` fails, here behind an `#else` that failed before the block was opened; the declarations behind
it are marked by the block as before, and the `#endif` behind closes it. -/
theorem failed_call_changes_nothing_elif :
    let place : Nat × Span := (1, ⟨0, 0⟩)
    let earlier : List Placed := [(⟨.otherwise, ""⟩, place), (⟨.opening .expression, "LOCAL_INTERFACE"⟩, place)]
    let here : Tracker := Tracker.opened {} .expression "LOCAL_INTERFACE" 1 ⟨0, 0⟩
    let unmatched : Diagnostic := ⟨.conditional (.unmatched "else"), 1, ⟨0, 0⟩⟩
    let inBlock : Diagnostic := ⟨.conditional (.elifInBlock "LOCAL_INTERFACE" 1), 1, ⟨0, 0⟩⟩
    (each earlier).run {} = ([some unmatched, none], here) ∧
      here.process ⟨.elif, "A"⟩ 1 ⟨0, 0⟩ = (here, some inBlock) ∧
      (∃ behind, (call (⟨.elif, "A"⟩, place)).run here = (some inBlock, behind) ∧
        behind.interfaceBlock = some .internal) ∧
      (each (earlier ++ [(⟨.elif, "A"⟩, place), (⟨.endif, ""⟩, place)])).run {} =
        ([some unmatched, none, some inBlock, none], {}) ∧
      Tracker.processAll {} (fitting earlier [some unmatched, none]) = (here, none) := by
  intro place earlier here unmatched inBlock
  have hearlier : (each earlier).run {} = ([some unmatched, none], here) := rfl
  have hfailing : here.process ⟨.elif, "A"⟩ 1 ⟨0, 0⟩ = (here, some inBlock) := by decide
  obtain ⟨hcall, ⟨-, hblock, -⟩, hlater, hfitting⟩ := failed_call_changes_nothing hearlier hfailing
  obtain ⟨others, last, -, hhere, hrun, -⟩ := hlater [(⟨.endif, ""⟩, place)]
  refine ⟨hearlier, hfailing, ⟨here, ?_, hblock.trans (by decide)⟩, ?_, hfitting⟩
  · rw [hcall, hfailing]
    rfl
  · cases hhere
    exact hrun

end Changing

end CHeader
