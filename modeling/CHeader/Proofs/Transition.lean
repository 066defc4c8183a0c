import CHeader.Emission
import CHeader.Proofs.Continuation
import Mathlib.Data.List.Induction
import Mathlib.Tactic.SplitIfs

/-!
# The steps of a transition

A step can be taken where it fits (`GuardStep.perform?`): a conditional is ended only if one is open, and the innermost
one goes on only from its own branch to a later one. The steps of a transition can all be taken, and lead to its target
(`walk?_transition`). One step brings the target nearer by one step at most (`length_transition_le_of_perform?`), so that
no other way there is shorter (`transition_shortest`).
-/

namespace CHeader

variable {opened behind target : GuardPath}

/-- The guards that are open behind a step, if it can be taken. -/
def GuardStep.perform? (opened : GuardPath) : GuardStep → Option GuardPath
  | close => if opened = [] then none else some opened.dropLast
  | enter guard => some (opened ++ [guard])
  | switch here later =>
    if opened.getLast? = some here ∧ here.isContinuedBy later then some (opened.dropLast ++ [later]) else none

/-- What a step can do: end the innermost conditional, begin one, or go on in the innermost one. -/
theorem GuardStep.perform?_cases {step : GuardStep} (h : step.perform? opened = some behind) :
    (∃ guard, step = .close ∧ opened = behind ++ [guard]) ∨
    (∃ guard, step = .enter guard ∧ behind = opened ++ [guard]) ∨
    ∃ outer here later, step = .switch here later ∧ here.isContinuedBy later = true ∧ opened = outer ++ [here] ∧
      behind = outer ++ [later] := by
  cases step with
  | close =>
    simp only [perform?] at h
    split_ifs at h with hopen
    left
    refine ⟨opened.getLast hopen, rfl, ?_⟩
    rw [← Option.some_inj.1 h, List.dropLast_append_getLast]
  | enter guard =>
    right; left
    exact ⟨guard, rfl, (Option.some_inj.1 h).symm⟩
  | switch here later =>
    simp only [perform?] at h
    split_ifs at h with hfits
    obtain ⟨outer, rfl⟩ := List.getLast?_eq_some_iff.1 hfits.1
    right; right
    refine ⟨outer, here, later, rfl, hfits.2, rfl, ?_⟩
    rw [← Option.some_inj.1 h, List.dropLast_concat]

/-- A step that can be taken leads to where the emitter goes with it. -/
theorem GuardStep.apply_of_perform? {step : GuardStep} (h : step.perform? opened = some behind) :
    step.apply opened = behind := by
  rcases perform?_cases h with ⟨guard, rfl, rfl⟩ | ⟨guard, rfl, rfl⟩ | ⟨outer, here, later, rfl, -, rfl, rfl⟩ <;>
    simp [apply]

/-- Take steps one after another, as long as they can be taken. -/
def walk? (opened : GuardPath) (steps : List GuardStep) : Option GuardPath :=
  steps.foldlM GuardStep.perform? opened

theorem walk?_cons {step : GuardStep} {steps : List GuardStep} (h : step.perform? opened = some behind) :
    walk? opened (step :: steps) = walk? behind steps := by
  rw [walk?, List.foldlM_cons, h]
  rfl

theorem walk?_append {first : List GuardStep} (h : walk? opened first = some behind) (steps : List GuardStep) :
    walk? opened (first ++ steps) = walk? behind steps := by
  rw [walk?, List.foldlM_append, ← walk?, h]
  rfl

theorem foldl_apply_of_walk? {steps : List GuardStep} (h : walk? opened steps = some target) :
    steps.foldl GuardStep.apply opened = target := by
  induction steps generalizing opened with
  | nil => exact Option.some_inj.1 h
  | cons step steps ih =>
    obtain ⟨behind, hstep, hrest⟩ := Option.bind_eq_some_iff.1 h
    rw [List.foldl_cons, GuardStep.apply_of_perform? hstep, ih hrest]

/-! ### The way that is taken -/

/-- Guards are entered one inside the other. -/
theorem walk?_enter (path target : GuardPath) : walk? path (target.map .enter) = some (path ++ target) := by
  induction target generalizing path with
  | nil => simp [walk?]
  | cons guard target ih =>
    rw [List.map_cons, walk?_cons rfl, ih, List.append_assoc, List.singleton_append]

/-- As many closings as there are inner guards leave the outer ones. -/
theorem walk?_close (path inner : GuardPath) : walk? (path ++ inner) (inner.map fun _ => .close) = some path := by
  induction inner using List.reverseRecOn with
  | nil => simp [walk?]
  | append_singleton inner guard ih =>
    have hclose : GuardStep.close.perform? (path ++ (inner ++ [guard])) = some (path ++ inner) := by
      simp [GuardStep.perform?, ← List.append_assoc]
    have hmany : (inner ++ [guard]).map (fun _ => GuardStep.close) = .close :: inner.map fun _ => .close := by
      simp only [List.map_const', List.length_append, List.length_singleton, List.replicate_succ]
    rw [hmany, walk?_cons hclose, ih]

/-- The steps of a transition can be taken inside other guards, and lead to its target. -/
theorem walk?_transition (base opened target : GuardPath) :
    walk? (base ++ opened) (transition opened target) = some (base ++ target) := by
  induction opened generalizing base target with
  | nil => simpa [transition] using walk?_enter base target
  | cons here inner ih =>
    cases target with
    | nil => simpa [transition] using walk?_close base (here :: inner)
    | cons later target =>
      rw [transition]
      split_ifs with hsame hcontinued
      · subst hsame
        simpa using ih (base ++ [here]) target
      · have hclose := walk?_close (base ++ [here]) inner
        have hswitch : (GuardStep.switch here later).perform? (base ++ [here]) = some (base ++ [later]) := by
          simp [GuardStep.perform?, hcontinued]
        rw [List.append_assoc, List.singleton_append] at hclose
        rw [walk?_append hclose, walk?_cons hswitch, walk?_enter, List.append_assoc, List.singleton_append]
      · rw [walk?_append (walk?_close base (here :: inner)), walk?_enter]

/-- The guards that a transition enters or switches to are those of its target. -/
theorem mem_target_of_mem_transition {guard : Guard}
    (h : .enter guard ∈ transition opened target ∨ ∃ here, .switch here guard ∈ transition opened target) :
    guard ∈ target := by
  induction opened generalizing target with
  | nil => simpa [transition] using h
  | cons here inner ih =>
    cases target with
    | nil => simp [transition] at h
    | cons later target =>
      rw [transition] at h
      split_ifs at h
      · exact List.mem_cons_of_mem _ (ih h)
      · rcases h with h | ⟨other, h⟩
        · simp at h
          simp [h]
        · simp at h
          simp [h]
      · rcases h with h | ⟨other, h⟩
        · simp at h
          simp [h]
        · simp at h

/-! ### Other ways -/

theorem length_transition_nil (opened : GuardPath) : (transition opened []).length = opened.length := by
  cases opened <;> simp [transition]

theorem length_transition_cons (here later : Guard) (inner target : GuardPath) :
    (transition (here :: inner) (later :: target)).length =
      if here = later then (transition inner target).length
      else if here.isContinuedBy later = true then inner.length + 1 + target.length
      else inner.length + 1 + (target.length + 1) := by
  rw [transition]
  split_ifs
  · rfl
  · simp only [List.length_append, List.length_cons, List.length_map]
    omega
  · simp only [List.length_append, List.length_cons, List.length_map]

theorem transition_self (path : GuardPath) : transition path path = [] := by
  induction path with
  | nil => rfl
  | cons guard path ih => rw [transition, if_pos rfl, ih]

/-- If one path is as near to every target as another but for one step, so it is inside other guards. -/
theorem length_transition_append_le {here there : GuardPath} (hlength : here.length ≤ there.length + 1)
    (h : ∀ target, (transition here target).length ≤ (transition there target).length + 1) (base target : GuardPath) :
    (transition (base ++ here) target).length ≤ (transition (base ++ there) target).length + 1 := by
  induction base generalizing target with
  | nil => exact h target
  | cons guard base ih =>
    cases target with
    | nil =>
      simp only [length_transition_nil, List.length_append, List.length_cons]
      omega
    | cons later target =>
      rw [List.cons_append, List.cons_append, length_transition_cons, length_transition_cons]
      simp only [List.length_append]
      split_ifs
      · exact ih target
      · omega
      · omega

theorem length_transition_singleton_le (guard : Guard) (target : GuardPath) :
    (transition [guard] target).length ≤ target.length + 1 := by
  cases target with
  | nil => simp [length_transition_nil]
  | cons later target =>
    rw [length_transition_cons, transition]
    simp only [List.length_map, List.length_nil, List.length_cons]
    split_ifs <;> omega

theorem le_length_transition_singleton (guard : Guard) (target : GuardPath) :
    target.length ≤ (transition [guard] target).length + 1 := by
  cases target with
  | nil => exact Nat.zero_le _
  | cons later target =>
    rw [length_transition_cons, transition]
    simp only [List.length_map, List.length_nil, List.length_cons]
    split_ifs <;> omega

/-- From an earlier branch of a conditional everything is at most one step further than from a later one. -/
theorem length_transition_switch_le {here later : Guard} (h : here.isContinuedBy later = true) (target : GuardPath) :
    (transition [here] target).length ≤ (transition [later] target).length + 1 := by
  cases target with
  | nil => simp [length_transition_nil]
  | cons guard target =>
    rw [length_transition_cons, length_transition_cons, transition]
    simp only [List.length_map, List.length_nil]
    by_cases hhere : here = guard
    · rw [if_pos hhere]
      split_ifs <;> omega
    · rw [if_neg hhere]
      by_cases hlater : later = guard
      · subst hlater
        rw [if_pos h, if_pos rfl]
        omega
      · rw [if_neg hlater]
        -- what the later branch may go on to, the earlier one may go on to as well
        by_cases hcontinued : later.isContinuedBy guard = true
        · rw [if_pos hcontinued, if_pos (Guard.isContinuedBy_trans h hcontinued)]
          omega
        · rw [if_neg hcontinued]
          split_ifs <;> omega

/-- One step brings the target nearer by one step at most. -/
theorem length_transition_le_of_perform? {step : GuardStep} (h : step.perform? opened = some behind) (target : GuardPath) :
    (transition opened target).length ≤ (transition behind target).length + 1 := by
  rcases GuardStep.perform?_cases h with ⟨guard, -, rfl⟩ | ⟨guard, -, rfl⟩ | ⟨outer, here, later, -, hcontinued, rfl, rfl⟩
  · have hinner : ∀ target, (transition [guard] target).length ≤ (transition [] target).length + 1 := by
      intro target
      simpa [transition] using length_transition_singleton_le guard target
    simpa using length_transition_append_le (by simp) hinner behind target
  · have hinner : ∀ target, (transition [] target).length ≤ (transition [guard] target).length + 1 := by
      intro target
      simpa [transition] using le_length_transition_singleton guard target
    simpa using length_transition_append_le (by simp) hinner opened target
  · exact length_transition_append_le (by simp) (length_transition_switch_le hcontinued) outer target

/-- A way to a target has as many steps as the transition there, or more. -/
theorem length_transition_le_of_walk? {steps : List GuardStep} (h : walk? opened steps = some target) :
    (transition opened target).length ≤ steps.length := by
  induction steps generalizing opened with
  | nil =>
    obtain rfl : opened = target := Option.some_inj.1 h
    simp [transition_self]
  | cons step steps ih =>
    obtain ⟨behind, hstep, hrest⟩ := Option.bind_eq_some_iff.1 h
    have hnear := length_transition_le_of_perform? hstep target
    have hsteps := ih hrest
    rw [List.length_cons]
    omega

/-- The steps of a transition can all be taken and lead from the open guards to the target, and no way of steps that
can be taken leads there in fewer. -/
theorem transition_shortest (opened target : GuardPath) :
    walk? opened (transition opened target) = some target ∧
      ∀ steps, walk? opened steps = some target → (transition opened target).length ≤ steps.length :=
  ⟨walk?_transition [] opened target, fun _ => length_transition_le_of_walk?⟩

/-- The conditional that goes on to its `#else` is not closed and opened again, though this is a way to get there. -/
theorem transition_shortest_else :
    let first : Guard := ⟨.defined, "A", [], false⟩
    let inner : Guard := ⟨.expression, "B", [], false⟩
    let last : Guard := ⟨.defined, "A", ["C"], true⟩
    walk? [first, inner] [.close, .close, .enter first, .switch first last] = some [last] ∧
      (transition [first, inner] [last]).length ≤ 4 ∧ transition [first, inner] [last] = [.close, .switch first last] := by
  intro first inner last
  have hway : walk? [first, inner] [.close, .close, .enter first, .switch first last] = some [last] := by decide
  exact ⟨hway, (transition_shortest [first, inner] [last]).2 _ hway, by decide⟩

end CHeader
