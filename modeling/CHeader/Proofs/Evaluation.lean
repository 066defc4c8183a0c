import CHeader.Proofs.Continuation
import CHeader.Proofs.GuardLines
import Mathlib.Tactic.SplitIfs

/-!
# Evaluating conditionals

A text is evaluated for macros that are defined at its start. Each conditional has at most one active branch: the first
whose test holds, if the conditional itself stands in active text. `#ifdef` and `#ifndef` ask for a macro, and how the
conditions of `#if` and `#elif` are decided is left open. Active `#define` and `#undef` lines change the macros.

A header writes one conditional for several of its source if their guards look the same. Between two declarations, the
branches around the place follow from those at the first one (`carry`), if the conditionals that look the same are
decided alike (`DecidedAlike`).
-/

namespace CHeader

/-- Which macros are defined. -/
abbrev Macros := String → Bool

/-- How the conditions of `#if` and `#elif` are decided. -/
abbrev Decision := String → Macros → Bool

/-- The macros behind an active directive. -/
def Directive.apply (directive : Directive) (macros : Macros) : Macros :=
  match directive.kind, directive.macroName? with
  | .define, some name => fun other => other = name || macros other
  | .undef, some name => fun other => other ≠ name && macros other
  | _, _ => macros

/-- Whether the test of an opening line holds. -/
def Opening.holds (decision : Decision) (macros : Macros) (condition : String) : Opening → Bool
  | .expression => decision condition macros
  | .defined => (Directive.macroName? ⟨.opening .defined, condition⟩).any macros
  | .undefined => !(Directive.macroName? ⟨.opening .undefined, condition⟩).any macros

/-! ### Branches -/

/-- Whether the latest branch is active. -/
def isOn (branches : List Bool) : Bool :=
  branches.getLast?.getD false

/-- Go to another branch of a conditional, in text that is active or not. -/
def branchOff (around test : Bool) (branches : List Bool) : List Bool :=
  branches ++ [around && !branches.contains true && test]

/-- A place of a text that is evaluated. -/
structure Evaluation where
  macros : Macros
  /-- Which of the branches so far are active, for each conditional around the place, the innermost first. -/
  branches : List (List Bool) := []

namespace Evaluation

/-- Whether the place is active inside some conditionals. -/
def activeIn : List (List Bool) → Bool
  | [] => true
  | innermost :: _ => isOn innermost

/-- Whether the place is active. -/
def isActive (e : Evaluation) : Bool :=
  activeIn e.branches

/-- Another branch of the innermost conditional begins. -/
def switch (e : Evaluation) (test : Bool) : Evaluation :=
  match e.branches with
  | [] => e
  | innermost :: outer => { e with branches := branchOff (activeIn outer) test innermost :: outer }

/-- The place behind a directive. -/
def step (decision : Decision) (e : Evaluation) (directive : Directive) : Evaluation :=
  match directive.kind with
  | .opening opening =>
    { e with branches := branchOff e.isActive (opening.holds decision e.macros directive.args) [] :: e.branches }
  | .elif => e.switch (decision directive.args e.macros)
  | .otherwise => e.switch true
  | .endif => { e with branches := e.branches.tail }
  | _ => if e.isActive then { e with macros := directive.apply e.macros } else e

/-- The place behind some directives. -/
def run (decision : Decision) (e : Evaluation) (directives : List Directive) : Evaluation :=
  directives.foldl (step decision) e

end Evaluation

section Guards

variable (decision : Decision) (macros : Macros) (around : Bool)

/-- Go through `#elif` branches, and then to `#else`. -/
def branchOffs (branches : List Bool) (elifs : List String) (inElse : Bool) : List Bool :=
  let branches := elifs.foldl (fun branches condition => branchOff around (decision condition macros) branches) branches
  if inElse then branchOff around true branches else branches

/-- The branches of a guard that is evaluated now. -/
def Guard.branches (guard : Guard) : List Bool :=
  branchOffs decision macros around (branchOff around (guard.opening.holds decision macros guard.condition) [])
    guard.elifs guard.inElse

/-- A guard, with its branches. -/
abbrev Branched := Guard × List Bool

/-- Guards that are evaluated now, the outermost first. -/
def evaluate (around : Bool) : GuardPath → List Branched
  | [] => []
  | guard :: path =>
    let branches := guard.branches decision macros around
    (guard, branches) :: evaluate (isOn branches) path

/-- The branches around a place, from those around another: guards that look the same are kept, a conditional that may go
on to a later branch goes on, and the rest is evaluated now. -/
def carry (around : Bool) : List Branched → GuardPath → List Branched
  | [], target => evaluate decision macros around target
  | _ :: _, [] => []
  | (here, branches) :: inner, later :: target =>
    if here = later then (here, branches) :: carry (isOn branches) inner target
    else if here.isContinuedBy later then
      let branches := branchOffs decision macros around branches (later.elifs.drop here.elifs.length) later.inElse
      (later, branches) :: evaluate decision macros (isOn branches) target
    else evaluate decision macros around (later :: target)

end Guards

/-- Where the guards of two places look the same, the branches are the same, and where the one may go on to the other,
so do the branches. -/
def DecidedAlike : List Branched → List Branched → Prop
  | (here, branches) :: inner, (later, branches') :: inner' =>
    if here = later then branches = branches' ∧ DecidedAlike inner inner'
    else here.isContinuedBy later = true → branches <+: branches'
  | _, _ => True

instance decidableDecidedAlike : (here there : List Branched) → Decidable (DecidedAlike here there)
  | [], _ => .isTrue trivial
  | _ :: _, [] => .isTrue trivial
  | (here, branches) :: inner, (later, branches') :: inner' =>
    have := decidableDecidedAlike inner inner'
    inferInstanceAs (Decidable (if here = later then branches = branches' ∧ DecidedAlike inner inner'
      else here.isContinuedBy later = true → branches <+: branches'))

/-! ### Later branches -/

theorem length_branchOff (around test : Bool) (branches : List Bool) :
    (branchOff around test branches).length = branches.length + 1 := by
  rw [branchOff, List.length_append, List.length_singleton]

theorem prefix_branchOff (around test : Bool) (branches : List Bool) : branches <+: branchOff around test branches :=
  List.prefix_append _ _

/-- The number of branches up to that of a guard. -/
def Guard.place (guard : Guard) : Nat :=
  1 + guard.elifs.length + if guard.inElse then 1 else 0

section Branches

variable {decision : Decision} {macros : Macros} {around : Bool}

theorem branchOffs_append (branches : List Bool) (elifs more : List String) (inElse : Bool) :
    branchOffs decision macros around branches (elifs ++ more) inElse =
      branchOffs decision macros around (branchOffs decision macros around branches elifs false) more inElse := by
  simp [branchOffs, List.foldl_append]

theorem length_branchOffs (branches : List Bool) (elifs : List String) (inElse : Bool) :
    (branchOffs decision macros around branches elifs inElse).length =
      branches.length + elifs.length + if inElse then 1 else 0 := by
  induction elifs generalizing branches with
  | nil => cases inElse <;> simp [branchOffs, length_branchOff]
  | cons condition elifs ih =>
    have := ih (branchOff around (decision condition macros) branches)
    rw [length_branchOff] at this
    rw [List.length_cons, ← Nat.add_assoc, Nat.add_right_comm branches.length, ← this]
    rfl

theorem prefix_branchOffs (branches : List Bool) (elifs : List String) (inElse : Bool) :
    branches <+: branchOffs decision macros around branches elifs inElse := by
  induction elifs generalizing branches with
  | nil =>
    cases inElse with
    | false => exact List.prefix_refl _
    | true => exact prefix_branchOff around true branches
  | cons condition elifs ih => exact (prefix_branchOff around _ branches).trans (ih _)

theorem length_branches (guard : Guard) : (guard.branches decision macros around).length = guard.place := by
  rw [Guard.branches, length_branchOffs, length_branchOff]
  rfl

/-- A later branch of a conditional is reached from an earlier one. -/
theorem branches_of_isContinuedBy {here later : Guard} (h : here.isContinuedBy later = true) :
    later.branches decision macros around =
      branchOffs decision macros around (here.branches decision macros around) (later.elifs.drop here.elifs.length)
        later.inElse := by
  obtain ⟨-, helse, hopening, hcondition, more, hmore⟩ := Guard.isContinuedBy_iff.1 h
  rw [Guard.branches, Guard.branches, ← hmore, List.drop_left, branchOffs_append, hopening, hcondition, helse]

end Branches

/-! ### From one place to another -/

section Places

variable (decision : Decision) (macros : Macros)

/-- What one directive of a conditional does to the branches around a place, the outermost first. -/
inductive Shift : Bool → List Branched → List Branched → Prop
  | enter (around : Bool) (opening : Opening) (condition : String) :
      Shift around [] [(⟨opening, condition, [], false⟩, branchOff around (opening.holds decision macros condition) [])]
  | switch {around : Bool} {guard later : Guard} (continued : guard.isContinuedBy later = true) (branches : List Bool) :
      Shift around [(guard, branches)]
        [(later, branchOffs decision macros around branches (later.elifs.drop guard.elifs.length) later.inElse)]
  | leave (around : Bool) (innermost : Branched) : Shift around [innermost] []
  | inside {around : Bool} {guard : Guard} {branches : List Bool} {inner inner' : List Branched}
      (shift : Shift (isOn branches) inner inner') : Shift around ((guard, branches) :: inner) ((guard, branches) :: inner')

/-- The branches around a place come from those around an earlier one, with the same macros all the way. -/
inductive Reach : Bool → List Branched → List Branched → Prop
  /-- All conditionals around the later place were opened in between. -/
  | anew {around : Bool} {here : List Branched} (path : GuardPath) : Reach around here (evaluate decision macros around path)
  /-- The branch of the outermost one has not been left. -/
  | kept {around : Bool} {guard : Guard} {branches : List Bool} {inner inner' : List Branched}
      (inside : Reach (isOn branches) inner inner') : Reach around ((guard, branches) :: inner) ((guard, branches) :: inner')
  /-- The outermost one has gone on to a later branch. -/
  | switched {around : Bool} {guard later : Guard} {branches branches' : List Bool} {inner : List Branched}
      (continued : guard.isContinuedBy later = true)
      (on : branches' = branchOffs decision macros around branches (later.elifs.drop guard.elifs.length) later.inElse)
      (path : GuardPath) :
      Reach around ((guard, branches) :: inner) ((later, branches') :: evaluate decision macros (isOn branches') path)

variable {decision macros} {around : Bool} {here there behind : List Branched}

theorem map_fst_evaluate (around : Bool) (path : GuardPath) : (evaluate decision macros around path).map Prod.fst = path := by
  induction path generalizing around with
  | nil => rfl
  | cons guard path ih => simp [evaluate, ih]

/-- Guards that are evaluated now are so behind the next directive. -/
theorem Shift.evaluate (h : Shift decision macros around there behind) {path : GuardPath}
    (hthere : there = evaluate decision macros around path) : ∃ path', behind = CHeader.evaluate decision macros around path' := by
  induction h generalizing path with
  | enter around opening condition => exact ⟨[⟨opening, condition, [], false⟩], rfl⟩
  | @switch around guard later continued branches =>
    have hpath : path = [guard] := by rw [← @map_fst_evaluate decision macros around path, ← hthere]; rfl
    subst hpath
    obtain rfl : branches = guard.branches decision macros around := congrArg Prod.snd (List.cons.inj hthere).1
    exact ⟨[later], by rw [CHeader.evaluate, branches_of_isContinuedBy continued]; rfl⟩
  | leave around innermost => exact ⟨[], rfl⟩
  | @inside around guard branches inner inner' shift ih =>
    cases path with
    | nil => cases hthere
    | cons first path =>
      obtain ⟨hfirst, hinner⟩ := List.cons.inj hthere
      obtain ⟨rfl, rfl⟩ := Prod.mk.inj hfirst
      obtain ⟨path', rfl⟩ := ih hinner
      exact ⟨guard :: path', rfl⟩

theorem branchOffs_drop {guard later last : Guard} (h : guard.isContinuedBy later = true)
    (h' : later.isContinuedBy last = true) (branches : List Bool) :
    branchOffs decision macros around branches (last.elifs.drop guard.elifs.length) last.inElse =
      branchOffs decision macros around
        (branchOffs decision macros around branches (later.elifs.drop guard.elifs.length) later.inElse)
        (last.elifs.drop later.elifs.length) last.inElse := by
  obtain ⟨-, -, -, -, more, hmore⟩ := Guard.isContinuedBy_iff.1 h
  obtain ⟨-, helse', -, -, more', hmore'⟩ := Guard.isContinuedBy_iff.1 h'
  rw [← hmore', ← hmore, List.append_assoc, List.drop_left, List.drop_left, ← List.append_assoc, List.drop_left,
    branchOffs_append, helse']

/-- What comes from an earlier place comes from it behind the next directive, too. -/
theorem Reach.shift (h : Reach decision macros around here there) (hshift : Shift decision macros around there behind) :
    Reach decision macros around here behind := by
  induction h generalizing behind with
  | anew path =>
    obtain ⟨path', rfl⟩ := hshift.evaluate rfl
    exact .anew path'
  | @kept around guard branches inner inner' inside ih =>
    cases hshift with
    | switch continued => exact .switched continued rfl []
    | leave => exact .anew []
    | inside shift => exact .kept (ih shift)
  | @switched around guard later branches branches' inner continued on path =>
    generalize hinside : evaluate decision macros (isOn branches') path = inside at hshift
    cases hshift with
    | switch continued' =>
      exact .switched (Guard.isContinuedBy_trans continued continued') (by rw [on, branchOffs_drop continued continued']) []
    | leave => exact .anew []
    | inside shift =>
      obtain ⟨path', rfl⟩ := shift.evaluate hinside.symm
      exact .switched continued on path'

theorem Reach.refl (around : Bool) (here : List Branched) : Reach decision macros around here here := by
  induction here generalizing around with
  | nil => exact .anew []
  | cons innermost here ih => exact .kept (ih _)

/-- There are as many branches as the guards tell of. -/
def Aligned (here : List Branched) : Prop :=
  ∀ conditional ∈ here, conditional.2.length = conditional.1.place

/-- Where conditionals that look the same are decided alike, the branches are carried from one place to the other. -/
theorem Reach.eq_carry (h : Reach decision macros around here there) (haligned : Aligned here)
    (halike : DecidedAlike here there) : there = carry decision macros around here (there.map Prod.fst) := by
  induction h with
  | @anew around here path =>
    rw [map_fst_evaluate]
    induction here generalizing around path with
    | nil => rfl
    | cons first inner ih =>
      obtain ⟨guard, branches⟩ := first
      obtain ⟨hfirst, hinner⟩ := List.forall_mem_cons.1 haligned
      cases path with
      | nil => rfl
      | cons later path =>
        rw [evaluate, DecidedAlike] at halike
        rw [evaluate, carry]
        split_ifs at halike ⊢ with hsame hcontinued
        · subst hsame
          obtain ⟨hbranches, hinside⟩ := halike
          rw [← hbranches] at hinside ⊢
          rw [← ih path hinner hinside]
        · have hbranches : branches = guard.branches decision macros around := by
            have hprefix := halike hcontinued
            rw [branches_of_isContinuedBy hcontinued] at hprefix
            refine (List.prefix_of_prefix_length_le hprefix (prefix_branchOffs _ _ _) ?_).eq_of_length ?_
            · rw [hfirst, length_branches]
            · rw [hfirst, length_branches]
          rw [hbranches, ← branches_of_isContinuedBy hcontinued]
        · rfl
  | @kept around guard branches inner inner' inside ih =>
    rw [DecidedAlike, if_pos rfl] at halike
    rw [List.map_cons, carry, if_pos rfl, ← ih (List.forall_mem_cons.1 haligned).2 halike.2]
  | switched continued on path =>
    rw [List.map_cons, map_fst_evaluate, carry, if_neg (Guard.isContinuedBy_iff.1 continued).1, if_pos continued, on]

/-- With the same macros, conditionals that look the same are decided alike. -/
theorem decidedAlike_evaluate (around : Bool) (path target : GuardPath) :
    DecidedAlike (evaluate decision macros around path) (evaluate decision macros around target) := by
  induction path generalizing around target with
  | nil => trivial
  | cons guard path ih =>
    cases target with
    | nil => trivial
    | cons later target =>
      rw [evaluate, evaluate, DecidedAlike]
      split_ifs with hsame
      · subst hsame
        exact ⟨rfl, ih _ target⟩
      · intro hcontinued
        rw [branches_of_isContinuedBy hcontinued]
        exact prefix_branchOffs _ _ _

end Places

end CHeader
