import CHeader.Emission
import CHeader.Proofs.Checked.Scanning

/-!
# Writing by position

The steps between two guard paths are found by the number of guards that both begin with, and every look-up and every
slice at that number is checked (`transition?`). Nothing fails, and the header is that of `Emission.render`
(`render?_eq`).
-/

namespace CHeader.Checked

/-- Whether the guards of `target` go on in a later branch of the first conditional that differs. -/
def continues? (opened target : GuardPath) (common : Nat) : Option Bool :=
  if common < opened.length ∧ common < target.length then do
    let here ← opened[common]?
    let later ← target[common]?
    some (here.isContinuedBy later)
  else some false

/-- The step to that branch. -/
def switch? (opened target : GuardPath) (common : Nat) : Option GuardStep := do
  let here ← opened[common]?
  let later ← target[common]?
  some (.switch here later)

/-- The steps from the guards that are open to those of `target`. -/
def transition? (opened target : GuardPath) : Option (List GuardStep) := do
  let common := commonLength opened target
  if ← continues? opened target common then do
    let step ← switch? opened target common
    let entered ← from? (common + 1) target
    some (List.replicate (opened.length - (common + 1)) .close ++ step :: entered.map .enter)
  else do
    let entered ← from? common target
    some (List.replicate (opened.length - common) .close ++ entered.map .enter)

/-- The directive lines that lead to the branch of `later`. -/
def continuationLines? (guard later : Guard) : Option (List String) := do
  let passed ← from? (min guard.elifs.length later.elifs.length) later.elifs
  some (Guard.branchLines passed later.inElse)

/-- The directive lines that take a step. -/
def stepLines? : GuardStep → Option (List String)
  | .close => some ["#endif"]
  | .enter guard => some guard.openingLines
  | .switch here later => continuationLines? here later

/-- Take a step. -/
def takeStep? (e : Emitter) (step : GuardStep) : Option Emitter := do
  let lines ← stepLines? step
  some { written := (lines.map .directive).reverse ++ e.written, opened := step.apply e.opened }

/-- Go to the guards of `target`. -/
def moveTo? (e : Emitter) (target : GuardPath) : Option Emitter := do
  let steps ← transition? e.opened target
  steps.foldlM takeStep? e

/-- Write declarations of `list` behind the one that `previous` tells of, and close what is open. -/
def writeAll? (list : DeclarationList) (e : Emitter) (previous : Option (GuardPath × String)) :
    List Declaration → Option Emitter
  | [] => moveTo? e []
  | d :: ds =>
    if list.effectiveVisibility d = .internal then writeAll? list e previous ds
    else if previous = some (d.guard, d.text.text) then writeAll? list e previous ds
    else do
      let e ← moveTo? e d.guard
      writeAll? list { e with written := .declaration d.text.text :: e.written } (some (d.guard, d.text.text)) ds

/-- The header; its last line has no end. -/
def render? (list : DeclarationList) : Option String := do
  let e ← writeAll? list {} none list.items
  some ("\n".intercalate (e.written.reverse.map HeaderLine.text))

section Writing

variable {opened target : GuardPath}

theorem continues?_cons (guard : Guard) (opened target : GuardPath) (common : Nat) :
    continues? (guard :: opened) (guard :: target) (1 + common) = continues? opened target common := by
  simp [continues?, Nat.add_comm 1 common]

theorem switch?_cons (guard : Guard) (opened target : GuardPath) (common : Nat) :
    switch? (guard :: opened) (guard :: target) (1 + common) = switch? opened target common := by
  simp [switch?, Nat.add_comm 1 common]

theorem from?_cons {α : Type} (x : α) (xs : List α) (i : Nat) : from? (1 + i) (x :: xs) = from? i xs := by
  simp [from?, Nat.add_comm 1 i]

/-- A guard that both paths begin with stays open. -/
theorem transition?_cons (guard : Guard) (opened target : GuardPath) :
    transition? (guard :: opened) (guard :: target) = transition? opened target := by
  have hlength : ∀ n, (guard :: opened).length - (1 + n) = opened.length - n := by
    intro n
    rw [List.length_cons]
    omega
  simp only [transition?, commonLength, if_true, continues?_cons, switch?_cons, Nat.add_assoc, from?_cons, hlength]

theorem transition?_eq (opened target : GuardPath) : transition? opened target = some (transition opened target) := by
  fun_induction transition opened target with
  | case1 target => simp [transition?, commonLength, continues?, from?]
  | case2 here inner => simp [transition?, commonLength, continues?, from?, List.map_const', List.replicate_succ]
  | case3 inner later target ih => rw [transition?_cons, ih]
  | case4 here inner later target hne hcontinues =>
    have hcommon : commonLength (here :: inner) (later :: target) = 0 := by rw [commonLength, if_neg hne]
    simp [transition?, hcommon, continues?, switch?, from?, hcontinues, List.map_const']
  | case5 here inner later target hne hcontinues =>
    have hcommon : commonLength (here :: inner) (later :: target) = 0 := by rw [commonLength, if_neg hne]
    simp [transition?, hcommon, continues?, from?, hcontinues, List.map_const', List.replicate_succ]

theorem continuationLines?_eq (guard later : Guard) : continuationLines? guard later = some (guard.continuationLines later) := by
  have hdrop : later.elifs.drop (min guard.elifs.length later.elifs.length) = later.elifs.drop guard.elifs.length :=
    List.drop_eq_drop_iff.2 (by omega)
  rw [continuationLines?, from?, if_pos (Nat.min_le_right _ _), hdrop]
  rfl

theorem stepLines?_eq (step : GuardStep) : stepLines? step = some step.lines := by
  cases step with
  | close => rfl
  | enter guard => rfl
  | switch here later => exact continuationLines?_eq here later

theorem takeStep?_eq (e : Emitter) (step : GuardStep) : takeStep? e step = some (e.take step) := by
  rw [takeStep?, stepLines?_eq]
  rfl

theorem moveTo?_eq (e : Emitter) (target : GuardPath) : moveTo? e target = some (e.moveTo target) := by
  rw [moveTo?, transition?_eq, Emitter.moveTo]
  have htake : takeStep? = fun e step => some (e.take step) := by
    funext e step
    exact takeStep?_eq e step
  rw [htake]
  exact List.foldlM_pure

theorem writeAll?_eq (list : DeclarationList) (e : Emitter) (previous : Option (GuardPath × String)) (ds : List Declaration) :
    writeAll? list e previous ds = some (e.writeAll list previous ds) := by
  fun_induction Emitter.writeAll list e previous ds with
  | case1 e previous => exact moveTo?_eq e []
  | case2 e previous d ds hinternal ih => rw [writeAll?, if_pos hinternal, ih]
  | case3 e d ds hvisible ih => rw [writeAll?, if_neg hvisible, if_pos rfl, ih]
  | case4 e previous d ds hvisible hnew ih =>
    rw [writeAll?, if_neg hvisible, if_neg hnew, moveTo?_eq]
    exact ih

/-- Nothing fails in writing a header. -/
theorem render?_eq (list : DeclarationList) : render? list = some (Emission.render list) := by
  rw [render?, writeAll?_eq]
  rfl

end Writing

end CHeader.Checked
