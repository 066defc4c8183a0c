import CHeader.Proofs.GuardLines
import CHeader.Proofs.Transition

/-!
# What an emitter writes

An `Emitter` goes through the declarations one by one and keeps the guards that are open. What it
writes is said at once by `Emission.lines`: the entries of the header, each behind the lines that
lead to its guards from those of the entry before it. What the emitter did before has no part in it.
-/

namespace CHeader

namespace Emission

/-- The entries of a list that are unlike the one before them, the first unlike `previous`. -/
def behind [DecidableEq α] (previous : Option α) : List α → List α
  | [] => []
  | a :: rest => if previous = some a then behind previous rest else a :: behind (some a) rest

theorem collapse_cons [DecidableEq α] (a : α) (rest : List α) :
    collapse (a :: rest) = a :: behind (some a) rest := by
  induction rest generalizing a with
  | nil => rfl
  | cons b rest ih =>
    by_cases h : a = b
    · subst h
      simp [collapse, behind, ih]
    · simp [collapse, behind, ih, h]

theorem mem_of_mem_collapse [DecidableEq α] {a : α} {as : List α} (h : a ∈ collapse as) : a ∈ as := by
  fun_induction collapse as with
  | case1 | case2 => exact h
  | case3 b rest ih => exact List.mem_cons_of_mem _ (ih h)
  | case4 b c rest _ ih =>
    rcases List.mem_cons.1 h with rfl | h
    · exact List.mem_cons_self
    · exact List.mem_cons_of_mem _ (ih h)

theorem collapse_eq_behind [DecidableEq α] (as : List α) : collapse as = behind none as := by
  cases as with
  | nil => rfl
  | cons a rest => simp [collapse_cons, behind]

end Emission

namespace Emitter

open Emission

theorem foldl_take (e : Emitter) (steps : List GuardStep) :
    steps.foldl take e =
      ⟨((steps.flatMap GuardStep.lines).map .directive).reverse ++ e.written, steps.foldl GuardStep.apply e.opened⟩ := by
  induction steps generalizing e with
  | nil => rfl
  | cons step steps ih => simp [ih, take]

/-- Moving writes the lines that lead to the target, and stands there. -/
theorem moveTo_eq (e : Emitter) (target : GuardPath) :
    e.moveTo target = ⟨(moveLines e.opened target).reverse ++ e.written, target⟩ := by
  have h := foldl_apply_of_walk? (walk?_transition [] e.opened target)
  simp only [List.nil_append] at h
  rw [moveTo, foldl_take, h, moveLines]

theorem written_writeAll (list : DeclarationList) (e : Emitter) (previous : Option (GuardPath × String))
    (ds : List Declaration) :
    (e.writeAll list previous ds).written.reverse = e.written.reverse ++ lines e.opened
      (behind previous
        ((ds.filter (list.effectiveVisibility · = .interface)).map fun d => (d.guard, d.text.text))) := by
  induction ds generalizing e previous with
  | nil => simp [writeAll, moveTo_eq, behind, lines]
  | cons d ds ih =>
    have hother : list.effectiveVisibility d ≠ .internal → list.effectiveVisibility d = .interface := by
      cases list.effectiveVisibility d <;> simp
    rw [writeAll]
    split_ifs with hinternal hrepeated
    · simp [ih, hinternal]
    · simp [ih, hother hinternal, behind, hrepeated]
    · simp [ih, hother hinternal, behind, hrepeated, declare, moveTo_eq, lines]

/-- The lines of a header are its entries under their guards. -/
theorem emit_fst (e : Emitter) (list : DeclarationList) : (e.emit list).1 = lines [] (entries list) := by
  simp [emit, written_writeAll, entries, collapse_eq_behind, DeclarationList.visible]

end Emitter

theorem Emission.emit_eq_lines (list : DeclarationList) : emit list = lines [] (entries list) :=
  Emitter.emit_fst {} list

end CHeader
