import CHeader.Conditional
import Mathlib.Tactic.SplitIfs

/-!
# Steps of a tracker

A directive that fits opens a conditional, goes to another branch of the innermost one, closes that one, or belongs to no
conditional. `Tracker.Steps` says for each of these when it fits and what is open behind it.
-/

namespace CHeader

theorem Token.kind_of_directive? {token : Token} {directive : Directive} (h : token.directive? = some directive) :
    token.kind = .directive directive := by
  unfold directive? at h
  split at h <;> simp_all

theorem DirectiveKind.isConditional_of_defines {kind : DirectiveKind} (h : kind = .define ∨ kind = .undef) :
    kind.isConditional = false := by
  rcases h with rfl | rfl <;> rfl

namespace Tracker

/-- What is open behind a directive that fits. -/
inductive Steps (t : Tracker) (directive : Directive) (line : Nat) (span : Span) : Tracker → Prop
  | opened {opening : Opening} (kind : directive.kind = .opening opening) (condition : directive.args ≠ "") :
      Steps t directive line span (t.opened opening directive.args line span)
  | elif {top : OpenConditional} {outer : List OpenConditional} (kind : directive.kind = .elif)
      (condition : directive.args ≠ "") (stack : t.stack = top :: outer) (branch : top.guard.inElse = false)
      (ordinary : top.block = none) :
      Steps t directive line span
        { t with stack := { top with guard := { top.guard with elifs := top.guard.elifs ++ [directive.args] } } :: outer }
  | otherwise {top : OpenConditional} {outer : List OpenConditional} (kind : directive.kind = .otherwise)
      (stack : t.stack = top :: outer) (branch : top.guard.inElse = false) :
      Steps t directive line span { t with stack := { top with guard := { top.guard with inElse := true } } :: outer }
  | endif {top : OpenConditional} {outer : List OpenConditional} (kind : directive.kind = .endif)
      (stack : t.stack = top :: outer) : Steps t directive line span { t with stack := outer }
  | other (kind : directive.kind.isConditional = false) : Steps t directive line span t

variable {t behind : Tracker} {directive : Directive} {line : Nat} {span : Span}

theorem innermost_eq_ok_iff {branch : Branch} {top : OpenConditional} {outer : List OpenConditional} :
    t.innermost branch = .ok (top, outer) ↔ t.stack = top :: outer ∧ top.guard.inElse = false := by
  unfold innermost
  split
  · simp [*]
  · rename_i found behind hstack
    rw [hstack]
    split_ifs with helse
    · constructor
      · intro h
        cases h
      · rintro ⟨h, hbranch⟩
        cases h
        rw [helse] at hbranch
        cases hbranch
    · constructor
      · intro h
        cases h
        exact ⟨rfl, by simpa using helse⟩
      · rintro ⟨h, -⟩
        cases h
        rfl

theorem Steps.step_eq_ok (h : t.Steps directive line span behind) : t.step directive line span = .ok behind := by
  cases h with
  | opened kind condition => simp [step, kind, condition]
  | elif kind condition stack branch ordinary =>
    simp [step, kind, condition, innermost_eq_ok_iff.2 ⟨stack, branch⟩, ordinary, bind, Except.bind]
  | otherwise kind stack branch => simp [step, kind, innermost_eq_ok_iff.2 ⟨stack, branch⟩, bind, Except.bind]
  | endif kind stack => simp [step, kind, stack]
  | other kind =>
    unfold DirectiveKind.isConditional at kind
    unfold step
    split at kind <;> simp_all

/-- A directive fits as one of the steps. -/
theorem steps_of_step_eq_ok (h : t.step directive line span = .ok behind) : t.Steps directive line span behind := by
  unfold step at h
  split at h
  case h_1 opening kind =>
    split_ifs at h with condition
    cases h
    exact .opened kind condition
  case h_2 kind =>
    split_ifs at h with condition
    cases hinner : t.innermost .elif with
    | error fault => simp [hinner, bind, Except.bind] at h
    | ok found =>
      obtain ⟨stack, branch⟩ := innermost_eq_ok_iff.1 hinner
      simp only [hinner, bind, Except.bind] at h
      split_ifs at h with hblock
      cases h
      exact .elif kind condition stack branch (by simpa using hblock)
  case h_3 kind =>
    cases hinner : t.innermost .otherwise with
    | error fault => simp [hinner, bind, Except.bind] at h
    | ok found =>
      obtain ⟨stack, branch⟩ := innermost_eq_ok_iff.1 hinner
      simp only [hinner, bind, Except.bind] at h
      cases h
      exact .otherwise kind stack branch
  case h_4 kind =>
    split at h <;> cases h
    rename_i stack
    exact .endif kind stack
  case h_5 hopening helif hotherwise hendif =>
    cases h
    refine .other ?_
    unfold DirectiveKind.isConditional
    split
    · exact absurd ‹_› (hopening _)
    · exact absurd ‹_› helif
    · exact absurd ‹_› hotherwise
    · exact absurd ‹_› hendif
    · rfl

/-- Directives that belong to no conditional change nothing. -/
theorem Steps.eq_of_not_isConditional (h : t.Steps directive line span behind) (hother : directive.kind.isConditional = false) :
    behind = t := by
  cases h with
  | opened kind | elif kind | otherwise kind | endif kind => simp [kind, DirectiveKind.isConditional] at hother
  | other => rfl

theorem recognizeBlocks_step (h : t.step directive line span = .ok behind) : behind.recognizeBlocks = t.recognizeBlocks := by
  cases steps_of_step_eq_ok h <;> rfl

/-! ### Tokens -/

variable {token : Token} {first rest : List Token}

theorem pass_of_directive?_eq_none (h : token.directive? = none) : t.pass token = .ok t := by
  rw [pass, h]

theorem pass_eq_ok_iff (h : token.directive? = some directive) :
    t.pass token = .ok behind ↔ t.step directive token.line token.span = .ok behind := by
  rw [pass, h]
  simp only [process]
  cases t.step directive token.line token.span <;> simp

theorem passAll_append (t : Tracker) (first rest : List Token) :
    t.passAll (first ++ rest) = (t.passAll first).bind (passAll · rest) := by
  simp [passAll, List.foldlM_append, bind]

theorem passAll_singleton (t : Tracker) (token : Token) : t.passAll [token] = t.pass token := by
  simp [passAll, pure, Except.pure, bind, Except.bind]
  cases t.pass token <;> rfl

theorem passAll_cons (t : Tracker) (token : Token) (rest : List Token) :
    t.passAll (token :: rest) = (t.pass token).bind (passAll · rest) := by
  rw [← List.singleton_append, passAll_append, passAll_singleton]

theorem passAll_append_eq_ok_iff :
    t.passAll (first ++ rest) = .ok behind ↔ ∃ between, t.passAll first = .ok between ∧ between.passAll rest = .ok behind := by
  rw [passAll_append]
  cases t.passAll first <;> simp [Except.bind]

theorem passAll_cons_eq_ok_iff :
    t.passAll (token :: rest) = .ok behind ↔ ∃ between, t.pass token = .ok between ∧ between.passAll rest = .ok behind := by
  rw [passAll_cons]
  cases t.pass token <;> simp [Except.bind]

theorem recognizeBlocks_passAll {tokens : List Token} (h : t.passAll tokens = .ok behind) :
    behind.recognizeBlocks = t.recognizeBlocks := by
  induction tokens generalizing t with
  | nil =>
    cases h
    rfl
  | cons token tokens ih =>
    obtain ⟨between, hfirst, hrest⟩ := passAll_cons_eq_ok_iff.1 h
    rw [ih hrest]
    cases hdirective : token.directive? with
    | none =>
      rw [pass_of_directive?_eq_none hdirective] at hfirst
      cases hfirst
      rfl
    | some directive => exact recognizeBlocks_step ((pass_eq_ok_iff hdirective).1 hfirst)

/-- Tokens with no conditionals change nothing. -/
theorem passAll_of_not_isConditional {tokens : List Token}
    (h : ∀ directive ∈ tokens.filterMap Token.directive?, directive.kind.isConditional = false) : t.passAll tokens = .ok t := by
  induction tokens with
  | nil => rfl
  | cons token tokens ih =>
    refine passAll_cons_eq_ok_iff.2 ⟨t, ?_, ih fun directive hdirective => h directive ?_⟩
    · cases hdirective : token.directive? with
      | none => exact pass_of_directive?_eq_none hdirective
      | some directive =>
        refine (pass_eq_ok_iff hdirective).2 (Steps.other (h directive ?_)).step_eq_ok
        rw [List.filterMap_cons_some hdirective]
        exact List.mem_cons_self
    · rw [List.filterMap_cons]
      split
      · exact hdirective
      · exact List.mem_cons_of_mem _ hdirective

/-- Where nothing is a directive, the conditionals stay as they are. -/
theorem passAll_of_noDirectives {tokens : List Token} (h : ∀ token ∈ tokens, token.directive? = none) :
    t.passAll tokens = .ok t := by
  have hnone : tokens.filterMap Token.directive? = [] := List.filterMap_eq_nil_iff.2 h
  exact passAll_of_not_isConditional (by simp [hnone])

end Tracker

end CHeader
