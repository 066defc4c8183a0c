import CHeader.Proofs.GuardReplay

/-!
# The grammar of conditionals

Conditional directives fit together as brackets do: a conditional is opened, may go on to `#elif` branches and
then to an `#else` branch, and is closed by `#endif`; within a branch stand other directives and whole conditionals.
A `Group` is a derivation of this grammar, and `Group.Admitted` says what is asked of its conditions. A tracker takes
in exactly the directives that have a derivation, and the guards that it knows at a place are those of the conditionals
that the derivation puts around it (`accepted_iff_derived`).
-/

namespace CHeader

/-- Whether a line opens a block that marks its declarations and guards nothing. -/
def opensBlock (blocks : Bool) (opening : Opening) (condition : String) : Bool :=
  blocks && opening = .expression && ["INTERFACE", "EXPORT_INTERFACE", "LOCAL_INTERFACE"].contains condition

mutual
/-- Directives at one level: others, and whole conditionals. -/
inductive Group
  | empty
  | other (directive : Directive) (rest : Group)
  | conditional (opening : Opening) (condition : String) (body : Group) (branches : Branches) (rest : Group)

/-- What follows the first branch of a conditional, through its `#endif`. -/
inductive Branches
  | elif (condition : String) (body : Group) (later : Branches)
  | otherwise (args : String) (body : Group) (endArgs : String)
  | endif (args : String)
end

mutual
/-- The directives that are derived. -/
def Group.directives : Group → List Directive
  | .empty => []
  | .other directive rest => directive :: rest.directives
  | .conditional opening condition body branches rest =>
    ⟨.opening opening, condition⟩ :: (body.directives ++ (branches.directives ++ rest.directives))

/-- The directives of the branches. -/
def Branches.directives : Branches → List Directive
  | .elif condition body later => ⟨.elif, condition⟩ :: (body.directives ++ later.directives)
  | .otherwise args body endArgs => ⟨.otherwise, args⟩ :: (body.directives ++ [⟨.endif, endArgs⟩])
  | .endif args => [⟨.endif, args⟩]
end

mutual
/-- Conditions are not empty, an interface block has no `#elif`, and other directives are no conditionals. -/
def Group.Admitted (blocks : Bool) : Group → Prop
  | .empty => True
  | .other directive rest => directive.kind.isConditional = false ∧ rest.Admitted blocks
  | .conditional opening condition body branches rest =>
    condition ≠ "" ∧ body.Admitted blocks ∧ branches.Admitted blocks (opensBlock blocks opening condition) ∧
      rest.Admitted blocks

/-- The same of the branches of a conditional, which is an interface block or not. -/
def Branches.Admitted (blocks inBlock : Bool) : Branches → Prop
  | .elif condition body later =>
    inBlock = false ∧ condition ≠ "" ∧ body.Admitted blocks ∧ later.Admitted blocks inBlock
  | .otherwise _ body _ => body.Admitted blocks
  | .endif _ => True
end

/-- The guards in a branch, under those of `outer`; an interface block is none. -/
def branchPath (outer : GuardPath) (inBlock : Bool) (guard : Guard) : GuardPath :=
  if inBlock then outer else outer ++ [guard]

mutual
/-- Behind each directive the conditionals around it, under the guards of `outer`. -/
def Group.paths (blocks : Bool) (outer : GuardPath) : Group → List GuardPath
  | .empty => []
  | .other _ rest => outer :: rest.paths blocks outer
  | .conditional opening condition body branches rest =>
    let inBlock := opensBlock blocks opening condition
    let here := branchPath outer inBlock { opening, condition }
    here :: (body.paths blocks here ++
      (branches.paths blocks outer inBlock { opening, condition } ++ rest.paths blocks outer))

/-- The same behind the directives of a conditional that has come to the branch of `guard`. -/
def Branches.paths (blocks : Bool) (outer : GuardPath) (inBlock : Bool) (guard : Guard) : Branches → List GuardPath
  | .elif condition body later =>
    let guard := { guard with elifs := guard.elifs ++ [condition] }
    let here := branchPath outer inBlock guard
    here :: (body.paths blocks here ++ later.paths blocks outer inBlock guard)
  | .otherwise _ body _ =>
    let here := branchPath outer inBlock { guard with inElse := true }
    here :: (body.paths blocks here ++ [outer])
  | .endif _ => [outer]
end

namespace Tracker

/-! ### Places that a tracker comes to -/

/-- The directives lead to `behind`, under the guards of `paths` behind each of them. -/
inductive Visits : Tracker → List Placed → List GuardPath → Tracker → Prop
  | nil (t : Tracker) : Visits t [] [] t
  | cons {t between behind : Tracker} {directive : Directive} {line : Nat} {span : Span} {placed : List Placed}
      {paths : List GuardPath} (step : t.step directive line span = .ok between)
      (rest : Visits between placed paths behind) :
      Visits t ((directive, line, span) :: placed) (between.guardPath :: paths) behind

theorem Visits.append {t between behind : Tracker} {first rest : List Placed} {paths paths' : List GuardPath}
    (hfirst : Visits t first paths between) (hrest : Visits between rest paths' behind) :
    Visits t (first ++ rest) (paths ++ paths') behind := by
  induction hfirst with
  | nil => exact hrest
  | cons hstep _ ih => exact .cons hstep (ih hrest)

theorem Visits.processAll {t behind : Tracker} {placed : List Placed} {paths : List GuardPath}
    (h : Visits t placed paths behind) : t.processAll placed = (behind, none) := by
  induction h with
  | nil => rfl
  | cons hstep _ ih => simp only [Tracker.processAll, process, hstep, ih]

/-- At every place the guards are those that are noted. -/
theorem Visits.take {t behind : Tracker} {placed : List Placed} {paths : List GuardPath}
    (h : Visits t placed paths behind) {n : Nat} (hn : n ≤ placed.length) :
    ∃ here, t.processAll (placed.take n) = (here, none) ∧ (t.guardPath :: paths)[n]? = some here.guardPath := by
  induction h generalizing n with
  | nil t =>
    obtain rfl : n = 0 := Nat.le_zero.1 hn
    exact ⟨t, rfl, rfl⟩
  | @cons t _ _ _ _ _ _ _ hstep _ ih =>
    cases n with
    | zero => exact ⟨t, rfl, rfl⟩
    | succ n =>
      obtain ⟨here, hhere, hpath⟩ := ih (Nat.le_of_succ_le_succ hn)
      refine ⟨here, ?_, hpath⟩
      simp only [List.take_succ_cons, Tracker.processAll, process, hstep, hhere]

theorem blockOf?_isSome (t : Tracker) (opening : Opening) (condition : String) :
    (t.blockOf? opening condition).isSome = opensBlock t.recognizeBlocks opening condition := by
  unfold blockOf? opensBlock InterfaceBlock.ofCondition?
  by_cases hopening : (t.recognizeBlocks && opening = .expression) = true
  · simp only [hopening, if_true, Bool.true_and, List.contains_cons, List.contains_nil, Bool.or_false]
    split_ifs <;> simp_all
  · simp [hopening]

/-- The guards around the innermost branch. -/
theorem guardPath_cons (t : Tracker) (top : OpenConditional) (outer : List OpenConditional) :
    ({ t with stack := top :: outer } : Tracker).guardPath =
      branchPath ({ t with stack := outer } : Tracker).guardPath top.block.isSome top.guard := by
  unfold guardPath branchPath
  cases hblock : top.block <;> simp [hblock]

end Tracker

/-! ### What is derived is taken in -/

open Tracker (Visits Placed)

mutual
/-- A tracker comes through a derivation, and stands behind it where it stood before. -/
theorem Group.visits (g : Group) {t : Tracker} (h : g.Admitted t.recognizeBlocks) {placed : List Placed}
    (hplaced : placed.map Prod.fst = g.directives) :
    Visits t placed (g.paths t.recognizeBlocks t.guardPath) t := by
  cases g with
  | empty =>
    obtain rfl : placed = [] := by simpa [Group.directives] using hplaced
    exact .nil t
  | other directive rest =>
    obtain ⟨hkind, hrest⟩ := h
    obtain ⟨⟨_, line, span⟩, behind, rfl, rfl, hbehind⟩ := List.map_eq_cons_iff.1 hplaced
    refine .cons ?_ (rest.visits hrest hbehind)
    unfold DirectiveKind.isConditional at hkind
    unfold Tracker.step
    split at hkind <;> simp_all
  | conditional opening condition body branches rest =>
    obtain ⟨hcondition, hbody, hbranches, hrest⟩ := h
    obtain ⟨⟨_, line, span⟩, _, rfl, rfl, hsplit⟩ := List.map_eq_cons_iff.1 hplaced
    obtain ⟨inner, _, rfl, hinner, hsplit⟩ := List.map_eq_append_iff.1 hsplit
    obtain ⟨between, behind, rfl, hbetween, hbehind⟩ := List.map_eq_append_iff.1 hsplit
    have hstep : t.step ⟨.opening opening, condition⟩ line span = .ok (t.opened opening condition line span) := by
      simp [Tracker.step, hcondition]
    have hblock := t.blockOf?_isSome opening condition
    have hpath := t.guardPath_cons ⟨{ opening, condition }, line, span, t.blockOf? opening condition⟩ t.stack
    rw [hblock] at hpath
    have hbody' := @Group.visits body (t.opened opening condition line span) hbody _ hinner
    have hbranches' := @Branches.visits branches (t.opened opening condition line span) _ _ rfl _ hblock rfl hbranches _ hbetween
    rw [Group.paths, ← hpath]
    exact .cons hstep (hbody'.append (hbranches'.append (rest.visits hrest hbehind)))

/-- From a branch of a conditional, a tracker comes through the later ones and out of the conditional. -/
theorem Branches.visits (b : Branches) {t : Tracker} {top : OpenConditional} {outer : List OpenConditional}
    (hstack : t.stack = top :: outer) {inBlock : Bool} (hblock : top.block.isSome = inBlock)
    (hbranch : top.guard.inElse = false) (h : b.Admitted t.recognizeBlocks inBlock) {placed : List Placed}
    (hplaced : placed.map Prod.fst = b.directives) :
    Visits t placed (b.paths t.recognizeBlocks ({ t with stack := outer } : Tracker).guardPath inBlock top.guard)
      { t with stack := outer } := by
  cases b with
  | elif condition body later =>
    obtain ⟨rfl, hcondition, hbody, hlater⟩ := h
    obtain ⟨⟨_, line, span⟩, _, rfl, rfl, hsplit⟩ := List.map_eq_cons_iff.1 hplaced
    obtain ⟨inner, behind, rfl, hinner, hbehind⟩ := List.map_eq_append_iff.1 hsplit
    let next : OpenConditional := { top with guard := { top.guard with elifs := top.guard.elifs ++ [condition] } }
    have hstep : t.step ⟨.elif, condition⟩ line span = .ok { t with stack := next :: outer } := by
      simp [Tracker.step, Tracker.innermost, hcondition, hstack, hbranch, hblock, bind, Except.bind, next]
    have hpath := t.guardPath_cons next outer
    rw [show next.block.isSome = false from hblock] at hpath
    have hbody' := @Group.visits body { t with stack := next :: outer } hbody _ hinner
    have hlater' := @Branches.visits later { t with stack := next :: outer } next outer rfl _ hblock hbranch hlater _ hbehind
    show Visits t _ (branchPath _ false next.guard :: (body.paths _ (branchPath _ false next.guard) ++ _)) _
    rw [← hpath]
    exact .cons hstep (hbody'.append hlater')
  | otherwise args body endArgs =>
    obtain ⟨⟨_, line, span⟩, _, rfl, rfl, hsplit⟩ := List.map_eq_cons_iff.1 hplaced
    obtain ⟨inner, _, rfl, hinner, hend⟩ := List.map_eq_append_iff.1 hsplit
    obtain ⟨⟨_, line', span'⟩, rfl, rfl⟩ := List.map_eq_singleton_iff.1 hend
    let next : OpenConditional := { top with guard := { top.guard with inElse := true } }
    have hstep : t.step ⟨.otherwise, args⟩ line span = .ok { t with stack := next :: outer } := by
      simp [Tracker.step, Tracker.innermost, hstack, hbranch, bind, Except.bind, next]
    have hclose : ({ t with stack := next :: outer } : Tracker).step ⟨.endif, endArgs⟩ line' span' =
        .ok { t with stack := outer } := rfl
    have hpath := t.guardPath_cons next outer
    rw [show next.block.isSome = inBlock from hblock] at hpath
    have hbody' := @Group.visits body { t with stack := next :: outer } h _ hinner
    show Visits t _ (branchPath _ inBlock next.guard :: (body.paths _ (branchPath _ inBlock next.guard) ++ _)) _
    rw [← hpath]
    exact .cons hstep (hbody'.append (.cons hclose (.nil _)))
  | endif args =>
    obtain ⟨⟨_, line, span⟩, rfl, rfl⟩ := List.map_eq_singleton_iff.1 hplaced
    have hstep : t.step ⟨.endif, args⟩ line span = .ok { t with stack := outer } := by
      simp only [Tracker.step, hstack]
    exact .cons hstep (.nil _)
end

/-! ### What is taken in is derived -/

/-- The directives derive from the grammar if they begin inside of these conditionals: a group, and then for each of
the conditionals, the innermost first, branches that it may still have and a group behind it. -/
def Closes (blocks : Bool) : List OpenConditional → List Directive → Prop
  | [], directives => ∃ g : Group, g.Admitted blocks ∧ directives = g.directives
  | top :: outer, directives => ∃ (body : Group) (branches : Branches) (rest : List Directive),
      body.Admitted blocks ∧ branches.Admitted blocks top.block.isSome ∧
      (top.guard.inElse = true → ∃ args, branches = .endif args) ∧
      directives = body.directives ++ (branches.directives ++ rest) ∧ Closes blocks outer rest

namespace Closes

variable {blocks : Bool} {stack outer : List OpenConditional} {top : OpenConditional} {directives : List Directive}

/-- Another directive may stand before. -/
theorem other (h : Closes blocks stack directives) {directive : Directive} (hkind : directive.kind.isConditional = false) :
    Closes blocks stack (directive :: directives) := by
  cases stack with
  | nil =>
    obtain ⟨g, hg, rfl⟩ := h
    exact ⟨.other directive g, ⟨hkind, hg⟩, rfl⟩
  | cons top outer =>
    obtain ⟨body, branches, rest, hbody, hbranches, helse, rfl, hrest⟩ := h
    exact ⟨.other directive body, branches, rest, ⟨hkind, hbody⟩, hbranches, helse, rfl, hrest⟩

/-- What closes a conditional, and then those around it, has a conditional before what closes those. -/
theorem opening {opening : Opening} {condition : String} {line : Nat} {span : Span} {block : Option InterfaceBlock}
    (hblock : block.isSome = opensBlock blocks opening condition) (hcondition : condition ≠ "")
    (h : Closes blocks (⟨{ opening, condition }, line, span, block⟩ :: stack) directives) :
    Closes blocks stack (⟨.opening opening, condition⟩ :: directives) := by
  obtain ⟨inner, branches, rest, hinner, hbranches, -, rfl, hrest⟩ := h
  rw [hblock] at hbranches
  cases stack with
  | nil =>
    obtain ⟨g, hg, rfl⟩ := hrest
    exact ⟨.conditional opening condition inner branches g, ⟨hcondition, hinner, hbranches, hg⟩, rfl⟩
  | cons top outer =>
    obtain ⟨body, branches', rest, hbody, hbranches', helse, rfl, hrest⟩ := hrest
    refine ⟨.conditional opening condition inner branches body, branches', rest, ⟨hcondition, hinner, hbranches, hbody⟩,
      hbranches', helse, ?_, hrest⟩
    simp [Group.directives]

/-- A branch of the innermost conditional begins. -/
theorem branch {guard : Guard} {directive : Directive} (hopen : top.guard.inElse = false)
    (hbranch : ∀ (body : Group) (branches : Branches), body.Admitted blocks → branches.Admitted blocks top.block.isSome →
      (guard.inElse = true → ∃ args, branches = .endif args) →
      ∃ branches' : Branches, branches'.Admitted blocks top.block.isSome ∧
        branches'.directives = directive :: (body.directives ++ branches.directives))
    (h : Closes blocks ({ top with guard } :: outer) directives) : Closes blocks (top :: outer) (directive :: directives) := by
  obtain ⟨body, branches, rest, hbody, hbranches, helse, rfl, hrest⟩ := h
  obtain ⟨branches', hbranches', hdirectives⟩ := hbranch body branches hbody hbranches helse
  refine ⟨.empty, branches', rest, trivial, hbranches', by simp [hopen], ?_, hrest⟩
  simp [Group.directives, hdirectives]

/-- The innermost conditional ends. -/
theorem endif {args : String} (h : Closes blocks outer directives) :
    Closes blocks (top :: outer) (⟨.endif, args⟩ :: directives) :=
  ⟨.empty, .endif args, directives, trivial, trivial, fun _ => ⟨args, rfl⟩, rfl, h⟩

end Closes

/-- A directive that a tracker takes in comes before what closes the conditionals behind it. -/
theorem Tracker.closes_of_step {t behind : Tracker} {directive : Directive} {line : Nat} {span : Span}
    (hstep : t.step directive line span = .ok behind) {directives : List Directive}
    (h : Closes behind.recognizeBlocks behind.stack directives) :
    Closes t.recognizeBlocks t.stack (directive :: directives) := by
  have hkind : directive = ⟨directive.kind, directive.args⟩ := rfl
  cases steps_of_step_eq_ok hstep with
  | opened kind condition =>
    rw [hkind, kind]
    exact h.opening (t.blockOf?_isSome _ directive.args) condition
  | elif kind condition stack branch ordinary =>
    rw [stack]
    refine h.branch branch fun body branches hbody hbranches _ => ?_
    exact ⟨.elif directive.args body branches, ⟨by simp [ordinary], condition, hbody, hbranches⟩, by rw [hkind, kind]; rfl⟩
  | otherwise kind stack branch =>
    rw [stack]
    refine h.branch branch fun body branches hbody _ helse => ?_
    obtain ⟨endArgs, rfl⟩ := helse rfl
    exact ⟨.otherwise directive.args body endArgs, hbody, by rw [hkind, kind]; rfl⟩
  | endif kind stack =>
    rw [stack, hkind, kind]
    exact h.endif
  | other kind => exact h.other kind

/-- Directives that are taken in one after another close the conditionals around them, if none is open behind. -/
theorem Tracker.closes_of_processAll {t behind : Tracker} {placed : List Placed}
    (h : t.processAll placed = (behind, none)) (hend : behind.finish = none) :
    Closes t.recognizeBlocks t.stack (placed.map Prod.fst) := by
  fun_induction Tracker.processAll t placed with
  | case1 t =>
    cases h
    have hstack : behind.stack = [] := by simpa [finish] using hend
    rw [hstack]
    exact ⟨.empty, trivial, rfl⟩
  | case2 t directive line span rest between hbetween ih =>
    have hstep : t.step directive line span = .ok between := by
      unfold process at hbetween
      split at hbetween <;> cases hbetween
      assumption
    exact closes_of_step hstep (ih h)
  | case3 => cases h

/-! ### The grammar and the tracker -/

/-- A tracker takes in directives without a fault, and is outside all conditionals behind them, exactly if the grammar
derives them. At each place it then knows the guards that the derivation has there. -/
theorem accepted_iff_derived (blocks : Bool) (placed : List Placed) :
    let start : Tracker := { recognizeBlocks := blocks }
    ((∃ behind, start.processAll placed = (behind, none) ∧ behind.finish = none) ↔
      ∃ g : Group, g.Admitted blocks ∧ g.directives = placed.map Prod.fst) ∧
    ∀ g : Group, g.Admitted blocks → g.directives = placed.map Prod.fst → ∀ n ≤ placed.length,
      ∃ here, start.processAll (placed.take n) = (here, none) ∧
        ([] :: g.paths blocks [])[n]? = some here.guardPath := by
  intro start
  have hvisits : ∀ g : Group, g.Admitted blocks → g.directives = placed.map Prod.fst →
      Visits start placed (g.paths blocks []) start := by
    intro g hg hdirectives
    exact @Group.visits g start hg placed hdirectives.symm
  refine ⟨⟨?_, ?_⟩, ?_⟩
  · rintro ⟨behind, hrun, hend⟩
    obtain ⟨g, hg, hdirectives⟩ := Tracker.closes_of_processAll hrun hend
    exact ⟨g, hg, hdirectives.symm⟩
  · rintro ⟨g, hg, hdirectives⟩
    exact ⟨start, (hvisits g hg hdirectives).processAll, rfl⟩
  · intro g hg hdirectives n hn
    exact (hvisits g hg hdirectives).take hn

/-- In the `#else` branch of an interface block that an `#elif` branch holds, only the branch around it is a guard. -/
theorem accepted_iff_derived_block :
    let directives : List Directive := [⟨.opening .defined, "A"⟩, ⟨.elif, "B"⟩, ⟨.opening .expression, "INTERFACE"⟩,
      ⟨.otherwise, ""⟩, ⟨.includes, "<c.h>"⟩, ⟨.endif, ""⟩, ⟨.endif, "A"⟩]
    let placed : List Placed := directives.map fun directive => (directive, 1, ⟨0, 0⟩)
    ∃ here, ({} : Tracker).processAll (placed.take 5) = (here, none) ∧
      here.guardPath = [⟨.defined, "A", ["B"], false⟩] := by
  intro directives placed
  let block : Group := .conditional .expression "INTERFACE" .empty (.otherwise "" (.other ⟨.includes, "<c.h>"⟩ .empty) "") .empty
  let g : Group := .conditional .defined "A" .empty (.elif "B" block (.endif "A")) .empty
  have hadmitted : g.Admitted true := by
    simp [g, block, Group.Admitted, Branches.Admitted, opensBlock, DirectiveKind.isConditional]
  obtain ⟨here, hhere, hpath⟩ := (accepted_iff_derived true placed).2 g hadmitted rfl 5 (by decide)
  exact ⟨here, hhere, (Option.some_inj.1 hpath).symm⟩

end CHeader
