import CHeader.Proofs.GuardReplay

/-!
# Interface blocks laid over the guards

A tracker that tells interface blocks from guards goes through the same conditionals as one that does not: it only says
something else of some of them. `Overlays` holds between the two, and is kept by every directive that the first of them
takes in. So what the first takes in the second takes in as well. Its guards are those of the second without the ones
that open an interface block, and the innermost of the ones left out says how declarations are marked
(`blocks_overlay_guards`).
-/

namespace CHeader

/-- The interface block that a guard's opening line opens, where such blocks are recognized. -/
def Guard.block? (guard : Guard) : Option InterfaceBlock :=
  if guard.opening = .expression then InterfaceBlock.ofCondition? guard.condition else none

/-- How a guard marks the declarations in its branch: as its block does, but not behind `#else`. -/
def Guard.marking? (guard : Guard) : Option InterfaceBlock :=
  if guard.inElse then none else guard.block?

/-- A path without the guards that open an interface block. -/
def GuardPath.ordinary (path : GuardPath) : GuardPath :=
  path.filter (·.block?.isNone)

/-- The innermost guard of a path that opens an interface block. -/
def GuardPath.innermostBlock? (path : GuardPath) : Option Guard :=
  path.reverse.find? (·.block?.isSome)

namespace Tracker

/-- `plain` has the conditionals of `t` around it, and takes none of them for an interface block. -/
structure Overlays (t plain : Tracker) : Prop where
  recognized : t.recognizeBlocks = true
  unrecognized : plain.recognizeBlocks = false
  stack : plain.stack = t.stack.map fun conditional => { conditional with block := none }
  blocks : ∀ conditional ∈ t.stack, conditional.block = conditional.guard.block?

variable {t plain behind : Tracker}

theorem overlays_start : Overlays { recognizeBlocks := true } { recognizeBlocks := false } :=
  ⟨rfl, rfl, rfl, by simp⟩

/-- A directive that the tracker with the blocks takes in is taken in by the one without them. -/
theorem Overlays.step (h : t.Overlays plain) {directive : Directive} {line : Nat} {span : Span}
    (hstep : t.step directive line span = .ok behind) :
    ∃ plain', plain.step directive line span = .ok plain' ∧ behind.Overlays plain' := by
  have hstack := h.stack
  have hblocks := h.blocks
  cases steps_of_step_eq_ok hstep with
  | @opened opening kind condition =>
    refine ⟨_, (Steps.opened kind condition).step_eq_ok, h.recognized, h.unrecognized, ?_, ?_⟩
    · simp [Tracker.opened, hstack, blockOf?, h.unrecognized]
    · intro conditional hmem
      rcases List.mem_cons.1 hmem with rfl | hmem
      · simp [blockOf?, Guard.block?, h.recognized]
      · exact hblocks conditional hmem
  | @elif top outer kind condition stack branch ordinary =>
    -- It is in a block only that an `#elif` fits one of the two and not the other, and then it fits `plain`.
    rw [stack] at hstack hblocks
    obtain ⟨htop, houter⟩ := List.forall_mem_cons.1 hblocks
    refine ⟨_, (Steps.elif kind condition hstack branch rfl).step_eq_ok, h.recognized, h.unrecognized, rfl, ?_⟩
    exact List.forall_mem_cons.2 ⟨htop, houter⟩
  | @otherwise top outer kind stack branch =>
    rw [stack] at hstack hblocks
    obtain ⟨htop, houter⟩ := List.forall_mem_cons.1 hblocks
    refine ⟨_, (Steps.otherwise kind hstack branch).step_eq_ok, h.recognized, h.unrecognized, rfl, ?_⟩
    exact List.forall_mem_cons.2 ⟨htop, houter⟩
  | @endif top outer kind stack =>
    rw [stack] at hstack hblocks
    refine ⟨_, (Steps.endif kind hstack).step_eq_ok, h.recognized, h.unrecognized, rfl, ?_⟩
    exact (List.forall_mem_cons.1 hblocks).2
  | other kind => exact ⟨plain, (Steps.other kind).step_eq_ok, h⟩

/-- Directives that are taken in with the blocks are taken in without them. -/
theorem Overlays.processAll (h : t.Overlays plain) {placed : List Placed} (hrun : t.processAll placed = (behind, none)) :
    ∃ plain', plain.processAll placed = (plain', none) ∧ behind.Overlays plain' := by
  induction placed generalizing t plain with
  | nil =>
    cases hrun
    exact ⟨plain, rfl, h⟩
  | cons first placed ih =>
    obtain ⟨directive, line, span⟩ := first
    simp only [Tracker.processAll, process] at hrun ⊢
    cases hstep : t.step directive line span with
    | error fault => simp [hstep] at hrun
    | ok between =>
      obtain ⟨between', hstep', hbetween⟩ := h.step hstep
      simp only [hstep] at hrun
      simp only [hstep']
      exact ih hbetween hrun

/-! ### What the two say of a place -/

theorem Overlays.finish_eq (h : t.Overlays plain) : plain.finish = t.finish := by
  rw [finish, finish, h.stack, List.head?_map, Option.map_map]
  rfl

/-- Without blocks every conditional is a guard. -/
theorem Overlays.guardPath_plain (h : t.Overlays plain) : plain.guardPath = t.stack.reverse.map (·.guard) := by
  have hall : plain.stack.reverse.filter (·.block.isNone) = plain.stack.reverse := by
    rw [List.filter_eq_self, h.stack]
    intro conditional hmem
    obtain ⟨_, -, rfl⟩ := List.mem_map.1 (List.mem_reverse.1 hmem)
    rfl
  rw [guardPath, hall, h.stack, ← List.map_reverse, List.map_map]
  rfl

/-- The guards are those without blocks, less the ones that open a block. -/
theorem Overlays.guardPath_eq (h : t.Overlays plain) : t.guardPath = plain.guardPath.ordinary := by
  rw [h.guardPath_plain, GuardPath.ordinary, List.filter_map, guardPath]
  congr 1
  apply List.filter_congr
  intro conditional hmem
  rw [h.blocks conditional (List.mem_reverse.1 hmem)]
  rfl

/-- Declarations are marked by the innermost of the guards that open a block. -/
theorem Overlays.interfaceBlock_eq (h : t.Overlays plain) :
    t.interfaceBlock = plain.guardPath.innermostBlock?.bind Guard.marking? := by
  have hfind : t.stack.find? (·.guard.block?.isSome) = t.stack.find? (·.block.isSome) := by
    rw [← List.head?_filter, ← List.head?_filter]
    congr 1
    apply List.filter_congr
    intro conditional hmem
    rw [h.blocks conditional hmem]
  rw [h.guardPath_plain, GuardPath.innermostBlock?, List.map_reverse, List.reverse_reverse, List.find?_map]
  show _ = ((t.stack.find? (·.guard.block?.isSome)).map (·.guard)).bind _
  rw [hfind, interfaceBlock]
  cases hfound : t.stack.find? (·.block.isSome) with
  | none => rfl
  | some conditional =>
    rw [Option.map_some, Option.bind_some, Guard.marking?, ← h.blocks conditional (List.mem_of_find?_eq_some hfound)]

/-- What is taken in is taken in up to every place. -/
theorem exists_processAll_of_prefix {placed front : List Placed} (hrun : t.processAll placed = (behind, none))
    (hfront : front <+: placed) : ∃ here, t.processAll front = (here, none) := by
  obtain ⟨rest, rfl⟩ := hfront
  induction front generalizing t with
  | nil => exact ⟨t, rfl⟩
  | cons first front ih =>
    obtain ⟨directive, line, span⟩ := first
    rw [List.cons_append] at hrun
    simp only [Tracker.processAll] at hrun ⊢
    cases hprocess : t.process directive line span with
    | mk between fault =>
      cases fault with
      | some fault => simp [hprocess] at hrun
      | none =>
        simp only [hprocess] at hrun ⊢
        exact ih hrun

end Tracker

/-- Interface blocks are an overlay. Directives that a tracker takes in with interface blocks recognized are taken in
without them, too, up to every place among them and up to the end; the conditional that is not closed there is the
same. The guards at the place are those that the other tracker finds there, without the guards that open an interface
block, and declarations are marked by the innermost guard that is left out. -/
theorem blocks_overlay_guards {placed : List Tracker.Placed} {last : Tracker}
    (haccepted : Tracker.processAll { recognizeBlocks := true } placed = (last, none)) :
    ∀ front, front <+: placed → ∃ here plain,
      Tracker.processAll { recognizeBlocks := true } front = (here, none) ∧
      Tracker.processAll { recognizeBlocks := false } front = (plain, none) ∧
      here.finish = plain.finish ∧
      here.guardPath = plain.guardPath.ordinary ∧
      here.interfaceBlock = plain.guardPath.innermostBlock?.bind Guard.marking? := by
  intro front hfront
  obtain ⟨here, hrun⟩ := Tracker.exists_processAll_of_prefix haccepted hfront
  obtain ⟨plain, hplain, hoverlays⟩ := Tracker.overlays_start.processAll hrun
  exact ⟨here, plain, hrun, hplain, hoverlays.finish_eq.symm, hoverlays.guardPath_eq, hoverlays.interfaceBlock_eq⟩

/-- Behind the `#else` of a block that another one holds, nothing is marked, and the conditional around both is the only
guard. -/
theorem blocks_overlay_guards_else :
    let directives : List Directive := [⟨.opening .defined, "A"⟩, ⟨.opening .expression, "EXPORT_INTERFACE"⟩,
      ⟨.opening .expression, "LOCAL_INTERFACE"⟩, ⟨.otherwise, ""⟩, ⟨.endif, ""⟩, ⟨.endif, ""⟩, ⟨.endif, "A"⟩]
    let placed : List Tracker.Placed := directives.map fun directive => (directive, 1, ⟨0, 0⟩)
    Tracker.processAll { recognizeBlocks := true } placed = ({}, none) ∧ placed.take 4 <+: placed ∧ ∃ here plain,
      Tracker.processAll { recognizeBlocks := true } (placed.take 4) = (here, none) ∧
      Tracker.processAll { recognizeBlocks := false } (placed.take 4) = (plain, none) ∧
      here.finish = plain.finish ∧ here.guardPath = [⟨.defined, "A", [], false⟩] ∧ here.interfaceBlock = none := by
  intro directives placed
  have haccepted : Tracker.processAll { recognizeBlocks := true } placed = ({}, none) := by decide
  have hfront : placed.take 4 <+: placed := List.take_prefix 4 placed
  refine ⟨haccepted, hfront, ?_⟩
  obtain ⟨here, plain, hhere, hplain, hfinish, hpath, hblock⟩ := blocks_overlay_guards haccepted _ hfront
  obtain rfl : _ = plain := congrArg Prod.fst hplain
  exact ⟨here, _, hhere, hplain, hfinish, hpath.trans (by decide), hblock.trans (by decide)⟩

end CHeader
