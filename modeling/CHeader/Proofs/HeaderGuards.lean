import CHeader.Proofs.GuardReplay

/-!
# The guards of a header

The directive lines of a header are followed by a tracker as `Emission.replay` says: each of them is
processed, and at each declaration the guards around it are noted. The main statement is that this
finds the entries of the header, guard for guard, and leaves nothing open (`emit_replay`). No
conditional of a header is there for nothing: between its opening and its `#endif` stands a
declaration (`Emission.Filled`).
-/

namespace CHeader

namespace Emission

/-- Follow the lines of a header, each with a line number and a span. The declarations are noted with
the guards around them. -/
def replay (t : Tracker) : List (HeaderLine × Nat × Span) →
    Except Diagnostic (List (GuardPath × String) × Tracker)
  | [] => .ok ([], t)
  | (.declaration text, _) :: lines =>
    (replay t lines).map fun (noted, last) => ((t.guardPath, text) :: noted, last)
  | (.directive text, number, span) :: lines =>
    match t.process (.parse text) number span with
    | (behind, none) => replay behind lines
    | (_, some fault) => .error fault

/-- The conditionals that are open behind a line, with `depth` open before it. -/
def depthBehind (depth : Nat) : HeaderLine → Nat
  | .declaration _ => depth
  | .directive text =>
    match (Directive.parse text).kind with
    | .opening _ => depth + 1
    | .endif => depth - 1
    | _ => depth

/-- The lines through the one that closes the outermost of `depth` open conditionals. -/
def within : Nat → List HeaderLine → List HeaderLine
  | 0, _ => []
  | _ + 1, [] => []
  | depth + 1, line :: lines => line :: within (depthBehind (depth + 1) line) lines

/-- Every conditional that is opened has a declaration inside. -/
def Filled (lines : List HeaderLine) : Prop :=
  ∀ before text behind opening, lines = before ++ .directive text :: behind →
    (Directive.parse text).kind = .opening opening → ∃ declared, .declaration declared ∈ within 1 behind

/-! ### Replaying -/

/-- Directive lines are replayed as their directives are processed. -/
theorem replay_directives {t behind : Tracker} {texts : List String} {placed : List (HeaderLine × Nat × Span)}
    (hplaced : placed.map Prod.fst = texts.map .directive)
    (hrun : t.processAll ((texts.map Directive.parse).zip (placed.map Prod.snd)) = (behind, none))
    (rest : List (HeaderLine × Nat × Span)) : replay t (placed ++ rest) = replay behind rest := by
  induction texts generalizing t placed with
  | nil =>
    obtain rfl : placed = [] := by simpa using hplaced
    simp only [List.map_nil, List.zip_nil_left, Tracker.processAll, Prod.mk.injEq, and_true] at hrun
    rw [List.nil_append, hrun]
  | cons text texts ih =>
    obtain ⟨⟨line, number, span⟩, placed, rfl, hline, htail⟩ := List.map_eq_cons_iff.1 hplaced
    subst hline
    obtain ⟨⟨between, fault⟩, hstep⟩ : ∃ outcome, t.process (Directive.parse text) number span = outcome := ⟨_, rfl⟩
    simp only [List.map_cons, List.zip_cons_cons, Tracker.processAll, hstep] at hrun
    simp only [List.cons_append, replay, hstep]
    cases fault with
    | none => exact ih htail hrun
    | some fault => simp at hrun

/-- Followed from the guards that are open, the lines of some entries give the entries back, and close
all guards. -/
theorem replay_lines {blocks : Bool} {opened : GuardPath} {entries : List (GuardPath × String)}
    (hwell : ∀ entry ∈ entries, ∀ guard ∈ entry.1, guard.WellFormed)
    (hadmits : ∀ entry ∈ entries, ∀ guard ∈ entry.1, Tracker.Admits blocks guard)
    {t : Tracker} (hblocks : t.recognizeBlocks = blocks) (hunder : t.Under opened)
    {placed : List (HeaderLine × Nat × Span)} (hplaced : placed.map Prod.fst = lines opened entries) :
    ∃ last, replay t placed = .ok (entries, last) ∧ last.Under [] := by
  -- one move: its lines are replayed, and the tracker stands under the guards of the target
  have hmove : ∀ {t : Tracker} {opened target : GuardPath} {moved : List (HeaderLine × Nat × Span)},
      t.recognizeBlocks = blocks → t.Under opened → (∀ guard ∈ target, guard.WellFormed) →
      (∀ guard ∈ target, Tracker.Admits blocks guard) → moved.map Prod.fst = moveLines opened target →
      ∃ between, (∀ rest, replay t (moved ++ rest) = replay between rest) ∧
        between.recognizeBlocks = blocks ∧ between.Under target := by
    intro t opened target moved hblocks hunder hwell hadmits hmoved
    have hleads := Tracker.leads_transition [] opened target hwell hadmits
    have hlength : ((transition opened target).flatMap GuardStep.lines).length = (moved.map Prod.snd).length := by
      have := congrArg List.length hmoved
      simpa [moveLines] using this.symm
    obtain ⟨between, hrun, hblocks', hunder'⟩ := hleads t
      ((((transition opened target).flatMap GuardStep.lines).map Directive.parse).zip (moved.map Prod.snd))
      hblocks (by simpa using hunder) (List.map_fst_zip (by simp [hlength]))
    exact ⟨between, replay_directives hmoved hrun, hblocks', by simpa using hunder'⟩
  induction entries generalizing opened t placed with
  | nil =>
    obtain ⟨between, hrun, -, hunder'⟩ := hmove hblocks hunder (by simp) (by simp) hplaced
    exact ⟨between, by simpa [replay] using hrun [], hunder'⟩
  | cons entry entries ih =>
    obtain ⟨guard, text⟩ := entry
    obtain ⟨moved, rest, rfl, hmoved, hrest⟩ := List.map_eq_append_iff.1 hplaced
    obtain ⟨⟨line, place⟩, behind, rfl, hline, hbehind⟩ := List.map_eq_cons_iff.1 hrest
    subst hline
    obtain ⟨between, hrun, hblocks', hunder'⟩ := hmove hblocks hunder
      (hwell (guard, text) (by simp)) (hadmits (guard, text) (by simp)) hmoved
    obtain ⟨last, hlast, hclosed⟩ := ih (fun e he => hwell e (List.mem_cons_of_mem _ he))
      (fun e he => hadmits e (List.mem_cons_of_mem _ he)) hblocks' hunder' hbehind
    refine ⟨last, ?_, hclosed⟩
    rw [hrun, replay, hlast, hunder'.guardPath_eq]
    rfl

/-! ### Conditionals with something inside -/

/-- Where nothing is closed, a declaration is still inside what was open before. -/
theorem mem_within {between : List HeaderLine}
    (hbetween : ∀ text, .directive text ∈ between → (Directive.parse text).kind ≠ .endif)
    (depth : Nat) (text : String) (rest : List HeaderLine) :
    .declaration text ∈ within (depth + 1) (between ++ .declaration text :: rest) := by
  induction between generalizing depth with
  | nil => simp [within]
  | cons line between ih =>
    have htail := ih fun text hmem => hbetween text (List.mem_cons_of_mem _ hmem)
    obtain ⟨depth', hdepth⟩ : ∃ depth', depthBehind (depth + 1) line = depth' + 1 := by
      cases line with
      | declaration text => exact ⟨depth, rfl⟩
      | directive text =>
        have hkind := hbetween text (by simp)
        rw [depthBehind]
        split
        · exact ⟨depth + 1, rfl⟩
        · contradiction
        · exact ⟨depth, rfl⟩
    rw [List.cons_append, within, hdepth]
    exact List.mem_cons_of_mem _ (htail depth')

/-- The steps of a transition are closings first, and then none. -/
theorem transition_eq_close_append (opened target : GuardPath) :
    ∃ closed onward, transition opened target = List.replicate closed .close ++ onward ∧ .close ∉ onward ∧
      (target = [] → onward = []) := by
  induction opened generalizing target with
  | nil => exact ⟨0, target.map .enter, by simp [transition], by simp, by rintro rfl; rfl⟩
  | cons here inner ih =>
    cases target with
    | nil => exact ⟨(here :: inner).length, [], by simp [transition, List.map_const', List.replicate_succ], by simp,
        fun _ => rfl⟩
    | cons later target =>
      rw [transition]
      split_ifs
      · obtain ⟨closed, onward, hsplit, hnone, -⟩ := ih target
        exact ⟨closed, onward, hsplit, hnone, by simp⟩
      · exact ⟨inner.length, .switch here later :: target.map .enter, by simp [List.map_const'], by simp, by simp⟩
      · exact ⟨(here :: inner).length, (later :: target).map .enter,
          by simp [List.map_const', List.replicate_succ], by simp, by simp⟩

theorem kind_branchLines {elifs : List String} (helifs : ∀ condition ∈ elifs, Text.Trimmed condition)
    (inElse : Bool) : ∀ line ∈ Guard.branchLines elifs inElse, (Directive.parse line).kind ≠ .endif := by
  intro line hline
  rcases List.mem_append.1 hline with hline | hline
  · obtain ⟨condition, hcondition, rfl⟩ := List.mem_map.1 hline
    simp [Guard.parse_elifLine (helifs condition hcondition)]
  · cases inElse with
    | false => simp at hline
    | true =>
      obtain rfl : line = "#else" := by simpa using hline
      simp [Guard.parse_elseLine]

/-- A step that is no closing writes no `#endif`. -/
theorem kind_stepLines {step : GuardStep} (hstep : step ≠ .close)
    (hwell : ∀ guard, step = .enter guard ∨ (∃ here, step = .switch here guard) → guard.WellFormed) :
    ∀ line ∈ step.lines, (Directive.parse line).kind ≠ .endif := by
  cases step with
  | close => contradiction
  | enter guard =>
    have hguard := hwell guard (Or.inl rfl)
    intro line hline
    rcases List.mem_cons.1 hline with rfl | hline
    · simp [Guard.parse_openingLine guard hguard.condition]
    · exact kind_branchLines hguard.elifs _ line hline
  | switch here later =>
    have hlater := hwell later (Or.inr ⟨here, rfl⟩)
    exact kind_branchLines (fun condition hmem => hlater.elifs condition (List.mem_of_mem_drop hmem)) _

theorem flatMap_lines_close (closed : Nat) :
    (List.replicate closed GuardStep.close).flatMap GuardStep.lines = List.replicate closed "#endif" := by
  induction closed with
  | zero => rfl
  | succ closed ih =>
    simp only [List.replicate_succ, List.flatMap_cons, ih, GuardStep.lines, List.singleton_append]

/-- The lines of a move are `#endif` lines and then none. -/
theorem moveLines_eq_endif_append {target : GuardPath} (hwell : ∀ guard ∈ target, guard.WellFormed)
    (opened : GuardPath) :
    ∃ closed onward, moveLines opened target = List.replicate closed (.directive "#endif") ++ onward ∧
      (∀ line ∈ onward, ∃ text, line = .directive text ∧ (Directive.parse text).kind ≠ .endif) ∧
      (target = [] → onward = []) := by
  obtain ⟨closed, onward, hsplit, hnone, hnil⟩ := transition_eq_close_append opened target
  refine ⟨closed, (onward.flatMap GuardStep.lines).map .directive, ?_, ?_, ?_⟩
  · rw [moveLines, hsplit, List.flatMap_append, flatMap_lines_close, List.map_append, List.map_replicate]
  · intro line hline
    obtain ⟨text, htext, rfl⟩ := List.mem_map.1 hline
    obtain ⟨step, hstep, htext⟩ := List.mem_flatMap.1 htext
    refine ⟨text, rfl, kind_stepLines (fun h => hnone (h ▸ hstep)) ?_ text htext⟩
    have hmem : step ∈ transition opened target := by simp [hsplit, hstep]
    intro guard hguard
    apply hwell guard
    apply mem_target_of_mem_transition
    rcases hguard with rfl | ⟨here, rfl⟩
    · exact Or.inl hmem
    · exact Or.inr ⟨here, hmem⟩
  · intro htarget
    simp [hnil htarget]

theorem filled_lines {entries : List (GuardPath × String)}
    (hwell : ∀ entry ∈ entries, ∀ guard ∈ entry.1, guard.WellFormed) (opened : GuardPath) :
    Filled (lines opened entries) := by
  intro before text behind opening hsplit hopening
  have hendif : ∀ closed, HeaderLine.directive text ∉ List.replicate closed (.directive "#endif") := by
    intro closed hmem
    obtain ⟨-, heq⟩ := List.mem_replicate.1 hmem
    obtain rfl : text = "#endif" := by simpa using heq
    simp [Guard.parse_endifLine] at hopening
  induction entries generalizing opened before with
  | nil =>
    obtain ⟨closed, onward, hmove, -, hnil⟩ := @moveLines_eq_endif_append [] (by simp) opened
    rw [hnil rfl, List.append_nil] at hmove
    have hmem : HeaderLine.directive text ∈ lines opened [] := by simp [hsplit]
    rw [lines, hmove] at hmem
    exact absurd hmem (hendif closed)
  | cons entry entries ih =>
    obtain ⟨guard, declared⟩ := entry
    obtain ⟨closed, onward, hmove, hopen, -⟩ := moveLines_eq_endif_append (hwell (guard, declared) (by simp)) opened
    rw [lines, hmove] at hsplit
    rcases List.append_eq_append_iff.1 hsplit with ⟨later, hbefore, hrest⟩ | ⟨inner, hmoved, hrest⟩
    · -- the conditional is opened behind the move
      cases later with
      | nil => simp at hrest
      | cons line later =>
        obtain ⟨-, hrest⟩ := List.cons.inj hrest
        exact ih (fun e he => hwell e (List.mem_cons_of_mem _ he)) guard later hrest
    · -- it is opened in the move, and what is left of the move closes nothing
      cases inner with
      | nil => simp at hrest
      | cons line inner =>
        obtain ⟨rfl, rfl⟩ := List.cons.inj hrest
        refine ⟨declared, ?_⟩
        rcases List.append_eq_append_iff.1 hmoved with ⟨first, -, honward⟩ | ⟨left, hclosed, honward⟩
        · apply mem_within
          intro other hmem
          obtain ⟨same, heq, hkind⟩ := hopen (.directive other) (by simp [honward, hmem])
          obtain rfl : other = same := by simpa using heq
          exact hkind
        · cases left with
          | nil =>
            apply mem_within
            intro other hmem
            obtain ⟨same, heq, hkind⟩ := hopen (.directive other) (by
              rw [List.nil_append] at honward
              simp [← honward, hmem])
            obtain rfl : other = same := by simpa using heq
            exact hkind
          | cons line left =>
            obtain ⟨rfl, -⟩ := List.cons.inj honward
            exact absurd (by simp [hclosed]) (hendif closed)

/-- The guards of the entries are those of the declarations. -/
theorem wellFormed_entries {list : DeclarationList}
    (hwell : ∀ d ∈ list.items, ∀ guard ∈ d.guard, guard.WellFormed) :
    ∀ entry ∈ entries list, ∀ guard ∈ entry.1, guard.WellFormed := by
  intro entry hentry
  obtain ⟨d, hd, rfl⟩ := List.mem_map.1 (mem_of_mem_collapse hentry)
  exact hwell d (List.mem_filter.1 hd).1

end Emission

/-- Whatever an emitter did before, the header that it writes can be followed with interface blocks
unrecognized, whatever line numbers and spans its lines get: no directive is at fault, nothing is left
open, the declarations are the visible ones without adjacent repeats, each found under its guards, and
no conditional is empty. -/
theorem emit_replay (e : Emitter) (list : DeclarationList)
    (hwell : ∀ d ∈ list.items, ∀ guard ∈ d.guard, guard.WellFormed)
    (placed : List (HeaderLine × Nat × Span)) (hplaced : placed.map Prod.fst = (e.emit list).1) :
    (∃ last, Emission.replay { recognizeBlocks := false } placed =
        .ok (Emission.collapse (list.visible.map fun d => (d.guard, d.text.text)), last) ∧ last.finish = none) ∧
      Emission.Filled (e.emit list).1 := by
  have hentries := Emission.wellFormed_entries hwell
  rw [e.emit_fst list] at hplaced ⊢
  obtain ⟨last, hlast, hclosed⟩ := Emission.replay_lines hentries (fun _ _ guard _ => Tracker.admits_false guard)
    rfl (Tracker.under_start false) hplaced
  exact ⟨⟨last, hlast, hclosed.finish_eq_none⟩, Emission.filled_lines hentries []⟩

/-- A header of two branches. -/
theorem emit_replay_branches :
    ∃ last, Emission.replay { recognizeBlocks := false }
        [(.directive "#ifdef X", 1, ⟨0, 8⟩), (.declaration "extern int a;", 2, ⟨9, 22⟩),
          (.directive "#else", 3, ⟨23, 28⟩), (.declaration "extern int b;", 4, ⟨29, 42⟩),
          (.directive "#endif", 5, ⟨43, 49⟩)] =
        .ok ([([⟨.defined, "X", [], false⟩], "extern int a;"), ([⟨.defined, "X", [], true⟩], "extern int b;")], last) ∧
      last.finish = none := by
  have hcondition : Text.Trimmed "X" := ⟨by decide, by decide⟩
  have hwell : ∀ inElse, (⟨.defined, "X", [], inElse⟩ : Guard).WellFormed := fun _ => ⟨hcondition, by simp⟩
  let draft (text : String) (inElse : Bool) : Draft :=
    { kind := .variable, text := .synthesized text, guard := [⟨.defined, "X", [], inElse⟩], span := ⟨0, 0⟩, line := 1 }
  let list : DeclarationList :=
    { items := [{ draft "extern int a;" false with id := 0, name := none },
        { draft "extern int b;" true with id := 1, name := none }] }
  refine (emit_replay {} list ?_ _ (by decide +kernel)).1
  intro d hd guard hguard
  simp only [list, draft, List.mem_cons, List.not_mem_nil, or_false] at hd
  rcases hd with rfl | rfl
  · obtain rfl : guard = ⟨.defined, "X", [], false⟩ := by simpa using hguard
    exact hwell false
  · obtain rfl : guard = ⟨.defined, "X", [], true⟩ := by simpa using hguard
    exact hwell true

end CHeader
