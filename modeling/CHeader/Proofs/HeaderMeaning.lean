import CHeader.Proofs.EvaluationPlaces
import CHeader.Proofs.HeaderLines

/-!
# What is active in a header

From the first line to the last, the guard lines of a header carry the branches from one text to the next. So which of
its declarations are active can be told from guards and texts (`activeEntries`), without the lines between them
(`filter_entriesFrom_lines`). Repeats in it can be left out (`collapse_activeEntries`).
-/

namespace CHeader

open Emission (lines collapse behind)

/-- The directives of a text. -/
def directivesOf (text : String) : List Directive :=
  ((tokenize text).toOption.getD []).filterMap Token.directive?

/-- A text with one directive at most, and none of a conditional. -/
structure Unconditional (text : String) : Prop where
  few : (directivesOf text).length ≤ 1
  kinds : ∀ directive ∈ directivesOf text, directive.kind.isConditional = false

/-- The entries of a header that are active inside some conditionals, the outermost first. -/
def activeEntries (decision : Decision) (macros : Macros) (here : List Branched) :
    List (GuardPath × String) → List (GuardPath × String)
  | [] => []
  | (guard, text) :: entries =>
    let there := carry decision macros true here guard
    let e : Evaluation := ⟨macros, inward there⟩
    let rest := activeEntries decision (e.run decision (directivesOf text)).macros there entries
    if e.isActive then (guard, text) :: rest else rest

variable {decision : Decision} {macros : Macros} {around : Bool} {here : List Branched}

/-! ### Unconditional texts -/

theorem Directive.apply_apply (directive : Directive) (macros : Macros) :
    directive.apply (directive.apply macros) = directive.apply macros := by
  unfold apply
  split <;> grind

namespace Unconditional

variable {text : String}

theorem eq_nil_or_singleton (h : Unconditional text) :
    directivesOf text = [] ∨ ∃ directive, directivesOf text = [directive] ∧ directive.kind.isConditional = false := by
  obtain ⟨few, kinds⟩ := h
  match hdirectives : directivesOf text with
  | [] => exact .inl rfl
  | [directive] => exact .inr ⟨directive, rfl, kinds directive (by simp [hdirectives])⟩
  | _ :: _ :: _ => simp [hdirectives] at few

theorem branches_run (h : Unconditional text) (e : Evaluation) : (e.run decision (directivesOf text)).branches = e.branches := by
  obtain hnone | ⟨directive, hone, hkind⟩ := h.eq_nil_or_singleton
  · rw [hnone]
    rfl
  · rw [hone, Evaluation.run_cons, Evaluation.step_of_other hkind]
    change (if _ then _ else _ : Evaluation).branches = _
    split_ifs <;> rfl

/-- The second of two equal texts changes nothing. -/
theorem run_run (h : Unconditional text) (e : Evaluation) :
    (e.run decision (directivesOf text)).run decision (directivesOf text) = e.run decision (directivesOf text) := by
  obtain hnone | ⟨directive, hone, hkind⟩ := h.eq_nil_or_singleton
  · rw [hnone]
    rfl
  · have hstep : e.run decision [directive] = e.step decision directive := rfl
    have hagain : (e.step decision directive).run decision [directive] = (e.step decision directive).step decision directive := rfl
    rw [hone, hstep, hagain, Evaluation.step_of_other hkind, Evaluation.step_of_other hkind]
    by_cases hactive : e.isActive = true
    · have hactive' : Evaluation.isActive { e with macros := directive.apply e.macros } = true := hactive
      rw [if_pos hactive, if_pos hactive', directive.apply_apply]
    · rw [if_neg hactive, if_neg hactive]

theorem balanced (h : Unconditional text) : Directive.Balanced (directivesOf text) := by
  intro t tokens _ htokens
  exact Tracker.passAll_of_not_isConditional (htokens ▸ h.kinds)

end Unconditional

/-! ### Repeats -/

theorem map_fst_carry (here : List Branched) (target : GuardPath) :
    (carry decision macros around here target).map Prod.fst = target := by
  fun_induction carry decision macros around here target with
  | case1 around target => exact map_fst_evaluate around target
  | case2 => rfl
  | case3 around branches inner later target ih => rw [List.map_cons, ih]
  | case4 around here branches inner later target _ _ branches' => rw [List.map_cons, map_fst_evaluate]
  | case5 around => exact map_fst_evaluate around _

/-- The same guards are kept, whatever has been defined. -/
theorem carry_map_fst (here : List Branched) : carry decision macros around here (here.map Prod.fst) = here := by
  induction here generalizing around with
  | nil => rfl
  | cons innermost here ih => rw [List.map_cons, carry, if_pos rfl, ih]

theorem behind_behind [DecidableEq α] (previous : Option α) (as : List α) :
    behind previous (behind previous as) = behind previous as := by
  induction as generalizing previous with
  | nil => rfl
  | cons a as ih =>
    rw [behind]
    split_ifs with hsame
    · exact ih previous
    · rw [behind, if_neg hsame, ih]

theorem collapse_cons_collapse [DecidableEq α] (a : α) (as : List α) : collapse (a :: collapse as) = collapse (a :: as) := by
  rw [Emission.collapse_cons, Emission.collapse_cons]
  cases as with
  | nil => rfl
  | cons b as =>
    rw [Emission.collapse_cons, behind, behind]
    split_ifs with hsame
    · rw [hsame, behind_behind]
    · rw [behind_behind]

/-- Repeats that a header leaves out are repeats of what is active. -/
theorem collapse_activeEntries {entries : List (GuardPath × String)} (h : ∀ entry ∈ entries, Unconditional entry.2)
    (macros : Macros) (here : List Branched) :
    collapse (activeEntries decision macros here (collapse entries)) = collapse (activeEntries decision macros here entries) := by
  fun_induction collapse entries generalizing macros here with
  | case1 => rfl
  | case2 => rfl
  | case3 entry rest ih =>
    obtain ⟨guard, text⟩ := entry
    obtain ⟨htext, h⟩ := List.forall_mem_cons.1 h
    rw [ih h, activeEntries, activeEntries, activeEntries]
    obtain ⟨there, hthere⟩ : ∃ there, carry decision macros true here guard = there := ⟨_, rfl⟩
    have hguard : there.map Prod.fst = guard := hthere ▸ map_fst_carry here guard
    obtain ⟨e, he⟩ : ∃ e : Evaluation, ⟨macros, inward there⟩ = e := ⟨_, rfl⟩
    have hbranches : (e.run decision (directivesOf text)).branches = inward there := by rw [htext.branches_run, ← he]
    have hkept (macros : Macros) : carry decision macros true there guard = there := hguard ▸ carry_map_fst there
    have hsecond : ⟨(e.run decision (directivesOf text)).macros, inward there⟩ = e.run decision (directivesOf text) := by
      rw [← hbranches]
    have hactive : (e.run decision (directivesOf text)).isActive = e.isActive := by
      rw [Evaluation.isActive, Evaluation.isActive, htext.branches_run]
    simp only [hthere, he, hkept, hsecond, htext.run_run, hactive]
    split_ifs
    · rw [collapse, if_pos rfl]
    · rfl
  | case4 entry next rest hne ih =>
    obtain ⟨guard, text⟩ := entry
    rw [activeEntries, activeEntries]
    have hrest := ih (List.forall_mem_cons.1 h).2
    split_ifs
    · rw [← collapse_cons_collapse, hrest, collapse_cons_collapse]
    · exact hrest _ _

/-! ### Lines -/

/-- A run that declares `text` as a whole. -/
structure Item.Restates (text : String) (source : List Char) (item : Item) : Prop where
  declares : item.Declares (directivesOf text) text source
  lone : item.Lone

/-- Evaluated from the conditionals that are open, the lines of some entries declare those that are active. -/
theorem filter_entriesFrom_lines {place : Nat → Evaluation} {source : List Char} {opened : GuardPath}
    {entries : List (GuardPath × String)} (hguards : ∀ entry ∈ entries, ∀ guard ∈ entry.1, guard.Writable)
    (htexts : ∀ entry ∈ entries, Unconditional entry.2) {items : List Item}
    (hitems : List.Forall₂ (fun line item => line.Rereads Item.Restates source item) (lines opened entries) items)
    {t : Tracker} (hblocks : t.recognizeBlocks = true) (hunder : t.Under opened) {e : Evaluation} {here : List Branched}
    (hhere : here.map Prod.fst = opened) (hbranches : e.branches = inward here) (hplaces : Places decision place source e items) :
    ((((entriesFrom source true t items).filterMap Entry.draft?).filter fun draft => (place draft.span.start).isActive).map
      fun draft => (draft.guard, draft.text.text)) = activeEntries decision e.macros here entries := by
  induction entries generalizing opened t e here items with
  | nil =>
    obtain ⟨last, -, -, -, hentries⟩ := Emission.follow_moveLines (by simp) hitems hblocks hunder
    rw [hentries]
    rfl
  | cons entry entries ih =>
    obtain ⟨target, text⟩ := entry
    obtain ⟨htarget, hguards⟩ := List.forall_mem_cons.1 hguards
    obtain ⟨htext, htexts⟩ := List.forall_mem_cons.1 htexts
    obtain ⟨moved, rest, rfl, hmoved, hrest⟩ := forall₂_append_left hitems
    obtain _ | ⟨⟨hdeclares, -⟩, hrest⟩ := hrest
    rename_i item later
    have hwell : ∀ guard ∈ target, guard.WellFormed := fun guard hguard => (htarget guard hguard).toWellFormed
    obtain ⟨between, hpass, hblocks', hunder', hnone⟩ := Emission.follow_moveLines htarget hmoved hblocks hunder
    obtain ⟨hdirectives, -⟩ := Emission.directives_of_rereads hmoved fun text htext =>
      Emission.isConditional_moveLines hwell (List.mem_map_of_mem htext)
    have hitem : between.passAll item.tokens = .ok between := htext.balanced between _ hblocks' hdeclares.directives
    obtain ⟨draft, hdraft, hguard, htext'⟩ := hdeclares.drafts between
    obtain ⟨names, hentry⟩ := Entry.mem_of_mem_drafts (hdraft ▸ List.mem_singleton_self draft)
    -- The guard lines carry the branches along, and the text leaves them as they are.
    obtain ⟨there, hthere⟩ : ∃ there, carry decision e.macros true here target = there := ⟨_, rfl⟩
    have hmove : e.run decision ((moved.flatMap Item.tokens).filterMap Token.directive?) = ⟨e.macros, inward there⟩ := by
      have hrun := @run_transition decision e.macros [] here target hwell
      rw [hhere] at hrun
      rw [hdirectives, ← hthere]
      obtain ⟨macros, branches⟩ := e
      obtain rfl : branches = inward here := hbranches
      exact hrun
    have hplaces' := hplaces.append
    rw [hmove] at hplaces'
    have hrest' := ih hguards htexts hrest hblocks' hunder' (hthere ▸ map_fst_carry here target)
      (by rw [hdeclares.directives, htext.branches_run]) hplaces'.tail
    have hentries : entriesFrom source true t (moved ++ item :: later) =
        item.entries source true between ++ entriesFrom source true between later := by
      rw [entriesFrom_append hpass, hnone, List.nil_append, entriesFrom, hitem]
    rw [hentries, List.filterMap_append, hdraft, List.singleton_append, List.filter_cons, hplaces'.head hentry, activeEntries]
    simp only [hthere]
    split_ifs
    · rw [List.map_cons, hrest', hguard, hunder'.guardPath_eq, htext', hdeclares.directives]
    · rw [hrest', hdeclares.directives]

theorem lone_of_rereads {source : List Char} {lines : List HeaderLine} {items : List Item}
    (h : List.Forall₂ (fun line item => line.Rereads Item.Restates source item) lines items) : ∀ item ∈ items, item.Lone := by
  induction h with
  | nil => simp
  | @cons line item lines items hitem _ ih =>
    refine List.forall_mem_cons.2 ⟨?_, ih⟩
    cases line with
    | directive text =>
      obtain ⟨t, rfl, -⟩ := hitem
      intro u hu _
      rw [List.mem_singleton.1 hu]
      rfl
    | declaration text => exact hitem.lone

/-- The declarations of a header that are active are told by its guards and texts. -/
theorem activeDeclarations_lines {entries : List (GuardPath × String)}
    (hguards : ∀ entry ∈ entries, ∀ guard ∈ entry.1, guard.Writable) (htexts : ∀ entry ∈ entries, Unconditional entry.2)
    (hreads : ∀ entry ∈ entries, ReadsAs entry.2.toList (Item.Restates entry.2))
    (hends : ∀ line ∈ (lines [] entries).dropLast, EndsItsLine line.text.toList) {header : String}
    (hheader : header = "\n".intercalate ((lines [] entries).map HeaderLine.text)) (decision : Decision) (macros : Macros) :
    ∃ written again, tokenize header = .ok written ∧ surveySource true header = .ok again ∧
      activeDeclarations decision macros written again.declarations.items = activeEntries decision macros [] entries := by
  obtain ⟨written, hwritten, hitems⟩ := outline_header hguards hreads hends hheader
  obtain ⟨again, hagain, -, -⟩ := survey_lines hguards
    (fun entry hentry => (hreads entry hentry).imp fun source item hitem =>
      ⟨directivesOf entry.2, (htexts entry hentry).balanced, hitem.declares⟩) hends hheader
  obtain ⟨-, hrecorded⟩ := recorded_of_surveySource hwritten hagain
  have hplaces := @places_of_outline decision header written hwritten (lone_of_rereads hitems) macros
  have hactive := @filter_entriesFrom_lines decision _ _ [] entries hguards htexts _ hitems _ rfl (Tracker.under_start true)
    _ [] rfl rfl hplaces
  have hdrafts : again.declarations.drafts =
      (entriesFrom header.toList true { recognizeBlocks := true } (outline true 0 written)).filterMap Entry.draft? := by
    rw [hrecorded]
    exact Survey.drafts_recordAll {} _
  refine ⟨written, again, hwritten, hagain, ?_⟩
  rw [← hactive, ← hdrafts, DeclarationList.drafts, List.filter_map, List.map_map]
  rfl

end CHeader
