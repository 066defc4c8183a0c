import CHeader.Generator
import CHeader.Proofs.ConditionLines
import CHeader.Proofs.Following

/-!
# A header read line by line

The lines of a header are guard lines and the texts of declarations. If each of those texts is one run
wherever it stands (`Item.Declares`), the runs of the header are its lines (`outline_header`): a directive
for every guard line, and for every text one run that declares it. Followed from the first line to the
last, the guard lines lead to the guards that each text was written for, so a survey of the header finds
what the header was written from (`survey_lines`).
-/

namespace CHeader

/-- Directives that leave every place under the guards that it was under, interface blocks recognized. -/
def Directive.Balanced (directives : List Directive) : Prop :=
  ∀ (t : Tracker) (tokens : List Token), t.recognizeBlocks = true →
    tokens.filterMap Token.directive? = directives → t.passAll tokens = .ok t

/-- A run that says one thing, which is declared by `text`. The directives in it are given. -/
structure Item.Declares (directives : List Directive) (text : String) (source : List Char) (item : Item) : Prop where
  directives : item.tokens.filterMap Token.directive? = directives
  drafts : ∀ t : Tracker, ∃ draft, (item.entries source true t).filterMap Entry.draft? = [draft] ∧
    draft.guard = t.guardPath ∧ draft.text.text = text
  issues : ∀ t : Tracker, (item.entries source true t).filterMap Entry.issue? = []

/-- The run that a line of a header is read as. `R` tells of the run of a declaration. -/
def HeaderLine.Rereads (R : String → List Char → Item → Prop) (source : List Char) (item : Item) : HeaderLine → Prop
  | directive text => ∃ t, item = .directive t ∧ t.kind = .directive (.parse text)
  | declaration text => R text source item

/-- A run that declares `text`, and closes the conditionals that it opens. -/
def Item.Restores (text : String) (source : List Char) (item : Item) : Prop :=
  ∃ directives, Directive.Balanced directives ∧ item.Declares directives text source

namespace Emission

/-- A line leads to the guards of an entry, or away from the last ones, or it is the text of an entry. -/
theorem cases_of_mem_lines {opened : GuardPath} {entries : List (GuardPath × String)} :
    ∀ line ∈ lines opened entries,
      (∃ opened target, (target = [] ∨ ∃ entry ∈ entries, target = entry.1) ∧ line ∈ moveLines opened target) ∨
        ∃ entry ∈ entries, line = .declaration entry.2 := by
  induction entries generalizing opened with
  | nil => exact fun line hline => .inl ⟨opened, [], .inl rfl, hline⟩
  | cons entry entries ih =>
    obtain ⟨guard, text⟩ := entry
    intro line hline
    rcases List.mem_append.1 hline with hline | hline
    · exact .inl ⟨opened, guard, .inr ⟨_, List.mem_cons_self, rfl⟩, hline⟩
    rcases List.mem_cons.1 hline with rfl | hline
    · exact .inr ⟨_, List.mem_cons_self, rfl⟩
    · rcases ih line hline with ⟨opened, target, htarget, hmove⟩ | ⟨entry, hentry, rfl⟩
      · exact .inl ⟨opened, target, htarget.imp_right fun ⟨entry, hentry, h⟩ => ⟨entry, List.mem_cons_of_mem _ hentry, h⟩, hmove⟩
      · exact .inr ⟨entry, List.mem_cons_of_mem _ hentry, rfl⟩

/-- A line is that of a guard, or the text of an entry. -/
theorem directiveLine_or_declaration {opened : GuardPath} {entries : List (GuardPath × String)}
    (hguards : ∀ entry ∈ entries, ∀ guard ∈ entry.1, guard.Writable) :
    ∀ line ∈ lines opened entries, (∃ text, line = .directive text ∧ DirectiveLine text) ∨
      ∃ entry ∈ entries, line = .declaration entry.2 := by
  intro line hline
  refine (cases_of_mem_lines line hline).imp_left ?_
  rintro ⟨opened, target, htarget, hmove⟩
  have hwritable : ∀ guard ∈ target, guard.Writable := by
    rcases htarget with rfl | ⟨entry, hentry, rfl⟩
    · simp
    · exact hguards entry hentry
  obtain ⟨text, -, rfl⟩ := List.mem_map.1 hmove
  exact ⟨text, rfl, directiveLine_moveLines hwritable hmove⟩

/-- The guards of the lines are those of the entries. -/
theorem readsAs_of_mem_lines {R : String → List Char → Item → Prop} {opened : GuardPath} {entries : List (GuardPath × String)}
    (hguards : ∀ entry ∈ entries, ∀ guard ∈ entry.1, guard.Writable)
    (htexts : ∀ entry ∈ entries, ReadsAs entry.2.toList (R entry.2)) :
    ∀ line ∈ lines opened entries, ReadsAs line.text.toList fun source item => line.Rereads R source item := by
  intro line hline
  rcases directiveLine_or_declaration hguards line hline with ⟨text, rfl, hdirective⟩ | ⟨entry, hentry, rfl⟩
  · exact hdirective.readsAs
  · exact htexts entry hentry

end Emission

/-- The runs of a header are its lines. -/
theorem outline_header {R : String → List Char → Item → Prop} {entries : List (GuardPath × String)}
    (hguards : ∀ entry ∈ entries, ∀ guard ∈ entry.1, guard.Writable)
    (htexts : ∀ entry ∈ entries, ReadsAs entry.2.toList (R entry.2))
    (hends : ∀ line ∈ (Emission.lines [] entries).dropLast, EndsItsLine line.text.toList) {header : String}
    (hheader : header = "\n".intercalate ((Emission.lines [] entries).map HeaderLine.text)) :
    ∃ tokens, tokenize header = .ok tokens ∧
      List.Forall₂ (fun line item => line.Rereads R header.toList item) (Emission.lines [] entries)
        (outline true 0 tokens) := by
  refine @outline_lines HeaderLine _ (fun line => line.text.toList) _ (Emission.readsAs_of_mem_lines hguards htexts) hends _ ?_
  rw [hheader, String.toList_intercalate, List.map_map]
  rfl

/-! ### Following the lines -/

namespace Tracker

/-- The directives among some tokens, with their places. -/
def placed (tokens : List Token) : List Placed :=
  tokens.filterMap fun token => token.directive?.map (·, token.line, token.span)

theorem map_fst_placed (tokens : List Token) : (placed tokens).map Prod.fst = tokens.filterMap Token.directive? := by
  rw [placed, List.map_filterMap]
  congr 1
  funext token
  cases token.directive? <;> rfl

/-- Tokens are followed as the directives among them are. -/
theorem passAll_eq_ok_iff {t behind : Tracker} {tokens : List Token} :
    t.passAll tokens = .ok behind ↔ t.processAll (placed tokens) = (behind, none) := by
  induction tokens generalizing t with
  | nil => simp [passAll, placed, processAll, pure, Except.pure]
  | cons token tokens ih =>
    rw [passAll_cons]
    cases hdirective : token.directive? with
    | none =>
      rw [pass_of_directive?_eq_none hdirective, placed, List.filterMap_cons, hdirective]
      exact ih
    | some directive =>
      rw [placed, List.filterMap_cons, hdirective]
      simp only [Option.map_some, processAll, pass, hdirective]
      cases t.process directive token.line token.span with
      | mk between fault =>
        cases fault with
        | none => exact ih
        | some fault => simp [Except.bind]

/-- Lines that lead from the guards of `here` to those of `there` are followed there as tokens. -/
theorem Leads.passAll {here there : GuardPath} {texts : List String} (h : Leads true here texts there) {t : Tracker}
    (hblocks : t.recognizeBlocks = true) (hunder : t.Under here) {tokens : List Token}
    (htokens : tokens.filterMap Token.directive? = texts.map Directive.parse) :
    ∃ behind, t.passAll tokens = .ok behind ∧ behind.recognizeBlocks = true ∧ behind.Under there := by
  obtain ⟨behind, hrun, hblocks', hunder'⟩ := h t (placed tokens) hblocks hunder (by rw [map_fst_placed, htokens])
  exact ⟨behind, passAll_eq_ok_iff.2 hrun, hblocks', hunder'⟩

/-! ### Balanced directives -/

/-- A conditional without its place. -/
def unplaced (conditional : OpenConditional) : Guard × Option InterfaceBlock :=
  (conditional.guard, conditional.block)

/-- `outside` is `t` with further conditionals around it; places in the text do not matter. -/
structure Inside (outer : List OpenConditional) (t outside : Tracker) : Prop where
  blocks : outside.recognizeBlocks = t.recognizeBlocks
  stack : ∃ inner, outside.stack = inner ++ outer ∧ inner.map unplaced = t.stack.map unplaced

variable {outer : List OpenConditional} {t outside behind : Tracker} {directive : Directive}

theorem Inside.top (h : t.Inside outer outside) {top : OpenConditional} {rest : List OpenConditional}
    (hstack : t.stack = top :: rest) :
    ∃ top' rest', outside.stack = top' :: (rest' ++ outer) ∧ top'.guard = top.guard ∧ top'.block = top.block ∧
      rest'.map unplaced = rest.map unplaced := by
  obtain ⟨inner, hinner, hmap⟩ := h.stack
  rw [hstack, List.map_cons] at hmap
  obtain ⟨top', rest', rfl, htop, hrest⟩ := List.map_eq_cons_iff.1 hmap
  obtain ⟨hguard, hblock⟩ := Prod.mk.inj htop
  exact ⟨top', rest', hinner, hguard, hblock, hrest⟩

/-- What a directive does inside does not depend on what is around. -/
theorem Inside.step (h : t.Inside outer outside) {line : Nat} {span : Span} (hstep : t.step directive line span = .ok behind)
    (line' : Nat) (span' : Span) :
    ∃ behind', outside.step directive line' span' = .ok behind' ∧ behind.Inside outer behind' := by
  cases steps_of_step_eq_ok hstep with
  | @opened opening kind condition =>
    obtain ⟨inner, hinner, hmap⟩ := h.stack
    refine ⟨_, (Steps.opened kind condition).step_eq_ok, h.blocks,
      ⟨{ opening, condition := directive.args }, line', span', outside.blockOf? opening directive.args⟩ :: inner, ?_, ?_⟩
    · simp [opened, hinner]
    · simp [opened, hmap, unplaced, blockOf?, h.blocks]
  | elif kind condition stack branch ordinary =>
    obtain ⟨top', rest', houtside, hguard, hblock, hrest⟩ := h.top stack
    refine ⟨_, (Steps.elif kind condition houtside (hguard ▸ branch) (hblock ▸ ordinary)).step_eq_ok, h.blocks, _ :: rest', rfl, ?_⟩
    simp [hrest, unplaced, hguard, hblock]
  | otherwise kind stack branch =>
    obtain ⟨top', rest', houtside, hguard, hblock, hrest⟩ := h.top stack
    refine ⟨_, (Steps.otherwise kind houtside (hguard ▸ branch)).step_eq_ok, h.blocks, _ :: rest', rfl, ?_⟩
    simp [hrest, unplaced, hguard, hblock]
  | endif kind stack =>
    obtain ⟨top', rest', houtside, -, -, hrest⟩ := h.top stack
    exact ⟨_, (Steps.endif kind houtside).step_eq_ok, h.blocks, rest', rfl, hrest⟩
  | other kind => exact ⟨outside, (Steps.other kind).step_eq_ok, h⟩

theorem Inside.processAll {placed placed' : List Placed} (h : t.Inside outer outside)
    (hsame : placed'.map Prod.fst = placed.map Prod.fst) (hrun : t.processAll placed = (behind, none)) :
    ∃ behind', outside.processAll placed' = (behind', none) ∧ behind.Inside outer behind' := by
  induction placed generalizing t outside placed' with
  | nil =>
    obtain rfl : placed' = [] := by simpa using hsame
    cases hrun
    exact ⟨outside, rfl, h⟩
  | cons first placed ih =>
    obtain ⟨directive, line, span⟩ := first
    obtain ⟨⟨other, line', span'⟩, rest', rfl, hother, hrest⟩ := List.map_eq_cons_iff.1 hsame
    obtain rfl : other = directive := hother
    simp only [Tracker.processAll, process] at hrun ⊢
    cases hstep : t.step other line span with
    | error fault => simp [hstep] at hrun
    | ok between =>
      obtain ⟨between', hstep', hbetween⟩ := h.step hstep line' span'
      simp only [hstep] at hrun
      simp only [hstep']
      exact ih hbetween hrest hrun

/-- The same directives are followed inside and outside. -/
theorem Inside.passAll (h : t.Inside outer outside) {ts us : List Token}
    (hsame : us.filterMap Token.directive? = ts.filterMap Token.directive?) (hpass : t.passAll ts = .ok behind) :
    ∃ behind', outside.passAll us = .ok behind' ∧ behind.Inside outer behind' := by
  have hplaced : (placed us).map Prod.fst = (placed ts).map Prod.fst := by
    rw [map_fst_placed, map_fst_placed, hsame]
  obtain ⟨behind', hrun, hbehind⟩ := h.processAll hplaced (passAll_eq_ok_iff.1 hpass)
  exact ⟨behind', passAll_eq_ok_iff.2 hrun, hbehind⟩

/-- Tokens that open nothing without closing it, and close nothing else, change nothing wherever they stand. -/
theorem passAll_of_closed {ts us : List Token} (hsame : us.filterMap Token.directive? = ts.filterMap Token.directive?)
    (h : Tracker.passAll { recognizeBlocks := t.recognizeBlocks } ts = .ok { recognizeBlocks := t.recognizeBlocks }) :
    t.passAll us = .ok t := by
  have hinside : Inside t.stack { recognizeBlocks := t.recognizeBlocks } t := ⟨rfl, [], rfl, rfl⟩
  obtain ⟨behind, hrun, hbehind⟩ := hinside.passAll hsame h
  obtain ⟨inner, hstack, hinner⟩ := hbehind.stack
  obtain rfl : inner = [] := by simpa using hinner
  have hblocks : behind.recognizeBlocks = t.recognizeBlocks := hbehind.blocks
  have heq : behind = t := by
    cases t
    cases behind
    simp_all
  rw [hrun, heq]

theorem balanced_of_passAll {tokens : List Token} (h : Tracker.passAll {} tokens = .ok {}) :
    Directive.Balanced (tokens.filterMap Token.directive?) := by
  intro t others hblocks hothers
  apply passAll_of_closed hothers
  rw [hblocks]
  exact h

end Tracker

theorem entriesFrom_append {source : List Char} {markers : Bool} {t behind : Tracker} {first : List Item}
    (h : t.passAll (first.flatMap Item.tokens) = .ok behind) (rest : List Item) :
    entriesFrom source markers t (first ++ rest) =
      entriesFrom source markers t first ++ entriesFrom source markers behind rest := by
  induction first generalizing t with
  | nil =>
    cases h
    rfl
  | cons item first ih =>
    rw [List.flatMap_cons, Tracker.passAll_append] at h
    rw [List.cons_append, entriesFrom, entriesFrom]
    cases hitem : t.passAll item.tokens with
    | ok between =>
      rw [hitem] at h
      simp only [ih h, List.append_assoc]
    | error fault =>
      rw [hitem] at h
      cases h

theorem forall₂_append_left {α β : Type} {R : α → β → Prop} {first rest : List α} {others : List β}
    (h : List.Forall₂ R (first ++ rest) others) :
    ∃ others₁ others₂, others = others₁ ++ others₂ ∧ List.Forall₂ R first others₁ ∧ List.Forall₂ R rest others₂ := by
  induction first generalizing others with
  | nil => exact ⟨[], others, rfl, .nil, h⟩
  | cons a first ih =>
    obtain _ | ⟨hb, hothers⟩ := h
    obtain ⟨others₁, others₂, rfl, hfirst, hrest⟩ := ih hothers
    exact ⟨_ :: others₁, others₂, rfl, .cons hb hfirst, hrest⟩

namespace Emission

/-- Guard lines are their directives, and declare nothing. -/
theorem directives_of_rereads {R : String → List Char → Item → Prop} {source : List Char} {texts : List String} {items : List Item}
    (h : List.Forall₂ (fun line item => line.Rereads R source item) (texts.map HeaderLine.directive) items)
    (hconditional : ∀ text ∈ texts, (Directive.parse text).kind.isConditional = true) :
    (items.flatMap Item.tokens).filterMap Token.directive? = texts.map Directive.parse ∧
      ∀ t, entriesFrom source true t items = [] := by
  induction texts generalizing items with
  | nil =>
    cases h
    exact ⟨rfl, fun t => rfl⟩
  | cons text texts ih =>
    obtain _ | ⟨⟨token, rfl, hkind⟩, hrest⟩ := h
    obtain ⟨hdirectives, hentries⟩ := ih hrest fun text htext => hconditional text (List.mem_cons_of_mem _ htext)
    have hdirective : token.directive? = some (.parse text) := by simp [Token.directive?, hkind]
    refine ⟨?_, fun t => ?_⟩
    · rw [List.flatMap_cons, List.filterMap_append, hdirectives]
      simp [Item.tokens, hdirective]
    · have hnone : (Item.directive token).entries source true t = [] := by
        have hdefines : ¬((Directive.parse text).kind = .define ∨ (Directive.parse text).kind = .undef) := by
          have := hconditional text List.mem_cons_self
          rintro (hdefine | hundef) <;> simp_all [DirectiveKind.isConditional]
        simp [Item.entries, hdirective, macroEntries, hdefines]
      rw [entriesFrom, hnone]
      cases t.passAll (Item.directive token).tokens with
      | ok behind => exact hentries behind
      | error fault => rfl

/-- Guard lines lead to the guards that they are written for. -/
theorem follow_moveLines {R : String → List Char → Item → Prop} {source : List Char} {opened target : GuardPath}
    (htarget : ∀ guard ∈ target, guard.Writable) {items : List Item}
    (hitems : List.Forall₂ (fun line item => line.Rereads R source item) (moveLines opened target) items)
    {t : Tracker} (hblocks : t.recognizeBlocks = true) (hunder : t.Under opened) :
    ∃ behind, t.passAll (items.flatMap Item.tokens) = .ok behind ∧ behind.recognizeBlocks = true ∧ behind.Under target ∧
      entriesFrom source true t items = [] := by
  have hwell : ∀ guard ∈ target, guard.WellFormed := fun guard hguard => (htarget guard hguard).toWellFormed
  have hleads := @Tracker.leads_transition true [] opened target hwell fun guard hguard => (htarget guard hguard).admits
  obtain ⟨hdirectives, hentries⟩ := directives_of_rereads hitems fun text htext =>
    isConditional_moveLines hwell (List.mem_map_of_mem htext)
  obtain ⟨behind, hpass, hblocks', hunder'⟩ := hleads.passAll hblocks hunder hdirectives
  exact ⟨behind, hpass, hblocks', hunder', hentries t⟩

/-- Followed from the guards that are open, the lines of some entries give the entries back, and close all
guards. -/
theorem follow_lines {source : List Char} {opened : GuardPath} {entries : List (GuardPath × String)}
    (hguards : ∀ entry ∈ entries, ∀ guard ∈ entry.1, guard.Writable) {items : List Item}
    (hitems : List.Forall₂ (fun line item => line.Rereads Item.Restores source item) (lines opened entries) items)
    {t : Tracker} (hblocks : t.recognizeBlocks = true) (hunder : t.Under opened) :
    ∃ last, t.passAll (items.flatMap Item.tokens) = .ok last ∧ last.Under [] ∧
      ((entriesFrom source true t items).filterMap Entry.draft?).map (fun draft => (draft.guard, draft.text.text)) = entries ∧
      (entriesFrom source true t items).filterMap Entry.issue? = [] := by
  induction entries generalizing opened t items with
  | nil =>
    obtain ⟨last, hpass, -, hunder', hentries⟩ := follow_moveLines (by simp) hitems hblocks hunder
    exact ⟨last, hpass, hunder', by simp [hentries], by simp [hentries]⟩
  | cons entry entries ih =>
    obtain ⟨guard, text⟩ := entry
    obtain ⟨hguard, hguards⟩ := List.forall_mem_cons.1 hguards
    obtain ⟨moved, rest, rfl, hmoved, hrest⟩ := forall₂_append_left hitems
    obtain _ | ⟨⟨directives, hbalanced, hdeclares⟩, hrest⟩ := hrest
    rename_i item later
    obtain ⟨between, hpass, hblocks', hunder', hnone⟩ := follow_moveLines hguard hmoved hblocks hunder
    obtain ⟨last, hlast, hclosed, hdrafts, hissues⟩ := ih hguards hrest hblocks' hunder'
    have hitem : between.passAll item.tokens = .ok between := hbalanced between _ hblocks' hdeclares.directives
    obtain ⟨draft, hdraft, hguard', htext⟩ := hdeclares.drafts between
    have hentries : entriesFrom source true t (moved ++ item :: later) =
        item.entries source true between ++ entriesFrom source true between later := by
      rw [entriesFrom_append hpass, hnone, List.nil_append, entriesFrom, hitem]
    refine ⟨last, ?_, hclosed, ?_, ?_⟩
    · rw [List.flatMap_append, Tracker.passAll_append, hpass]
      change between.passAll _ = _
      rw [List.flatMap_cons, Tracker.passAll_append, hitem]
      exact hlast
    · rw [hentries, List.filterMap_append, List.map_append, hdrafts, hdraft]
      simp [hguard', htext, hunder'.guardPath_eq]
    · rw [hentries, List.filterMap_append, hdeclares.issues, hissues]
      rfl

end Emission

/-- A header of texts that are runs wherever they stand, with their directives balanced, is a text without faults
that declares those texts, under the guards that they were written for. -/
theorem survey_lines {entries : List (GuardPath × String)}
    (hguards : ∀ entry ∈ entries, ∀ guard ∈ entry.1, guard.Writable)
    (htexts : ∀ entry ∈ entries, ReadsAs entry.2.toList (Item.Restores entry.2))
    (hends : ∀ line ∈ (Emission.lines [] entries).dropLast, EndsItsLine line.text.toList) {header : String}
    (hheader : header = "\n".intercalate ((Emission.lines [] entries).map HeaderLine.text)) :
    ∃ again, surveySource true header = .ok again ∧ again.errors = [] ∧
      again.declarations.items.map (fun d => (d.guard, d.text.text)) = entries := by
  obtain ⟨tokens, htokens, hitems⟩ := outline_header hguards htexts hends hheader
  obtain ⟨last, hpass, hclosed, hdrafts, hissues⟩ :=
    Emission.follow_lines hguards hitems rfl (Tracker.under_start true)
  have hfault : Tracker.fault? { recognizeBlocks := true } (Outline.untilEnd tokens) = none := by
    rw [← flatMap_tokens_outline true 0 tokens, Tracker.fault?, hpass]
    exact hclosed.finish_eq_none
  have hsurvey := @survey_of_fault?_eq_none true header tokens hfault
  refine ⟨_, by simp only [surveySource, htokens, bind, Except.bind, hsurvey]; rfl, ?_, ?_⟩
  · rw [Survey.errors_recordAll, hissues]
    rfl
  · have hrecorded := Survey.drafts_recordAll {}
      (entriesFrom header.toList true { recognizeBlocks := true } (outline true 0 tokens))
    rw [← hdrafts, ← List.nil_append (List.filterMap Entry.draft? _), ← show DeclarationList.drafts {} = [] from rfl,
      ← hrecorded, DeclarationList.drafts, List.map_map]
    rfl

end CHeader
