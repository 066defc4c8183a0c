import CHeader.Proofs.Joining
import CHeader.Proofs.Respacing
import CHeader.Proofs.Resuming

/-!
# Texts that say the same

Tokens that are mapped so that their kinds stay are cut into runs as they were, broken ones too (`outline_mapsTo`).
If the map also keeps which tokens stand apart (`Respaces`), the two texts are surveyed in step: each run says the same
under the same guards, and a directive that does not fit ends both surveys, behind as many errors
(`survey_respaced`).
-/

namespace CHeader

variable {f : Token → Token}

/-! ### Runs of mapped tokens -/

/-- The second run is the first one with its tokens mapped. The faults of broken runs are left open. -/
inductive Item.MapsTo (f : Token → Token) : Item → Item → Prop
  | directive (token : Token) : MapsTo f (.directive token) (.directive (f token))
  | skipped (tokens : List Token) : MapsTo f (.skipped tokens) (.skipped (tokens.map f))
  | construct (tokens : List Token) (c : Construct) : MapsTo f (.construct tokens c) (.construct (tokens.map f) (c.map f))
  | malformed (before behind : List Token) (fault fault' : Diagnostic) :
      MapsTo f (.malformed before fault behind) (.malformed (before.map f) fault' (behind.map f))

/-- A run and what follows it, mapped. -/
structure Outline.CutAlike (f : Token → Token) (run run' : Item × List Token) : Prop where
  item : run.1.MapsTo f run'.1
  rest : run'.2 = run.2.map f

namespace Outline

theorem recovery_map (hf : KeepsKinds f) (depth : Nat) (ts : List Token) :
    recovery depth (ts.map f) = (recovery depth ts).map f := by
  induction ts generalizing depth with
  | nil => rfl
  | cons t ts ih =>
    rw [List.map_cons, recovery, recovery, hf t]
    split
    case h_1 => rfl
    case h_2 | h_4 =>
      split_ifs
      · rfl
      · rw [ih, List.map_cons]
    case h_3 | h_5 => rw [ih, List.map_cons]

theorem untilEnd_map (hf : KeepsKinds f) (ts : List Token) : untilEnd (ts.map f) = (untilEnd ts).map f := by
  simp only [untilEnd, List.takeWhile_map, Function.comp_def, hf _]

theorem malformed_mapsTo (c : Collected) (behind : List Token) (fault fault' : Diagnostic) :
    (c.malformed fault behind).MapsTo f ((c.map f).malformed fault' (behind.map f)) := by
  have hrun := Item.MapsTo.malformed (f := f) c.met.reverse behind fault fault'
  rwa [List.map_reverse] at hrun

theorem function_cutAlike (hf : KeepsKinds f) (c : Collected) (brace : Token) (ts : List Token) :
    CutAlike f (function c brace ts) (function (c.map f) (f brace) (ts.map f)) := by
  simp only [function, body?_map hf, untilEnd_map hf]
  cases body? 0 ts with
  | none =>
    refine ⟨?_, by simp⟩
    have hrun := Item.MapsTo.malformed (f := f) (c.met.reverse ++ brace :: untilEnd ts) []
      (.ofIssue (.bodyNeverClosed brace.line) brace) (.ofIssue (.bodyNeverClosed (f brace).line) (f brace))
    simpa [Collected.map] using hrun
  | some found =>
    obtain ⟨inside, close⟩ := found
    refine ⟨?_, by simp⟩
    have hrun := Item.MapsTo.construct (f := f) (c.met.reverse ++ brace :: (inside ++ [close])) (c.finish (.body brace close))
    rw [← Collected.finish_map] at hrun
    simpa [Collected.map, Ending.map] using hrun

/-- A run of a construct is cut off mapped tokens where it is cut off the tokens. -/
theorem collect_cutAlike (hf : KeepsKinds f) (markers : Bool) (first : Token) (c : Collected) (ts : List Token) :
    CutAlike f (collect markers first c ts) (collect markers (f first) (c.map f) (ts.map f)) := by
  induction ts generalizing c with
  | nil => exact ⟨malformed_mapsTo c [] _ _, rfl⟩
  | cons t ts ih =>
    rw [List.map_cons, collect_cons, collect_cons, Collected.verdict_map hf]
    cases c.verdict markers t with
    | goOn c' => exact ih c'
    | ends =>
      refine ⟨?_, rfl⟩
      have hrun := Item.MapsTo.construct (f := f) (t :: c.met).reverse (c.finish (.semicolon t))
      rw [← Collected.finish_map] at hrun
      simpa [Verdict.map, Collected.stop, Collected.map, Ending.map] using hrun
    | body => exact function_cutAlike hf c t ts
    | unexpected =>
      have hrecovery := recovery_map hf 0 (t :: ts)
      simp only [List.map_cons] at hrecovery
      refine ⟨?_, ?_⟩
      · simp only [Verdict.map, Collected.stop, hrecovery]
        exact malformed_mapsTo c _ _ _
      · simp [Verdict.map, Collected.stop, hrecovery]
    | unbalanced =>
      have hopened : openBraces (c.map f).opened.tail = openBraces c.opened.tail := by
        rw [Collected.map, ← List.map_tail, openBraces_map hf]
      refine ⟨?_, ?_⟩
      · simp only [Verdict.map, Collected.stop, hopened, recovery_map hf, ← List.map_cons]
        exact malformed_mapsTo c _ _ _
      · simp [Verdict.map, Collected.stop, hopened, recovery_map hf]
    | endOfText => exact ⟨malformed_mapsTo c [] _ _, rfl⟩

theorem external_cutAlike (hf : KeepsKinds f) (markers : Bool) (t : Token) (ts : List Token) :
    CutAlike f (external markers t ts) (external markers (f t) (ts.map f)) := by
  unfold external
  rw [hf t]
  split_ifs
  · exact collect_cutAlike hf markers t (.start t) ts
  · have hrecovery := recovery_map hf 0 (t :: ts)
    simp only [List.map_cons] at hrecovery
    refine ⟨?_, ?_⟩
    · simp only [hrecovery]
      exact .malformed [] _ _ _
    · simp [hrecovery]

end Outline

/-- The runs of mapped tokens are the runs of the tokens, mapped. -/
theorem outline_mapsTo (hf : KeepsKinds f) (markers : Bool) (linkage : Nat) (ts : List Token) :
    List.Forall₂ (Item.MapsTo f) (outline markers linkage ts) (outline markers linkage (ts.map f)) := by
  fun_induction outline markers linkage ts with
  | case1 => simp [outline]
  | case2 linkage t ts heof => simp [outline, hf t, heof]
  | case3 linkage t ts directive hkind ih =>
    rw [List.map_cons, outline_cons_directive (by simp [Token.directive?, hf t, hkind])]
    exact .cons (.directive t) ih
  | case4 linkage t ts n linkage' hskipped heof hdirective ih =>
    have hdirective' : (f t).directive? = none := by rw [hf.directive?, directive?_eq_none hdirective]
    rw [List.map_cons, outline_cons_skipped (by simpa [hf t] using heof) hdirective'
      ((Outline.skipped?_map hf linkage t ts).trans hskipped), ← List.map_drop, ← List.map_take, ← List.map_cons]
    exact .cons (.skipped _) ih
  | case5 linkage t ts hskipped run heof hdirective ih =>
    have hdirective' : (f t).directive? = none := by rw [hf.directive?, directive?_eq_none hdirective]
    obtain ⟨hitem, hrest⟩ := Outline.external_cutAlike hf markers t ts
    rw [List.map_cons, outline_cons_external (by simpa [hf t] using heof) hdirective'
      ((Outline.skipped?_map hf linkage t ts).trans hskipped), hrest]
    exact .cons hitem ih

/-! ### Declarations that say the same -/

/-- The second declaration says what the first one does, apart from its place and from text that is copied from there. -/
structure Declaration.SaysAs (d d' : Declaration) : Prop where
  name : d'.name = d.name
  kind : d'.kind = d.kind
  visibility : d'.visibility = d.visibility
  guard : d'.guard = d.guard
  verbatim : d'.text.isVerbatim = d.text.isVerbatim
  rebuilt : d'.text.rebuilt? = d.text.rebuilt?

/-- The second list has the same symbols and declarations that say the same, in the same order. -/
structure DeclarationList.SaysAs (list list' : DeclarationList) : Prop where
  symbols : list'.symbols = list.symbols
  items : List.Forall₂ Declaration.SaysAs list.items list'.items

/-- The surveys say the same, and have as many errors. -/
structure Survey.SaysAs (s s' : Survey) : Prop where
  declarations : s.declarations.SaysAs s'.declarations
  errors : s'.errors.length = s.errors.length

theorem map_eq_of_forall₂ {α β γ : Type} {R : α → β → Prop} {as : List α} {bs : List β} (h : List.Forall₂ R as bs)
    {g : α → γ} {g' : β → γ} (hsame : ∀ a b, R a b → g' b = g a) : bs.map g' = as.map g := by
  induction h with
  | nil => rfl
  | cons hab _ ih => rw [List.map_cons, List.map_cons, hsame _ _ hab, ih]

namespace DeclarationList.SaysAs

variable {list list' : DeclarationList} {draft draft' : Draft}

theorem names (h : list.SaysAs list') : list'.items.map list'.nameOf? = list.items.map list.nameOf? := by
  apply map_eq_of_forall₂ h.items
  intro d d' hd
  rw [nameOf?, nameOf?, hd.name, h.symbols]

theorem kind_get? (h : list.SaysAs list') (id : Nat) : (list'.get? id).map (·.kind) = (list.get? id).map (·.kind) := by
  have hkinds : list'.items.map (·.kind) = list.items.map (·.kind) := map_eq_of_forall₂ h.items fun _ _ hd => hd.kind
  rw [get?, get?, ← List.getElem?_map, ← List.getElem?_map, hkinds]

theorem intern (h : list.SaysAs list') (name : String) : (list.intern name).1.SaysAs (list'.intern name).1 :=
  ⟨by simp [DeclarationList.intern, h.symbols], h.items⟩

/-- What an entry says does not change by its place. -/
theorem push (h : list.SaysAs list') (name : Option String)
    (hdraft : ∀ id name, Declaration.SaysAs { draft with id, name } { draft' with id, name }) :
    (list.push name draft).1.SaysAs (list'.push name draft').1 ∧ (list'.push name draft').2 = (list.push name draft).2 := by
  have hlength : list'.items.length = list.items.length := h.items.length_eq.symm
  have hkind : draft'.kind = draft.kind := (hdraft 0 none).kind
  cases name with
  | none =>
    refine ⟨⟨h.symbols, ?_⟩, hlength⟩
    simp only [DeclarationList.push, hlength]
    exact List.rel_append h.items (.cons (hdraft _ none) .nil)
  | some name =>
    refine ⟨⟨by simp [DeclarationList.push, h.symbols, hkind, hlength], ?_⟩, hlength⟩
    simp only [DeclarationList.push, hlength, h.symbols, hkind]
    exact List.rel_append h.items (.cons (hdraft _ _) .nil)

theorem addName (h : list.SaysAs list') (name : String) (id : Nat) : (list.addName name id).SaysAs (list'.addName name id) := by
  have hkind := h.kind_get? id
  unfold DeclarationList.addName
  revert hkind
  cases list.get? id <;> cases list'.get? id <;> intro hkind
  · exact h
  · cases hkind
  · cases hkind
  · exact ⟨by simp [h.symbols, Option.some.inj hkind], h.items⟩

theorem declare (h : list.SaysAs list') (names : List String)
    (hdraft : ∀ id name, Declaration.SaysAs { draft with id, name } { draft' with id, name }) :
    (Survey.declare list names draft).SaysAs (Survey.declare list' names draft') := by
  obtain ⟨hpush, hid⟩ := h.push names.head? hdraft
  simp only [Survey.declare, hid]
  generalize (list.push names.head? draft).2 = id
  revert hpush
  generalize (list.push names.head? draft).1 = before
  generalize (list'.push names.head? draft').1 = before'
  intro hbefore
  induction names.tail generalizing before before' with
  | nil => exact hbefore
  | cons name names ih => exact ih _ _ (hbefore.addName name id)

end DeclarationList.SaysAs

/-- Entries that say the same are recorded the same. -/
theorem Survey.SaysAs.record {s s' : Survey} (h : s.SaysAs s') {entry entry' : Entry} (hentry : entry'.saying = entry.saying) :
    (s.record entry).SaysAs (s'.record entry') := by
  cases entry with
  | mention name =>
    cases entry' <;> simp only [Entry.saying, Saying.mention.injEq, reduceCtorEq] at hentry
    subst hentry
    exact ⟨h.declarations.intern _, h.errors⟩
  | declare names draft =>
    cases entry' <;> simp only [Entry.saying, Saying.declare.injEq, reduceCtorEq] at hentry
    obtain ⟨rfl, hkind, hvisibility, hguard, hrebuilt⟩ := hentry
    refine ⟨h.declarations.declare _ fun id name => ⟨rfl, hkind, hvisibility, hguard, ?_, hrebuilt⟩, h.errors⟩
    have hverbatim : ∀ text : DeclText, text.isVerbatim = text.rebuilt?.isNone := by rintro (_ | _) <;> rfl
    rw [hverbatim, hverbatim, hrebuilt]
  | issue fault =>
    cases entry' <;> simp only [Entry.saying, reduceCtorEq] at hentry
    exact ⟨h.declarations, by simp [Survey.record, h.errors]⟩

theorem Survey.SaysAs.recordAll {s s' : Survey} (h : s.SaysAs s') {entries entries' : List Entry}
    (hentries : entries'.map Entry.saying = entries.map Entry.saying) :
    (s.recordAll entries).SaysAs (s'.recordAll entries') := by
  induction entries generalizing s s' entries' with
  | nil =>
    obtain rfl : entries' = [] := by simpa using hentries
    exact h
  | cons entry entries ih =>
    obtain ⟨entry', entries', rfl, hentry, hentries⟩ := List.map_eq_cons_iff.1 hentries
    exact ih (h.record hentry) hentries

/-! ### Surveys in step -/

/-- Both succeed, with results in the relation, or both fail with as many errors. -/
inductive EndAlike {α β : Type} (R : α → β → Prop) : Except (List Diagnostic) α → Except (List Diagnostic) β → Prop
  | ok {a : α} {b : β} (h : R a b) : EndAlike R (.ok a) (.ok b)
  | error {errors errors' : List Diagnostic} (h : errors'.length = errors.length) :
      EndAlike R (.error errors) (.error errors')

theorem EndAlike.bind {α β γ δ : Type} {R : α → β → Prop} {S : γ → δ → Prop} {x : Except (List Diagnostic) α}
    {y : Except (List Diagnostic) β} (h : EndAlike R x y) {g : α → Except (List Diagnostic) γ}
    {g' : β → Except (List Diagnostic) δ} (hg : ∀ a b, R a b → EndAlike S (g a) (g' b)) :
    EndAlike S (x >>= g) (y >>= g') := by
  cases h with
  | ok h => exact hg _ _ h
  | error h => exact .error h

theorem Tracker.Inside.symm {t t' : Tracker} (h : t.Inside [] t') : t'.Inside [] t := by
  obtain ⟨inner, hstack, hinner⟩ := h.stack
  refine ⟨h.blocks.symm, t.stack, by simp, ?_⟩
  rw [hstack, List.append_nil, hinner]

theorem saying_macroEntries {t t' : Tracker} (h : t.Inside [] t') (token token' : Token) (directive : Directive) :
    (macroEntries t' token' directive).map Entry.saying = (macroEntries t token directive).map Entry.saying := by
  simp only [macroEntries, h.guardPath, h.interfaceBlock]
  by_cases hkind : directive.kind = .define ∨ directive.kind = .undef
  · rw [if_pos hkind, if_pos hkind]
    cases directive.macroName? with
    | none => rfl
    | some name => simp [Entry.saying, DeclText.rebuilt?]
  · rw [if_neg hkind, if_neg hkind]

namespace Surveying

/-- Two surveys under way say the same, and are inside conditionals that differ in their places only. -/
structure InStep (s s' : Surveying) : Prop where
  tracker : s.tracker.Inside [] s'.tracker
  survey : s.survey.SaysAs s'.survey

variable {s s' : Surveying}

theorem InStep.recordAll (h : s.InStep s') {entries entries' : List Entry}
    (hentries : entries'.map Entry.saying = entries.map Entry.saying) :
    (s.recordAll entries).InStep (s'.recordAll entries') :=
  ⟨h.tracker, h.survey.recordAll hentries⟩

/-- Mapped tokens are followed as the tokens are. -/
theorem InStep.follow (hf : KeepsKinds f) (h : s.InStep s') (ts : List Token) :
    EndAlike InStep (s.follow ts) (s'.follow (ts.map f)) := by
  have hdirectives := hf.filterMap_directive? ts
  unfold Surveying.follow
  cases hpass : s.tracker.passAll ts with
  | ok behind =>
    obtain ⟨behind', hpass', hbehind⟩ := h.tracker.passAll hdirectives hpass
    rw [hpass']
    exact .ok ⟨hbehind, h.survey⟩
  | error fault =>
    cases hpass' : s'.tracker.passAll (ts.map f) with
    | ok behind' =>
      obtain ⟨behind, hok, -⟩ := h.tracker.symm.passAll hdirectives.symm hpass'
      rw [hpass] at hok
      cases hok
    | error fault' => exact .error (by simp [h.survey.errors])

/-- Two surveys take in a run in step, if its construct is among tokens that stand apart as they did. -/
theorem InStep.step {ts : List Token} (hf : Respaces f ts) (h : s.InStep s') (source source' : List Char) (markers : Bool)
    {item item' : Item} (hitem : item.MapsTo f item') (hwithin : ∀ c, item.construct? = some c → c.Within ts) :
    EndAlike InStep (s.step source markers item) (s'.step source' markers item') := by
  cases hitem with
  | directive token =>
    refine (h.follow hf.keepsKinds [token]).bind fun behind behind' hbehind => .ok (hbehind.recordAll ?_)
    rw [hf.keepsKinds.directive?]
    cases token.directive? with
    | none => rfl
    | some directive => exact saying_macroEntries hbehind.tracker token (f token) directive
  | skipped tokens => exact h.follow hf.keepsKinds tokens
  | construct tokens c =>
    refine (h.follow hf.keepsKinds tokens).bind fun behind behind' hbehind => .ok (hbehind.recordAll ?_)
    exact Construct.entries_respaced hf (hwithin c rfl) rfl h.tracker.guardPath h.tracker.interfaceBlock
  | malformed before behind fault fault' =>
    refine (h.follow hf.keepsKinds before).bind fun here here' hhere => ?_
    have hissue : [Entry.issue fault'].map Entry.saying = [Entry.issue fault].map Entry.saying := rfl
    exact (hhere.recordAll hissue).follow hf.keepsKinds behind

/-- Two surveys take in runs in step. -/
theorem InStep.foldlM_step {ts : List Token} (hf : Respaces f ts) (h : s.InStep s') (source source' : List Char)
    (markers : Bool) {items items' : List Item} (hitems : List.Forall₂ (Item.MapsTo f) items items')
    (hwithin : ∀ item ∈ items, ∀ c, item.construct? = some c → c.Within ts) :
    EndAlike InStep (items.foldlM (Surveying.step source markers) s) (items'.foldlM (Surveying.step source' markers) s') := by
  induction hitems generalizing s s' with
  | nil => exact .ok h
  | cons hitem _ ih =>
    obtain ⟨hhere, hrest⟩ := List.forall_mem_cons.1 hwithin
    rw [List.foldlM_cons, List.foldlM_cons]
    exact (h.step hf source source' markers hitem hhere).bind fun _ _ hbehind => ih hbehind hrest

theorem InStep.finish (h : s.InStep s') : EndAlike Survey.SaysAs s.finish s'.finish := by
  obtain ⟨inner, hstack, hinner⟩ := h.tracker.stack
  unfold Surveying.finish Tracker.finish
  rw [hstack, List.append_nil]
  cases hopen : s.tracker.stack with
  | nil =>
    obtain rfl : inner = [] := by simpa [hopen] using hinner
    exact .ok h.survey
  | cons top rest =>
    obtain ⟨top', rest', rfl, -, -⟩ := List.map_eq_cons_iff.1 (hinner.trans (by rw [hopen, List.map_cons]))
    exact .error (by simp [h.survey.errors])

end Surveying

/-- The constructs of a text are among its tokens. -/
theorem within_of_mem_outline {markers : Bool} {linkage : Nat} {ts : List Token} {item : Item}
    (h : item ∈ outline markers linkage ts) {c : Construct} (hc : item.construct? = some c) :
    c.Within (Outline.untilEnd ts) := by
  cases item with
  | directive | skipped | malformed => cases hc
  | construct run construct =>
    obtain rfl : construct = c := Option.some.inj hc
    have hrun : run.Sublist (Outline.untilEnd ts) := by
      rw [← flatMap_tokens_outline markers linkage ts]
      exact List.sublist_flatten_of_mem (List.mem_map_of_mem h)
    obtain ⟨first, behind, rest, hstart, hcollect⟩ := collect_of_mem_outline h
    obtain ⟨met, behind, rfl, hhead, hconditionals⟩ := Outline.conditionals_of_collect hstart hcollect
    refine ⟨(hhead.trans (List.sublist_append_left _ _)).trans hrun, ?_⟩
    rw [hconditionals]
    exact ((List.filter_sublist.trans (List.sublist_append_left met behind)).trans hrun).subset

/-- Tokens of two texts that differ in places only, and stand apart as they did, say the same in both. -/
theorem survey_respaced {tokens : List Token} (hf : Respaces f (Outline.untilEnd tokens)) (markers : Bool)
    (source source' : String) :
    EndAlike Survey.SaysAs (survey markers source tokens) (survey markers source' (tokens.map f)) := by
  have hstart : Surveying.InStep { tracker := { recognizeBlocks := markers } } { tracker := { recognizeBlocks := markers } } :=
    ⟨Tracker.inside_refl _, ⟨⟨rfl, .nil⟩, rfl⟩⟩
  have hrun := hstart.foldlM_step hf source.toList source'.toList markers (outline_mapsTo hf.keepsKinds markers 0 tokens)
    fun item hitem c hc => within_of_mem_outline hitem hc
  exact hrun.bind fun _ _ hbehind => hbehind.finish

end CHeader
