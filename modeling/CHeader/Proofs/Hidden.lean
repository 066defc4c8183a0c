import CHeader.Proofs.HeaderLines
import CHeader.Proofs.Overlay
import CHeader.Proofs.Settled

/-!
# What a local block hides

Whatever a construct declares is marked by its specifiers and by the interface block around its start
(`Construct.markedBy_entries`), and a macro by the block alone. In a `LOCAL_INTERFACE` block both are local, so that no
header shows them (`local_block_hides`). Only the innermost block counts: in an `INTERFACE` block within a local one
declarations are marked as they are themselves (`local_block_shows_nested`).
-/

namespace CHeader

/-- The guards of a place in the first branch of a `#if LOCAL_INTERFACE`, with conditionals perhaps further in, but no
interface block among these. -/
def GuardPath.InLocalBlock (path : GuardPath) : Prop :=
  ∃ outer guard inner, path = outer ++ guard :: inner ∧
    guard.opening = .expression ∧ guard.condition = "LOCAL_INTERFACE" ∧ guard.inElse = false ∧
    ∀ further ∈ inner, further.block? = none

theorem GuardPath.InLocalBlock.marking_eq {path : GuardPath} (h : path.InLocalBlock) :
    path.innermostBlock?.bind Guard.marking? = some .internal := by
  obtain ⟨outer, guard, inner, rfl, hopening, hcondition, hbranch, hinner⟩ := h
  have hblock : guard.block? = some .internal := by rw [Guard.block?, if_pos hopening, hcondition]; rfl
  have hfurther : inner.reverse.find? (·.block?.isSome) = none := by
    rw [List.find?_eq_none]
    intro further hmem
    simp [hinner further (List.mem_reverse.1 hmem)]
  have hinnermost : GuardPath.innermostBlock? (outer ++ guard :: inner) = some guard := by
    rw [innermostBlock?, List.reverse_append, List.reverse_cons, List.append_assoc, List.find?_append, hfurther]
    simp [hblock]
  rw [hinnermost, Option.bind_some, Guard.marking?, hbranch, hblock]
  rfl

/-! ### How a construct marks what it declares -/

namespace Specifiers

@[simp] theorem typeVisibility_internal (specs : Specifiers) : specs.typeVisibility (some .internal) = .internal := by
  rw [typeVisibility, if_pos rfl]

@[simp] theorem visibility_internal (specs : Specifiers) : specs.visibility (some .internal) = .internal := by
  rw [visibility, typeVisibility_internal]
  split_ifs <;> rfl

end Specifiers

/-- A declaration is as visible as specifiers and a block make it: one with linkage as functions and variables are, any
other as types are. -/
def Entry.MarkedBy (specs : Specifiers) (block : Option InterfaceBlock) : Entry → Prop
  | .declare _ draft =>
    draft.visibility = if draft.kind.hasLinkage then specs.visibility block else specs.typeVisibility block
  | .mention _ | .issue _ => True

/-- The declarations of a construct are marked by its specifiers and the block around its start. -/
theorem Construct.markedBy_entries {c : Construct} {site : Site} {entry : Entry} (h : entry ∈ c.entries site) :
    entry.MarkedBy (c.specifiers site) site.block := by
  obtain ⟨first, rest, -, -, hyields⟩ := yields_of_mem_entries h
  cases hyields with
  | mention | fault => trivial
  | typedef | bare | apart | ofFunction | ofVariable => rfl

/-- Where the innermost interface block is a local one, all that a run declares is local. -/
theorem Item.visibility_of_mem_entries {item : Item} {source : List Char} {markers : Bool} {here : Tracker}
    {names : List String} {draft : Draft} (hblock : here.interfaceBlock = some .internal)
    (h : .declare names draft ∈ item.entries source markers here) : draft.visibility = .internal := by
  cases item with
  | skipped => cases h
  | malformed => simp [entries] at h
  | directive token =>
    rw [entries] at h
    cases hdirective : token.directive? with
    | none => simp [hdirective] at h
    | some directive =>
      rw [hdirective, Option.map_some, Option.getD_some, macroEntries] at h
      split_ifs at h
      · split at h
        · obtain ⟨-, rfl⟩ := Entry.declare.inj (List.mem_singleton.1 h)
          rfl
        · cases List.mem_singleton.1 h
      · cases h
  | construct tokens c =>
    have hmarked : (Entry.declare names draft).MarkedBy _ here.interfaceBlock := Construct.markedBy_entries h
    rw [hblock] at hmarked
    simpa [Entry.MarkedBy] using hmarked

/-! ### Declarations and the places they start at -/

/-- A run that makes the declaration begins with the token `first`, behind the tokens `before`. -/
def Declaration.StartsAt (markers : Bool) (source : String) (tokens : List Token) (d : Declaration)
    (before : List Token) (first : Token) : Prop :=
  ∃ k item here names, (outline markers 0 tokens)[k]? = some item ∧ item.Begins first ∧
    ((outline markers 0 tokens).take k).flatMap Item.tokens = before ∧
    Tracker.passAll { recognizeBlocks := markers } before = .ok here ∧
    .declare names d.toDraft ∈ item.entries source.toList markers here

variable {markers : Bool} {source : String} {tokens before : List Token} {first : Token} {d : Declaration}

theorem Item.Begins.head?_tokens {item : Item} (h : item.Begins first) : item.tokens.head? = some first := by
  cases item with
  | directive token => exact congrArg some h
  | skipped => cases h
  | construct tokens c => exact h.1
  | malformed => cases h

instance (first : Token) : (item : Item) → Decidable (item.Begins first)
  | .directive token => inferInstanceAs (Decidable (token = first))
  | .construct tokens c => inferInstanceAs (Decidable (tokens.head? = some first ∧ c.head.head? = some first))
  | .skipped _ | .malformed .. => inferInstanceAs (Decidable False)

namespace Declaration

/-- The text goes on with the token behind those before it. -/
theorem StartsAt.untilEnd_eq (h : d.StartsAt markers source tokens before first) :
    ∃ behind, Outline.untilEnd tokens = before ++ first :: behind := by
  obtain ⟨k, item, _, _, hitem, hbegins, hbefore, -⟩ := h
  obtain ⟨rest, hrest⟩ := List.head?_eq_some_iff.1 hbegins.head?_tokens
  obtain ⟨hk, hget⟩ := List.getElem?_eq_some_iff.1 hitem
  refine ⟨rest ++ ((outline markers 0 tokens).drop (k + 1)).flatMap Item.tokens, ?_⟩
  rw [← flatMap_tokens_outline markers 0 tokens, ← List.cons_append, ← hrest, ← hbefore, ← hget, ← List.flatMap_cons,
    ← List.drop_eq_getElem_cons hk, ← List.flatMap_append, List.take_append_drop]

theorem exists_startsAt {s : Survey} (htokens : tokenize source = .ok tokens)
    (hsurvey : surveySource markers source = .ok s) (hd : d ∈ s.declarations.items) :
    ∃ before first, d.StartsAt markers source tokens before first := by
  obtain ⟨-, rfl⟩ := recorded_of_surveySource htokens hsurvey
  obtain ⟨earlier, item, later, here, first, names, hsplit, hbegins, hentry, -, hpass, -⟩ := exists_run_of_mem_recordAll hd
  refine ⟨_, first, earlier.length, item, here, names, ?_, hbegins, ?_, hpass, hentry⟩
  · rw [hsplit, List.getElem?_append_right (Nat.le_refl _), Nat.sub_self, List.getElem?_cons_zero]
  · rw [hsplit, List.take_left]

end Declaration

open Emission (emit written) in
/-- What starts in a local block is hidden. Where interface blocks count, each declaration of a text starts at a token of
it, its directive or the first token of its construct. If this token stands in the first branch of a `#if LOCAL_INTERFACE`,
with no interface block further in, then the declaration is marked local, is local in effect, and is none of those that a
header writes. The conditionals around the token are those that are found where no block is told from a guard. -/
theorem local_block_hides {s : Survey} (htokens : tokenize source = .ok tokens)
    (hsurvey : surveySource true source = .ok s) :
    (emit s.declarations).filterMap HeaderLine.declared? = (written s.declarations).map (·.text.text) ∧
    ∀ d ∈ s.declarations.items,
      (∃ before first, d.StartsAt true source tokens before first) ∧
      ∀ before first, d.StartsAt true source tokens before first →
        ∃ behind around, Outline.untilEnd tokens = before ++ first :: behind ∧
          Tracker.passAll { recognizeBlocks := false } before = .ok around ∧
          (around.guardPath.InLocalBlock → d.visibility = .internal ∧
            s.declarations.effectiveVisibility d = .internal ∧ d ∉ written s.declarations) := by
  refine ⟨Emission.filterMap_declared?_emit _, ?_⟩
  intro d hd
  refine ⟨Declaration.exists_startsAt htokens hsurvey hd, ?_⟩
  intro before first hstarts
  obtain ⟨behind, hbehind⟩ := hstarts.untilEnd_eq
  obtain ⟨_, item, here, names, -, -, -, hpass, hentry⟩ := hstarts
  obtain ⟨around, haround, hoverlays⟩ := Tracker.overlays_start.processAll (Tracker.passAll_eq_ok_iff.1 hpass)
  refine ⟨behind, around, hbehind, Tracker.passAll_eq_ok_iff.2 haround, ?_⟩
  intro hlocal
  have hblock : here.interfaceBlock = some .internal := hoverlays.interfaceBlock_eq.trans hlocal.marking_eq
  have hinternal : d.visibility = .internal := Item.visibility_of_mem_entries hblock hentry
  have heffective : s.declarations.effectiveVisibility d = .internal :=
    (DeclarationList.effectiveVisibility_of_own (.inl hinternal) _).trans hinternal
  exact ⟨hinternal, heffective, Emission.not_mem_written heffective⟩

/-- A variable in a conditional in a local block. -/
theorem local_block_hides_deep :
    let source := "#if LOCAL_INTERFACE\n#ifdef A\nint a;\n#endif\n#endif\nint b;"
    ∃ tokens s, tokenize source = .ok tokens ∧ surveySource true source = .ok s ∧
      (Emission.emit s.declarations).filterMap HeaderLine.declared? = ["extern int b;"] ∧
      ∃ d ∈ s.declarations.items, d.text = .synthesized "extern int a;" ∧ d.visibility = .internal ∧
        d ∉ Emission.written s.declarations := by
  intro source
  let tokens := (tokenize source).toOption.getD []
  let s := (surveySource true source).toOption.getD {}
  let before := ((outline true 0 tokens).take 2).flatMap Item.tokens
  let here := (Tracker.passAll { recognizeBlocks := true } before).toOption.getD {}
  have hfacts : tokenize source = .ok tokens ∧ surveySource true source = .ok s ∧
      Tracker.passAll { recognizeBlocks := true } before = .ok here ∧
      ((Tracker.passAll { recognizeBlocks := false } before).toOption.getD {}).guardPath =
        [⟨.expression, "LOCAL_INTERFACE", [], false⟩, ⟨.defined, "A", [], false⟩] ∧
      (Emission.written s.declarations).map (·.text.text) = ["extern int b;"] ∧
      ∃ d ∈ s.declarations.items, d.text = .synthesized "extern int a;" ∧
        ∃ item ∈ (outline true 0 tokens)[2]?, ∃ first ∈ item.tokens.head?, item.Begins first ∧
          .declare ["a"] d.toDraft ∈ item.entries source.toList true here := by decide +kernel
  obtain ⟨htokens, hsurvey, hpass, haround, htexts, d, hd, htext, item, hitem, first, -, hbegins, hentry⟩ := hfacts
  obtain ⟨hlines, hhides⟩ := local_block_hides htokens hsurvey
  obtain ⟨-, around, -, hplain, hlocal⟩ := (hhides d hd).2 before first ⟨2, item, here, _, hitem, hbegins, rfl, hpass, hentry⟩
  rw [hplain] at haround
  obtain ⟨hvisibility, -, hwritten⟩ := hlocal ⟨[], _, [⟨.defined, "A", [], false⟩], haround, rfl, rfl, rfl, by decide⟩
  exact ⟨tokens, s, htokens, hsurvey, hlines.trans htexts, d, hd, htext, hvisibility, hwritten⟩

/-- In an `INTERFACE` block within a local block a variable is shown. -/
theorem local_block_shows_nested :
    let source := "#if LOCAL_INTERFACE\n#if INTERFACE\nint a;\n#endif\n#endif"
    ∃ tokens s, tokenize source = .ok tokens ∧ surveySource true source = .ok s ∧
      generateHeader source = .ok "extern int a;" ∧
      ∃ d ∈ s.declarations.items, d.visibility = .interface ∧ d ∈ Emission.written s.declarations ∧
        ∃ before first around, d.StartsAt true source tokens before first ∧
          Tracker.passAll { recognizeBlocks := false } before = .ok around ∧
          around.guardPath = [⟨.expression, "LOCAL_INTERFACE", [], false⟩, ⟨.expression, "INTERFACE", [], false⟩] := by
  intro source
  let tokens := (tokenize source).toOption.getD []
  let s := (surveySource true source).toOption.getD {}
  let before := ((outline true 0 tokens).take 2).flatMap Item.tokens
  let here := (Tracker.passAll { recognizeBlocks := true } before).toOption.getD {}
  let around := (Tracker.passAll { recognizeBlocks := false } before).toOption.getD {}
  have hfacts : tokenize source = .ok tokens ∧ surveySource true source = .ok s ∧
      generateHeader source = .ok "extern int a;" ∧
      Tracker.passAll { recognizeBlocks := true } before = .ok here ∧
      (Tracker.passAll { recognizeBlocks := false } before = .ok around ∧ around.guardPath =
        [⟨.expression, "LOCAL_INTERFACE", [], false⟩, ⟨.expression, "INTERFACE", [], false⟩]) ∧
      ∃ d ∈ s.declarations.items, (d.visibility = .interface ∧ d ∈ Emission.written s.declarations) ∧
        ∃ item ∈ (outline true 0 tokens)[2]?, ∃ first ∈ item.tokens.head?, item.Begins first ∧
          .declare ["a"] d.toDraft ∈ item.entries source.toList true here := by decide +kernel
  obtain ⟨htokens, hsurvey, hheader, hpass, haround, d, hd, hshown, item, hitem, first, -, hbegins, hentry⟩ := hfacts
  exact ⟨tokens, s, htokens, hsurvey, hheader, d, hd, hshown.1, hshown.2, before, first, around,
    ⟨2, item, here, _, hitem, hbegins, rfl, hpass, hentry⟩, haround⟩

end CHeader
