import CHeader.Proofs.Emitting
import CHeader.Proofs.SymbolChains
import Mathlib.Data.List.Destutter

/-!
# Visibility is settled when a declaration is pushed

Later calls only add to a declaration list: declarations behind those there are, and to the chains of symbols further
numbers at the end (`DeclarationList.Extends`). A function or variable stands in the chain of its name from the start, so
that the first declaration with linkage in this chain is found there once and for all, and with it the visibility of the
new one. What a header shows of a list is therefore what a later header begins with (`visibility_is_settled`).
-/

namespace CHeader

open Mention (names chain)

namespace Mention

variable {mentions more : List Mention}

theorem prefix_names (mentions more : List Mention) : names mentions <+: names (mentions ++ more) := by
  rw [names, names, List.map_append, List.eraseDups_append]
  exact List.prefix_append _ _

theorem chain_append (mentions more : List Mention) (name : String) :
    chain (mentions ++ more) name = chain mentions name ++ chain more name := by
  simp only [chain, List.filter_append, List.filterMap_append]

end Mention

namespace DeclarationList

variable {list later : DeclarationList}

/-- `later` has the declarations of `list` and perhaps more behind them, and the chains of its symbols go on from those
of `list`. -/
structure Extends (list later : DeclarationList) : Prop where
  items : list.items <+: later.items
  chains : ∀ i symbol, list.symbols.get? i = some symbol →
    ∃ symbol', later.symbols.get? i = some symbol' ∧ symbol.declarations <+: symbol'.declarations

/-- The chains of the symbols are of declarations of the list, and each declaration is in the chain of its name. -/
structure Chained (list : DeclarationList) : Prop where
  known : ∀ i symbol, list.symbols.get? i = some symbol → ∀ id ∈ symbol.declarations, id < list.items.length
  numbered : ∀ d ∈ list.items, list.get? d.id = some d
  named : ∀ d ∈ list.items, ∀ i, d.name = some i →
    ∃ symbol, list.symbols.get? i = some symbol ∧ d.id ∈ symbol.declarations

/-! ### Lists that calls make -/

/-- The symbol with a number is that of the name with this number. -/
theorem Tells.get?_eq_some_iff {mentions : List Mention} (h : list.Tells mentions) {i : Nat} {symbol : Symbol} :
    list.symbols.get? i = some symbol ↔
      ∃ name, (names mentions)[i]? = some name ∧ symbol = SymbolTable.symbolOf list.kindOf mentions name := by
  rw [h.symbols, SymbolTable.get?, SymbolTable.ofMentions, List.getElem?_map, Option.map_eq_some_iff]
  exact exists_congr fun name => and_congr_right fun _ => eq_comm

theorem Tells.chained {mentions : List Mention} (h : list.Tells mentions)
    (hnumbered : ∀ d ∈ list.items, list.get? d.id = some d) : list.Chained := by
  refine ⟨?_, hnumbered, ?_⟩
  · intro i symbol hsymbol id hid
    obtain ⟨name, -, rfl⟩ := h.get?_eq_some_iff.1 hsymbol
    exact h.known _ (Mention.mem_chain.1 hid) id rfl
  · intro d hd i hi
    obtain ⟨name, hname, hmem⟩ := h.named d hd i hi
    exact ⟨_, h.get?_eq_some_iff.2 ⟨name, hname, rfl⟩, Mention.mem_chain.2 hmem⟩

/-- What is mentioned behind other things goes on from their chains. -/
theorem Tells.extends {mentions more : List Mention} (h : list.Tells mentions) (hlater : later.Tells (mentions ++ more))
    (hitems : list.items <+: later.items) : list.Extends later := by
  refine ⟨hitems, ?_⟩
  intro i symbol hsymbol
  obtain ⟨name, hname, rfl⟩ := h.get?_eq_some_iff.1 hsymbol
  refine ⟨_, hlater.get?_eq_some_iff.2 ⟨name, ?_, rfl⟩, ?_⟩
  · obtain ⟨rest, hrest⟩ := Mention.prefix_names mentions more
    obtain ⟨hi, -⟩ := List.getElem?_eq_some_iff.1 hname
    rw [← hrest, List.getElem?_append_left hi, hname]
  · show chain mentions name <+: chain (mentions ++ more) name
    rw [Mention.chain_append]
    exact List.prefix_append _ _

theorem Call.prefix_items_perform {call : Call} (hcall : call ≠ .clear) (list : DeclarationList) :
    list.items <+: (call.perform list).items := by
  cases call with
  | push name draft => cases name <;> exact List.prefix_append _ _
  | addName name id =>
    simp only [Call.perform, DeclarationList.addName]
    split <;> exact List.prefix_rfl
  | intern name => exact List.prefix_rfl
  | clear => exact absurd rfl hcall

theorem Call.prefix_items_foldl {calls : List Call} (hcalls : .clear ∉ calls) (list : DeclarationList) :
    list.items <+: (calls.foldl Call.perform list).items := by
  induction calls generalizing list with
  | nil => exact List.prefix_rfl
  | cons call calls ih =>
    rw [List.mem_cons, not_or] at hcalls
    exact (prefix_items_perform (Ne.symm hcalls.1) list).trans (ih hcalls.2 _)

/-- Declarations that are shown with their places as numbers are found under their numbers. -/
theorem numbered_of_shown {pushed : List (Draft × Option String)} (hshown : list.shown = pushed.zipIdx) :
    ∀ d ∈ list.items, list.get? d.id = some d := by
  intro d hd
  obtain ⟨i, hi⟩ := List.mem_iff_getElem?.1 hd
  have hplace : list.shown[i]? = some (list.shownOf d) := by rw [shown, List.getElem?_map, hi, Option.map_some]
  rw [hshown, List.getElem?_zipIdx] at hplace
  obtain ⟨_, -, heq⟩ := Option.map_eq_some_iff.1 hplace
  have hid : d.id = i := by simpa [shownOf] using (congrArg Prod.snd heq).symm
  rw [get?, hid, hi]

theorem chained_performAll (calls : List Call) : (Call.performAll calls).Chained := by
  obtain ⟨htells, hshown⟩ := tells_performAll calls
  exact htells.chained (numbered_of_shown hshown)

/-- Calls without a `clear` extend a list. -/
theorem extends_performAll (calls : List Call) {more : List Call} (hmore : .clear ∉ more) :
    (Call.performAll calls).Extends (Call.performAll (calls ++ more)) := by
  obtain ⟨htells, hshown⟩ := tells_performAll calls
  have hlinked : (Call.performAll calls).Linked := by
    intro d hd i hi
    obtain ⟨symbol, hsymbol, -⟩ := (chained_performAll calls).named d hd i hi
    exact (List.getElem?_eq_some_iff.1 hsymbol).1
  have hlater : Call.performAll (calls ++ more) = more.foldl Call.perform (Call.performAll calls) := List.foldl_append
  rw [hlater]
  exact htells.extends (htells.performAll hlinked hmore).1 (Call.prefix_items_foldl hmore _)

/-! ### The first declaration with linkage -/

/-- Where a chain has a declaration with linkage, what comes behind the chain changes nothing. -/
theorem Extends.firstLinked?_eq (h : list.Extends later) {ids : List Nat} (hknown : ∀ id ∈ ids, id < list.items.length)
    {first : Declaration} (hfirst : list.firstLinked? ids = some first) (more : List Nat) :
    later.firstLinked? (ids ++ more) = some first := by
  have hget : ids.filterMap later.get? = ids.filterMap list.get? := by
    obtain ⟨behind, hbehind⟩ := h.items
    apply List.filterMap_congr
    intro id hid
    rw [get?, get?, ← hbehind, List.getElem?_append_left (hknown id hid)]
  rw [firstLinked?, List.filterMap_append, hget, List.find?_append]
  rw [firstLinked?] at hfirst
  rw [hfirst, Option.some_or]

/-- The chain of a function or variable has a declaration with linkage, itself if no other. -/
theorem Chained.exists_firstLinked? (h : list.Chained) {d : Declaration} (hd : d ∈ list.items)
    (hlinkage : d.kind.hasLinkage = true) {i : Nat} (hname : d.name = some i) :
    ∃ symbol first, list.symbols.get? i = some symbol ∧ list.firstLinked? symbol.declarations = some first := by
  obtain ⟨symbol, hsymbol, hmem⟩ := h.named d hd i hname
  have hfound : (list.firstLinked? symbol.declarations).isSome = true := by
    rw [firstLinked?, List.find?_isSome]
    exact ⟨d, List.mem_filterMap.2 ⟨d.id, hmem, h.numbered d hd⟩, hlinkage⟩
  obtain ⟨first, hfirst⟩ := Option.isSome_iff_exists.1 hfound
  exact ⟨symbol, first, hsymbol, hfirst⟩

/-- A declaration that is local itself, or has no linkage, is as visible as it says. -/
theorem effectiveVisibility_of_own {d : Declaration} (hown : d.visibility = .internal ∨ d.kind.hasLinkage = false)
    (list : DeclarationList) : list.effectiveVisibility d = d.visibility := by
  rw [effectiveVisibility, if_pos]
  simpa using hown

theorem effectiveVisibility_of_firstLinked? {d : Declaration} {i : Nat} {symbol : Symbol} {first : Declaration}
    (hvisible : d.visibility = .interface) (hlinkage : d.kind.hasLinkage = true) (hname : d.name = some i)
    (hsymbol : list.symbols.get? i = some symbol) (hfirst : list.firstLinked? symbol.declarations = some first) :
    list.effectiveVisibility d = first.visibility := by
  simp [effectiveVisibility, hvisible, hlinkage, hname, hsymbol, hfirst]

/-- Behind a local one no declaration of the name is visible, whatever it says itself. -/
theorem effectiveVisibility_of_first_internal {d : Declaration} {i : Nat} {symbol : Symbol} {first : Declaration}
    (hlinkage : d.kind.hasLinkage = true) (hname : d.name = some i) (hsymbol : list.symbols.get? i = some symbol)
    (hfirst : list.firstLinked? symbol.declarations = some first) (hinternal : first.visibility = .internal) :
    list.effectiveVisibility d = .internal := by
  cases hvisibility : d.visibility with
  | interface => rw [effectiveVisibility_of_firstLinked? hvisibility hlinkage hname hsymbol hfirst, hinternal]
  | internal => rw [effectiveVisibility_of_own (.inl hvisibility), hvisibility]

theorem effectiveVisibility_of_anonymous {d : Declaration} (hname : d.name = none) (list : DeclarationList) :
    list.effectiveVisibility d = d.visibility := by
  simp [effectiveVisibility, hname]

/-- What is added to a list changes the visibility of no declaration in it. -/
theorem Chained.effectiveVisibility_eq (h : list.Chained) (hextends : list.Extends later) {d : Declaration}
    (hd : d ∈ list.items) : later.effectiveVisibility d = list.effectiveVisibility d := by
  by_cases hown : d.visibility = .internal ∨ d.kind.hasLinkage = false
  · rw [effectiveVisibility_of_own hown, effectiveVisibility_of_own hown]
  obtain ⟨hvisible, hlinkage⟩ : d.visibility = .interface ∧ d.kind.hasLinkage = true := by
    rw [not_or] at hown
    constructor
    · cases hvisibility : d.visibility with
      | interface => rfl
      | internal => exact absurd hvisibility hown.1
    · simpa using hown.2
  cases hname : d.name with
  | none => rw [effectiveVisibility_of_anonymous hname, effectiveVisibility_of_anonymous hname]
  | some i =>
    -- The chain has a declaration with linkage, the new one at the latest, so that what comes behind is not looked at.
    obtain ⟨symbol, first, hsymbol, hfirst⟩ := h.exists_firstLinked? hd hlinkage hname
    obtain ⟨symbol', hsymbol', more, hmore⟩ := hextends.chains i symbol hsymbol
    have hfirst' := hextends.firstLinked?_eq (h.known i symbol hsymbol) hfirst more
    rw [hmore] at hfirst'
    rw [effectiveVisibility_of_firstLinked? hvisible hlinkage hname hsymbol hfirst,
      effectiveVisibility_of_firstLinked? hvisible hlinkage hname hsymbol' hfirst']

theorem Chained.prefix_visible (h : list.Chained) (hextends : list.Extends later) : list.visible <+: later.visible := by
  obtain ⟨more, hmore⟩ := hextends.items
  have hsame : list.items.filter (later.effectiveVisibility · = .interface) = list.visible := by
    apply List.filter_congr
    intro d hd
    rw [h.effectiveVisibility_eq hextends hd]
  rw [visible, visible, ← hmore, List.filter_append, hsame]
  exact List.prefix_append _ _

end DeclarationList

/-! ### What a header writes -/

/-- The text of a declaration among the lines of a header. -/
def HeaderLine.declared? : HeaderLine → Option String
  | directive _ => none
  | declaration text => some text

/-- What a declaration is written as: its guards and its text. -/
def Declaration.entry (d : Declaration) : GuardPath × String :=
  (d.guard, d.text.text)

/-- What is kept of a list in front of others is kept of the list by itself. -/
theorem prefix_destutter' {α : Type*} {R : α → α → Prop} [DecidableRel R] (a : α) (as bs : List α) :
    as.destutter' R a <+: (as ++ bs).destutter' R a := by
  induction as generalizing a with
  | nil =>
    -- `a` is kept before any `bs`: what is dropped is dropped behind it.
    rw [List.destutter'_nil, List.nil_append]
    induction bs with
    | nil => exact List.prefix_rfl
    | cons b bs ih =>
      rw [List.destutter'_cons]
      split_ifs
      · exact List.prefix_append [a] _
      · exact ih
  | cons b as ih =>
    rw [List.cons_append, List.destutter'_cons, List.destutter'_cons]
    split_ifs
    · exact (List.prefix_cons_inj a).2 (ih b)
    · exact ih a

theorem prefix_destutter {α : Type*} {R : α → α → Prop} [DecidableRel R] {as bs : List α} (h : as <+: bs) :
    as.destutter R <+: bs.destutter R := by
  obtain ⟨more, rfl⟩ := h
  cases as with
  | nil => exact List.nil_prefix
  | cons a as => exact prefix_destutter' a as more

namespace Emission

/-- The declarations that a header writes: the visible ones, without those that repeat the entry of the one before. -/
def written (list : DeclarationList) : List Declaration :=
  list.visible.destutter fun d e => d.entry ≠ e.entry

theorem collapse_eq_destutter {α : Type*} [DecidableEq α] (as : List α) : collapse as = as.destutter (· ≠ ·) := by
  fun_induction collapse as with
  | case1 => rfl
  | case2 => rfl
  | case3 b rest ih =>
    rw [List.destutter_cons', List.destutter'_cons_neg _ (by simp), ih, List.destutter_cons']
  | case4 a b rest hne ih =>
    rw [List.destutter_cons', List.destutter'_cons_pos _ hne, ih, List.destutter_cons']

theorem entries_eq_map_written (list : DeclarationList) : entries list = (written list).map Declaration.entry := by
  rw [entries, collapse_eq_destutter, written]
  exact (List.map_destutter (R := fun d e : Declaration => d.entry ≠ e.entry) fun _ _ _ _ => Iff.rfl).symm

theorem filterMap_declared?_lines (opened : GuardPath) (entries : List (GuardPath × String)) :
    (lines opened entries).filterMap HeaderLine.declared? = entries.map Prod.snd := by
  have hmove : ∀ opened target, (moveLines opened target).filterMap HeaderLine.declared? = [] := by
    intro opened target
    rw [moveLines, List.filterMap_map, List.filterMap_eq_nil_iff]
    intro text _
    rfl
  induction entries generalizing opened with
  | nil => exact hmove opened []
  | cons entry entries ih =>
    rw [lines, List.filterMap_append, hmove, List.nil_append, List.map_cons, ← ih entry.1]
    rfl

/-- The declarations among the lines of a header are the texts of those that it writes. -/
theorem filterMap_declared?_emit (list : DeclarationList) :
    (emit list).filterMap HeaderLine.declared? = (written list).map (·.text.text) := by
  rw [emit_eq_lines, filterMap_declared?_lines, entries_eq_map_written, List.map_map]
  rfl

/-- What is local in effect is not written. -/
theorem not_mem_written {list : DeclarationList} {d : Declaration} (h : list.effectiveVisibility d = .internal) :
    d ∉ written list := by
  intro hmem
  have hvisible : d ∈ list.visible := (List.destutter_sublist _ _).subset hmem
  have hshown := (List.mem_filter.1 hvisible).2
  rw [h] at hshown
  cases of_decide_eq_true hshown

end Emission

namespace DeclarationList

open Emission (written emit)

/-- The visibility of a declaration is settled when it is pushed. Later calls, which may push declarations, give further
names and mention names, keep the declarations that a list has and the visibility of each of them. What a header of the
list declares is what a header of the later list begins with, declaration for declaration and line for line. A header
writes no function or variable if the first declaration with linkage in the chain of its name is local; and there is a
first one in such a chain. -/
theorem visibility_is_settled (calls more : List Call) (hmore : .clear ∉ more) :
    let list := Call.performAll calls
    let later := Call.performAll (calls ++ more)
    (list.items <+: later.items ∧ ∀ d ∈ list.items, later.effectiveVisibility d = list.effectiveVisibility d) ∧
    ((emit list).filterMap HeaderLine.declared? = (written list).map (·.text.text) ∧ written list <+: written later ∧
      (emit list).filterMap HeaderLine.declared? <+: (emit later).filterMap HeaderLine.declared?) ∧
    (∀ d ∈ list.items, d.kind.hasLinkage = true → ∀ i, d.name = some i →
      ∃ symbol first, list.symbols.get? i = some symbol ∧ list.firstLinked? symbol.declarations = some first ∧
        (first.visibility = .internal → d ∉ written list)) := by
  intro list later
  have hchained : list.Chained := chained_performAll calls
  have hextends : list.Extends later := extends_performAll calls hmore
  have hwritten : written list <+: written later := prefix_destutter (hchained.prefix_visible hextends)
  refine ⟨⟨hextends.items, ?_⟩, ⟨Emission.filterMap_declared?_emit list, hwritten, ?_⟩, ?_⟩
  · intro d hd
    exact hchained.effectiveVisibility_eq hextends hd
  · rw [Emission.filterMap_declared?_emit, Emission.filterMap_declared?_emit]
    exact hwritten.map _
  · intro d hd hlinkage i hname
    obtain ⟨symbol, first, hsymbol, hfirst⟩ := hchained.exists_firstLinked? hd hlinkage hname
    refine ⟨symbol, first, hsymbol, hfirst, ?_⟩
    intro hinternal
    exact Emission.not_mem_written (effectiveVisibility_of_first_internal hlinkage hname hsymbol hfirst hinternal)

/-- The second `f` repeats a local one, and a header never writes it, though more is named after it and pushed behind
it; `g` keeps its line when a local declaration of the name follows. -/
theorem visibility_is_settled_local_first :
    let draft (kind : DeclKind) (text : String) (visibility : Visibility) : Draft :=
      { kind, text := .synthesized text, visibility, span := ⟨0, 0⟩, line := 1 }
    let calls : List Call := [.push (some "f") (draft .function "int f(void);" .internal),
      .push (some "f") (draft .function "int f(void);" .interface),
      .push (some "g") (draft .variable "extern int g;" .interface)]
    let more : List Call := [.addName "g" 0, .push (some "g") (draft .variable "extern int g;" .internal), .intern "f",
      .push (some "h") (draft .function "int h(void);" .interface)]
    .clear ∉ more ∧
      (emit (Call.performAll calls)).filterMap HeaderLine.declared? = ["extern int g;"] ∧
      ["extern int g;"] <+: (emit (Call.performAll (calls ++ more))).filterMap HeaderLine.declared? ∧
      ∀ d ∈ (Call.performAll calls).items,
        (Call.performAll (calls ++ more)).effectiveVisibility d = (Call.performAll calls).effectiveVisibility d := by
  intro draft calls more
  have hmore : .clear ∉ more := by decide
  obtain ⟨⟨-, hkept⟩, ⟨htexts, -, hprefix⟩, -⟩ := visibility_is_settled calls more hmore
  have hlines : (emit (Call.performAll calls)).filterMap HeaderLine.declared? = ["extern int g;"] :=
    htexts.trans (by decide)
  rw [hlines] at hprefix
  exact ⟨hmore, hlines, hprefix, hkept⟩

end DeclarationList

end CHeader
