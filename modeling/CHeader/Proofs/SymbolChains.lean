import CHeader.Proofs.Naming
import Mathlib.Data.List.DropRight
import Mathlib.Data.List.Nodup

/-!
# The symbols tell the calls

Names are mentioned alone or with a declaration, and the symbol table is what the mentions say, read in order: a symbol
for each name at its first mention, with the declarations that the name was linked to and the kind of the first of them
(`SymbolTable.ofMentions`). One mention more is one call of `intern` or `record` more (`intern_ofMentions`,
`record_ofMentions`).

The calls on a declaration list come to such mentions, counted from the last `clear`: `push` and `addName` link a name to
a declaration of the list, `intern` mentions it alone, and an `addName` of a number that the list does not have mentions
nothing. `DeclarationList.Tells` is kept by each call, whatever the order of calls (`tells_performAll`).
-/

namespace CHeader

/-- A name as it is mentioned, with the declaration that the mention links it to. -/
structure Mention where
  name : String
  declaration : Option Nat := none
  deriving DecidableEq, Repr

namespace Mention

/-- The names mentioned, each where it is first. -/
def names (mentions : List Mention) : List String :=
  (mentions.map (·.name)).eraseDups

/-- The declarations that a name is linked to, in order. -/
def chain (mentions : List Mention) (name : String) : List Nat :=
  (mentions.filter (·.name = name)).filterMap (·.declaration)

variable {mentions : List Mention} {name : String}

theorem mem_names : name ∈ names mentions ↔ ∃ m ∈ mentions, m.name = name := by
  simp [names]

theorem mem_chain {id : Nat} : id ∈ chain mentions name ↔ ⟨name, some id⟩ ∈ mentions := by
  simp only [chain, List.mem_filterMap, List.mem_filter, decide_eq_true_eq]
  constructor
  · rintro ⟨⟨found, declaration⟩, ⟨hmem, rfl⟩, rfl⟩
    exact hmem
  · intro hmem
    exact ⟨_, ⟨hmem, rfl⟩, rfl⟩

/-- A name comes behind the others where it is mentioned first. -/
theorem names_concat (mentions : List Mention) (m : Mention) :
    names (mentions ++ [m]) = if m.name ∈ names mentions then names mentions else names mentions ++ [m.name] := by
  rw [names, List.map_append, List.eraseDups_append, ← names, List.removeAll]
  by_cases h : m.name ∈ names mentions
  · simp [if_pos h, mem_names.1 h]
  · have hnew : ¬ ∃ a ∈ mentions, a.name = m.name := fun hmem => h (mem_names.2 hmem)
    simp [if_neg h, hnew, List.eraseDups_cons]

theorem nodup_names (mentions : List Mention) : (names mentions).Nodup := by
  induction mentions using List.reverseRecOn with
  | nil => exact List.nodup_nil
  | append_singleton mentions m ih =>
    rw [names_concat]
    split_ifs with h
    · exact ih
    · rw [← List.concat_eq_append]
      exact ih.concat h

theorem chain_concat (mentions : List Mention) (m : Mention) (name : String) :
    chain (mentions ++ [m]) name = chain mentions name ++ if m.name = name then m.declaration.toList else [] := by
  simp only [chain, List.filter_append, List.filterMap_append]
  by_cases h : m.name = name
  · cases hdeclaration : m.declaration <;> simp [h, hdeclaration]
  · simp [h]

end Mention

namespace SymbolTable

open Mention (names chain)

/-- The symbol of a name, as the mentions tell it. -/
def symbolOf (kindOf : Nat → Option DeclKind) (mentions : List Mention) (name : String) : Symbol :=
  { name, kind := (chain mentions name).head?.bind kindOf, declarations := chain mentions name }

/-- The table that mentions tell, if the declarations are of the given kinds. -/
def ofMentions (kindOf : Nat → Option DeclKind) (mentions : List Mention) : SymbolTable :=
  ⟨(names mentions).map (symbolOf kindOf mentions)⟩

variable {kindOf : Nat → Option DeclKind} {mentions : List Mention} {name : String}

/-- The number of a name is its place among the names. -/
theorem id?_ofMentions (kindOf : Nat → Option DeclKind) (mentions : List Mention) (name : String) (i : Nat) :
    (ofMentions kindOf mentions).id? name = some i ↔ (names mentions)[i]? = some name := by
  rw [id?, ofMentions, List.findIdx?_map]
  show List.findIdx? (fun found => found = name) (names mentions) = some i ↔ _
  rw [List.findIdx?_eq_some_iff_getElem]
  constructor
  · rintro ⟨hlt, hname, -⟩
    rw [List.getElem?_eq_getElem hlt]
    simpa using hname
  · intro hget
    obtain ⟨hlt, hname⟩ := List.getElem?_eq_some_iff.1 hget
    refine ⟨hlt, by simpa using hname, ?_⟩
    intro j hj hother
    have hsame : (names mentions)[j] = (names mentions)[i] := by
      rw [hname]
      simpa using hother
    have hij := (Mention.nodup_names mentions).getElem_inj_iff.1 hsame
    omega

/-- A mention of a name alone. -/
theorem intern_ofMentions (kindOf : Nat → Option DeclKind) (mentions : List Mention) (name : String) :
    ((ofMentions kindOf mentions).intern name).1 = ofMentions kindOf (mentions ++ [⟨name, none⟩]) ∧
      (names (mentions ++ [⟨name, none⟩]))[((ofMentions kindOf mentions).intern name).2]? = some name := by
  have hsymbol : symbolOf kindOf (mentions ++ [⟨name, none⟩]) = symbolOf kindOf mentions := by
    funext other
    simp [symbolOf, Mention.chain_concat]
  unfold intern
  cases hid : (ofMentions kindOf mentions).id? name with
  | some i =>
    have hget := (id?_ofMentions kindOf mentions name i).1 hid
    have hnames : names (mentions ++ [⟨name, none⟩]) = names mentions := by
      rw [Mention.names_concat, if_pos (List.mem_of_getElem? hget)]
    refine ⟨?_, ?_⟩
    · rw [ofMentions, ofMentions, hnames, hsymbol]
    · rw [hnames]
      exact hget
  | none =>
    have hnew : name ∉ names mentions := by
      intro hmem
      obtain ⟨i, hget⟩ := List.mem_iff_getElem?.1 hmem
      rw [(id?_ofMentions kindOf mentions name i).2 hget] at hid
      cases hid
    have hnames : names (mentions ++ [⟨name, none⟩]) = names mentions ++ [name] := by
      rw [Mention.names_concat, if_neg hnew]
    have hlength : (ofMentions kindOf mentions).symbols.length = (names mentions).length := List.length_map ..
    have hchain : chain mentions name = [] := by
      rw [List.eq_nil_iff_forall_not_mem]
      intro id hid
      exact hnew (Mention.mem_names.2 ⟨_, Mention.mem_chain.1 hid, rfl⟩)
    refine ⟨?_, ?_⟩
    · rw [ofMentions, ofMentions, hnames, hsymbol, List.map_append]
      simp [symbolOf, hchain]
    · rw [hnames, hlength]
      simp

/-- Changing the symbol at the place of a name changes that of no other name. -/
theorem modify_names {i : Nat} (hget : (names mentions)[i]? = some name) (symbol : String → Symbol) (change : Symbol → Symbol) :
    ((names mentions).map symbol).modify i change =
      (names mentions).map fun other => if other = name then change (symbol other) else symbol other := by
  obtain ⟨hi, hname⟩ := List.getElem?_eq_some_iff.1 hget
  apply List.ext_getElem?
  intro j
  rw [List.getElem?_modify, List.getElem?_map, List.getElem?_map]
  cases hother : (names mentions)[j]? with
  | none => rfl
  | some other =>
    obtain ⟨hj, hname'⟩ := List.getElem?_eq_some_iff.1 hother
    have hplace : i = j ↔ other = name := by
      rw [← hname, ← hname', eq_comm, (Mention.nodup_names mentions).getElem_inj_iff]
    simp [hplace]

theorem record_eq (table : SymbolTable) (name : String) (kind : Option DeclKind) (declaration : Nat) :
    table.record name kind declaration =
      (⟨(table.intern name).1.symbols.modify (table.intern name).2 (·.addDeclaration kind declaration)⟩,
        (table.intern name).2) :=
  rfl

/-- A mention of a name with a declaration. -/
theorem record_ofMentions {kind : DeclKind} {declaration : Nat} (hkind : kindOf declaration = some kind)
    (hkinds : ∀ m ∈ mentions, ∀ id ∈ m.declaration, (kindOf id).isSome) (name : String) :
    ((ofMentions kindOf mentions).record name (some kind) declaration).1 =
        ofMentions kindOf (mentions ++ [⟨name, some declaration⟩]) ∧
      (names (mentions ++ [⟨name, some declaration⟩]))[((ofMentions kindOf mentions).record name (some kind) declaration).2]? =
        some name := by
  obtain ⟨htable, hget⟩ := intern_ofMentions kindOf mentions name
  have hnames : names (mentions ++ [⟨name, some declaration⟩]) = names (mentions ++ [⟨name, none⟩]) := by
    rw [Mention.names_concat, Mention.names_concat]
  have hsymbol : ∀ other, symbolOf kindOf (mentions ++ [⟨name, some declaration⟩]) other =
      if other = name then (symbolOf kindOf (mentions ++ [⟨name, none⟩]) other).addDeclaration (some kind) declaration
      else symbolOf kindOf (mentions ++ [⟨name, none⟩]) other := by
    intro other
    by_cases hother : other = name
    · subst hother
      rw [if_pos rfl]
      simp only [symbolOf, Symbol.addDeclaration, Mention.chain_concat]
      cases hchain : chain mentions other with
      | nil => simp [hkind]
      | cons first rest =>
        have hfirst : ⟨other, some first⟩ ∈ mentions := Mention.mem_chain.1 (by simp [hchain])
        obtain ⟨found, hfound⟩ := Option.isSome_iff_exists.1 (hkinds _ hfirst first rfl)
        simp [hfound]
    · simp [symbolOf, Mention.chain_concat, hother, Ne.symm hother]
  rw [record_eq]
  refine ⟨?_, by rw [hnames]; exact hget⟩
  rw [htable]
  show (⟨((names _).map _).modify _ _⟩ : SymbolTable) = ⟨(names _).map _⟩
  rw [modify_names hget, hnames, funext hsymbol]

/-- The kinds matter of the declarations that are mentioned. -/
theorem ofMentions_congr {kindOf' : Nat → Option DeclKind}
    (h : ∀ m ∈ mentions, ∀ id ∈ m.declaration, kindOf id = kindOf' id) :
    ofMentions kindOf mentions = ofMentions kindOf' mentions := by
  rw [ofMentions, ofMentions]
  congr 1
  apply List.map_congr_left
  intro name _
  simp only [symbolOf, Symbol.mk.injEq, true_and, and_true]
  cases hchain : chain mentions name with
  | nil => rfl
  | cons first rest =>
    have hfirst : ⟨name, some first⟩ ∈ mentions := Mention.mem_chain.1 (by simp [hchain])
    exact h _ hfirst first rfl

end SymbolTable

namespace DeclarationList

/-- A call that changes a declaration list. -/
inductive Call
  | push (name : Option String) (draft : Draft)
  | addName (name : String) (id : Nat)
  | intern (name : String)
  | clear
  deriving DecidableEq, Repr

namespace Call

/-- The list behind a call. -/
def perform (list : DeclarationList) : Call → DeclarationList
  | push name draft => (list.push name draft).1
  | addName name id => list.addName name id
  | intern name => (list.intern name).1
  | clear => {}

/-- The list that calls make out of nothing. -/
def performAll (calls : List Call) : DeclarationList :=
  calls.foldl perform {}

/-- The calls behind the last `clear`. -/
def sinceClear (calls : List Call) : List Call :=
  calls.rtakeWhile (· ≠ clear)

/-- The declaration that a call makes, with its name. -/
def pushed? : Call → Option (Draft × Option String)
  | push name draft => some (draft, name)
  | _ => none

/-- What a call mentions if the list has `count` declarations: the name of a declaration it makes, which gets that
number, a further name of one of the list, or a name alone. -/
def mention? (count : Nat) : Call → Option Mention
  | push (some name) _ => some ⟨name, some count⟩
  | push none _ => none
  | addName name id => if id < count then some ⟨name, some id⟩ else none
  | intern name => some ⟨name, none⟩
  | clear => none

/-- What calls mention, one after another. -/
def mentions (count : Nat) : List Call → List Mention
  | [] => []
  | call :: calls => (call.mention? count).toList ++ mentions (count + call.pushed?.toList.length) calls

end Call

/-- The kind of a declaration of the list. -/
def kindOf (list : DeclarationList) (id : Nat) : Option DeclKind :=
  (list.get? id).map (·.kind)

/-- A list tells what was mentioned: its symbols are those of the mentions, which link names to declarations of the list,
and each declaration with a name is among those linked to it. -/
structure Tells (list : DeclarationList) (mentions : List Mention) : Prop where
  symbols : list.symbols = .ofMentions list.kindOf mentions
  known : ∀ m ∈ mentions, ∀ id ∈ m.declaration, id < list.items.length
  named : ∀ d ∈ list.items, ∀ i ∈ d.name, ∃ name,
    (Mention.names mentions)[i]? = some name ∧ ⟨name, some d.id⟩ ∈ mentions

variable {list : DeclarationList} {mentions : List Mention}

theorem isSome_kindOf_iff {id : Nat} : (list.kindOf id).isSome ↔ id < list.items.length := by
  simp [kindOf, get?]

/-- A number that the list does not have is given no name, and no name is mentioned. -/
theorem addName_of_le {name : String} {id : Nat} (h : list.items.length ≤ id) : list.addName name id = list := by
  have hget : list.get? id = none := List.getElem?_eq_none h
  rw [addName, hget]

/-- Later mentions keep the numbers of the names. -/
theorem getElem?_names_concat {i : Nat} {name : String} (h : (Mention.names mentions)[i]? = some name) (m : Mention) :
    (Mention.names (mentions ++ [m]))[i]? = some name := by
  rw [Mention.names_concat]
  split_ifs
  · exact h
  · rw [List.getElem?_append_left (List.getElem?_eq_some_iff.1 h).1]
    exact h

namespace Tells

theorem empty : Tells {} [] :=
  ⟨rfl, by simp, by simp⟩

theorem isSome_kindOf (h : list.Tells mentions) : ∀ m ∈ mentions, ∀ id ∈ m.declaration, (list.kindOf id).isSome :=
  fun m hm id hid => isSome_kindOf_iff.2 (h.known m hm id hid)

theorem intern (h : list.Tells mentions) (name : String) : (list.intern name).1.Tells (mentions ++ [⟨name, none⟩]) := by
  have hsymbols : (list.intern name).1.symbols = (list.symbols.intern name).1 := rfl
  refine ⟨?_, ?_, ?_⟩
  · rw [hsymbols, h.symbols]
    exact (SymbolTable.intern_ofMentions list.kindOf mentions name).1
  · intro m hm id hid
    rcases List.mem_append.1 hm with hm | hm
    · exact h.known m hm id hid
    · rw [List.mem_singleton.1 hm] at hid
      cases hid
  · intro d hd i hi
    obtain ⟨found, hget, hmem⟩ := h.named d hd i hi
    exact ⟨found, getElem?_names_concat hget _, List.mem_append_left _ hmem⟩

theorem addName (h : list.Tells mentions) (name : String) {id : Nat} (hid : id < list.items.length) :
    (list.addName name id).Tells (mentions ++ [⟨name, some id⟩]) := by
  have hget : list.get? id = some list.items[id] := List.getElem?_eq_getElem hid
  rw [DeclarationList.addName, hget]
  refine ⟨?_, ?_, ?_⟩
  · show (list.symbols.record name (some list.items[id].kind) id).1 = _
    rw [h.symbols]
    exact (SymbolTable.record_ofMentions (by simp [kindOf, hget]) h.isSome_kindOf name).1
  · intro m hm other hother
    rcases List.mem_append.1 hm with hm | hm
    · exact h.known m hm other hother
    · rw [List.mem_singleton.1 hm] at hother
      obtain rfl := Option.some.inj hother
      exact hid
  · intro d hd i hi
    obtain ⟨found, hfound, hmem⟩ := h.named d hd i hi
    exact ⟨found, getElem?_names_concat hfound _, List.mem_append_left _ hmem⟩

/-- A declaration more changes the kind of no other. -/
theorem symbols_push (h : list.Tells mentions) (d : Declaration) (symbols : SymbolTable) :
    list.symbols = .ofMentions (kindOf ⟨list.items ++ [d], symbols⟩) mentions := by
  rw [h.symbols]
  apply SymbolTable.ofMentions_congr
  intro m hm id hid
  simp only [kindOf, get?]
  rw [List.getElem?_append_left (h.known m hm id hid)]

theorem push (h : list.Tells mentions) (name : Option String) (draft : Draft) :
    (list.push name draft).1.Tells
      (mentions ++ ((Call.push name draft).mention? list.items.length).toList) := by
  cases name with
  | none =>
    rw [Call.mention?, Option.toList_none, List.append_nil]
    refine ⟨h.symbols_push _ _, ?_, ?_⟩
    · intro m hm id hid
      exact Nat.lt_of_lt_of_le (h.known m hm id hid) (by simp [DeclarationList.push])
    · intro d hd i hi
      rcases List.mem_append.1 hd with hd | hd
      · exact h.named d hd i hi
      · rw [List.mem_singleton.1 hd] at hi
        cases hi
  | some name =>
    rw [Call.mention?, Option.toList_some]
    -- the new declaration is in the list before its name is linked to it
    let d : Declaration := { draft with id := list.items.length,
                                        name := some (list.symbols.record name (some draft.kind) list.items.length).2 }
    let behind := (list.push (some name) draft).1
    have hitems : behind.items = list.items ++ [d] := rfl
    have hbefore : list.symbols = .ofMentions behind.kindOf mentions := h.symbols_push d behind.symbols
    have hkind : behind.kindOf list.items.length = some draft.kind := by
      rw [kindOf, get?, hitems, List.getElem?_concat_length]
      rfl
    have hkinds : ∀ m ∈ mentions, ∀ id ∈ m.declaration, (behind.kindOf id).isSome := by
      intro m hm id hid
      have hlt := h.known m hm id hid
      rw [isSome_kindOf_iff, hitems, List.length_append]
      omega
    obtain ⟨htable, hget⟩ := SymbolTable.record_ofMentions hkind hkinds name
    rw [← hbefore] at htable hget
    refine ⟨htable, ?_, ?_⟩
    · intro m hm id hid
      rw [hitems, List.length_append, List.length_singleton]
      rcases List.mem_append.1 hm with hm | hm
      · have hlt := h.known m hm id hid
        omega
      · rw [List.mem_singleton.1 hm] at hid
        obtain rfl := Option.some.inj hid
        omega
    · intro found hfound i hi
      rw [hitems] at hfound
      rcases List.mem_append.1 hfound with hfound | hfound
      · obtain ⟨other, hother, hmem⟩ := h.named found hfound i hi
        exact ⟨other, getElem?_names_concat hother _, List.mem_append_left _ hmem⟩
      · rw [List.mem_singleton.1 hfound] at hi ⊢
        obtain rfl := Option.some.inj hi
        exact ⟨name, hget, List.mem_append_right _ (List.mem_singleton_self _)⟩

/-- One call, other than `clear`: the list tells what the call mentions, and shows what it makes. -/
theorem perform (h : list.Tells mentions) (hlinked : list.Linked) {call : Call} (hcall : call ≠ .clear) :
    (call.perform list).Tells (mentions ++ (call.mention? list.items.length).toList) ∧
      (call.perform list).Linked ∧
      (call.perform list).shown = list.shown ++ call.pushed?.toList.zipIdx list.items.length := by
  cases call with
  | push name draft =>
    obtain ⟨hlinked', hshown⟩ := hlinked.push name draft
    exact ⟨h.push name draft, hlinked', hshown⟩
  | addName name id =>
    obtain ⟨hlinked', hshown⟩ := hlinked.addName name id
    refine ⟨?_, hlinked', hshown.trans (by simp [Call.pushed?])⟩
    by_cases hid : id < list.items.length
    · rw [Call.mention?, if_pos hid]
      exact h.addName name hid
    · rw [Call.mention?, if_neg hid, Call.perform, addName_of_le (Nat.le_of_not_lt hid)]
      simpa using h
  | intern name =>
    obtain ⟨hlinked', hshown⟩ := hlinked.of_extends (list.symbols.intern_extends name).1
    exact ⟨h.intern name, hlinked', hshown.trans (by simp [Call.pushed?])⟩
  | clear => exact absurd rfl hcall

/-- Calls without a `clear`. -/
theorem performAll (h : list.Tells mentions) (hlinked : list.Linked) {calls : List Call} (hcalls : .clear ∉ calls) :
    (calls.foldl Call.perform list).Tells (mentions ++ Call.mentions list.items.length calls) ∧
      (calls.foldl Call.perform list).shown =
        list.shown ++ (calls.filterMap Call.pushed?).zipIdx list.items.length := by
  induction calls generalizing list mentions with
  | nil => simpa [Call.mentions] using h
  | cons call calls ih =>
    rw [List.mem_cons, not_or] at hcalls
    obtain ⟨htells, hlinked', hshown⟩ := h.perform hlinked (Ne.symm hcalls.1)
    have hlength : (call.perform list).items.length = list.items.length + call.pushed?.toList.length := by
      have := congrArg List.length hshown
      simpa [shown] using this
    obtain ⟨hall, hall'⟩ := ih htells hlinked' hcalls.2
    rw [hlength] at hall hall'
    refine ⟨?_, ?_⟩
    · rw [List.foldl_cons, Call.mentions, ← List.append_assoc]
      exact hall
    · rw [List.foldl_cons, hall', hshown, List.append_assoc]
      congr 1
      cases hpushed : call.pushed? <;> simp [hpushed]

end Tells

/-- Only the calls behind the last `clear` matter. -/
theorem Call.performAll_sinceClear (calls : List Call) : performAll (sinceClear calls) = performAll calls := by
  induction calls using List.reverseRecOn with
  | nil => rfl
  | append_singleton calls call ih =>
    by_cases hcall : call = clear
    · subst hcall
      rw [sinceClear, List.rtakeWhile_concat_neg _ _ _ (by simp)]
      simp [performAll, perform]
    · rw [sinceClear, List.rtakeWhile_concat_pos _ _ _ (by simpa using hcall), ← sinceClear, performAll, performAll,
        List.foldl_append, List.foldl_append, ← performAll, ← performAll, ih]

/-- What calls make of a list is told by those behind the last `clear`. -/
theorem tells_performAll (calls : List Call) :
    (Call.performAll calls).Tells (Call.mentions 0 (Call.sinceClear calls)) ∧
      (Call.performAll calls).shown = ((Call.sinceClear calls).filterMap Call.pushed?).zipIdx := by
  have hclear : .clear ∉ Call.sinceClear calls := by
    intro hmem
    simpa using List.mem_rtakeWhile_imp hmem
  have hlinked : Linked {} := by
    intro d hd
    cases hd
  rw [← Call.performAll_sinceClear]
  simpa [Call.performAll, shown] using Tells.empty.performAll hlinked hclear

/-- The symbols and the declarations of a list agree, whatever calls were made on it; only the calls behind the last
`clear` count. The names have the numbers from 0 in the order of their first mention. The declarations of a symbol are
those that its name was linked to, in the order of the calls, and they are declarations of the list; the symbol has the
kind of the first, and none exactly if there are no declarations. The list shows the declarations that were pushed, each
with its name and its number, and one with a name is among the declarations of the symbol with the number of its name. A
further name for a declaration that the list does not have changes nothing. -/
theorem symbols_tell_calls (calls : List Call) :
    let list := Call.performAll calls
    let recent := Call.sinceClear calls
    let mentions := Call.mentions 0 recent
    let names := Mention.names mentions
    (names.Nodup ∧ list.symbols.symbols.map (·.name) = names ∧
      ∀ name i, list.symbols.id? name = some i ↔ names[i]? = some name) ∧
    (∀ symbol ∈ list.symbols.symbols,
      symbol.declarations = Mention.chain mentions symbol.name ∧
      (∀ id ∈ symbol.declarations, id < list.items.length) ∧
      symbol.kind = (symbol.declarations.head?.bind list.get?).map (·.kind) ∧
      (symbol.kind = none ↔ symbol.declarations = [])) ∧
    (list.shown = (recent.filterMap Call.pushed?).zipIdx ∧
      ∀ name draft, (list.push name draft).2 = (recent.filterMap Call.pushed?).length) ∧
    (∀ d ∈ list.items, ∀ i, d.name = some i →
      ∃ symbol, list.symbols.get? i = some symbol ∧ d.id ∈ symbol.declarations) ∧
    (∀ name id, list.get? id = none → list.addName name id = list) := by
  intro list recent mentions names
  obtain ⟨htells, hshown⟩ := tells_performAll calls
  have hsymbols : list.symbols.symbols = names.map (SymbolTable.symbolOf list.kindOf mentions) := by
    rw [htells.symbols]
    rfl
  refine ⟨⟨Mention.nodup_names mentions, ?_, ?_⟩, ?_, ⟨hshown, ?_⟩, ?_, ?_⟩
  · rw [hsymbols, List.map_map]
    exact List.map_id names
  · intro name i
    rw [htells.symbols]
    exact SymbolTable.id?_ofMentions list.kindOf mentions name i
  · intro symbol hsymbol
    rw [hsymbols] at hsymbol
    obtain ⟨name, -, rfl⟩ := List.mem_map.1 hsymbol
    have hknown : ∀ id ∈ Mention.chain mentions name, id < list.items.length := by
      intro id hid
      exact htells.known _ (Mention.mem_chain.1 hid) id rfl
    refine ⟨rfl, hknown, ?_, ?_⟩
    · simp only [SymbolTable.symbolOf]
      cases (Mention.chain mentions name).head? <;> rfl
    · simp only [SymbolTable.symbolOf]
      cases hchain : Mention.chain mentions name with
      | nil => simp
      | cons first rest =>
        have hfirst := isSome_kindOf_iff.2 (hknown first (by simp [hchain]))
        simp [← Option.not_isSome_iff_eq_none, hfirst]
  · intro name draft
    have hlength : list.items.length = (recent.filterMap Call.pushed?).length := by
      simpa [shown] using congrArg List.length hshown
    rw [← hlength]
    cases name <;> rfl
  · intro d hd i hi
    obtain ⟨name, hget, hmem⟩ := htells.named d hd i hi
    refine ⟨SymbolTable.symbolOf list.kindOf mentions name, ?_, Mention.mem_chain.2 hmem⟩
    rw [SymbolTable.get?, hsymbols, List.getElem?_map, hget]
    rfl
  · intro name id hid
    exact addName_of_le (List.getElem?_eq_none_iff.1 hid)

/-- A name is mentioned before its declaration, and is a further name of another; the list was cleared before. -/
theorem symbols_tell_calls_interleaved :
    let draft (kind : DeclKind) : Draft := { kind, text := .verbatim "", span := ⟨0, 0⟩, line := 1 }
    let list := Call.performAll [.push (some "old") (draft .variable), .clear, .intern "b",
      .push (some "a") (draft .type), .push (some "b") (draft .function), .addName "b" 0, .addName "c" 7]
    (list.symbols.symbols.map (·.name) = ["b", "a"]) ∧
      ∀ symbol ∈ list.symbols.symbols, symbol.name = "b" → symbol.declarations = [1, 0] := by
  intro draft list
  obtain ⟨⟨-, hnames, -⟩, hsymbols, -⟩ := symbols_tell_calls [.push (some "old") (draft .variable), .clear, .intern "b",
    .push (some "a") (draft .type), .push (some "b") (draft .function), .addName "b" 0, .addName "c" 7]
  refine ⟨hnames.trans (by decide), ?_⟩
  intro symbol hsymbol hname
  rw [(hsymbols symbol hsymbol).1, hname]
  decide

end DeclarationList

end CHeader
