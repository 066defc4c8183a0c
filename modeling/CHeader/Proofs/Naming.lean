import CHeader.Proofs.Recording

/-!
# The names of declarations

A declaration is linked to its name by a number in the symbol table. The table only grows, and a symbol keeps its
name, so that what is recorded later leaves the names of earlier declarations as they are. A survey therefore shows
the declarations that it takes in, each with the first of its names and numbered in order (`shown_recordAll`).
-/

namespace CHeader

namespace SymbolTable

variable {table : SymbolTable} {name : String} {id : Nat}

/-- The name with a number. -/
def nameOf? (table : SymbolTable) (id : Nat) : Option String :=
  (table.get? id).map (·.name)

/-- The second table has the names of the first under the same numbers. -/
def Extends (table later : SymbolTable) : Prop :=
  ∀ id < table.symbols.length, id < later.symbols.length ∧ later.nameOf? id = table.nameOf? id

theorem Extends.refl (table : SymbolTable) : table.Extends table :=
  fun _ hid => ⟨hid, rfl⟩

/-- A mention keeps the names there are, and its number has the name. -/
theorem intern_extends (table : SymbolTable) (name : String) :
    table.Extends (table.intern name).1 ∧ (table.intern name).2 < (table.intern name).1.symbols.length ∧
      (table.intern name).1.nameOf? (table.intern name).2 = some name := by
  unfold intern
  split
  · rename_i id hid
    obtain ⟨hlt, hname, -⟩ := List.findIdx?_eq_some_iff_getElem.1 hid
    refine ⟨Extends.refl table, hlt, ?_⟩
    have hget : table.symbols[id]? = some table.symbols[id] := List.getElem?_eq_getElem hlt
    simp only [nameOf?, get?, hget, Option.map_some, Option.some.injEq]
    simpa using hname
  · refine ⟨fun id hid => ⟨by simp; omega, ?_⟩, by simp, by simp [nameOf?, get?]⟩
    simp only [nameOf?, get?, List.getElem?_append_left hid]

/-- A declaration of a name keeps the names there are, and its number has the name. -/
theorem record_extends (table : SymbolTable) (name : String) (kind : Option DeclKind) (declaration : Nat) :
    table.Extends (table.record name kind declaration).1 ∧
      (table.record name kind declaration).2 < (table.record name kind declaration).1.symbols.length ∧
      (table.record name kind declaration).1.nameOf? (table.record name kind declaration).2 = some name := by
  obtain ⟨hextends, hlt, hname⟩ := intern_extends table name
  have hsame : ∀ id, (table.record name kind declaration).1.nameOf? id = (table.intern name).1.nameOf? id := by
    intro id
    simp only [nameOf?, get?, record, List.getElem?_modify]
    split
    · cases (table.intern name).1.symbols[id]? <;> rfl
    · cases (table.intern name).1.symbols[id]? <;> rfl
  have hlength : (table.record name kind declaration).1.symbols.length = (table.intern name).1.symbols.length := by
    simp [record]
  refine ⟨fun id hid => ?_, by rw [hlength]; exact hlt, by rw [hsame]; exact hname⟩
  rw [hlength, hsame]
  exact hextends id hid

end SymbolTable

namespace DeclarationList

/-- A declaration with its name, and its number. -/
def shownOf (list : DeclarationList) (d : Declaration) : (Draft × Option String) × Nat :=
  ((d.toDraft, list.nameOf? d), d.id)

/-- The declarations in order, with their names and numbers. -/
def shown (list : DeclarationList) : List ((Draft × Option String) × Nat) :=
  list.items.map list.shownOf

/-- The names of the declarations are in the table. -/
def Linked (list : DeclarationList) : Prop :=
  ∀ d ∈ list.items, ∀ id ∈ d.name, id < list.symbols.symbols.length

variable {list : DeclarationList}

/-- A larger table changes nothing that is shown. -/
theorem Linked.of_extends (h : list.Linked) {symbols : SymbolTable} (hextends : list.symbols.Extends symbols) :
    ({ list with symbols } : DeclarationList).Linked ∧ ({ list with symbols } : DeclarationList).shown = list.shown := by
  refine ⟨fun d hd id hid => (hextends id (h d hd id hid)).1, ?_⟩
  apply List.map_congr_left
  intro d hd
  simp only [shownOf, Prod.mk.injEq, true_and, and_true, nameOf?]
  cases hname : d.name with
  | none => rfl
  | some id => exact (hextends id (h d hd id hname)).2

/-- A declaration is shown behind those there are, with the next number. -/
theorem Linked.push (h : list.Linked) (name : Option String) (draft : Draft) :
    (list.push name draft).1.Linked ∧
      (list.push name draft).1.shown = list.shown ++ [((draft, name), list.items.length)] := by
  cases name with
  | none =>
    refine ⟨fun d hd id hid => ?_, ?_⟩
    · rcases List.mem_append.1 hd with hd | hd
      · exact h d hd id hid
      · obtain rfl := List.mem_singleton.1 hd
        cases hid
    · rw [shown, DeclarationList.push, List.map_append]
      rfl
  | some name =>
    obtain ⟨hextends, hlt, hname⟩ := list.symbols.record_extends name (some draft.kind) list.items.length
    obtain ⟨hlinked, hshown⟩ := h.of_extends hextends
    refine ⟨fun d hd id hid => ?_, ?_⟩
    · rcases List.mem_append.1 hd with hd | hd
      · exact hlinked d hd id hid
      · obtain rfl := List.mem_singleton.1 hd
        cases hid
        exact hlt
    · have hlast : (list.push (some name) draft).1.nameOf?
          { draft with id := list.items.length,
                       name := some (list.symbols.record name (some draft.kind) list.items.length).2 } = some name := hname
      rw [← hshown, shown, shown, DeclarationList.push, List.map_append]
      show _ ++ [((draft, _), list.items.length)] = _
      rw [← hlast]
      rfl

/-- A further name is a larger table. -/
theorem Linked.addName (h : list.Linked) (name : String) (id : Nat) :
    (list.addName name id).Linked ∧ (list.addName name id).shown = list.shown := by
  unfold DeclarationList.addName
  split
  · exact h.of_extends (list.symbols.record_extends _ _ _).1
  · exact ⟨h, rfl⟩

theorem Linked.foldl_addName (h : list.Linked) (names : List String) (id : Nat) :
    (names.foldl (·.addName · id) list).Linked ∧ (names.foldl (·.addName · id) list).shown = list.shown := by
  induction names generalizing list with
  | nil => exact ⟨h, rfl⟩
  | cons name names ih =>
    obtain ⟨hlinked, hshown⟩ := h.addName name id
    obtain ⟨hlinked', hshown'⟩ := ih hlinked
    exact ⟨hlinked', hshown'.trans hshown⟩

end DeclarationList

/-- The declaration that an entry makes, with its name. -/
def Entry.named? : Entry → Option (Draft × Option String)
  | declare names draft => some (draft, names.head?)
  | _ => none

namespace Survey

variable {s : Survey}

theorem linked_record (h : s.declarations.Linked) (entry : Entry) :
    (s.record entry).declarations.Linked ∧
      (s.record entry).declarations.shown =
        s.declarations.shown ++ entry.named?.toList.zipIdx s.declarations.shown.length := by
  cases entry with
  | mention name =>
    obtain ⟨hlinked, hshown⟩ := h.of_extends (s.declarations.symbols.intern_extends name).1
    exact ⟨hlinked, hshown.trans (by simp [Entry.named?])⟩
  | declare names draft =>
    obtain ⟨hlinked, hshown⟩ := h.push names.head? draft
    obtain ⟨hlinked', hshown'⟩ := hlinked.foldl_addName names.tail (s.declarations.push names.head? draft).2
    refine ⟨hlinked', hshown'.trans (hshown.trans ?_)⟩
    simp [Entry.named?, DeclarationList.shown]
  | issue fault => exact ⟨h, by simp [record, Entry.named?]⟩

/-- What is recorded is shown behind what there is. -/
theorem linked_recordAll (h : s.declarations.Linked) (entries : List Entry) :
    (s.recordAll entries).declarations.Linked ∧
      (s.recordAll entries).declarations.shown =
        s.declarations.shown ++ (entries.filterMap Entry.named?).zipIdx s.declarations.shown.length := by
  induction entries generalizing s with
  | nil => exact ⟨h, by simp [recordAll]⟩
  | cons entry entries ih =>
    obtain ⟨hlinked, hshown⟩ := linked_record h entry
    obtain ⟨hlinked', hshown'⟩ := ih hlinked
    refine ⟨hlinked', hshown'.trans ?_⟩
    rw [hshown, List.append_assoc, List.length_append, List.length_zipIdx]
    congr 1
    cases hnamed : entry.named? <;> simp [hnamed]

/-- A survey shows the declarations of its entries in order. -/
theorem shown_recordAll (entries : List Entry) :
    (recordAll {} entries).declarations.shown = (entries.filterMap Entry.named?).zipIdx := by
  have hempty : ({} : Survey).declarations.Linked := by
    intro d hd
    cases hd
  simpa [DeclarationList.shown] using (linked_recordAll hempty entries).2

end Survey

/-! ### What is told -/

/-- What a declaration tells, wherever it stands in the text. -/
structure Telling where
  name : Option String
  kind : DeclKind
  visibility : Visibility
  guard : GuardPath
  text : DeclText
  deriving DecidableEq, Repr

/-- What a declaration under a name tells. -/
def Draft.telling (draft : Draft) (name : Option String) : Telling :=
  ⟨name, draft.kind, draft.visibility, draft.guard, draft.text⟩

/-- What the declarations tell, in order. -/
def DeclarationList.told (list : DeclarationList) : List Telling :=
  list.items.map fun d => d.telling (list.nameOf? d)

/-- What an entry tells, if it declares something. -/
def Entry.telling? (entry : Entry) : Option Telling :=
  entry.named?.map fun named => named.1.telling named.2

/-- A survey tells what its entries tell. -/
theorem Survey.told_recordAll (entries : List Entry) :
    (recordAll {} entries).declarations.told = entries.filterMap Entry.telling? := by
  have hshown : (recordAll {} entries).declarations.told =
      (recordAll {} entries).declarations.shown.map fun entry => entry.1.1.telling entry.1.2 := by
    rw [DeclarationList.shown, List.map_map]
    rfl
  have hunnumbered : ∀ (named : List (Draft × Option String)),
      named.zipIdx.map (fun entry => entry.1.1.telling entry.1.2) = named.map fun entry => entry.1.telling entry.2 := by
    intro named
    rw [← List.zipIdx_map_fst 0 named, List.map_map, List.zipIdx_map_fst]
    rfl
  rw [hshown, shown_recordAll, hunnumbered, List.map_filterMap]
  rfl

end CHeader
