import CHeader.Survey
import Mathlib.Tactic.SplitIfs

/-!
# What a survey records

A survey takes in entries one by one. Its errors are the issues among them, in order, and its
declarations are the drafts among them, numbered in order (`drafts_recordAll`): linking further names
to a declaration, or mentioning a name, changes the symbols only. The ways in which a construct comes to
an entry are `Construct.Yields`; what holds of all its entries is shown one way at a time.
-/

namespace CHeader

namespace Entry

/-- The declaration that an entry makes. -/
def draft? : Entry → Option Draft
  | declare _ draft => some draft
  | _ => none

/-- The issue that an entry is. -/
def issue? : Entry → Option Diagnostic
  | issue fault => some fault
  | _ => none

theorem mem_of_mem_issues {entries : List Entry} {fault : Diagnostic} (h : fault ∈ entries.filterMap issue?) :
    issue fault ∈ entries := by
  obtain ⟨entry, hmem, hentry⟩ := List.mem_filterMap.1 h
  cases entry <;> cases hentry
  exact hmem

theorem mem_of_mem_drafts {entries : List Entry} {draft : Draft} (h : draft ∈ entries.filterMap draft?) :
    ∃ names, declare names draft ∈ entries := by
  obtain ⟨entry, hmem, hentry⟩ := List.mem_filterMap.1 h
  cases entry <;> cases hentry
  exact ⟨_, hmem⟩

end Entry

namespace DeclarationList

/-- The declarations of a list without their numbers. -/
def drafts (list : DeclarationList) : List Draft :=
  list.items.map (·.toDraft)

@[simp] theorem drafts_intern (list : DeclarationList) (name : String) : (list.intern name).1.drafts = list.drafts := rfl

@[simp] theorem drafts_push (list : DeclarationList) (name : Option String) (draft : Draft) :
    (list.push name draft).1.drafts = list.drafts ++ [draft] := by
  cases name <;> simp [push, drafts]

@[simp] theorem drafts_addName (list : DeclarationList) (name : String) (id : Nat) :
    (list.addName name id).drafts = list.drafts := by
  unfold addName
  split <;> rfl

end DeclarationList

namespace Survey

theorem drafts_foldl_addName (list : DeclarationList) (names : List String) (id : Nat) :
    (names.foldl (·.addName · id) list).drafts = list.drafts := by
  induction names generalizing list with
  | nil => rfl
  | cons name names ih => rw [List.foldl_cons, ih, DeclarationList.drafts_addName]

/-- One declaration is recorded, whatever names it has. -/
theorem drafts_declare (list : DeclarationList) (names : List String) (draft : Draft) :
    (declare list names draft).drafts = list.drafts ++ [draft] := by
  rw [declare, drafts_foldl_addName, DeclarationList.drafts_push]

theorem drafts_recordAll (survey : Survey) (entries : List Entry) :
    (survey.recordAll entries).declarations.drafts = survey.declarations.drafts ++ entries.filterMap Entry.draft? := by
  induction entries generalizing survey with
  | nil => simp [recordAll]
  | cons entry entries ih =>
    rw [recordAll, List.foldl_cons, ← recordAll, ih]
    cases entry with
    | mention name => simp [record, List.filterMap_cons, Entry.draft?]
    | declare names draft => simp [record, Entry.draft?, drafts_declare]
    | issue fault => simp [record, List.filterMap_cons, Entry.draft?]

theorem errors_recordAll (survey : Survey) (entries : List Entry) :
    (survey.recordAll entries).errors = survey.errors ++ entries.filterMap Entry.issue? := by
  induction entries generalizing survey with
  | nil => simp [recordAll]
  | cons entry entries ih =>
    rw [recordAll, List.foldl_cons, ← recordAll, ih]
    cases entry <;> simp [record, List.filterMap_cons, Entry.issue?]

theorem recordAll_append (survey : Survey) (first rest : List Entry) :
    survey.recordAll (first ++ rest) = (survey.recordAll first).recordAll rest :=
  List.foldl_append

end Survey

/-! ### The entries of a construct -/

/-- An entry of a construct under the guards of `guard`: a declaration stands under them, and an issue is no
fault of the conditionals. -/
def Entry.StandsUnder (guard : GuardPath) : Entry → Prop
  | .mention _ => True
  | .declare _ draft => draft.guard = guard
  | .issue fault => ∃ issue, fault.cause = .construct issue

theorem Entry.standsUnder_ofIssue (guard : GuardPath) (issue : Issue) (token : Token) :
    (Entry.issue (.ofIssue issue token)).StandsUnder guard :=
  ⟨issue, rfl⟩

/-- An entry of the construct `c` at `site`: a declaration from the token `start` to the end of the construct, under the
guards of the site, or an issue that is no fault of the conditionals. -/
def Entry.MadeBy (c : Construct) (site : Site) (start : Token) : Entry → Prop
  | .mention _ => True
  | .declare _ draft => ∃ kind text visibility, draft = c.draft site start kind text visibility
  | .issue fault => ∃ issue, fault.cause = .construct issue

theorem Entry.MadeBy.standsUnder {c : Construct} {site : Site} {start : Token} {entry : Entry} (h : entry.MadeBy c site start) :
    entry.StandsUnder site.guard := by
  cases entry with
  | mention => trivial
  | declare names draft =>
    obtain ⟨kind, text, visibility, rfl⟩ := h
    rfl
  | issue fault => exact h

namespace Construct

open Nesting (Piece)

variable {c : Construct} {site : Site} {specs : Specifiers} {start first : Token} {entry : Entry}

/-- The ways in which a construct with these specifiers, whose declarations begin with the token `start`, comes to an entry:
it mentions a name or is at fault, it declares types (the names of a `typedef`, the aggregate that it consists of, or the one
before its declarators), or it declares what one of its declarators names. -/
inductive Yields (c : Construct) (site : Site) (specs : Specifiers) (start : Token) : Entry → Prop
  | mention (name : String) : Yields c site specs start (.mention name)
  | fault (issue : Issue) (token : Token) : Yields c site specs start (.issue (.ofIssue issue token))
  | typedef (isTypedef : specs.isTypedef = true) {names : List Token} (nonempty : names ≠ [])
      (named : (c.pieces specs).filterMap (fun piece => (Declarator.ofTokens piece.tokens).name) = names) :
      Yields c site specs start (.declare (names.map (·.text))
        (c.draft site start .type (.verbatim (site.between start c.last)) (specs.typeVisibility site.block)))
  | bare (plain : specs.isTypedef = false) (undeclared : c.pieces specs = []) {a : Aggregate}
      (found : specs.aggregate? = some a) :
      Yields c site specs start (.declare (a.tag.map (·.text)).toList
        (c.draft site start .type (.verbatim (site.between start c.last)) (specs.typeVisibility site.block)))
  | apart (plain : specs.isTypedef = false) (declared : c.pieces specs ≠ []) {a : Aggregate} {tag : Token}
      (found : tagged? specs = some (a, tag)) :
      Yields c site specs start (.declare [tag.text] (c.draft site start .type
        (.verbatim (site.between (a.head.head?.getD start) (a.body.getLast?.getD start) ++ ";"))
        (specs.typeVisibility site.block)))
  | ofFunction (plain : specs.isTypedef = false) {piece : Piece} (mem : piece ∈ c.pieces specs)
      (one : c.hasBody = true → c.pieces specs = [piece]) {name : Token} (named : piece.declarator.name = some name)
      (isFunction : piece.declarator.isFunction = true) {text : DeclText}
      (written : c.functionText site specs start piece = .ok text) :
      Yields c site specs start (.declare [name.text] (c.draft site start .function text (specs.visibility site.block)))
  | ofVariable (plain : specs.isTypedef = false) {piece : Piece} (mem : piece ∈ c.pieces specs) (bodiless : c.hasBody = false)
      {name : Token} (named : piece.declarator.name = some name) (isVariable : piece.declarator.isFunction = false)
      {text : DeclText} (written : c.variableText specs piece = .ok text) :
      Yields c site specs start (.declare [name.text] (c.draft site start .variable text (specs.visibility site.block)))

theorem yields_declaratorEntry (plain : specs.isTypedef = false) {piece : Piece} (mem : piece ∈ c.pieces specs)
    (one : c.hasBody = true → c.pieces specs = [piece]) : c.Yields site specs start (c.declaratorEntry site specs start piece) := by
  simp only [declaratorEntry]
  cases named : piece.declarator.name with
  | none => exact .fault ..
  | some name =>
    cases hfunction : piece.declarator.isFunction with
    | true =>
      cases written : c.functionText site specs start piece with
      | ok text => exact .ofFunction plain mem one named hfunction written
      | error directive => exact .fault ..
    | false =>
      cases bodiless : c.hasBody with
      | true => exact .fault ..
      | false =>
        cases written : c.variableText specs piece with
        | ok text => exact .ofVariable plain mem bodiless named hfunction written
        | error directive => exact .fault ..

theorem yields_declaratorEntries (plain : specs.isTypedef = false) (h : entry ∈ c.declaratorEntries site specs start first) :
    c.Yields site specs start entry := by
  simp only [declaratorEntries] at h
  split_ifs at h with hseveral
  · rw [List.mem_singleton.1 h]
    exact .fault ..
  · obtain ⟨piece, mem, rfl⟩ := List.mem_map.1 h
    refine yields_declaratorEntry plain mem fun hbody => ?_
    have hpositive := List.length_pos_of_mem mem
    have hlength : (c.pieces specs).length = 1 := by
      simp only [hbody, Bool.true_and, decide_eq_true_eq] at hseveral
      omega
    obtain ⟨other, hother⟩ := List.length_eq_one_iff.1 hlength
    rw [hother] at mem ⊢
    rw [List.mem_singleton.1 mem]

/-- Whatever a construct says, it says from its first token that is no marker word. -/
theorem yields_of_mem_entries (h : entry ∈ c.entries site) :
    ∃ first rest, c.head = first :: rest ∧ first.kind ≠ .keyword .staticAssertKw ∧
      c.Yields site (c.specifiers site) (Construct.start (c.specifiers site) first) entry := by
  unfold entries at h
  split at h
  · cases h
  · rename_i first rest hhead
    split_ifs at h with hassert
    · cases h
    refine ⟨first, rest, hhead, hassert, ?_⟩
    rcases List.mem_append.1 h with h | h
    · obtain ⟨_, -, rfl⟩ := List.mem_map.1 h
      exact .mention _
    split_ifs at h with htypedef hpieces
    · unfold typedefEntries at h
      split at h
      · rw [List.mem_singleton.1 h]
        exact .fault ..
      · rename_i nonempty
        rw [List.mem_singleton.1 h]
        exact .typedef htypedef nonempty rfl
    · unfold bareEntries at h
      split at h
      · rename_i found
        rw [List.mem_singleton.1 h]
        exact .bare (by simpa using htypedef) (by simpa using hpieces) found
      · rw [List.mem_singleton.1 h]
        exact .fault ..
    · have plain : (c.specifiers site).isTypedef = false := by simpa using htypedef
      rcases List.mem_append.1 h with h | h
      · unfold taggedEntries at h
        split at h
        · rename_i found
          rw [List.mem_singleton.1 h]
          exact .apart plain (by simpa using hpieces) found
        · cases h
      · exact yields_declaratorEntries plain h

theorem Yields.madeBy (h : c.Yields site specs start entry) : entry.MadeBy c site start := by
  cases h with
  | mention => trivial
  | fault issue => exact ⟨issue, rfl⟩
  | typedef | bare | apart | ofFunction | ofVariable => exact ⟨_, _, _, rfl⟩

/-- What a construct says, it says from one token on. -/
theorem madeBy_entries (h : entry ∈ c.entries site) :
    ∃ first rest, c.head = first :: rest ∧ entry.MadeBy c site (Construct.start (c.specifiers site) first) := by
  obtain ⟨first, rest, hhead, -, hyields⟩ := yields_of_mem_entries h
  exact ⟨first, rest, hhead, hyields.madeBy⟩

end Construct

end CHeader
