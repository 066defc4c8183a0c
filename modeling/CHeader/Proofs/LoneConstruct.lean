import CHeader.Proofs.HeaderLines
import CHeader.Proofs.Placing

/-!
# A text that is one construct

If some tokens make one construct by themselves (`IsConstruct`), a text of lexemes of the same kinds is that
construct wherever it stands, with the tokens of the text for the old ones (`readsAs_construct`). What the
construct declares there may look at the place: at the text it stands in, and at the guards around it.
-/

namespace CHeader

open Lexed (allChars)

/-- Tokens that are one construct. -/
def IsConstruct (tokens : List Token) (c : Construct) : Prop :=
  outline true 0 (tokens ++ [.endOfText 0 0]) = [.construct tokens c]

instance (tokens : List Token) (c : Construct) : Decidable (IsConstruct tokens c) :=
  inferInstanceAs (Decidable (_ = _))

/-- A text is a construct if its tokens are of the kinds of one. -/
theorem readsAs_construct {ls : List Lexed} {tokens : List Token} {c : Construct} (hreads : Reads ls [])
    (hkinds : tokens.map (·.kind) = ls.map (·.kind)) (hnodup : tokens.Nodup) (hconstruct : IsConstruct tokens c)
    {P : List Char → Item → Prop}
    (h : ∀ before behind f, KeepsKinds f → Stands (byteLength before) ls (tokens.map f) →
      P (before ++ allChars ls ++ behind) (.construct (tokens.map f) (c.map f))) :
    ReadsAs (allChars ls) P := by
  refine ⟨ls, rfl, hreads, fun before behind ts hts => ?_⟩
  obtain ⟨f, hf, rfl⟩ := exists_keepsKinds hnodup (hts.map_kind.trans hkinds.symm)
  have heof : ∀ t ∈ tokens, t.kind ≠ .eof := by
    intro t ht hkind
    have hmem : t.kind ∈ ls.map (·.kind) := hkinds ▸ List.mem_map_of_mem ht
    obtain ⟨l, hl, hsame⟩ := List.mem_map.1 hmem
    exact hreads.kind_ne_eof l hl (by rw [hsame, hkind])
  have hsound : ∀ item ∈ outline true 0 (tokens ++ [.endOfText 0 0]), item.Sound := by
    rw [hconstruct]
    simp [Item.Sound]
  refine ⟨_, h before behind f hf hts, fun linkage => ?_⟩
  obtain ⟨linkage', hmore⟩ := outline_placed rfl heof hsound hf linkage
  refine ⟨linkage', fun more => ?_⟩
  rw [hmore more, hconstruct]
  rfl

namespace Construct

/-- Entries that name things and declare one of them, by `text`. -/
def Says (text : String) (guard : GuardPath) (entries : List Entry) : Prop :=
  ∃ specs names draft, entries = mentions specs ++ [.declare names draft] ∧ draft.guard = guard ∧ draft.text.text = text

theorem filterMap_mentions {α : Type} (specs : Specifiers) {g : Entry → Option α} (h : ∀ name, g (.mention name) = none) :
    (mentions specs).filterMap g = [] := by
  simp [mentions, List.filterMap_map, h]

end Construct

/-- A construct that says one thing. -/
theorem Item.declares_construct {tokens : List Token} {c : Construct} {text : String} {source : List Char}
    (h : ∀ site : Site, site.source = source → site.markers = true → Construct.Says text site.guard (c.entries site)) :
    (Item.construct tokens c).Declares (tokens.filterMap Token.directive?) text source := by
  refine ⟨rfl, fun t => ?_, fun t => ?_⟩
  · obtain ⟨specs, names, draft, hentries, hguard, htext⟩ := h ⟨source, true, t.guardPath, t.interfaceBlock⟩ rfl rfl
    refine ⟨draft, ?_, hguard, htext⟩
    rw [Item.entries, hentries, List.filterMap_append, Construct.filterMap_mentions specs fun name => rfl]
    rfl
  · obtain ⟨specs, names, draft, hentries, -, -⟩ := h ⟨source, true, t.guardPath, t.interfaceBlock⟩ rfl rfl
    rw [Item.entries, hentries, List.filterMap_append, Construct.filterMap_mentions specs fun name => rfl]
    rfl

end CHeader
