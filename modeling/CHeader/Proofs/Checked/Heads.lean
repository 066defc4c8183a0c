import CHeader.Proofs.Checked.Collecting
import CHeader.Proofs.SpecifierEnds

/-!
# The head of a construct by position

The specifiers are read off the head of a construct with its semicolon, if it ends with one. Since the brackets of the
head are closed, the semicolon makes no difference to them (`Specifiers.ofTokens_concat`), and the positions of the
declarators end where the head does (`PlacedConstruct.Stands.declaratorsEnd?_eq`).
-/

namespace CHeader

open Nesting (openBehind?)

/-! ### A semicolon behind closed brackets -/

section Semicolon

variable {ts : List Token} {semi t : Token}

/-- The specifiers of closed tokens are the same if a semicolon follows them. -/
theorem Specifiers.ofTokens_concat (markers : Bool) (h : openBehind? [] ts = some []) (hsemi : semi.kind = .punct .semi) :
    ofTokens markers (ts ++ [semi]) = ofTokens markers ts := by
  have hplain : semi.isAttribute = false ∧ semi.kind ≠ .opening .brace ∧ semi.isName = false ∧ semi.kind ≠ .opening .paren := by
    simp [Token.isAttribute, Token.isName, TokenKind.identifier?, hsemi]
  have hoff : SetOff ts [semi] := by
    refine ⟨?_, fun t _ _ => ?_⟩
    · rintro u ⟨⟩
      exact ⟨hplain.1, hplain.2.1⟩
    · rintro u ⟨⟩
      exact hplain.2.2.2
  refine take_append h hoff (.inl ?_) fun behind => ?_
  · rintro u ⟨⟩
    exact hplain.2.2.1
  · rw [take]
    simp [Specifier.first?, hsemi]

/-- The last of closed tokens without a semicolon outside the groups is no semicolon. -/
theorem ne_semi_of_getLast? (hclosed : openBehind? [] ts = some []) (hwhole : Nesting.Outside (·.kind ≠ .punct .semi) 0 ts)
    (ht : ts.getLast? = some t) : t.kind ≠ .punct .semi := by
  intro hsemi
  obtain ⟨before, rfl⟩ := List.getLast?_eq_some_iff.1 ht
  rw [Nesting.openBehind?_append] at hclosed
  obtain ⟨opened, hopened, hlast⟩ := Option.bind_eq_some_iff.1 hclosed
  have hnoBracket : t.kind.isOpening = false ∧ t.kind.isClosing = false := by simp [hsemi, TokenKind.isOpening, TokenKind.isClosing]
  obtain rfl : opened = [] := by
    rw [Nesting.openBehind?_cons, Nesting.openStep_of_noBracket hnoBracket] at hlast
    exact Option.some.inj hlast
  exact (Nesting.outside_concat.1 hwhole).2 (Nesting.level_of_openBehind? hopened) hsemi

end Semicolon

namespace Checked

/-! ### The specifiers of a head -/

/-- The first `n` of a list, if there are as many. -/
def take? {α : Type} (n : Nat) (xs : List α) : Option (List α) :=
  if n ≤ xs.length then some (xs.take n) else none

namespace PlacedConstruct

/-- The tokens of a construct by their positions in it. -/
def view (tokens : List Token) (c : PlacedConstruct) : View :=
  (token? tokens).at? c.indices

/-- The position in the construct that its head ends before. A semicolon belongs to the head. -/
def headEnd (c : PlacedConstruct) : Nat :=
  c.parameters.getD c.indices.length

/-- The specifiers of the head. -/
def specifiers? (markers : Bool) (tokens : List Token) (c : PlacedConstruct) : Option PlacedSpecifiers := do
  let head ← take? c.headEnd c.indices
  PlacedSpecifiers.ofView? markers ((token? tokens).at? head) head.length

/-- The position that the declarators end before. -/
def declaratorsEnd? (view : View) (c : PlacedConstruct) (specs : PlacedSpecifiers) : Option Nat :=
  if c.parameters.isNone ∧ specs.stop < c.headEnd then do
    let last ← sub? c.headEnd 1
    let t ← view last
    some (if t.kind = .punct .semi then last else c.headEnd)
  else some c.headEnd

end PlacedConstruct

/-- An aggregate among some tokens is the same among more. -/
theorem LastAggregate.mono {view view' : View} {placed : Option PlacedAggregate} {specs : Specifiers}
    (h : LastAggregate view placed specs) (hviews : ∀ i t, view i = some t → view' i = some t) : LastAggregate view' placed specs := by
  cases h with
  | absent hnone => exact .absent hnone
  | @present placed a s before behind stands aggregate last =>
    refine .present ⟨stands.keyword, ?_, stands.body⟩ aggregate last
    have htag := stands.tag
    cases hplaced : placed.tag <;> cases ha : a.tag <;> rw [hplaced, ha] at htag <;> simp_all

theorem PlacedSpecifiers.Describes.mono {view view' : View} {placed : PlacedSpecifiers} {specs : Specifiers}
    (h : placed.Describes view specs) (hviews : ∀ i t, view i = some t → view' i = some t) : placed.Describes view' specs :=
  { h with aggregate := h.aggregate.mono hviews }

theorem length_semicolon_le (c : Construct) : (semicolon c).length ≤ 1 := by
  unfold semicolon
  split <;> simp

namespace PlacedConstruct.Stands

variable {tokens : List Token} {placed : PlacedConstruct} {c : Construct} (h : placed.Stands tokens c)

include h

theorem shows : (placed.view tokens).Shows 0 (c.head ++ c.parameters ++ semicolon c) :=
  View.at?_shows h.indices

theorem length_indices : placed.indices.length = (c.head ++ c.parameters ++ semicolon c).length := by
  simpa using congrArg List.length h.indices

/-- The head without parameter declarations has the semicolon behind it. -/
theorem headEnd_eq : placed.headEnd = (if c.parameters = [] then c.head ++ semicolon c else c.head).length := by
  rw [PlacedConstruct.headEnd, h.parameters, h.length_indices]
  split_ifs with hnone
  · simp [hnone]
  · rfl

theorem specifiers?_describes (markers : Bool) :
    ∃ specs, placed.specifiers? markers tokens = some specs ∧ specs.Describes (placed.view tokens) (.ofTokens markers c.head) := by
  have hle : placed.headEnd ≤ placed.indices.length := by
    rw [h.headEnd_eq, h.length_indices]
    split_ifs with hnone
    · simp [hnone]
    · simp
  have hhead : (placed.indices.take placed.headEnd).map (token? tokens) =
      (if c.parameters = [] then c.head ++ semicolon c else c.head).map some := by
    rw [List.map_take, h.indices, h.headEnd_eq, ← List.map_take]
    split_ifs with hnone
    · simp [hnone]
    · rw [List.append_assoc, List.take_left]
  have hspecs : Specifiers.ofTokens markers (if c.parameters = [] then c.head ++ semicolon c else c.head) =
      .ofTokens markers c.head := by
    split_ifs with hnone
    · cases hsemi : semicolon c with
      | nil => rw [List.append_nil]
      | cons t ts =>
        obtain rfl : ts = [] := by simpa [hsemi] using length_semicolon_le c
        exact Specifiers.ofTokens_concat markers (h.closed hnone) (h.semi t (by simp [hsemi]))
    · rfl
  obtain ⟨specs, hfound, hdescribes⟩ := PlacedSpecifiers.ofView?_describes markers (View.at?_shows hhead)
  refine ⟨specs, ?_, ?_⟩
  · rw [PlacedConstruct.specifiers?, take?, if_pos hle]
    simp only [Option.bind_eq_bind, Option.bind_some]
    rw [← hfound, h.headEnd_eq, List.length_take, Nat.min_eq_left (h.headEnd_eq ▸ hle)]
  · rw [hspecs] at hdescribes
    refine hdescribes.mono fun i t ht => ?_
    obtain ⟨k, hk, hshown⟩ := Option.bind_eq_some_iff.1 ht
    have hlt : i < placed.headEnd := by
      obtain ⟨hlt, -⟩ := List.getElem?_eq_some_iff.1 hk
      rw [List.length_take] at hlt
      omega
    rw [List.getElem?_take_of_lt hlt] at hk
    exact Option.bind_eq_some_iff.2 ⟨k, hk, hshown⟩

theorem declaratorsEnd?_eq {markers : Bool} {specs : PlacedSpecifiers}
    (hspecs : specs.Describes (placed.view tokens) (.ofTokens markers c.head)) :
    placed.declaratorsEnd? (placed.view tokens) specs = some c.head.length := by
  have hstop : specs.stop ≤ c.head.length := by
    rw [hspecs.stop]
    exact (Specifiers.prefix_ofTokens markers c.head).length_le
  have hlast : 0 < c.head.length := List.length_pos_iff.2 h.nonempty
  rw [PlacedConstruct.declaratorsEnd?, h.headEnd_eq, h.parameters]
  by_cases hnone : c.parameters = []
  · simp only [if_pos hnone, Option.isNone_none, true_and]
    have hshows := h.shows
    rw [hnone, List.append_nil] at hshows
    obtain ⟨before, last, hhead⟩ := List.eq_nil_or_concat' c.head |>.resolve_left h.nonempty
    cases hsemi : semicolon c with
    | nil =>
      have hlast : c.head.getLast? = some last := by rw [hhead, List.getLast?_concat]
      have hne := ne_semi_of_getLast? (h.closed hnone) (h.whole hnone) hlast
      have hview : placed.view tokens before.length = some last := by
        rw [hsemi, List.append_nil, hhead, View.shows_append] at hshows
        simpa using hshows.2.1
      rw [List.append_nil, hhead, List.length_append, List.length_singleton, sub?_of_le (by omega)]
      simp [hview, hne]
    | cons t ts =>
      have hview : placed.view tokens c.head.length = some t := by
        rw [hsemi, View.shows_append] at hshows
        simpa using hshows.2.1
      have hkind := h.semi t (by simp [hsemi])
      obtain rfl : ts = [] := by simpa [hsemi] using length_semicolon_le c
      rw [if_pos (by simp; omega), List.length_append, List.length_singleton, sub?_of_le (by omega)]
      simp [hview, hkind]
  · simp [hnone]

end PlacedConstruct.Stands

end Checked

end CHeader
