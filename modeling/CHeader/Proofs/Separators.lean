import CHeader.Proofs.Blanking

/-!
# Texts in front of a separator

A text without directives that is read in front of one separator is read in the same way in front of any other: its
lexemes do not look further than that (`Lexed.ReadBefore.of_sameUpToSeparators`). So texts that a semicolon or a brace
may follow can be put one behind the other with separators or blanks between them, and stay the rows of lexemes that
they are (`ReadsUpTo`). That a mark follows such a text shows in its tokens (`readsUpTo_of_tokenize`).
-/

namespace CHeader

open Lexed (allChars)
open Lexeme (gapLength isBlank Separator)

/-! ### Gaps in front of anything -/

theorem Gap.gapLength_append {gap : List Char} (h : Gap gap) (cs : List Char) :
    gapLength (gap ++ cs) = gap.length + gapLength cs := by
  induction h with
  | nil => simp
  | @blank c rest white _ ih =>
    have hblank : isBlank c = true := by
      simp only [List.mem_cons, List.not_mem_nil, or_false] at white
      rcases white with rfl | rfl | rfl | rfl | rfl | rfl <;> rfl
    rw [List.cons_append, Lexeme.gapLength_cons (Lexeme.ne_backslash_of_isBlank hblank), if_pos hblank, ih, List.length_cons]
    omega
  | newline _ ih =>
    rw [List.cons_append, List.cons_append, gapLength, ih]
    simp only [List.length_cons]
    omega
  | carriage _ ih =>
    rw [List.cons_append, List.cons_append, List.cons_append, gapLength, ih]
    simp only [List.length_cons]
    omega

theorem IsGap.gap {gap : List Char} (h : IsGap gap) : Gap gap := by
  have htake := gap_take_gapLength gap
  rwa [h, List.take_length] at htake

/-- A gap begins with a separator. -/
theorem Gap.exists_separator {gap : List Char} (h : Gap gap) (hne : gap ≠ []) : ∃ w rest, gap = w :: rest ∧ Separator w := by
  cases h with
  | nil => exact absurd rfl hne
  | @blank c rest white _ =>
    refine ⟨c, rest, rfl, ?_⟩
    simp only [List.mem_cons, List.not_mem_nil, or_false] at white
    rcases white with rfl | rfl | rfl | rfl | rfl | rfl <;> constructor <;> decide
  | newline | carriage => exact ⟨'\\', _, rfl, by constructor <;> decide⟩

/-- A gap ends with white space. -/
theorem Gap.isBlank_getLast {gap : List Char} (h : Gap gap) : ∀ c ∈ gap.getLast?, isBlank c = true := by
  have hnewline : ∀ {rest : List Char}, (∀ c ∈ rest.getLast?, isBlank c = true) →
      ∀ c ∈ ('\n' :: rest).getLast?, isBlank c = true := by
    intro rest hrest c hc
    cases rest with
    | nil =>
      obtain rfl : '\n' = c := by simpa using hc
      rfl
    | cons d rest => exact hrest c (by simpa using hc)
  induction h with
  | nil => simp
  | @blank c rest white _ ih =>
    cases rest with
    | nil =>
      intro d hd
      obtain rfl : c = d := by simpa using hd
      simp only [List.mem_cons, List.not_mem_nil, or_false] at white
      rcases white with rfl | rfl | rfl | rfl | rfl | rfl <;> rfl
    | cons d rest => exact fun e he => ih e (by simpa using he)
  | newline _ ih => exact fun c hc => hnewline ih c (by simpa using hc)
  | carriage _ ih => exact fun c hc => hnewline ih c (by simpa using hc)

namespace Lexed.ReadBefore

variable {l : Lexed} {given written : List Char}

theorem isGap (h : l.ReadBefore given) : Gap l.gap := by
  have htake := gap_take_gapLength (l.gap ++ l.text ++ given)
  rwa [h.gap, List.append_assoc, List.take_left] at htake

/-- A gap belongs to any lexeme that is read behind it. -/
theorem of_gap {gap text : List Char} {kind : TokenKind} (hgap : Gap gap) (h : ReadBefore ⟨[], kind, text⟩ given) :
    ReadBefore ⟨gap, kind, text⟩ given := by
  have hnone : gapLength (text ++ given) = 0 := by simpa using h.gap
  refine ⟨?_, h.lexeme⟩
  rw [List.append_assoc, hgap.gapLength_append, hnone, Nat.add_zero]

/-- What follows a lexeme matters to the lexeme only, not to the gap before it. -/
theorem of_lexeme (h : l.ReadBefore given)
    (hsame : ∀ c cs, l.text = c :: cs → Lexeme.lexeme c (cs ++ given) = ⟨.ok l.kind, cs.length⟩ →
      Lexeme.lexeme c (cs ++ written) = ⟨.ok l.kind, cs.length⟩) : l.ReadBefore written := by
  obtain ⟨c, cs, htext, hlexeme⟩ := h.lexeme
  refine ⟨?_, c, cs, htext, hsame c cs htext hlexeme⟩
  have hc : c ≠ '\\' := by
    rintro rfl
    exact lexeme_backslash _ ⟨l.kind, by rw [hlexeme]⟩
  have hgap := h.gap
  rw [List.append_assoc, h.isGap.gapLength_append, htext, List.cons_append, Lexeme.gapLength_cons hc] at hgap
  rw [List.append_assoc, h.isGap.gapLength_append, htext, List.cons_append, Lexeme.gapLength_cons hc]
  split_ifs at hgap ⊢ with hblank
  · omega
  · rfl

end Lexed.ReadBefore

/-! ### One separator in the place of another -/

/-- The second text begins as the first one up to a character for which it has a separator. Both of these are newlines or
none of them is. -/
def SameUpToSeparators (given written : List Char) : Prop :=
  ∃ common d rest e more, given = common ++ d :: rest ∧ written = common ++ e :: more ∧ Separator e ∧ (d = '\n' ↔ e = '\n')

theorem SameUpToSeparators.append {given written : List Char} (h : SameUpToSeparators given written) (front : List Char) :
    SameUpToSeparators (front ++ given) (front ++ written) := by
  obtain ⟨common, d, rest, e, more, rfl, rfl, he, hnewline⟩ := h
  exact ⟨front ++ common, d, rest, e, more, by simp, by simp, he, hnewline⟩

/-- A lexeme that is no directive is read in front of both texts. -/
theorem Lexed.ReadBefore.of_sameUpToSeparators {l : Lexed} {given written : List Char} (h : l.ReadBefore given)
    (hkind : ∀ directive, l.kind ≠ .directive directive) (hsame : SameUpToSeparators given written) :
    l.ReadBefore written := by
  obtain ⟨common, d, rest, e, more, rfl, rfl, he, hnewline⟩ := hsame
  refine h.of_lexeme fun c cs _ hlexeme => ?_
  have hfront : Lexeme.lexeme c (cs ++ common) = ⟨.ok l.kind, cs.length⟩ := by
    rw [← List.append_assoc] at hlexeme
    exact Lexeme.lexeme_of_append hlexeme (by simp)
  rw [← List.append_assoc]
  refine Lexeme.lexeme_append he hfront (fun parsed hparsed => absurd hparsed (hkind parsed)) fun hcomment hlength => ?_
  have hnext := Lexeme.newline_behind_line hlexeme (.inl hcomment)
  cases common with
  | nil =>
    obtain rfl : e = '\n' := hnewline.1 (hnext d (by simp))
    exact Lexeme.lineLength_append_newline
  | cons x common => exact Lexeme.lineLength_append (by simp [hlength])

theorem Reads.of_sameUpToSeparators {ls : List Lexed} {given written : List Char} (h : Reads ls given)
    (hplain : ∀ l ∈ ls, ∀ directive, l.kind ≠ .directive directive) (hsame : SameUpToSeparators given written) :
    Reads ls written := by
  induction ls with
  | nil => trivial
  | cons l ls ih =>
    obtain ⟨hl, hls⟩ := List.forall_mem_cons.1 hplain
    exact ⟨h.1.of_sameUpToSeparators hl (hsame.append (allChars ls)), ih h.2 hls⟩

/-! ### Texts that a separator may follow -/

/-- The text is a row of lexemes and a gap, without directives, and is read so in front of some mark. -/
structure ReadsUpTo (text : List Char) (ls : List Lexed) (gap : List Char) : Prop where
  chars : text = allChars ls ++ gap
  isGap : Gap gap
  plain : ∀ l ∈ ls, ∀ directive, l.kind ≠ .directive directive
  reads : ∃ mark rest, mark ≠ '\n' ∧ Reads ls (gap ++ mark :: rest)

namespace ReadsUpTo

variable {text gap : List Char} {ls : List Lexed}

theorem before (h : ReadsUpTo text ls gap) {d : Char} (hd : Separator d) (hnewline : d ≠ '\n') (more : List Char) :
    Reads ls (gap ++ d :: more) := by
  obtain ⟨mark, rest, hmark, hreads⟩ := h.reads
  exact hreads.of_sameUpToSeparators h.plain ⟨gap, mark, rest, d, more, rfl, rfl, hd, by simp [hmark, hnewline]⟩

/-- Behind white space anything may follow. -/
theorem behindGap (h : ReadsUpTo text ls gap) (hgap : gap ≠ []) (more : List Char) : Reads ls (gap ++ more) := by
  obtain ⟨mark, rest, -, hreads⟩ := h.reads
  obtain ⟨w, tail, rfl, hw⟩ := h.isGap.exists_separator hgap
  exact hreads.of_sameUpToSeparators h.plain
    ⟨[], w, tail ++ mark :: rest, w, tail ++ more, by simp, by simp, hw, Iff.rfl⟩

end ReadsUpTo

/-! ### Marks -/

/-- A character that is a mark of its own: a separator that is an operator. -/
structure IsMark (d : Char) (p : Punct) : Prop where
  separator : Separator d
  spelling : p.spelling = String.singleton d
  ink : isBlank d = false
  alone : ∀ rest, Lexed.ReadBefore ⟨[], .punct p, [d]⟩ rest

theorem isMark_semicolon : IsMark ';' .semi :=
  ⟨separator_semicolon, rfl, rfl, fun rest => ⟨by simp [gapLength, isBlank], ';', [], rfl, rfl⟩⟩

theorem isMark_comma : IsMark ',' .comma :=
  ⟨by constructor <;> decide, rfl, rfl, fun rest => ⟨by simp [gapLength, isBlank], ',', [], rfl, rfl⟩⟩

theorem isMark_opening : IsMark '\x7b' (.opening .brace) :=
  ⟨by constructor <;> decide, rfl, rfl, fun rest => ⟨by simp [gapLength, isBlank], '\x7b', [], rfl, rfl⟩⟩

theorem isMark_closing : IsMark '\x7d' (.closing .brace) :=
  ⟨by constructor <;> decide, rfl, rfl, fun rest => ⟨by simp [gapLength, isBlank], '\x7d', [], rfl, rfl⟩⟩

theorem IsMark.ne_newline {d : Char} {p : Punct} (h : IsMark d p) : d ≠ '\n' := by
  rintro rfl
  exact absurd h.ink (by decide)

/-- A text with a mark behind it is one that a separator may follow, if the mark is a token of its own. -/
theorem readsUpTo_of_tokenize {text : String} {d : Char} {p : Punct} (hd : IsMark d p) {ts : List Token} {mark last : Token}
    (h : tokenize (text ++ p.spelling) = .ok (ts ++ [mark, last])) (hmark : mark.kind = .punct p)
    (hplain : ∀ t ∈ ts, t.directive? = none) :
    ∃ ls gap, ReadsUpTo text.toList ls gap ∧ Stands 0 ls ts ∧
      mark.span = ⟨byteLength text.toList, byteLength (text ++ p.spelling).toList⟩ ∧ last.kind = .eof := by
  obtain ⟨row, rest, body, last', hchars, hreads, hgap, htokens, hstands, hlast⟩ := reads_of_tokenize h
  obtain ⟨rfl, hend⟩ := List.append_inj' (htokens.symm.trans (List.append_cons ts mark [last])) rfl
  obtain rfl : last' = last := List.singleton_inj.1 hend
  obtain ⟨ls, behind, rfl, hls, hbehind⟩ := hstands.split_tokens
  obtain _ | ⟨kind, htext, span, rfl, htail⟩ := hbehind
  obtain _ | _ := htail
  rename_i l
  obtain ⟨hreadsLs, hl, -⟩ := reads_append.1 hreads
  -- the mark has the last character of the text, so that nothing is behind it
  have hltext : l.text = [d] := by
    obtain ⟨c, cs, hltext, hlexeme⟩ := hl.lexeme
    rw [← kind, hmark] at hlexeme
    have htake := Lexeme.take_of_lexeme_punct hlexeme
    rw [List.take_succ_cons, List.take_left, hd.spelling] at htake
    rw [hltext, htake]
    simp
  have hrest : rest = [] := by
    by_contra hne
    have hlastChar : rest.getLast? = some d := by
      have hend : (text ++ p.spelling).toList.getLast? = some d := by simp [hd.spelling]
      rw [hchars, List.getLast?_append] at hend
      cases hrest : rest.getLast? with
      | none => exact absurd (List.getLast?_eq_none_iff.1 hrest) hne
      | some e => simpa [hrest] using hend
    have hblank := (IsGap.gap hgap).isBlank_getLast d hlastChar
    rw [hd.ink] at hblank
    cases hblank
  subst hrest
  have hchars' : text.toList ++ [d] = (allChars ls ++ l.gap) ++ [d] := by
    have hsplit := hchars
    rw [hd.spelling] at hsplit
    simpa [hltext] using hsplit
  have htext := List.append_cancel_right hchars'
  refine ⟨ls, l.gap, ⟨htext, hl.isGap, ?_, d, [], hd.ne_newline, by simpa [hltext] using hreadsLs⟩, hls, ?_, hlast⟩
  · intro m hm directive hkind
    obtain ⟨t, ht, htkind⟩ : ∃ t ∈ ts, t.kind = m.kind := by
      have hkinds := hls.map_kind
      have hmem : m.kind ∈ ts.map (·.kind) := hkinds ▸ List.mem_map_of_mem hm
      simpa using hmem
    have hnone := hplain t ht
    rw [Token.directive?, htkind, hkind] at hnone
    cases hnone
  · rw [span, hltext, hd.spelling]
    simp [htext, Nat.add_assoc]

end CHeader
