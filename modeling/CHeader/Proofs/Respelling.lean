import CHeader.Construct.Entry
import CHeader.Proofs.Placing

/-!
# A spelling is read as its tokens

A declaration that is rebuilt is written in one line, with a blank only where its tokens need one. The
tokens come from the source, where each of them was read before the text behind it (`Token.ReadIn`). Two
of them stand next to each other in the spelling only if they did so in the source, so that up to the next
blank each of them is followed by what followed it there (`agree_spellBehind`). Hence they are read back
(`reads_spelled`), and the tokens that are read are spelled in the same way again (`spell_of_stands`).
-/

namespace CHeader

open Lexed (allChars)
open Lexeme (gapLength lexeme Separator)

/-! ### The lexemes of a spelling -/

/-- The lexemes of the tokens behind `before`. -/
def spelledBehind (before : Token) : List Token → List Lexed
  | [] => []
  | t :: ts => ⟨if needsBlank before t then [' '] else [], t.kind, t.text.toList⟩ :: spelledBehind t ts

/-- The lexemes of a spelling. -/
def spelled : List Token → List Lexed
  | [] => []
  | t :: ts => ⟨[], t.kind, t.text.toList⟩ :: spelledBehind t ts

theorem allChars_spelledBehind (before : Token) (ts : List Token) :
    allChars (spelledBehind before ts) = (spellBehind before ts).toList := by
  induction ts generalizing before with
  | nil => rfl
  | cons t ts ih =>
    rw [spelledBehind, spellBehind, Lexed.allChars_cons, ih]
    split_ifs <;> simp

theorem allChars_spelled (ts : List Token) : allChars (spelled ts) = (spell ts).toList := by
  cases ts with
  | nil => rfl
  | cons t ts => simp [spelled, spell, allChars_spelledBehind]

theorem map_kind_spelledBehind (before : Token) (ts : List Token) :
    (spelledBehind before ts).map (·.kind) = ts.map (·.kind) := by
  induction ts generalizing before with
  | nil => rfl
  | cons t ts ih => rw [spelledBehind, List.map_cons, List.map_cons, ih]

theorem map_kind_spelled (ts : List Token) : (spelled ts).map (·.kind) = ts.map (·.kind) := by
  cases ts with
  | nil => rfl
  | cons t ts => rw [spelled, List.map_cons, List.map_cons, map_kind_spelledBehind]

theorem needsBlank_of_stands {offset stop : Nat} {before behind before' behind' : Token}
    (hbefore : before'.kind = before.kind) (hbehind : behind'.kind = behind.kind) (hstop : before'.span.stop = offset)
    (hspan : behind'.span = ⟨offset + byteLength (if needsBlank before behind then [' '] else []), stop⟩) :
    needsBlank before' behind' = needsBlank before behind := by
  have hstart : behind'.span.start = before'.span.stop + byteLength (if needsBlank before behind then [' '] else []) := by
    rw [hspan, hstop]
  cases hneeds : needsBlank before behind with
  | true =>
    rw [hneeds, if_pos rfl] at hstart
    have hsize : byteLength [' '] = 1 := rfl
    have hlt : before'.span.stop < behind'.span.start := by omega
    simp [needsBlank, hlt]
  | false =>
    have hwords : (!before.kind.isPunctuation && !behind.kind.isPunctuation) = false := by
      rw [needsBlank, Bool.or_eq_false_iff] at hneeds
      exact hneeds.2
    simp only [hneeds, Bool.false_eq_true, if_false, byteLength_nil, Nat.add_zero] at hstart
    simp [needsBlank, hstart, hbefore, hbehind, hwords]

theorem spellBehind_of_stands {offset : Nat} {before before' : Token} {ts us : List Token}
    (h : Stands offset (spelledBehind before ts) us) (hkind : before'.kind = before.kind)
    (hstop : before'.span.stop = offset) : spellBehind before' us = spellBehind before ts := by
  induction ts generalizing offset before before' us with
  | nil =>
    cases h
    rfl
  | cons t ts ih =>
    obtain _ | ⟨hkind', htext, hspan, hnext, hrest⟩ := h
    rw [spellBehind, spellBehind, ih hrest hkind' (by rw [hspan]), needsBlank_of_stands hkind hkind' hstop hspan, htext,
      String.ofList_toList]

/-- The tokens that are read from a spelling are spelled in the same way. -/
theorem spell_of_stands {offset : Nat} {ts us : List Token} (h : Stands offset (spelled ts) us) : spell us = spell ts := by
  cases ts with
  | nil =>
    cases h
    rfl
  | cons t ts =>
    obtain _ | ⟨hkind, htext, hspan, hnext, hrest⟩ := h
    rw [spell, spell, spellBehind_of_stands hrest hkind (by rw [hspan]), htext, String.ofList_toList]

/-! ### Tokens of a text -/

/-- A token that is read where it stands in a text. -/
structure Token.ReadIn (t : Token) (source before behind : List Char) : Prop where
  text : source = before ++ t.text.toList ++ behind
  span : t.span = ⟨byteLength before, byteLength (before ++ t.text.toList)⟩
  read : Lexed.ReadBefore ⟨[], t.kind, t.text.toList⟩ behind

/-- The tokens of a text are read in it. -/
theorem Stands.readIn {before rest : List Char} {ls : List Lexed} {ts : List Token} (h : Stands (byteLength before) ls ts)
    (hreads : Reads ls rest) :
    ∀ t ∈ ts, ∃ front behind, t.ReadIn (before ++ allChars ls ++ rest) front behind := by
  induction ls generalizing before ts with
  | nil =>
    cases h
    simp
  | cons l ls ih =>
    obtain _ | ⟨hkind, htext, hspan, rfl, hrest⟩ := h
    refine List.forall_mem_cons.2 ⟨⟨before ++ l.gap, allChars ls ++ rest, ?_, ?_, ?_⟩, ?_⟩
    · simp [htext]
    · rw [hspan, htext]
      simp [Nat.add_assoc]
    · have hnarrow := (@Reads.narrow [l] (allChars ls ++ rest) ⟨hreads.1, trivial⟩).1
      simpa [hkind, htext] using hnarrow
    · have hbytes : byteLength before + byteLength l.gap + byteLength l.text = byteLength (before ++ l.gap ++ l.text) := by
        simp [Nat.add_assoc]
      rw [hbytes] at hrest
      simpa using ih hrest hreads.2

theorem Tokenized.readIn {source : List Char} {ts : List Token} (h : Tokenized source ts) {t : Token} (ht : t ∈ ts) :
    ∃ before behind, t.ReadIn source before behind := by
  obtain ⟨ls, rest, rfl, hreads, hstands⟩ := h
  exact @Stands.readIn [] rest ls ts hstands hreads t ht

/-- The place of a token is that of its characters. -/
theorem Token.ReadIn.slice {t : Token} {source before behind : List Char} (h : t.ReadIn source before behind) :
    t.span.slice? source = some t.text.toList := by
  have hslice := Span.slice?_append before t.text.toList behind
  rwa [← h.text, ← byteLength_append, ← h.span] at hslice

/-- Tokens taken from a text in order, none of them a comment or a directive. -/
structure TakenFrom (source : List Char) (ts : List Token) : Prop where
  read : ∀ t ∈ ts, ∃ before behind, t.ReadIn source before behind
  significant : ∀ t ∈ ts, t.isSignificant = true
  ordered : Ordered ts

theorem TakenFrom.sublist {source : List Char} {ts us : List Token} (h : TakenFrom source ts) (hsub : us.Sublist ts) :
    TakenFrom source us :=
  ⟨fun t ht => h.read t (hsub.subset ht), fun t ht => h.significant t (hsub.subset ht), h.ordered.sublist hsub⟩

/-- Some of the tokens of a text are taken from it. -/
theorem Tokenized.takenFrom {source : List Char} {body ts : List Token} (h : Tokenized source body) (hsub : ts.Sublist body)
    (hsignificant : ∀ t ∈ ts, t.isSignificant = true) : TakenFrom source ts := by
  exact ⟨fun t ht => h.readIn (hsub.subset ht), hsignificant, h.ordered.sublist hsub⟩

theorem eq_of_byteLength_eq {as bs cs ds : List Char} (h : as ++ bs = cs ++ ds) (hlength : byteLength as = byteLength cs) :
    as = cs ∧ bs = ds := by
  have hleft := splitBytes?_append as bs
  rw [h, hlength, splitBytes?_append, Option.some_inj, Prod.mk.injEq] at hleft
  exact ⟨hleft.1.symm, hleft.2.symm⟩

/-- A token that stands where another ends is what follows that one. -/
theorem Token.ReadIn.behind_eq {t u : Token} {source before behind before' behind' : List Char}
    (h : t.ReadIn source before behind) (h' : u.ReadIn source before' behind') (hnext : t.span.stop = u.span.start) :
    behind = u.text.toList ++ behind' := by
  have htext := h.text.symm.trans h'.text
  rw [List.append_assoc before'] at htext
  refine (eq_of_byteLength_eq htext ?_).2
  rw [h.span, h'.span] at hnext
  exact hnext

/-! ### Reading a spelling -/

/-- Two texts that are the same up to a place where the second has a separator. -/
def AgreeUpTo (given written : List Char) : Prop :=
  ∃ common rest d more, given = common ++ rest ∧ written = common ++ d :: more ∧ Separator d

theorem separator_blank : Separator ' ' := by
  constructor <;> decide

theorem separator_semicolon : Separator ';' := by
  constructor <;> decide

theorem separator_parenthesis : Separator ')' := by
  constructor <;> decide

/-- Behind a token, a spelling is what the text was, up to a separator. -/
theorem agree_spellBehind {source before behind : List Char} {t : Token} {ts : List Token} (h : TakenFrom source (t :: ts))
    (ht : t.ReadIn source before behind) {d : Char} (hd : Separator d) (more : List Char) :
    AgreeUpTo behind ((spellBehind t ts).toList ++ d :: more) := by
  induction ts generalizing t before behind with
  | nil => exact ⟨[], behind, d, more, rfl, rfl, hd⟩
  | cons u us ih =>
    have hbehind := h.sublist (List.sublist_cons_self t _)
    obtain ⟨front, rest, hu⟩ := hbehind.read u List.mem_cons_self
    rw [spellBehind]
    split_ifs with hneeds
    · exact ⟨[], behind, ' ', u.text.toList ++ ((spellBehind u us).toList ++ d :: more), rfl, by simp, separator_blank⟩
    · have hle : t.span.stop ≤ u.span.start := List.rel_of_pairwise_cons h.ordered.pairwise List.mem_cons_self
      have hnext : t.span.stop = u.span.start := by
        rw [needsBlank, Bool.or_eq_true, not_or, decide_eq_true_eq] at hneeds
        omega
      obtain ⟨common, rest', d', more', hrest, hwritten, hd'⟩ := ih hbehind hu
      refine ⟨u.text.toList ++ common, rest', d', more', ?_, ?_, hd'⟩
      · rw [ht.behind_eq hu hnext, hrest, List.append_assoc]
      · simp only [String.toList_append, List.append_assoc, hwritten]
        rfl

theorem lexeme_backslash (cs : List Char) : ¬(lexeme '\\' cs).IsToken := by
  rintro ⟨kind, hkind⟩
  rw [Lexeme.lexeme, if_neg (by decide), if_neg (by simp), if_neg (by decide), if_neg (by decide), if_neg (by decide),
    if_neg (by simp), if_neg (by simp), Lexeme.punct] at hkind
  have hnone : Punct.ofStart? ('\\' :: cs) = none := by
    rw [Punct.ofStart?, Option.map_eq_none_iff, List.find?_eq_none]
    intro entry hentry
    have hfirst : ∀ entry ∈ Punct.table, entry.1.head?.any (· ≠ '\\') = true := by decide
    obtain ⟨spelling, p⟩ := entry
    have hc := hfirst _ hentry
    cases spelling with
    | nil => cases hc
    | cons c rest => simp_all [List.isPrefixOf]
  rw [hnone] at hkind
  cases hkind

/-- A token that is neither a comment nor a directive is read before a text that agrees with the one behind it. -/
theorem Lexed.ReadBefore.of_agree {l : Lexed} {given written : List Char} (h : l.ReadBefore given) (hgap : l.gap = [])
    (hkind : (∀ directive, l.kind ≠ .directive directive) ∧ l.kind ≠ .lineComment) (hagree : AgreeUpTo given written) :
    l.ReadBefore written := by
  obtain ⟨c, cs, htext, hlexeme⟩ := h.lexeme
  obtain ⟨common, rest, d, more, rfl, rfl, hd⟩ := hagree
  have hc : c ≠ '\\' := by
    rintro rfl
    exact lexeme_backslash _ ⟨l.kind, by rw [hlexeme]⟩
  refine ⟨?_, c, cs, htext, ?_⟩
  · have hnone := h.gap
    rw [hgap, htext] at hnone ⊢
    simp only [List.nil_append, List.cons_append, List.length_nil, Lexeme.gapLength_cons hc] at hnone ⊢
    split_ifs at hnone ⊢ with hblank
    · omega
    · rfl
  · rw [← List.append_assoc] at hlexeme ⊢
    exact Lexeme.lexeme_append_separator hd (Lexeme.lexeme_of_append hlexeme (by simp)) hkind.1 hkind.2

theorem kind_of_isSignificant {t : Token} (h : t.isSignificant = true) :
    (∀ directive, t.kind ≠ .directive directive) ∧ t.kind ≠ .lineComment := by
  constructor
  · intro directive hkind
    simp [Token.isSignificant, hkind] at h
  · intro hkind
    simp [Token.isSignificant, hkind] at h

/-- A blank before a lexeme is a gap. -/
theorem Lexed.ReadBefore.blank {l : Lexed} {rest : List Char} (h : l.ReadBefore rest) (hgap : l.gap = []) (needs : Bool) :
    Lexed.ReadBefore { l with gap := if needs then [' '] else [] } rest := by
  refine ⟨?_, h.lexeme⟩
  have hnone := h.gap
  rw [hgap] at hnone
  cases needs with
  | true =>
    have hblank : gapLength (' ' :: (l.text ++ rest)) = 1 + gapLength (l.text ++ rest) := by
      rw [Lexeme.gapLength_cons (by decide), if_pos (by decide)]
    simpa [hblank] using hnone
  | false => simpa using hnone

theorem reads_spelledBehind {source : List Char} {ts : List Token} (h : TakenFrom source ts) {d : Char} (hd : Separator d)
    (more : List Char) (before : Token) : Reads (spelledBehind before ts) (d :: more) := by
  induction ts generalizing before with
  | nil => trivial
  | cons t ts ih =>
    obtain ⟨front, behind, ht⟩ := h.read t List.mem_cons_self
    refine ⟨?_, ih (h.sublist (List.sublist_cons_self t ts)) t⟩
    have hkind := kind_of_isSignificant (h.significant t List.mem_cons_self)
    have hread := ht.read.of_agree rfl hkind (agree_spellBehind h ht hd more)
    rw [allChars_spelledBehind]
    exact hread.blank rfl _

/-- The tokens of a spelling are read from it, before a separator. -/
theorem reads_spelled {source : List Char} {ts : List Token} (h : TakenFrom source ts) {d : Char} (hd : Separator d)
    (more : List Char) : Reads (spelled ts) (d :: more) := by
  cases ts with
  | nil => trivial
  | cons t ts => exact (reads_spelledBehind h hd more t).narrow

/-! ### What is written behind -/

/-- A token of a spelling that stands in no text. -/
def Token.written (kind : TokenKind) (text : String) : Token :=
  ⟨kind, text, ⟨0, 0⟩, 0, false⟩

theorem needsBlank_written {kind : TokenKind} (h : kind.isPunctuation = true) (before : Token) (text : String) :
    needsBlank before (.written kind text) = false := by
  simp [needsBlank, Token.written, h]

theorem spelledBehind_append_written {kind : TokenKind} (h : kind.isPunctuation = true) (before : Token) (ts : List Token)
    (text : String) :
    spelledBehind before (ts ++ [.written kind text]) = spelledBehind before ts ++ [⟨[], kind, text.toList⟩] := by
  induction ts generalizing before with
  | nil =>
    simp only [List.nil_append, spelledBehind, needsBlank_written h, Bool.false_eq_true, if_false]
    rfl
  | cons t ts ih => rw [List.cons_append, spelledBehind, ih, spelledBehind, List.cons_append]

/-- Punctuation that is written behind a spelling follows it at once. -/
theorem spelled_append_written {kind : TokenKind} (h : kind.isPunctuation = true) (ts : List Token) (text : String) :
    spelled (ts ++ [.written kind text]) = spelled ts ++ [⟨[], kind, text.toList⟩] := by
  cases ts with
  | nil => rfl
  | cons t ts => rw [List.cons_append, spelled, spelledBehind_append_written h, spelled, List.cons_append]

theorem spell_append_written {kind : TokenKind} (h : kind.isPunctuation = true) (ts : List Token) (text : String) :
    spell (ts ++ [.written kind text]) = spell ts ++ text := by
  rw [← String.toList_inj, ← allChars_spelled, spelled_append_written h, Lexed.allChars_append, allChars_spelled]
  simp

theorem TakenFrom.filterMap_directive? {source : List Char} {ts : List Token} (h : TakenFrom source ts) :
    ts.filterMap Token.directive? = [] := by
  rw [List.filterMap_eq_nil_iff]
  intro t ht
  unfold Token.directive?
  split
  · exact absurd ‹_› ((kind_of_isSignificant (h.significant t ht)).1 _)
  · rfl

end CHeader
