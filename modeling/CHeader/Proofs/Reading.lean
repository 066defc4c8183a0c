import CHeader.Proofs.LexemeContext
import CHeader.Tokens

/-!
# A text as the lexemes read from it

A text that tokenizes is a row of lexemes, each with the gap before it, and a last gap. `Reads` says
that the lexemes of a row are what is read from their characters, one after another; it speaks of no
places. The tokens of the text are the lexemes put at their places (`Stands`). So a text can be taken
apart and put together: rows of lexemes are read one behind the other (`reads_append`), a row is read
in the same way when further lines follow it (`Reads.append_newline`), and its tokens stand wherever
its characters do.
-/

namespace CHeader

open Lexeme (gapLength lexeme runsOn)

/-- A lexeme with the gap before it. -/
structure Lexed where
  gap : List Char
  kind : TokenKind
  text : List Char
  deriving Repr

namespace Lexed

/-- The characters of the gap and of the lexeme. -/
def chars (l : Lexed) : List Char :=
  l.gap ++ l.text

/-- The characters of a row of lexemes. -/
def allChars (ls : List Lexed) : List Char :=
  ls.flatMap chars

@[simp] theorem allChars_nil : allChars [] = [] := rfl

@[simp] theorem allChars_cons (l : Lexed) (ls : List Lexed) : allChars (l :: ls) = l.gap ++ l.text ++ allChars ls := by
  simp [allChars, chars]

@[simp] theorem allChars_append (ls ms : List Lexed) : allChars (ls ++ ms) = allChars ls ++ allChars ms := by
  simp [allChars]

/-- Before `rest`, the lexeme is read behind its gap. -/
structure ReadBefore (l : Lexed) (rest : List Char) : Prop where
  gap : gapLength (l.gap ++ l.text ++ rest) = l.gap.length
  lexeme : ∃ c cs, l.text = c :: cs ∧ lexeme c (cs ++ rest) = ⟨.ok l.kind, cs.length⟩

end Lexed

theorem Lexed.ReadBefore.text_ne_nil {l : Lexed} {rest : List Char} (h : l.ReadBefore rest) : l.text ≠ [] := by
  obtain ⟨c, cs, htext, -⟩ := h.lexeme
  simp [htext]

open Lexed (allChars)

/-- Before `rest`, the lexemes are read one after another. -/
def Reads : List Lexed → List Char → Prop
  | [], _ => True
  | l :: ls, rest => l.ReadBefore (allChars ls ++ rest) ∧ Reads ls rest

/-- Nothing but a gap. -/
def IsGap (cs : List Char) : Prop :=
  gapLength cs = cs.length

/-- The tokens of a row of lexemes whose first gap begins at byte `offset`. Their lines do not matter here. -/
inductive Stands : Nat → List Lexed → List Token → Prop
  | nil (offset : Nat) : Stands offset [] []
  | cons {offset stop : Nat} {l : Lexed} {ls : List Lexed} {t : Token} {ts : List Token} (kind : t.kind = l.kind)
      (text : t.text = String.ofList l.text)
      (span : t.span = ⟨offset + byteLength l.gap, stop⟩) (next : stop = offset + byteLength l.gap + byteLength l.text)
      (rest : Stands stop ls ts) : Stands offset (l :: ls) (t :: ts)

theorem reads_append {ls ms : List Lexed} {rest : List Char} :
    Reads (ls ++ ms) rest ↔ Reads ls (allChars ms ++ rest) ∧ Reads ms rest := by
  induction ls with
  | nil => simp [Reads]
  | cons l ls ih => simp [Reads, ih, and_assoc]

theorem Stands.split {offset : Nat} {ls ms : List Lexed} {ts : List Token} (h : Stands offset (ls ++ ms) ts) :
    ∃ first rest, ts = first ++ rest ∧ Stands offset ls first ∧ Stands (offset + byteLength (allChars ls)) ms rest := by
  induction ls generalizing offset ts with
  | nil => exact ⟨[], ts, rfl, .nil _, by simpa using h⟩
  | cons l ls ih =>
    cases h with
    | cons kind text span next behind =>
      obtain ⟨first, rest, rfl, hfirst, hrest⟩ := ih behind
      subst next
      exact ⟨_ :: first, rest, rfl, .cons kind text span rfl hfirst, by simpa [Nat.add_assoc] using hrest⟩

theorem Reads.readBefore_of_mem {ls : List Lexed} {rest : List Char} (h : Reads ls rest) {l : Lexed} (hl : l ∈ ls) :
    ∃ behind, l.ReadBefore behind := by
  induction ls with
  | nil => cases hl
  | cons m ls ih =>
    rcases List.mem_cons.1 hl with rfl | hl
    · exact ⟨_, h.1⟩
    · exact ih h.2 hl

theorem Reads.kind_ne_eof {ls : List Lexed} {rest : List Char} (h : Reads ls rest) : ∀ l ∈ ls, l.kind ≠ .eof := by
  intro l hl heof
  obtain ⟨behind, hread⟩ := h.readBefore_of_mem hl
  obtain ⟨c, cs, -, hlexeme⟩ := hread.lexeme
  exact Lexeme.lexeme_outcome_ne_eof c (cs ++ behind) (by rw [hlexeme, heof])

theorem Stands.exists_of_mem {offset : Nat} {ls : List Lexed} {ts : List Token} (h : Stands offset ls ts) {t : Token}
    (ht : t ∈ ts) : ∃ l ∈ ls, t.kind = l.kind ∧ t.text = String.ofList l.text := by
  induction h with
  | nil => cases ht
  | cons kind text span next rest ih =>
    rcases List.mem_cons.1 ht with rfl | ht
    · exact ⟨_, List.mem_cons_self, kind, text⟩
    · obtain ⟨l, hl, hfound⟩ := ih ht
      exact ⟨l, List.mem_cons_of_mem _ hl, hfound⟩

theorem Stands.map_kind {offset : Nat} {ls : List Lexed} {ts : List Token} (h : Stands offset ls ts) :
    ts.map (·.kind) = ls.map (·.kind) := by
  induction h with
  | nil => rfl
  | cons kind text span next rest ih => rw [List.map_cons, List.map_cons, ih, kind]

/-! ### The scanner -/

namespace Scanner

theorem items_of_atEnd {s : Scanner} (h : s.atEnd = true) : s.items = [s.next.1] := by
  rw [items]
  split <;> simp_all

theorem items_of_not_atEnd {s : Scanner} (h : s.atEnd = false) : s.items = s.next.1 :: s.next.2.items := by
  rw [items]
  split <;> simp_all

theorem items_of_isGap {s : Scanner} (h : IsGap s.rest) :
    ∃ last, s.items = [.ok last] ∧ last.kind = .eof := by
  have hrest : s.skipGap.rest = [] := by
    rw [skipGap, advance, h]
    simp
  have hend : s.atEnd = true := by simp [atEnd, hrest]
  have hnext : s.next.1 = .ok (.endOfText s.skipGap.offset (s.skipGap.lines.lineOf s.skipGap.offset)) := by
    simp only [next, hrest]
  exact ⟨_, by rw [items_of_atEnd hend, hnext], rfl⟩

/-- A lexeme at the place of the scanner is the next token. -/
theorem next_of_readBefore {s : Scanner} {l : Lexed} {rest : List Char} (hrest : s.rest = l.gap ++ l.text ++ rest)
    (h : l.ReadBefore rest) :
    s.atEnd = false ∧ ∃ t, s.next.1 = .ok t ∧ t.kind = l.kind ∧ t.text = String.ofList l.text ∧
      t.span = ⟨s.offset + byteLength l.gap, s.offset + byteLength l.gap + byteLength l.text⟩ ∧
      s.next.2.rest = rest ∧ s.next.2.offset = s.offset + byteLength l.gap + byteLength l.text := by
  obtain ⟨c, cs, htext, hlexeme⟩ := h.lexeme
  have hplace : s.skipGap.rest = c :: (cs ++ rest) ∧ s.skipGap.offset = s.offset + byteLength l.gap := by
    rw [skipGap, advance, hrest, h.gap, List.append_assoc, List.drop_left, List.take_left, htext]
    exact ⟨rfl, rfl⟩
  have htake : (c :: (cs ++ rest)).take (cs.length + 1) = c :: cs := by simp
  have hdrop : (c :: (cs ++ rest)).drop (cs.length + 1) = rest := by simp
  refine ⟨by simp [atEnd, hplace.1], ?_⟩
  simp only [next, hplace.1, readLexeme, hlexeme, advance, htake, hdrop, hplace.2, htext, List.take_left]
  exact ⟨_, rfl, rfl, rfl, rfl, trivial, trivial⟩

theorem items_of_reads {s : Scanner} {ls : List Lexed} {rest : List Char} (hrest : s.rest = allChars ls ++ rest)
    (hreads : Reads ls rest) (hgap : IsGap rest) :
    ∃ body last, s.items = (body ++ [last]).map .ok ∧ Stands s.offset ls body ∧ last.kind = .eof := by
  induction ls generalizing s with
  | nil =>
    obtain ⟨last, hitems, hlast⟩ := @items_of_isGap s (by simpa [hrest] using hgap)
    exact ⟨[], last, hitems, .nil _, hlast⟩
  | cons l ls ih =>
    have hrest' : s.rest = l.gap ++ l.text ++ (allChars ls ++ rest) := by rw [hrest]; simp
    obtain ⟨hend, t, hnext, hkind, htext, hspan, hbehind, hoffset⟩ := next_of_readBefore hrest' hreads.1
    obtain ⟨body, last, hitems, hstands, hlast⟩ := ih hbehind hreads.2
    rw [hoffset] at hstands
    refine ⟨t :: body, last, ?_, .cons hkind htext hspan rfl hstands, hlast⟩
    rw [items_of_not_atEnd hend, hnext, hitems]
    rfl

theorem rest_skipGap (s : Scanner) : s.rest = s.rest.take (gapLength s.rest) ++ s.skipGap.rest :=
  (List.take_append_drop ..).symm

theorem isGap_of_atEnd {s : Scanner} (h : s.atEnd = true) : IsGap s.rest := by
  have hdrop : s.rest.drop (gapLength s.rest) = [] := by simpa [atEnd, skipGap, advance] using h
  have hle := List.drop_eq_nil_iff.1 hdrop
  exact Nat.le_antisymm (Lexeme.gapLength_le _) hle

/-- A token that is next is read behind its gap. -/
theorem readBefore_of_next {s : Scanner} {t : Token} (hend : s.atEnd = false) (h : s.next.1 = .ok t) :
    ∃ l : Lexed, s.rest = l.gap ++ l.text ++ s.next.2.rest ∧ l.ReadBefore s.next.2.rest := by
  cases hplace : s.skipGap.rest with
  | nil => simp [atEnd, hplace] at hend
  | cons c cs =>
    have hbehind : s.next.2.rest = cs.drop (lexeme c cs).tail := by
      simp [next, hplace, readLexeme, advance]
    cases hreading : lexeme c cs with
    | mk outcome tail =>
      have htail : tail ≤ cs.length := by
        have := Lexeme.lexeme_tail_le c cs
        rwa [hreading] at this
      cases outcome with
      | error fault => simp [next, hplace, readLexeme, hreading] at h
      | ok kind =>
        have hsplit := rest_skipGap s
        rw [hplace] at hsplit
        have hrest : s.rest = s.rest.take (gapLength s.rest) ++ (c :: cs.take tail) ++ s.next.2.rest := by
          rw [hbehind, hreading, List.append_assoc, List.cons_append, List.take_append_drop, ← hsplit]
        refine ⟨⟨s.rest.take (gapLength s.rest), kind, c :: cs.take tail⟩, hrest, ?_, c, cs.take tail, rfl, ?_⟩
        · simp only
          rw [← hrest, List.length_take, Nat.min_eq_left (Lexeme.gapLength_le _)]
        · rw [hbehind, hreading, List.take_append_drop, hreading, List.length_take, Nat.min_eq_left htail]

/-- What is read without fault is a row of lexemes and a last gap. -/
theorem reads_of_faults_eq_nil {s : Scanner} (h : faults s.items = []) :
    ∃ ls rest, s.rest = allChars ls ++ rest ∧ Reads ls rest ∧ IsGap rest := by
  fun_induction items s with
  | case1 s hend => exact ⟨[], s.rest, rfl, trivial, isGap_of_atEnd hend⟩
  | case2 s hend ih =>
    cases hnext : s.next.1 with
    | error fault => simp [faults, hnext] at h
    | ok t =>
      obtain ⟨ls, rest, hrest, hreads, hgap⟩ := ih (by simpa [faults, hnext] using h)
      obtain ⟨l, hl, hread⟩ := readBefore_of_next hend hnext
      rw [hrest] at hl hread
      exact ⟨l :: ls, rest, by rw [hl]; simp, ⟨hread, hreads⟩, hgap⟩

end Scanner

/-! ### Tokenizing -/

theorem faults_map_ok (tokens : List Token) : faults (tokens.map .ok) = [] := by
  induction tokens with
  | nil => rfl
  | cons t ts ih =>
    rw [List.map_cons, faults, List.filterMap_cons]
    exact ih

theorem goodTokens_map_ok (tokens : List Token) : goodTokens (tokens.map .ok) = tokens := by
  induction tokens with
  | nil => rfl
  | cons t ts ih =>
    rw [List.map_cons, goodTokens, List.filterMap_cons]
    exact congrArg (t :: ·) ih

/-- A text that is read as lexemes has their tokens. -/
theorem tokenize_of_reads {source : String} {ls : List Lexed} {rest : List Char}
    (hsource : source.toList = allChars ls ++ rest) (hreads : Reads ls rest) (hgap : IsGap rest) :
    ∃ body last, tokenize source = .ok (body ++ [last]) ∧ Stands 0 ls body ∧ last.kind = .eof := by
  obtain ⟨body, last, hitems, hstands, hlast⟩ := @Scanner.items_of_reads (.ofText source.toList) ls rest hsource hreads hgap
  refine ⟨body, last, ?_, hstands, hlast⟩
  simp only [tokenize, hitems, faults_map_ok, goodTokens_map_ok]

/-- A text with tokens is read as lexemes. -/
theorem reads_of_tokenize {source : String} {tokens : List Token} (h : tokenize source = .ok tokens) :
    ∃ ls rest body last, source.toList = allChars ls ++ rest ∧ Reads ls rest ∧ IsGap rest ∧
      tokens = body ++ [last] ∧ Stands 0 ls body ∧ last.kind = .eof := by
  have hfaults : faults (Scanner.ofText source.toList).items = [] := by
    simp only [tokenize] at h
    split at h
    · assumption
    · cases h
  obtain ⟨ls, rest, hsource, hreads, hgap⟩ := Scanner.reads_of_faults_eq_nil hfaults
  obtain ⟨body, last, htokens, hstands, hlast⟩ := tokenize_of_reads hsource hreads hgap
  rw [htokens] at h
  cases h
  exact ⟨ls, rest, body, last, hsource, hreads, hgap, rfl, hstands, hlast⟩

/-! ### Further lines -/

/-- A text runs on if it ends in a backslash, with or without a carriage return behind it. -/
theorem runsOn_eq_false_iff {cs : List Char} :
    runsOn cs = false ↔ ¬['\\'] <:+ cs ∧ ¬['\\', '\r'] <:+ cs := by
  fun_induction runsOn cs with
  | case1 => simp
  | case2 => simp
  | case3 => simp
  | case4 c cs hslash hreturn ih =>
    have hslash' : ['\\'] ≠ c :: cs := by
      rintro heq
      cases heq
      exact hslash rfl rfl
    have hreturn' : ['\\', '\r'] ≠ c :: cs := by
      rintro heq
      cases heq
      exact hreturn rfl rfl
    simp only [ih, List.suffix_cons_iff, hslash', hreturn', false_or]

/-- A character that is no backslash and no carriage return settles whether a text runs on. -/
theorem Lexeme.runsOn_append_cons {d : Char} (hslash : d ≠ '\\') (hreturn : d ≠ '\r') (cs rest : List Char) :
    runsOn (cs ++ d :: rest) = runsOn rest := by
  induction cs with
  | nil =>
    rw [List.nil_append, runsOn]
    · simp [hslash]
    · simp [hslash]
  | cons c cs ih =>
    rw [List.cons_append, runsOn, ih]
    · simp
    · intro _
      cases cs with
      | nil => simp [hreturn]
      | cons => simp

/-- A text of gaps does not run on. -/
theorem IsGap.runsOn_eq_false {cs : List Char} (h : IsGap cs) : runsOn cs = false := by
  unfold IsGap at h
  fun_induction Lexeme.gapLength cs with
  | case1 => rfl
  | case2 cs ih =>
    simp only [List.length_cons] at h
    simpa [runsOn] using ih (by omega)
  | case3 cs ih =>
    simp only [List.length_cons] at h
    simpa [runsOn] using ih (by omega)
  | case4 c cs _ _ hblank ih =>
    have hslash : c ≠ '\\' := by
      rintro rfl
      cases hblank
    simp only [List.length_cons] at h
    rw [runsOn]
    · exact ih (by omega)
    · simp [hslash]
    · simp [hslash]
  | case5 => simp at h

/-- A row of lexemes is read in the same way if further lines follow its text. -/
theorem Reads.append_newline {ls : List Lexed} {rest : List Char} (h : Reads ls rest)
    (hruns : runsOn (allChars ls ++ rest) = false) (more : List Char) : Reads ls (rest ++ '\n' :: more) := by
  induction ls with
  | nil => trivial
  | cons l ls ih =>
    rw [Lexed.allChars_cons, List.append_assoc] at hruns
    obtain ⟨⟨hgap, c, cs, htext, hlexeme⟩, hrest⟩ := h
    have hruns' : runsOn (allChars ls ++ rest) = false := by
      rw [List.append_assoc] at hruns
      exact Lexeme.runsOn_of_append (Lexeme.runsOn_of_append hruns)
    refine ⟨⟨?_, c, cs, htext, ?_⟩, ih hrest hruns'⟩
    · have hlength : gapLength (l.gap ++ l.text ++ (allChars ls ++ rest)) ≠ (l.gap ++ l.text ++ (allChars ls ++ rest)).length := by
        rw [hgap, htext]
        simp
      have happend := @Lexeme.gapLength_append_newline (l.gap ++ l.text ++ (allChars ls ++ rest)) more (by simpa using hruns)
      rw [if_neg hlength, hgap] at happend
      simpa using happend
    · have hruns : runsOn (c :: (cs ++ (allChars ls ++ rest))) = false := by
        rw [htext, List.append_assoc] at hruns
        simpa using Lexeme.runsOn_of_append hruns
      have happend := @Lexeme.lexeme_append_newline (cs ++ (allChars ls ++ rest)) more c hruns ⟨l.kind, by rw [hlexeme]⟩
      rw [hlexeme] at happend
      simpa using happend

theorem IsGap.append_newline {cs more : List Char} (h : IsGap cs) :
    gapLength (cs ++ '\n' :: more) = cs.length + 1 + gapLength more := by
  rw [Lexeme.gapLength_append_newline h.runsOn_eq_false]
  exact if_pos h

/-- A row of lexemes with more before its first gap. -/
def Lexed.widen (gap : List Char) : List Lexed → List Lexed
  | [] => []
  | l :: ls => { l with gap := gap ++ l.gap } :: ls

/-- The tokens of the row stand where they did. -/
theorem stands_widen {offset : Nat} {gap : List Char} {ls : List Lexed} {ts : List Token} :
    Stands offset (Lexed.widen gap ls) ts ↔ Stands (offset + byteLength gap) ls ts := by
  cases ls with
  | nil =>
    constructor <;>
    · rintro ⟨⟩
      exact .nil _
  | cons l ls =>
    constructor
    · rintro (_ | ⟨kind, text, span, next, rest⟩)
      refine .cons kind text ?_ ?_ rest
      · simpa [Nat.add_assoc] using span
      · simpa [Nat.add_assoc] using next
    · rintro (_ | ⟨kind, text, span, next, rest⟩)
      refine .cons kind text ?_ ?_ rest
      · simpa [Nat.add_assoc] using span
      · simpa [Nat.add_assoc] using next

/-- Two texts, the first of which is read as it is before any line, are read one behind the other with a newline between
them. -/
theorem reads_join {ls ms : List Lexed} {rest rest' : List Char} (hls : ∀ more, Reads ls (rest ++ '\n' :: more))
    (hgap : IsGap rest) (hms : Reads ms rest') (hgap' : IsGap rest') :
    ∃ behind, allChars ls ++ rest ++ '\n' :: (allChars ms ++ rest') =
        allChars (ls ++ Lexed.widen (rest ++ ['\n']) ms) ++ behind ∧
      Reads (ls ++ Lexed.widen (rest ++ ['\n']) ms) behind ∧ IsGap behind := by
  cases ms with
  | nil =>
    refine ⟨rest ++ '\n' :: rest', by simp [Lexed.widen], ?_, ?_⟩
    · rw [Lexed.widen, List.append_nil]
      exact hls rest'
    · rw [IsGap, hgap.append_newline, hgap']
      simp
      omega
  | cons m ms =>
    refine ⟨rest', by simp [Lexed.widen], ?_, hgap'⟩
    rw [Lexed.widen, reads_append]
    obtain ⟨⟨hm, hlexeme⟩, hms⟩ := hms
    refine ⟨?_, ⟨?_, hlexeme⟩, hms⟩
    · simpa using hls (m.gap ++ m.text ++ allChars ms ++ rest')
    · have hwide := @IsGap.append_newline rest (m.gap ++ m.text ++ (allChars ms ++ rest')) hgap
      rw [hm] at hwide
      simp only [List.append_assoc, List.length_append, List.length_cons, List.cons_append, List.nil_append]
        at hwide ⊢
      omega

end CHeader
