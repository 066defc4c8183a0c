import CHeader.Proofs.Comments
import CHeader.Proofs.ConditionLines
import CHeader.Proofs.Respelling
import CHeader.Proofs.SameSaying
import CHeader.Proofs.Tiling

/-!
# Comments replaced by blanks

Where blanks stand for some of the comments of a text without backslashes, the other lexemes are read as before
(`Stands.lexedText_leaving`): most of them are followed by the same characters up to a blank, and those that take the
rest of their line are followed by the same newline. Their tokens stand apart as they did, because a comment is no
empty text and a blank is none either (`Stands.apart_leaving`). So comments have no part in what a text declares
(`surveySource_blanked`).
-/

namespace CHeader

open Lexed (allChars)
open Lexeme (gapLength lexeme isBlank runsOn)

/-! ### Texts without backslashes -/

namespace Lexeme

theorem runsOn_of_not_mem {cs : List Char} (h : '\\' ∉ cs) : runsOn cs = false := by
  refine runsOn_eq_false_iff.2 ⟨fun hend => h (hend.subset ?_), fun hend => h (hend.subset ?_)⟩ <;> simp

theorem ne_backslash_of_isBlank {c : Char} (h : isBlank c = true) : c ≠ '\\' := by
  rintro rfl
  cases h

theorem gapLength_append_of_isBlank {gap : List Char} (h : ∀ c ∈ gap, isBlank c = true) (cs : List Char) :
    gapLength (gap ++ cs) = gap.length + gapLength cs := by
  induction gap with
  | nil => simp
  | cons c gap ih =>
    obtain ⟨hc, hgap⟩ := List.forall_mem_cons.1 h
    rw [List.cons_append, gapLength_cons (ne_backslash_of_isBlank hc), if_pos hc, ih hgap, List.length_cons]
    omega

/-- Without backslashes, a gap consists of blanks. -/
theorem isBlank_of_le_gapLength {gap cs : List Char} (hslash : '\\' ∉ gap) (h : gap.length ≤ gapLength (gap ++ cs)) :
    ∀ c ∈ gap, isBlank c = true := by
  induction gap with
  | nil => simp
  | cons c gap ih =>
    have hc : c ≠ '\\' := fun heq => hslash (by simp [heq])
    rw [List.cons_append, gapLength_cons hc, List.length_cons] at h
    split_ifs at h with hblank
    · exact List.forall_mem_cons.2 ⟨hblank, ih (fun hmem => hslash (List.mem_cons_of_mem c hmem)) (by omega)⟩
    · omega

/-- A line ends with a newline or with the text. -/
theorem head?_drop_lineLength (cs : List Char) : ∀ c ∈ (cs.drop (lineLength cs)).head?, c = '\n' := by
  have hdrop : cs.drop (lineLength cs) = cs.dropWhile (· ≠ '\n') := by
    have hsplit := @List.takeWhile_append_dropWhile _ (· ≠ '\n') cs
    exact (congrArg (List.drop (lineLength cs)) hsplit.symm).trans List.drop_left
  have hhead := List.head?_dropWhile_not (· ≠ '\n') cs
  rw [hdrop]
  intro c hc
  rw [Option.mem_def.1 hc] at hhead
  simpa using hhead

/-- A directive ends with a newline or with the text. -/
theorem head?_drop_directiveExtent (cs : List Char) (hclosed : (directiveExtent cs).unterminated = false) :
    ∀ c ∈ (cs.drop (directiveExtent cs).length).head?, c = '\n' := by
  fun_induction directiveExtent cs with
  | case1 | case2 => simp
  | case3 cs ih | case4 cs ih | case9 _ cs _ _ _ _ _ _ _ ih | case10 _ cs _ _ _ _ _ _ ih =>
    rw [Extent.behind, Nat.add_comm]
    exact ih hclosed
  | case5 cs n hn ih =>
    rw [Extent.behind, Nat.add_assoc, Nat.add_comm, List.drop_succ_cons, List.drop_succ_cons, ← List.drop_drop]
    exact ih hclosed
  | case6 => cases hclosed
  | case7 cs =>
    rw [Nat.add_comm]
    exact head?_drop_lineLength cs
  | case8 c cs h₁ h₂ h₃ h₄ h₅ hquote n hn ih =>
    rw [Extent.behind, Nat.add_assoc, Nat.add_comm, List.drop_succ_cons, ← List.drop_drop]
    exact ih hclosed

/-- A comment begins with a slash, and one in the style of lines takes the rest of its line. -/
theorem of_lexeme_isComment {c : Char} {cs : List Char} {kind : TokenKind} {n : Nat} (h : lexeme c cs = ⟨.ok kind, n⟩)
    (hkind : kind.isComment = true) : c = '/' ∧ (kind = .lineComment → lineLength cs = n) := by
  have hliteral : ∀ quote toKind fault opening, (∀ spelling, (toKind spelling).isComment = false) →
      literal quote toKind fault c opening cs ≠ ⟨.ok kind, n⟩ := by
    intro quote toKind fault opening hnone h
    rw [literal] at h
    split at h
    · cases h
      simp [hnone] at hkind
    · cases h
  have hplain : ∀ m, plainWord c cs m ≠ ⟨.ok kind, n⟩ := by
    intro m h
    simp only [plainWord] at h
    split at h <;> cases h <;> cases hkind
  rw [lexeme] at h
  split_ifs at h with hword hnumber hchar hstring hsharp hline hblock
  · rw [word_eq] at h
    split_ifs at h
    · exact absurd h (hliteral _ _ _ _ fun _ => rfl)
    · exact absurd h (hliteral _ _ _ _ fun _ => rfl)
    · exact absurd h (hplain _)
    · exact absurd h (hplain _)
  · cases h
    cases hkind
  · exact absurd h (hliteral _ _ _ _ fun _ => rfl)
  · exact absurd h (hliteral _ _ _ _ fun _ => rfl)
  · simp only [directive] at h
    split_ifs at h
    · cases h
    · cases h
      cases hkind
  · cases h
    simp only [Bool.and_eq_true, decide_eq_true_eq] at hline
    exact ⟨hline.1, fun _ => rfl⟩
  · simp only [Bool.and_eq_true, decide_eq_true_eq] at hblock
    refine ⟨hblock.1, ?_⟩
    rintro rfl
    rw [blockComment] at h
    split at h <;> cases h
  · rw [punct] at h
    split at h
    · cases h
      cases hkind
    · cases h

/-- What follows a directive or a comment in the style of lines is a newline, if anything follows. -/
theorem newline_behind_line {c : Char} {cs more : List Char} {kind : TokenKind}
    (h : lexeme c (cs ++ more) = ⟨.ok kind, cs.length⟩) (hkind : kind = .lineComment ∨ ∃ directive, kind = .directive directive) :
    ∀ d ∈ more.head?, d = '\n' := by
  rcases hkind with rfl | ⟨directive, rfl⟩
  · have hlength := (of_lexeme_isComment h rfl).2 rfl
    have hhead := head?_drop_lineLength (cs ++ more)
    rwa [hlength, List.drop_left] at hhead
  · obtain ⟨-, hextent, -⟩ := directive_of_lexeme h
    have hhead := head?_drop_directiveExtent (cs ++ more) (by rw [hextent])
    rwa [hextent, List.drop_left] at hhead

end Lexeme

/-! ### A blank in front of the same text -/

/-- The second text is the first one up to a comment there, for which a blank stands. -/
def SameUpToComment (given written : List Char) : Prop :=
  written = given ∨ ∃ common rest more, given = common ++ '/' :: rest ∧ written = common ++ ' ' :: more

theorem SameUpToComment.append {given written : List Char} (h : SameUpToComment given written) (front : List Char) :
    SameUpToComment (front ++ given) (front ++ written) := by
  rcases h with rfl | ⟨common, rest, more, rfl, rfl⟩
  · exact .inl rfl
  · exact .inr ⟨front ++ common, rest, more, by simp, by simp⟩

/-- A newline that follows stays. -/
theorem SameUpToComment.of_newline {given written : List Char} (h : SameUpToComment given written)
    (hgiven : ∀ d ∈ given.head?, d = '\n') :
    written = given ∨ ∃ behind behind', given = '\n' :: behind ∧ written = '\n' :: behind' := by
  rcases h with rfl | ⟨common, rest, more, rfl, rfl⟩
  · exact .inl rfl
  · cases common with
    | nil => exact absurd (hgiven '/' rfl) (by decide)
    | cons d common =>
      obtain rfl : d = '\n' := hgiven d rfl
      exact .inr ⟨_, _, rfl, rfl⟩

/-- A lexeme without backslashes is read in front of both texts. -/
theorem Lexed.ReadBefore.of_sameUpToComment {l : Lexed} {given written : List Char} (h : l.ReadBefore given)
    (hslash : '\\' ∉ l.gap ++ l.text) (hsame : SameUpToComment given written) : l.ReadBefore written := by
  obtain ⟨c, cs, htext, hlexeme⟩ := h.lexeme
  rw [List.mem_append, not_or, htext] at hslash
  have hc : c ≠ '\\' := fun heq => hslash.2 (by simp [heq])
  have hgap := h.gap
  rw [List.append_assoc] at hgap
  have hblank := Lexeme.isBlank_of_le_gapLength hslash.1 hgap.ge
  refine ⟨?_, c, cs, htext, ?_⟩
  · rw [Lexeme.gapLength_append_of_isBlank hblank, htext, List.cons_append, Lexeme.gapLength_cons hc] at hgap
    rw [List.append_assoc, Lexeme.gapLength_append_of_isBlank hblank, htext, List.cons_append, Lexeme.gapLength_cons hc]
    split_ifs at hgap ⊢ with hstart
    · omega
    · rfl
  · have hfront := Lexeme.lexeme_of_append hlexeme (Nat.le_refl _)
    by_cases hkind : l.kind = .lineComment ∨ ∃ directive, l.kind = .directive directive
    · rcases hsame.of_newline (Lexeme.newline_behind_line hlexeme hkind) with rfl | ⟨behind, behind', rfl, rfl⟩
      · exact hlexeme
      · rw [Lexeme.lexeme_append_newline (Lexeme.runsOn_of_not_mem hslash.2) ⟨l.kind, by rw [hfront]⟩, hfront]
    · rw [not_or, not_exists] at hkind
      rcases hsame with rfl | ⟨common, rest, more, rfl, rfl⟩
      · exact hlexeme
      · rw [← List.append_assoc] at hlexeme ⊢
        exact Lexeme.lexeme_append_separator separator_blank (Lexeme.lexeme_of_append hlexeme (by simp)) hkind.2 hkind.1

/-! ### Lexemes with blanks between them -/

/-- Blanks in front of a text belong to its first gap. -/
theorem LexedText.widen {text : List Char} {ls : List Lexed} {rest gap : List Char} (h : LexedText text ls rest)
    (hgap : ∀ c ∈ gap, isBlank c = true) :
    LexedText (gap ++ text) (Lexed.widen gap ls) (if ls.isEmpty then gap ++ rest else rest) := by
  cases ls with
  | nil =>
    refine ⟨by simp [h.chars, Lexed.widen], trivial, ?_⟩
    have hrest := h.gap
    simp only [IsGap] at hrest
    simp [IsGap, Lexeme.gapLength_append_of_isBlank hgap, hrest]
  | cons l ls =>
    obtain ⟨⟨hlength, hlexeme⟩, hreads⟩ := h.reads
    refine ⟨by simp [h.chars, Lexed.widen], ⟨⟨?_, hlexeme⟩, hreads⟩, h.gap⟩
    simpa [List.append_assoc, Lexeme.gapLength_append_of_isBlank hgap] using hlength

/-- The lexemes that are left if a blank stands for some of the tokens, and the last gap. -/
def Lexed.leaving (gone : Token → Bool) : List Lexed → List Token → List Char → List Lexed × List Char
  | l :: ls, t :: ts, rest =>
    let behind := leaving gone ls ts rest
    if gone t then
      (widen (l.gap ++ [' ']) behind.1, if behind.1.isEmpty then l.gap ++ [' '] ++ behind.2 else behind.2)
    else (l :: behind.1, behind.2)
  | _, _, rest => ([], rest)

variable {gone : Token → Bool} {offset : Nat} {ls : List Lexed} {ts : List Token} {rest : List Char}

/-- The characters of the text with blanks in it. -/
def Lexed.leavingChars (gone : Token → Bool) (ls : List Lexed) (ts : List Token) (rest : List Char) : List Char :=
  allChars (leaving gone ls ts rest).1 ++ (leaving gone ls ts rest).2

theorem Lexed.leavingChars_of_gone {l : Lexed} {t : Token} (ht : gone t = true) :
    leavingChars gone (l :: ls) (t :: ts) rest = l.gap ++ ' ' :: leavingChars gone ls ts rest := by
  simp only [leavingChars, leaving, ht, if_true]
  cases (leaving gone ls ts rest).1 <;> simp [widen]

theorem Lexed.leavingChars_of_not_gone {l : Lexed} {t : Token} (ht : gone t = false) :
    leavingChars gone (l :: ls) (t :: ts) rest = l.gap ++ l.text ++ leavingChars gone ls ts rest := by
  simp [leavingChars, leaving, ht]

/-- What is left is read from the text with blanks in it. Up to the first of them that text is the one there was. -/
theorem Stands.lexedText_leaving (h : Stands offset ls ts) (hreads : Reads ls rest) (hgap : IsGap rest)
    (hslash : '\\' ∉ allChars ls ++ rest) (hgone : ∀ t ∈ ts, gone t = true → t.kind.isComment = true) :
    LexedText (Lexed.leavingChars gone ls ts rest) (Lexed.leaving gone ls ts rest).1 (Lexed.leaving gone ls ts rest).2 ∧
      SameUpToComment (allChars ls ++ rest) (Lexed.leavingChars gone ls ts rest) := by
  induction h with
  | nil => exact ⟨⟨rfl, trivial, hgap⟩, .inl rfl⟩
  | @cons offset stop l ls t ts kind text span next behind ih =>
    obtain ⟨hread, hreads⟩ := hreads
    obtain ⟨ht, hgone⟩ := List.forall_mem_cons.1 hgone
    rw [Lexed.allChars_cons, List.append_assoc, List.append_assoc] at hslash
    have hslash' : '\\' ∉ l.gap ++ l.text ∧ '\\' ∉ allChars ls ++ rest := by
      rwa [← List.append_assoc, List.mem_append, not_or] at hslash
    obtain ⟨htext, hsame⟩ := ih hreads hslash'.2 hgone
    cases hcase : gone t with
    | true =>
      have hblank : ∀ c ∈ l.gap, isBlank c = true := by
        have hlength := hread.gap
        rw [List.append_assoc] at hlength
        exact Lexeme.isBlank_of_le_gapLength (fun hmem => hslash (List.mem_append_left _ hmem)) hlength.ge
      have hblank' : ∀ c ∈ l.gap ++ [' '], isBlank c = true := by
        intro c hc
        rcases List.mem_append.1 hc with hc | hc
        · exact hblank c hc
        · rw [List.mem_singleton.1 hc]
          rfl
      have hwide := htext.widen hblank'
      rw [Lexed.leavingChars_of_gone hcase]
      constructor
      · simpa [Lexed.leaving, hcase] using hwide
      · obtain ⟨c, cs, hchars, hlexeme⟩ := hread.lexeme
        obtain ⟨rfl, -⟩ := Lexeme.of_lexeme_isComment hlexeme (kind ▸ ht hcase)
        refine .inr ⟨l.gap, cs ++ (allChars ls ++ rest), Lexed.leavingChars gone ls ts rest, ?_, rfl⟩
        simp [hchars]
    | false =>
      rw [Lexed.leavingChars_of_not_gone hcase]
      constructor
      · have hread' := hread.of_sameUpToComment hslash'.1 hsame
        rw [htext.chars] at hread'
        exact ⟨by simp [Lexed.leavingChars, Lexed.leaving, hcase],
          by simpa [Lexed.leaving, hcase, Reads] using ⟨hread', htext.reads⟩, by simpa [Lexed.leaving, hcase] using htext.gap⟩
      · have hfront := hsame.append (l.gap ++ l.text)
        simpa using hfront

/-! ### The text with blanks in it -/

/-- The text from byte `offset` on, with one blank for each of some tokens of it. -/
def blankedFrom (source : List Char) (offset : Nat) : List Token → List Char
  | [] => (Span.slice? ⟨offset, byteLength source⟩ source).getD []
  | t :: ts => (Span.slice? ⟨offset, t.span.start⟩ source).getD [] ++ ' ' :: blankedFrom source t.span.stop ts

/-- The text with one blank for each of some tokens of it. -/
def blanked (source : String) (tokens : List Token) : String :=
  String.ofList (blankedFrom source.toList 0 tokens)

theorem slice?_between {source before mid behind : List Char} (hsource : source = before ++ mid ++ behind) {start stop : Nat}
    (hstart : start = byteLength before) (hstop : stop = byteLength before + byteLength mid) :
    (Span.slice? ⟨start, stop⟩ source).getD [] = mid := by
  subst hsource hstart hstop
  rw [Span.slice?_append]
  rfl

/-- It has the characters of the lexemes that are left. -/
theorem Stands.blankedFrom_filter {source front pending : List Char} (h : Stands (byteLength (front ++ pending)) ls ts)
    (hsource : source = front ++ pending ++ allChars ls ++ rest) :
    blankedFrom source (byteLength front) (ts.filter gone) = pending ++ Lexed.leavingChars gone ls ts rest := by
  induction ls generalizing front pending ts with
  | nil =>
    cases h
    have hslice := @slice?_between source front (pending ++ rest) [] (by simp [hsource]) _ (byteLength source) rfl
      (by simp [hsource])
    simpa [blankedFrom, Lexed.leavingChars, Lexed.leaving] using hslice
  | cons l ls ih =>
    obtain _ | ⟨kind, text, span, rfl, behind⟩ := h
    rename_i t ts
    rw [Lexed.allChars_cons] at hsource
    cases hcase : gone t with
    | true =>
      have hslice := @slice?_between source front (pending ++ l.gap) (l.text ++ allChars ls ++ rest) (by simp [hsource])
        _ t.span.start rfl (by simp [span, Nat.add_assoc])
      have hbytes : t.span.stop = byteLength (front ++ pending ++ l.gap ++ l.text) := by simp [span, Nat.add_assoc]
      have hrest := @ih ts (front ++ pending ++ l.gap ++ l.text) [] (by simpa [Nat.add_assoc] using behind)
        (by simp [hsource])
      rw [List.filter_cons_of_pos hcase, blankedFrom, hslice, hbytes, hrest, Lexed.leavingChars_of_gone hcase]
      simp
    | false =>
      have hrest := @ih ts front (pending ++ l.gap ++ l.text) (by simpa [Nat.add_assoc] using behind) (by simp [hsource])
      rw [List.filter_cons_of_neg (by simp [hcase]), hrest, Lexed.leavingChars_of_not_gone hcase]
      simp

/-! ### The tokens that are left -/

/-- They have the kinds and texts that they had. -/
theorem Stands.forall₂_leaving {place : Nat} {us : List Token} (h : Stands offset ls ts)
    (hus : Stands place (Lexed.leaving gone ls ts rest).1 us) :
    List.Forall₂ (fun t u : Token => u.kind = t.kind ∧ u.text = t.text) (ts.filter (!gone ·)) us := by
  induction h generalizing place us with
  | nil =>
    cases hus
    exact .nil
  | cons kind text span next behind ih =>
    rename_i t ts
    cases hcase : gone t with
    | true =>
      simp only [Lexed.leaving, hcase, if_true, stands_widen] at hus
      simpa [hcase] using ih hus
    | false =>
      simp only [Lexed.leaving, hcase, Bool.false_eq_true, if_false] at hus
      obtain _ | ⟨kind', text', -, -, behind'⟩ := hus
      simpa [hcase] using List.Forall₂.cons ⟨kind'.trans kind.symm, text'.trans text.symm⟩ (ih behind')

/-- They stand apart as they did, and from the place before them. -/
theorem Stands.apart_leaving {place : Nat} {f : Token → Token} (h : Stands offset ls ts) (hreads : Reads ls rest)
    (hmap : Stands place (Lexed.leaving gone ls ts rest).1 ((ts.filter (!gone ·)).map f)) :
    (∀ u ∈ ts.filter (!gone ·), offset < u.span.start ↔ place < (f u).span.start) ∧
      (ts.filter (!gone ·)).Pairwise fun t u => t.span.stop < u.span.start ↔ (f t).span.stop < (f u).span.start := by
  induction h generalizing place with
  | nil => simp
  | @cons offset stop l ls t ts kind text span next behind ih =>
    have hpositive := byteLength_pos hreads.1.text_ne_nil
    cases hcase : gone t with
    | true =>
      simp only [Lexed.leaving, hcase, if_true, stands_widen] at hmap
      rw [List.filter_cons_of_neg (by simp [hcase])] at hmap ⊢
      obtain ⟨-, hpairwise⟩ := ih hreads.2 hmap
      refine ⟨fun u hu => ?_, hpairwise⟩
      have hstart := behind.le_start u (List.mem_filter.1 hu).1
      have hstart' := hmap.le_start (f u) (List.mem_map_of_mem hu)
      have hblank : 0 < byteLength (l.gap ++ [' ']) := byteLength_pos (by simp)
      omega
    | false =>
      simp only [Lexed.leaving, hcase, Bool.false_eq_true, if_false] at hmap
      rw [List.filter_cons_of_pos (by simp [hcase]), List.map_cons] at hmap
      rw [List.filter_cons_of_pos (by simp [hcase])]
      obtain _ | ⟨-, -, span', rfl, behind'⟩ := hmap
      obtain ⟨hapart, hpairwise⟩ := ih hreads.2 behind'
      refine ⟨List.forall_mem_cons.2 ⟨?_, fun u hu => ?_⟩, .cons (fun u hu => ?_) hpairwise⟩
      · simp only [span, span']
        omega
      · have hstart := behind.le_start u (List.mem_filter.1 hu).1
        have hstart' := behind'.le_start (f u) (List.mem_map_of_mem hu)
        omega
      · rw [span, span']
        exact hapart u hu

/-! ### Surveys -/

theorem text_last_of_tokenize {source : String} {body : List Token} {last : Token} (h : tokenize source = .ok (body ++ [last])) :
    last.text = "" := by
  obtain ⟨items, line, hitems, -⟩ := (Scanner.ofText source.toList).tiles_items
  simp only [tokenize] at h
  split at h
  · rw [hitems, goodTokens, List.filterMap_append] at h
    obtain ⟨-, hlast⟩ := List.append_inj' (Except.ok.inj h) rfl
    rw [← List.singleton_inj.1 hlast]
    rfl
  · cases h

/-- Blanks in the place of comments change nothing but places, and text that is copied from there. -/
theorem surveySource_blanked (markers : Bool) {source : String} (hslash : '\\' ∉ source.toList) {tokens : List Token}
    (htokens : tokenize source = .ok tokens) (chosen : Token → Bool) :
    let text := blanked source (tokens.filter fun t => t.kind.isComment && chosen t)
    (∃ tokens', tokenize text = .ok tokens') ∧
      EndAlike Survey.SaysAs (surveySource markers source) (surveySource markers text) := by
  intro text
  let gone (t : Token) : Bool := t.kind.isComment && chosen t
  have hgone : ∀ t, gone t = true → t.kind.isComment = true := fun t ht => (Bool.and_eq_true_iff.1 ht).1
  obtain ⟨ls, rest, body, last, hchars, hreads, hgap, rfl, hstands, hlast⟩ := reads_of_tokenize htokens
  have hbody : ∀ t ∈ body, t.kind ≠ .eof := by
    intro t ht heof
    obtain ⟨l, hl, hkind, -⟩ := hstands.exists_of_mem ht
    exact hreads.kind_ne_eof l hl (hkind.symm.trans heof)
  have hstays : gone last = false := by simp [gone, hlast, TokenKind.isComment]
  obtain ⟨hleft, -⟩ := @Stands.lexedText_leaving gone 0 ls body rest hstands hreads hgap (hchars ▸ hslash) fun t _ => hgone t
  have htext : text.toList = Lexed.leavingChars gone ls body rest := by
    have hfrom := @Stands.blankedFrom_filter gone ls body rest source.toList [] [] hstands (by simpa using hchars)
    have hfilter : (body ++ [last]).filter gone = body.filter gone := by simp [hstays]
    have hfrom' : blankedFrom source.toList 0 ((body ++ [last]).filter gone) = Lexed.leavingChars gone ls body rest := by
      rw [hfilter]
      exact hfrom
    simpa [text, blanked] using hfrom'
  obtain ⟨us, last', htokens', hus, hlast'⟩ := tokenize_of_reads (htext.trans hleft.chars) hleft.reads hleft.gap
  refine ⟨⟨_, htokens'⟩, ?_⟩
  -- the tokens of the text with blanks are those that are left, at other places
  let kept := body.filter (!gone ·)
  have hordered : Ordered kept := (hstands.ordered hreads).sublist List.filter_sublist
  have hkept : (body ++ [last]).filter (!gone ·) = kept ++ [last] := by simp [kept, hstays]
  have hnodup : (kept ++ [last]).Nodup := by
    refine List.nodup_append.2 ⟨hordered.nodup, by simp, ?_⟩
    rintro t ht u hu rfl
    rw [List.mem_singleton.1 hu] at ht
    exact hbody last (List.mem_filter.1 ht).1 hlast
  have hsame : List.Forall₂ (fun t u : Token => u.kind = t.kind ∧ u.text = t.text) (kept ++ [last]) (us ++ [last']) := by
    refine List.rel_append (hstands.forall₂_leaving hus) (.cons ⟨hlast'.trans hlast.symm, ?_⟩ .nil)
    rw [text_last_of_tokenize htokens', text_last_of_tokenize htokens]
  obtain ⟨f, hf, hmap⟩ := exists_map_of_forall₂ (fun t => ⟨t, rfl, rfl⟩) hnodup hsame
  rw [List.map_append, List.map_singleton] at hmap
  obtain ⟨rfl, hlastmap⟩ := List.append_inj' hmap rfl
  have hrespaces : Respaces f kept :=
    ⟨fun t => (hf t).1, fun t => (hf t).2, hordered, hus.ordered hleft.reads, (hstands.apart_leaving hreads hus).2⟩
  have huntil : Outline.untilEnd ((body ++ [last]).filter (!gone ·)) = kept := by
    rw [hkept]
    exact Outline.untilEnd_concat_eof hlast fun t ht => hbody t (List.mem_filter.1 ht).1
  have hleaves : LeavesComments (!gone ·) := fun t ht => hgone t (by simpa using ht)
  have hsurvey := @survey_respaced f ((body ++ [last]).filter (!gone ·)) (huntil ▸ hrespaces) markers source text
  rw [survey_filter hleaves, hkept, List.map_append, List.map_singleton, ← hlastmap] at hsurvey
  simp only [surveySource, htokens, htokens', bind, Except.bind]
  exact hsurvey

/-- One of two comments, between the tokens of a prototype. -/
theorem surveySource_blanked_parameter :
    let source := "int f(int/* n */); // none\nint x;"
    ∃ tokens, '\\' ∉ source.toList ∧ tokenize source = .ok tokens ∧
      let text := blanked source (tokens.filter fun t => t.kind.isComment && decide (t.kind = .blockComment))
      text = "int f(int ); // none\nint x;" ∧ (∃ tokens', tokenize text = .ok tokens') ∧
        EndAlike Survey.SaysAs (surveySource true source) (surveySource true text) := by
  intro source
  have hslash : '\\' ∉ source.toList := by decide +kernel
  have htokens : tokenize source = .ok ((tokenize source).toOption.getD []) := by decide +kernel
  exact ⟨_, hslash, htokens, by decide +kernel, surveySource_blanked true hslash htokens fun t => decide (t.kind = .blockComment)⟩

end CHeader
