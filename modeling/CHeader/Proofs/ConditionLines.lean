import CHeader.Proofs.HeaderGuards
import CHeader.Proofs.LexemeFront
import CHeader.Proofs.Lines
import CHeader.Proofs.Locality

/-!
# Directive lines read as tokens

A line is read as one directive if the directive goes on to its end (`Lexeme.Whole`). The text of every
directive token is such a line (`whole_of_readBefore`), and so is a condition taken from it, trimmed as
it is: what stands around a condition is white space and a keyword, which begin no comment and no literal.
So the guards that a tracker keeps can be written on lines of their own (`Guard.Writable`).
-/

namespace CHeader

namespace Lexeme

/-- All of the text behind `#` belongs to the directive. -/
def Whole (cs : List Char) : Prop :=
  directiveExtent cs = ⟨cs.length, false⟩

/-- A character that only stands for itself in a directive. -/
def Ordinary (c : Char) : Prop :=
  c ≠ '\n' ∧ c ≠ '\\' ∧ c ≠ '/' ∧ c ≠ '"' ∧ c ≠ '\''

theorem Ordinary.plain {c : Char} (h : Ordinary c) (cs : List Char) : Plain c cs := by
  obtain ⟨hnewline, hbackslash, hslash, -, -⟩ := h
  exact ⟨hnewline, fun _ hc => absurd hc hbackslash, fun _ hc => absurd hc hbackslash, fun _ hc => absurd hc hslash,
    fun _ hc => absurd hc hslash⟩

theorem Ordinary.directiveExtent_cons {c : Char} (h : Ordinary c) (cs : List Char) :
    directiveExtent (c :: cs) = (directiveExtent cs).behind 1 := by
  rw [Lexeme.directiveExtent_cons (h.plain cs), if_neg (by simp [h.2.2.2.1, h.2.2.2.2])]

theorem whole_iff_of_behind {cs ds : List Char} {n : Nat} (h : directiveExtent cs = (directiveExtent ds).behind n)
    (hlength : cs.length = n + ds.length) : Whole cs ↔ Whole ds := by
  rw [Whole, h, hlength, Whole, Extent.behind]
  cases directiveExtent ds
  simp

theorem whole_cons {c : Char} (h : Ordinary c) (cs : List Char) : Whole (c :: cs) ↔ Whole cs :=
  whole_iff_of_behind (h.directiveExtent_cons cs) (by simp [Nat.add_comm])

theorem directiveExtent_append {front : List Char} (h : ∀ c ∈ front, Ordinary c) (cs : List Char) :
    directiveExtent (front ++ cs) = (directiveExtent cs).behind front.length := by
  induction front with
  | nil => simp [Extent.behind]
  | cons c front ih =>
    rw [List.cons_append, (h c List.mem_cons_self).directiveExtent_cons, ih fun c hc => h c (List.mem_cons_of_mem _ hc)]
    simp only [Extent.behind, List.length_cons, Extent.mk.injEq, and_true]
    omega

/-- Whether a directive goes on over the end of its line is told behind such characters. -/
theorem directiveRunsOn_append {front : List Char} (h : ∀ c ∈ front, Ordinary c) (cs : List Char) :
    directiveRunsOn (front ++ cs) = directiveRunsOn cs := by
  induction front with
  | nil => rfl
  | cons c front ih =>
    obtain ⟨⟨hnewline, hbackslash, hslash, hquotes⟩, h⟩ := List.forall_mem_cons.1 h
    rw [List.cons_append, directiveRunsOn, if_neg (by simpa using hquotes), ih h]
    all_goals simp_all

theorem whole_append {front : List Char} (h : ∀ c ∈ front, Ordinary c) (cs : List Char) : Whole (front ++ cs) ↔ Whole cs :=
  whole_iff_of_behind (directiveExtent_append h cs) List.length_append

theorem whole_nil : Whole [] := by
  simp [Whole, directiveExtent]

theorem not_whole_newline (cs : List Char) : ¬Whole ('\n' :: cs) := by
  simp [Whole, directiveExtent]

/-- White space is ordinary but for the newline. -/
theorem ordinary_of_isBlank {c : Char} (h : Text.isBlank c = true) (hnewline : c ≠ '\n') : Ordinary c := by
  refine ⟨hnewline, ?_, ?_, ?_, ?_⟩ <;>
  · rintro rfl
    revert h
    decide

/-! ### Trimming -/

theorem whole_continued (cs : List Char) : Whole ('\\' :: '\n' :: cs) ↔ Whole cs :=
  @whole_iff_of_behind _ cs 2 (by rw [directiveExtent]) (by simp only [List.length_cons]; omega)

theorem whole_returned (cs : List Char) : Whole ('\\' :: '\r' :: '\n' :: cs) ↔ Whole cs :=
  @whole_iff_of_behind _ cs 3 (by rw [directiveExtent]) (by simp only [List.length_cons]; omega)

theorem whole_comment {cs : List Char} {n : Nat} (h : commentLength? cs = some n) :
    Whole ('/' :: '*' :: cs) ↔ Whole (cs.drop n) := by
  have hle := commentLength?_le h
  exact @whole_iff_of_behind _ (cs.drop n) (2 + n) (by rw [directiveExtent, h]) (by simp; omega)

theorem whole_quoted {c : Char} {cs : List Char} {n : Nat} (hplain : Plain c cs) (hquote : c = '"' ∨ c = '\'')
    (h : quotedLength? c cs = some n) : Whole (c :: cs) ↔ Whole (cs.drop n) := by
  have hle := quotedLength?_le h
  exact @whole_iff_of_behind _ (cs.drop n) (1 + n)
    (by rw [directiveExtent_cons hplain, if_pos (by simpa using hquote), h]) (by simp; omega)

theorem whole_plain {c : Char} {cs : List Char} (hplain : Plain c cs)
    (h : c = '"' ∨ c = '\'' → quotedLength? c cs = none) : Whole (c :: cs) ↔ Whole cs := by
  refine @whole_iff_of_behind _ cs 1 ?_ (by simp [Nat.add_comm])
  rw [directiveExtent_cons hplain]
  split_ifs with hquote
  · rw [h (by simpa using hquote)]
  · rfl

/-- A directive does not begin with a newline, so that the white space before its text is ordinary. -/
theorem whole_dropWhile_isBlank {cs : List Char} (h : Whole cs) : Whole (cs.dropWhile Text.isBlank) := by
  induction cs with
  | nil => exact h
  | cons c cs ih =>
    rw [List.dropWhile_cons]
    split_ifs with hblank
    · have hnewline : c ≠ '\n' := by
        rintro rfl
        exact not_whole_newline cs h
      exact ih ((whole_cons (ordinary_of_isBlank hblank hnewline) cs).1 h)
    · exact h

theorem slash_mem_of_commentLength? {cs : List Char} {n : Nat} (h : commentLength? cs = some n) : '/' ∈ cs := by
  fun_induction commentLength? cs generalizing n with
  | case1 => cases h
  | case2 cs => simp
  | case3 c cs _ ih =>
    obtain ⟨m, hm, rfl⟩ := Option.map_eq_some_iff.1 h
    exact List.mem_cons_of_mem _ (ih hm)

/-- A comment does not end in white space behind it. -/
theorem commentLength?_of_append_blanks {cs blanks : List Char} (hblanks : ∀ c ∈ blanks, Text.isBlank c = true) {n : Nat}
    (h : commentLength? (cs ++ blanks) = some n) : commentLength? cs = some n := by
  have hslash : '/' ∉ blanks := fun hmem => absurd (hblanks _ hmem) (by decide)
  fun_induction commentLength? cs generalizing n with
  | case1 => exact absurd (slash_mem_of_commentLength? h) hslash
  | case2 cs => simpa [commentLength?] using h
  | case3 c cs hclose ih =>
    rw [List.cons_append, commentLength?] at h
    · obtain ⟨m, hm, rfl⟩ := Option.map_eq_some_iff.1 h
      rw [ih hm]
      rfl
    · rintro ds rfl hds
      cases cs with
      | nil => exact hslash (by simp_all)
      | cons d cs => exact hclose cs rfl (by simp_all)

theorem quote_mem_of_quotedLength? {quote : Char} {cs : List Char} {n : Nat} (h : quotedLength? quote cs = some n) :
    quote ∈ cs := by
  fun_induction quotedLength? quote cs generalizing n with
  | case1 | case2 | case4 => cases h
  | case3 d cs ih =>
    obtain ⟨m, hm, rfl⟩ := Option.map_eq_some_iff.1 h
    exact List.mem_cons_of_mem _ (List.mem_cons_of_mem _ (ih hm))
  | case5 => exact List.mem_cons_self
  | case6 c cs _ _ _ _ ih =>
    obtain ⟨m, hm, rfl⟩ := Option.map_eq_some_iff.1 h
    exact List.mem_cons_of_mem _ (ih hm)

/-- A literal does not end in white space behind it. -/
theorem quotedLength?_of_append_blanks {quote : Char} (hquote : Text.isBlank quote = false) {cs blanks : List Char}
    (hblanks : ∀ c ∈ blanks, Text.isBlank c = true) {n : Nat} (h : quotedLength? quote (cs ++ blanks) = some n) :
    quotedLength? quote cs = some n := by
  have hmem : quote ∉ blanks := by
    intro hmem
    rw [hblanks _ hmem] at hquote
    cases hquote
  fun_induction quotedLength? quote cs generalizing n with
  | case1 => exact absurd (quote_mem_of_quotedLength? h) hmem
  | case2 =>
    cases blanks with
    | nil => simp [quotedLength?] at h
    | cons d blanks =>
      rw [List.singleton_append, quotedLength?] at h
      obtain ⟨m, hm, rfl⟩ := Option.map_eq_some_iff.1 h
      exact absurd (List.mem_cons_of_mem _ (quote_mem_of_quotedLength? hm)) hmem
  | case3 d cs ih =>
    rw [List.cons_append, List.cons_append, quotedLength?] at h
    obtain ⟨m, hm, rfl⟩ := Option.map_eq_some_iff.1 h
    rw [ih hm]
    rfl
  | case4 cs hend hescape =>
    rw [List.cons_append, quotedLength?_cons (by decide), if_pos rfl] at h
    cases h
  | case5 cs hend hescape hnewline =>
    rw [List.cons_append, quotedLength?_cons (ne_backslash hend hescape), if_neg hnewline, if_pos rfl] at h
    exact h
  | case6 c cs hend hescape hnewline hquote ih =>
    rw [List.cons_append, quotedLength?_cons (ne_backslash hend hescape), if_neg hnewline, if_neg hquote] at h
    obtain ⟨m, hm, rfl⟩ := Option.map_eq_some_iff.1 h
    rw [ih hm]
    rfl

theorem plain_append_blanks {blanks : List Char} (hblanks : ∀ c ∈ blanks, Text.isBlank c = true) {c : Char} {cs : List Char}
    (h : Plain c cs) (hend : ¬(c = '\\' ∧ (cs = [] ∨ cs = ['\r']))) : Plain c (cs ++ blanks) := by
  refine h.append_of_head (fun hc hcs => hend ⟨hc, .inl hcs⟩) (fun hc hcs => hend ⟨hc, .inr hcs⟩) ?_
  intro d hd
  have hblank := hblanks d (List.mem_of_mem_head? hd)
  constructor <;>
  · rintro rfl
    cases hblank

/-- Cut off before the white space at its end, a directive still goes on to the end. -/
theorem whole_of_append_blanks {cs blanks : List Char} (hblanks : ∀ c ∈ blanks, Text.isBlank c = true)
    (h : Whole (cs ++ blanks)) : Whole cs := by
  have plain_append : ∀ {c : Char} {cs : List Char}, Plain c cs → ¬(c = '\\' ∧ (cs = [] ∨ cs = ['\r'])) →
      Plain c (cs ++ blanks) := plain_append_blanks hblanks
  fun_induction directiveExtent cs with
  | case1 => exact whole_nil
  | case2 cs => exact absurd h (not_whole_newline _)
  | case3 cs ih => exact (whole_continued cs).2 (ih ((whole_continued _).1 h))
  | case4 cs ih => exact (whole_returned cs).2 (ih ((whole_returned _).1 h))
  | case5 cs n hn ih =>
    have hrest := (whole_comment (commentLength?_append hn blanks)).1 h
    rw [List.drop_append_of_le_length (commentLength?_le hn)] at hrest
    exact (whole_comment hn).2 (ih hrest)
  | case6 cs hn =>
    have hnone : commentLength? (cs ++ blanks) = none := by
      cases hm : commentLength? (cs ++ blanks) with
      | none => rfl
      | some m =>
        rw [commentLength?_of_append_blanks hblanks hm] at hn
        cases hn
    simp [Whole, directiveExtent, hnone] at h
  | case7 cs =>
    have hline : lineLength (cs ++ blanks) = (cs ++ blanks).length := by
      simp only [Whole, List.cons_append, directiveExtent, List.length_cons, Extent.mk.injEq, and_true] at h
      omega
    have hall : ∀ c ∈ cs, c ≠ '\n' := by
      have htake := List.takeWhile_eq_self_iff.1 ((List.takeWhile_prefix _).eq_of_length hline)
      intro c hc
      simpa using htake c (List.mem_append_left _ hc)
    have hcs : lineLength cs = cs.length := by
      rw [lineLength, List.takeWhile_eq_self_iff.2 (by simpa using hall)]
    simp only [Whole, directiveExtent, hcs, List.length_cons, Extent.mk.injEq, and_true]
    omega
  | case8 c cs h₁ h₂ h₃ h₄ h₅ hquote n hn ih =>
    have hquote : c = '"' ∨ c = '\'' := by simpa using hquote
    have hplain : Plain c (cs ++ blanks) := plain_append ⟨h₁, h₂, h₃, h₄, h₅⟩ (by rcases hquote with rfl | rfl <;> simp)
    have hrest := (whole_quoted hplain hquote (quotedLength?_append hn blanks)).1 h
    rw [List.drop_append_of_le_length (quotedLength?_le hn)] at hrest
    exact (whole_quoted ⟨h₁, h₂, h₃, h₄, h₅⟩ hquote hn).2 (ih hrest)
  | case9 c cs h₁ h₂ h₃ h₄ h₅ hquote hn ih =>
    have hquote : c = '"' ∨ c = '\'' := by simpa using hquote
    have hplain : Plain c (cs ++ blanks) := plain_append ⟨h₁, h₂, h₃, h₄, h₅⟩ (by rcases hquote with rfl | rfl <;> simp)
    have hblank : Text.isBlank c = false := by rcases hquote with rfl | rfl <;> rfl
    have hnone : quotedLength? c (cs ++ blanks) = none := by
      cases hm : quotedLength? c (cs ++ blanks) with
      | none => rfl
      | some m =>
        rw [quotedLength?_of_append_blanks hblank hblanks hm] at hn
        cases hn
    exact (whole_plain ⟨h₁, h₂, h₃, h₄, h₅⟩ fun _ => hn).2 (ih ((whole_plain hplain fun _ => hnone).1 h))
  | case10 c cs h₁ h₂ h₃ h₄ h₅ hquote ih =>
    have hquote : ¬(c = '"' ∨ c = '\'') := by simpa using hquote
    rw [whole_plain ⟨h₁, h₂, h₃, h₄, h₅⟩ fun hc => absurd hc hquote]
    by_cases hend : c = '\\' ∧ (cs = [] ∨ cs = ['\r'])
    · -- A backslash that white space cuts off from its line end is an ordinary character.
      rcases hend.2 with rfl | rfl
      · exact whole_nil
      · exact (whole_cons (ordinary_of_isBlank rfl (by decide)) []).2 whole_nil
    · have hplain : Plain c (cs ++ blanks) := plain_append ⟨h₁, h₂, h₃, h₄, h₅⟩ hend
      exact ih ((whole_plain hplain fun hc => absurd hc hquote).1 h)

theorem whole_trim {cs : List Char} (h : Whole cs) : Whole (Text.trim cs) := by
  obtain ⟨blanks, hsplit, hblanks⟩ := Text.trimEnd_append (cs.dropWhile Text.isBlank)
  have hdrop := whole_dropWhile_isBlank h
  rw [hsplit] at hdrop
  exact whole_of_append_blanks hblanks hdrop

/-! ### Directive tokens -/

theorem ordinary_of_isKeywordChar {c : Char} (h : Directive.isKeywordChar c = true) : Ordinary c := by
  refine ⟨?_, ?_, ?_, ?_, ?_⟩ <;>
  · rintro rfl
    revert h
    decide

theorem whole_dropWhile {p : Char → Bool} (hp : ∀ c, p c = true → Ordinary c) {cs : List Char} (h : Whole cs) :
    Whole (cs.dropWhile p) := by
  have hfront : ∀ c ∈ cs.takeWhile p, Ordinary c := fun c hc => hp c (List.mem_takeWhile_imp hc)
  rw [← @List.takeWhile_append_dropWhile _ p cs] at h
  exact (whole_append hfront _).1 h

/-- The arguments of a directive that goes on to the end of its text do so themselves. -/
theorem whole_args {cs : List Char} (h : Whole cs) : Whole (Directive.parse (String.ofList ('#' :: cs))).args.toList := by
  have hbody : Whole (Directive.body ('#' :: cs)) := by
    refine whole_dropWhile (fun c hc => ?_) h
    simp only [Bool.or_eq_true, decide_eq_true_eq] at hc
    rcases hc with rfl | rfl
    · exact ordinary_of_isBlank rfl (by decide)
    · exact ordinary_of_isBlank rfl (by decide)
  simp only [Directive.parse, String.toList_ofList]
  exact whole_trim (whole_dropWhile (fun _ => ordinary_of_isKeywordChar) hbody)

/-- What stands behind `#` is a directive. -/
theorem lexeme_directive (cs : List Char) : lexeme '#' cs = directive cs := by
  rw [lexeme, if_neg (by decide), if_neg (by simp), if_neg (by decide), if_neg (by decide), if_pos rfl]

/-- Only a directive is read as one. -/
theorem directive_of_lexeme {c : Char} {cs : List Char} {d : Directive} {n : Nat}
    (h : lexeme c cs = ⟨.ok (.directive d), n⟩) :
    c = '#' ∧ directiveExtent cs = ⟨n, false⟩ ∧ d = .parse (String.ofList ('#' :: cs.take n)) := by
  have hliteral : ∀ quote toKind fault opening, (∀ spelling, toKind spelling ≠ .directive d) →
      literal quote toKind fault c opening cs ≠ ⟨.ok (.directive d), n⟩ := by
    intro quote toKind fault opening hkind h
    rw [literal] at h
    split at h <;> simp [hkind] at h
  have hplain : ∀ m, plainWord c cs m ≠ ⟨.ok (.directive d), n⟩ := by
    intro m h
    simp only [plainWord] at h
    split at h <;> simp at h
  rw [lexeme] at h
  split_ifs at h with hword hnumber hchar hstring hsharp hline hblock
  · rw [word_eq] at h
    split_ifs at h
    · exact absurd h (hliteral _ _ _ _ (by simp))
    · exact absurd h (hliteral _ _ _ _ (by simp))
    · exact absurd h (hplain _)
    · exact absurd h (hplain _)
  · simp [number] at h
  · exact absurd h (hliteral _ _ _ _ (by simp))
  · exact absurd h (hliteral _ _ _ _ (by simp))
  · simp only [directive] at h
    split_ifs at h with hopen
    · cases h
    · simp only [Reading.mk.injEq, Except.ok.injEq, TokenKind.directive.injEq] at h
      refine ⟨hsharp, ?_, ?_⟩
      · rw [← h.2]
        cases hextent : directiveExtent cs
        simp_all
      · rw [← h.2, h.1]
  · simp at h
  · rw [blockComment] at h
    split at h <;> simp at h
  · rw [punct] at h
    split at h <;> simp at h

end Lexeme

open Lexeme (Whole)

/-- A directive whose arguments can be written behind a keyword. -/
def Directive.Fits (directive : Directive) : Prop :=
  directive.args ≠ "" → Text.Trimmed directive.args ∧ Whole directive.args.toList

/-- A directive token is all of a line. -/
theorem Lexed.ReadBefore.directive {l : Lexed} {rest : List Char} {d : Directive} (h : l.ReadBefore rest)
    (hkind : l.kind = .directive d) :
    ∃ cs, l.text = '#' :: cs ∧ Whole cs ∧ d = .parse (String.ofList l.text) := by
  obtain ⟨c, cs, htext, hlexeme⟩ := h.lexeme
  rw [hkind] at hlexeme
  obtain ⟨rfl, hextent, rfl⟩ := Lexeme.directive_of_lexeme (Lexeme.lexeme_of_append hlexeme (Nat.le_refl _))
  exact ⟨cs, htext, hextent, by rw [List.take_length, htext]⟩

/-- A line that is all one directive is read as that directive. -/
theorem readsAs_directive {cs : List Char} (h : Whole cs) :
    ReadsAs ('#' :: cs) fun _ item => ∃ t, item = .directive t ∧ t.text = String.ofList ('#' :: cs) ∧
      t.kind = .directive (.parse (String.ofList ('#' :: cs))) := by
  have hlexeme : Lexeme.lexeme '#' cs = ⟨.ok (.directive (.parse (String.ofList ('#' :: cs)))), cs.length⟩ := by
    rw [Lexeme.lexeme_directive]
    simp only [Lexeme.directive, show Lexeme.directiveExtent cs = _ from h, Bool.false_eq_true, if_false, List.take_length]
  refine ⟨[⟨[], .directive (.parse (String.ofList ('#' :: cs))), '#' :: cs⟩], by simp, ⟨⟨?_, '#', cs, rfl, ?_⟩, trivial⟩, ?_⟩
  · simp [Lexeme.gapLength, Lexeme.isBlank]
  · simpa using hlexeme
  · intro before behind ts hts
    obtain _ | ⟨hkind, htext, -, -, ⟨⟩⟩ := hts
    refine ⟨.directive _, ⟨_, rfl, htext, hkind⟩, fun linkage => ⟨linkage, fun more => ?_⟩⟩
    exact outline_cons_directive (by simp [Token.directive?, hkind])

/-- A directive of a text is all of a line, and it is read from its text. -/
theorem exists_whole_of_tokenize {source : String} {tokens : List Token} (h : tokenize source = .ok tokens) {token : Token}
    (htoken : token ∈ tokens) {directive : Directive} (hdirective : token.directive? = some directive) :
    ∃ cs, token.text.toList = '#' :: cs ∧ Whole cs ∧ directive = .parse token.text := by
  obtain ⟨ls, rest, body, last, -, hreads, -, rfl, hstands, hlast⟩ := reads_of_tokenize h
  have hkind := Token.kind_of_directive? hdirective
  have hbody : token ∈ body := by
    rcases List.mem_append.1 htoken with hbody | hend
    · exact hbody
    · rw [List.mem_singleton.1 hend, hlast] at hkind
      cases hkind
  obtain ⟨l, hl, hkind', htext⟩ := hstands.exists_of_mem hbody
  obtain ⟨behind, hread⟩ := hreads.readBefore_of_mem hl
  obtain ⟨cs, hline, hwhole, hparse⟩ := hread.directive (by rw [← hkind', hkind])
  exact ⟨cs, by rw [htext, String.toList_ofList, hline], hwhole, by rw [htext, hparse]⟩

/-- The arguments of the directives of a text can be written behind a keyword. -/
theorem fits_of_tokenize {source : String} {tokens : List Token} (h : tokenize source = .ok tokens) :
    ∀ token ∈ tokens, ∀ directive, token.directive? = some directive → directive.Fits := by
  intro token htoken directive hdirective
  obtain ⟨cs, htext, hwhole, rfl⟩ := exists_whole_of_tokenize h htoken hdirective
  intro hargs
  refine ⟨Directive.trimmed_args_parse _ hargs, ?_⟩
  have hparsed := Lexeme.whole_args hwhole
  rwa [← htext, String.ofList_toList] at hparsed

/-! ### Guard lines -/

/-- A line that is read as one directive. -/
def DirectiveLine (line : String) : Prop :=
  ∃ cs, line.toList = '#' :: cs ∧ Whole cs

theorem DirectiveLine.readsAs {line : String} (h : DirectiveLine line) :
    ReadsAs line.toList fun _ item => ∃ t, item = .directive t ∧ t.kind = .directive (.parse line) := by
  obtain ⟨cs, hcs, hwhole⟩ := h
  have hline : String.ofList ('#' :: cs) = line := by rw [← hcs, String.ofList_toList]
  rw [hcs]
  refine (readsAs_directive hwhole).imp fun source item => ?_
  rintro ⟨t, rfl, -, hkind⟩
  exact ⟨t, rfl, by rw [hkind, hline]⟩

/-- Where a number sign is read first, a directive is. -/
theorem Reads.directive_of_hash {l : Lexed} {ls : List Lexed} {rest cs : List Char} (h : Reads (l :: ls) rest)
    (hchars : Lexed.allChars (l :: ls) ++ rest = '#' :: cs) :
    l.gap = [] ∧ ∃ ds, l.text = '#' :: ds ∧ cs = ds ++ (Lexed.allChars ls ++ rest) ∧
      l.kind = .directive (.parse (String.ofList l.text)) := by
  obtain ⟨⟨hgap, c, ds, htext, hlexeme⟩, -⟩ := h
  rw [Lexed.allChars_cons, List.append_assoc, List.append_assoc] at hchars
  have hnone : l.gap = [] := by
    rw [List.append_assoc, hchars, Lexeme.gapLength_cons (by decide), if_neg (by decide)] at hgap
    exact List.length_eq_zero_iff.1 hgap.symm
  rw [hnone, List.nil_append, htext, List.cons_append, List.cons.injEq] at hchars
  obtain ⟨rfl, hcs⟩ := hchars
  rw [Lexeme.lexeme_directive, Lexeme.directive] at hlexeme
  split_ifs at hlexeme
  · cases hlexeme
  · obtain ⟨hkind, hlength⟩ := Lexeme.Reading.mk.inj hlexeme
    refine ⟨hnone, ds, htext, hcs.symm, ?_⟩
    rw [hlength, List.take_left] at hkind
    rw [htext]
    exact (Except.ok.inj hkind).symm

/-- A directive that does not run on ends its line. -/
theorem DirectiveLine.endsItsLine {line : String} (h : DirectiveLine line)
    (hruns : ∀ cs, line.toList = '#' :: cs → Lexeme.directiveRunsOn cs = false) : EndsItsLine line.toList := by
  obtain ⟨cs, hcs, hwhole⟩ := h
  intro ls hchars hreads more
  rw [hcs] at hchars
  cases ls with
  | nil => cases hchars
  | cons l ls =>
    obtain ⟨hgap, ds, htext, hds, -⟩ := hreads.directive_of_hash ((List.append_nil _).trans hchars)
    obtain ⟨⟨-, c, ds', htext', hlexeme⟩, hrest⟩ := hreads
    obtain ⟨rfl, rfl⟩ := List.cons.inj (htext.symm.trans htext')
    -- the directive is all of the line
    rw [← hds, Lexeme.lexeme_directive, Lexeme.directive, hwhole] at hlexeme
    have hlength : cs.length = ds.length := congrArg Lexeme.Reading.tail hlexeme
    have hnothing : Lexed.allChars ls = [] := by simpa [hds] using hlength
    obtain rfl : cs = ds := by rw [hds, hnothing, List.append_nil, List.append_nil]
    cases ls with
    | cons m ls => exact absurd (List.append_eq_nil_iff.1 (List.append_eq_nil_iff.1 hnothing).1).2 hrest.1.text_ne_nil
    | nil =>
      refine ⟨⟨?_, '#', cs, htext, ?_⟩, trivial⟩
      · rw [hgap, htext, List.nil_append, List.cons_append, Lexeme.gapLength_cons (by decide), if_neg (by decide)]
        rfl
      · have hextent := (@Lexeme.directiveExtent_append_newline cs more (hruns cs hcs)).trans hwhole
        rw [← hlexeme, Lexed.allChars_nil, List.nil_append, Lexeme.lexeme_directive, Lexeme.directive, hextent]
        simp

theorem directiveLine_of_whole {word : String} (hword : ∀ c ∈ word.toList, Directive.isKeywordChar c = true) {args : String}
    (hargs : Whole args.toList) : DirectiveLine ("#" ++ word ++ " " ++ args) := by
  refine ⟨word.toList ++ ' ' :: args.toList, by simp, ?_⟩
  rw [Lexeme.whole_append fun c hc => Lexeme.ordinary_of_isKeywordChar (hword c hc),
    Lexeme.whole_cons (Lexeme.ordinary_of_isBlank rfl (by decide))]
  exact hargs

theorem directiveLine_keyword {word : String} (hword : ∀ c ∈ word.toList, Directive.isKeywordChar c = true) :
    DirectiveLine ("#" ++ word) := by
  refine ⟨word.toList, by simp, ?_⟩
  have hwhole := (Lexeme.whole_append (fun c hc => Lexeme.ordinary_of_isKeywordChar (hword c hc)) []).2 Lexeme.whole_nil
  simpa using hwhole

/-- A guard that can be written on lines: it is no interface block, and each condition goes on to the end of its line. -/
structure Guard.Writable (guard : Guard) : Prop extends guard.WellFormed where
  admits : Tracker.Admits true guard
  whole : ∀ condition ∈ guard.condition :: guard.elifs, Whole condition.toList

namespace Guard

theorem directiveLine_branchLines {elifs : List String} (h : ∀ condition ∈ elifs, Whole condition.toList) (inElse : Bool) :
    ∀ line ∈ branchLines elifs inElse, DirectiveLine line := by
  intro line hline
  rcases List.mem_append.1 hline with hline | hline
  · obtain ⟨condition, hcondition, rfl⟩ := List.mem_map.1 hline
    exact @directiveLine_of_whole "elif" (List.all_eq_true.1 rfl) condition (h condition hcondition)
  · cases inElse with
    | false => cases hline
    | true =>
      obtain rfl : line = "#else" := by simpa using hline
      exact @directiveLine_keyword "else" (List.all_eq_true.1 rfl)

theorem Writable.directiveLine_openingLines {guard : Guard} (h : guard.Writable) :
    ∀ line ∈ guard.openingLines, DirectiveLine line := by
  intro line hline
  rcases List.mem_cons.1 hline with rfl | hline
  · exact directiveLine_of_whole (keyword_isKeywordChar _) (h.whole _ List.mem_cons_self)
  · exact directiveLine_branchLines (fun condition hmem => h.whole condition (List.mem_cons_of_mem _ hmem)) _ line hline

theorem Writable.directiveLine_continuationLines {later : Guard} (h : later.Writable) (guard : Guard) :
    ∀ line ∈ guard.continuationLines later, DirectiveLine line :=
  directiveLine_branchLines
    (fun condition hmem => h.whole condition (List.mem_cons_of_mem _ (List.mem_of_mem_drop hmem))) _

end Guard

/-- The lines between two declarations are directive lines. -/
theorem Emission.directiveLine_moveLines {opened target : GuardPath} (h : ∀ guard ∈ target, guard.Writable) {text : String}
    (htext : .directive text ∈ moveLines opened target) : DirectiveLine text := by
  obtain ⟨_, htext, heq⟩ := List.mem_map.1 htext
  cases heq
  obtain ⟨step, hstep, htext⟩ := List.mem_flatMap.1 htext
  cases step with
  | close =>
    obtain rfl : text = "#endif" := by simpa [GuardStep.lines] using htext
    exact @directiveLine_keyword "endif" (List.all_eq_true.1 rfl)
  | enter guard =>
    exact (h guard (mem_target_of_mem_transition (.inl hstep))).directiveLine_openingLines text htext
  | switch here later =>
    exact (h later (mem_target_of_mem_transition (.inr ⟨here, hstep⟩))).directiveLine_continuationLines here text htext

/-- They belong to conditionals. -/
theorem Emission.isConditional_moveLines {opened target : GuardPath} (h : ∀ guard ∈ target, guard.WellFormed) {text : String}
    (htext : .directive text ∈ moveLines opened target) : (Directive.parse text).kind.isConditional = true := by
  have hbranch : ∀ {elifs : List String} {inElse : Bool}, (∀ condition ∈ elifs, Text.Trimmed condition) →
      ∀ line ∈ Guard.branchLines elifs inElse, (Directive.parse line).kind.isConditional = true := by
    intro elifs inElse helifs line hline
    rcases List.mem_append.1 hline with hline | hline
    · obtain ⟨condition, hcondition, rfl⟩ := List.mem_map.1 hline
      rw [Guard.parse_elifLine (helifs condition hcondition)]
      rfl
    · cases inElse with
      | false => cases hline
      | true =>
        obtain rfl : line = "#else" := by simpa using hline
        rw [Guard.parse_elseLine]
        rfl
  obtain ⟨_, htext, heq⟩ := List.mem_map.1 htext
  cases heq
  obtain ⟨step, hstep, htext⟩ := List.mem_flatMap.1 htext
  cases step with
  | close =>
    obtain rfl : text = "#endif" := by simpa [GuardStep.lines] using htext
    rw [Guard.parse_endifLine]
    rfl
  | enter guard =>
    have hguard := h guard (mem_target_of_mem_transition (.inl hstep))
    rcases List.mem_cons.1 htext with rfl | htext
    · rw [Guard.parse_openingLine guard hguard.condition]
      rfl
    · exact hbranch hguard.elifs text htext
  | switch here later =>
    have hlater := h later (mem_target_of_mem_transition (.inr ⟨here, hstep⟩))
    exact hbranch (fun condition hmem => hlater.elifs condition (List.mem_of_mem_drop hmem)) text htext

/-! ### The guards of a tracker -/

namespace Tracker

/-- What every directive keeps is kept by all of them. -/
theorem keeps_of_passAll {Inv : Tracker → Prop} {tokens : List Token}
    (hstep : ∀ token ∈ tokens, ∀ directive, token.directive? = some directive → ∀ t behind : Tracker, Inv t →
      t.step directive token.line token.span = .ok behind → Inv behind)
    {t behind : Tracker} (h : Inv t) (hpass : t.passAll tokens = .ok behind) : Inv behind := by
  induction tokens generalizing t with
  | nil =>
    cases hpass
    exact h
  | cons token tokens ih =>
    obtain ⟨between, hfirst, hrest⟩ := passAll_cons_eq_ok_iff.1 hpass
    refine ih (fun u hu => hstep u (List.mem_cons_of_mem _ hu)) ?_ hrest
    cases hdirective : token.directive? with
    | none =>
      rw [pass_of_directive?_eq_none hdirective] at hfirst
      cases hfirst
      exact h
    | some directive =>
      exact hstep token List.mem_cons_self directive hdirective t between h ((pass_eq_ok_iff hdirective).1 hfirst)

/-- `P` holds of the conditions of all conditionals around a place. -/
def Conditions (P : String → Prop) (t : Tracker) : Prop :=
  ∀ conditional ∈ t.stack, ∀ condition ∈ conditional.guard.condition :: conditional.guard.elifs, P condition

section Conditions

variable {P : String → Prop} {t behind : Tracker}

/-- The conditions are arguments of directives. -/
theorem Conditions.step {directive : Directive} {line : Nat} {span : Span} (h : t.Conditions P)
    (hargs : directive.args ≠ "" → P directive.args) (hstep : t.step directive line span = .ok behind) : behind.Conditions P := by
  unfold Conditions at h
  cases steps_of_step_eq_ok hstep with
  | opened kind condition => exact List.forall_mem_cons.2 ⟨by simpa using hargs condition, h⟩
  | elif kind condition stack =>
    obtain ⟨htop, houter⟩ := List.forall_mem_cons.1 (stack ▸ h)
    exact List.forall_mem_cons.2 ⟨List.forall_mem_append.2 ⟨htop, by simpa using hargs condition⟩, houter⟩
  | otherwise kind stack =>
    obtain ⟨htop, houter⟩ := List.forall_mem_cons.1 (stack ▸ h)
    exact List.forall_mem_cons.2 ⟨htop, houter⟩
  | endif kind stack => exact (List.forall_mem_cons.1 (stack ▸ h)).2
  | other => exact h

theorem Conditions.passAll {tokens : List Token} (h : t.Conditions P)
    (htokens : ∀ token ∈ tokens, ∀ directive, token.directive? = some directive → directive.args ≠ "" → P directive.args)
    (hpass : t.passAll tokens = .ok behind) : behind.Conditions P :=
  keeps_of_passAll (fun token htoken directive hdirective _ _ ht hstep =>
    ht.step (htokens token htoken directive hdirective) hstep) h hpass

theorem Conditions.of_mem_guardPath (h : t.Conditions P) {guard : Guard} (hguard : guard ∈ t.guardPath) :
    ∀ condition ∈ guard.condition :: guard.elifs, P condition := by
  obtain ⟨conditional, hmem, rfl⟩ := List.mem_map.1 hguard
  exact h conditional (List.mem_reverse.1 (List.mem_filter.1 hmem).1)

end Conditions

/-- All conditionals around a place can be written on lines if they are no interface blocks, which are told from guards. -/
structure Sound (t : Tracker) : Prop where
  blocks : t.recognizeBlocks = true
  stack : ∀ conditional ∈ t.stack, conditional.block = blockOf? {} conditional.guard.opening conditional.guard.condition
  conditions : t.Conditions fun condition => Text.Trimmed condition ∧ Whole condition.toList

theorem sound_start : Sound {} :=
  ⟨rfl, by simp, by simp [Conditions]⟩

theorem Sound.step {t behind : Tracker} {directive : Directive} {line : Nat} {span : Span} (h : t.Sound)
    (hdirective : directive.Fits) (hstep : t.step directive line span = .ok behind) : behind.Sound := by
  have hconditions := h.conditions.step hdirective hstep
  cases steps_of_step_eq_ok hstep with
  | opened kind condition =>
    refine ⟨h.blocks, List.forall_mem_cons.2 ⟨?_, h.stack⟩, hconditions⟩
    simp [blockOf?, h.blocks]
  | elif kind condition stack | otherwise kind stack =>
    obtain ⟨htop, houter⟩ := List.forall_mem_cons.1 (stack ▸ h.stack)
    exact ⟨h.blocks, List.forall_mem_cons.2 ⟨htop, houter⟩, hconditions⟩
  | endif kind stack => exact ⟨h.blocks, (List.forall_mem_cons.1 (stack ▸ h.stack)).2, hconditions⟩
  | other => exact h

theorem Sound.passAll {t behind : Tracker} {tokens : List Token} (h : t.Sound)
    (htokens : ∀ token ∈ tokens, ∀ directive, token.directive? = some directive → directive.Fits)
    (hpass : t.passAll tokens = .ok behind) : behind.Sound :=
  keeps_of_passAll (fun token htoken directive hdirective _ _ ht hstep =>
    ht.step (htokens token htoken directive hdirective) hstep) h hpass

/-- The guards around a place can be written on lines. -/
theorem Sound.writable {t : Tracker} (h : t.Sound) : ∀ guard ∈ t.guardPath, guard.Writable := by
  intro guard hguard
  have hconditions := h.conditions.of_mem_guardPath hguard
  obtain ⟨htop, helifs⟩ := List.forall_mem_cons.1 hconditions
  obtain ⟨conditional, hmem, rfl⟩ := List.mem_map.1 hguard
  obtain ⟨hstack, hblock⟩ := List.mem_filter.1 hmem
  have hnone : conditional.block = none := by simpa using hblock
  refine ⟨⟨htop.1, fun condition hcondition => (helifs condition hcondition).1⟩, ?_, fun condition hcondition =>
    (hconditions condition hcondition).2⟩
  rw [Admits, ← hnone, h.stack conditional (List.mem_reverse.1 hstack)]

end Tracker

end CHeader
