import CHeader.Generator
import CHeader.Proofs.ConditionLines

/-!
# Words of a directive behind trivia

To the scanner a directive goes on over comments and over line ends behind a backslash; to the reading of its words only
spaces and tabs are white space. So the keyword is found behind `#`, and the name of a macro behind the keyword, exactly if
nothing but spaces and tabs stands before them (`directive_words_iff`). Behind a comment or a continued line there is no
keyword: the conditional becomes a directive that says nothing, and every guard behind it is another one
(`keyword_behind_comment_lost`).
-/

namespace CHeader

namespace Directive

/-- White space that does not end a line. -/
def IsSpace (c : Char) : Prop :=
  c = ' ' ∨ c = '\t'

instance (c : Char) : Decidable (IsSpace c) :=
  inferInstanceAs (Decidable (_ ∨ _))

/-- What counts as white space in a directive: spaces and tabs, whole comments, and line ends behind a backslash. -/
inductive Trivia : List Char → Prop
  | nil : Trivia []
  | space {c : Char} {cs : List Char} (isSpace : IsSpace c) (rest : Trivia cs) : Trivia (c :: cs)
  | comment {inside cs : List Char} (closed : ¬['*', '/'] <:+: inside) (rest : Trivia cs) :
      Trivia ('/' :: '*' :: (inside ++ '*' :: '/' :: cs))
  | newline {cs : List Char} (rest : Trivia cs) : Trivia ('\\' :: '\n' :: cs)
  | carriage {cs : List Char} (rest : Trivia cs) : Trivia ('\\' :: '\r' :: '\n' :: cs)

/-- A character that trivia other than white space begin with. -/
def IsMark (c : Char) : Prop :=
  c = '/' ∨ c = '\\'

section Trivia

variable {cs spaces text : List Char} {c : Char}

/-- Trivia are white space, or a comment or a line end stands in them behind the first of it. -/
theorem Trivia.cases_spaces (h : Trivia cs) :
    (∀ c ∈ cs, IsSpace c) ∨
      ¬(∀ c ∈ cs, IsSpace c) ∧ ∃ spaces mark more, cs = spaces ++ mark :: more ∧ (∀ c ∈ spaces, IsSpace c) ∧ IsMark mark := by
  induction h with
  | nil => exact .inl (by simp)
  | @space c cs isSpace _ ih =>
    rcases ih with hspaces | ⟨hother, spaces, mark, more, rfl, hspaces, hmark⟩
    · exact .inl (List.forall_mem_cons.2 ⟨isSpace, hspaces⟩)
    · refine .inr ⟨fun hall => hother (List.forall_mem_cons.1 hall).2, c :: spaces, mark, more, rfl, ?_, hmark⟩
      exact List.forall_mem_cons.2 ⟨isSpace, hspaces⟩
  | comment => exact .inr ⟨by simp [IsSpace], [], '/', _, rfl, by simp, .inl rfl⟩
  | newline | carriage => exact .inr ⟨by simp [IsSpace], [], '\\', _, rfl, by simp, .inr rfl⟩

theorem isBlank_of_isSpace (h : IsSpace c) : Text.isBlank c = true := by
  rcases h with rfl | rfl <;> rfl

theorem IsMark.plain (h : IsMark c) :
    Text.isBlank c = false ∧ isKeywordChar c = false ∧ isNameChar c = false ∧ (c = ' ' || c = '\t') = false := by
  rcases h with rfl | rfl <;> decide

/-! ### Trimming -/

theorem trim_append_spaces (h : ∀ c ∈ spaces, IsSpace c) (text : List Char) : Text.trim (spaces ++ text) = Text.trim text := by
  rw [Text.trim, List.dropWhile_append_of_pos fun c hc => isBlank_of_isSpace (h c hc)]
  rfl

/-- Characters before which no blank stands, and none of which is one, are left at the front. -/
theorem trim_append_plain {front : List Char} (hne : front ≠ []) (hfront : ∀ c ∈ front, Text.isBlank c = false) (cs : List Char) :
    ∃ more, Text.trim (front ++ cs) = front ++ more ∧ more <+: cs := by
  have hdrop : (front ++ cs).dropWhile Text.isBlank = front ++ cs := by
    obtain ⟨c, front, rfl⟩ := List.exists_cons_of_ne_nil hne
    exact List.dropWhile_cons_of_neg (by simp [hfront c List.mem_cons_self])
  obtain ⟨blanks, hsplit, hblanks⟩ := Text.trimEnd_append (front ++ cs)
  rw [Text.trim, hdrop]
  rcases List.append_eq_append_iff.1 hsplit with ⟨more, htrimmed, hcs⟩ | ⟨between, hbetween, hall⟩
  · exact ⟨more, htrimmed, blanks, hcs.symm⟩
  · obtain rfl : between = [] := by
      refine List.eq_nil_iff_forall_not_mem.2 fun c hc => ?_
      have hplain := hfront c (hbetween ▸ List.mem_append_right _ hc)
      have hblank := hblanks c (hall ▸ List.mem_append_left _ hc)
      simp [hplain] at hblank
    exact ⟨[], by simpa using hbetween.symm, List.nil_prefix⟩

/-! ### Keywords -/

/-- Spaces and tabs behind `#` do not count. -/
theorem parse_spaces (h : ∀ c ∈ spaces, IsSpace c) (text : List Char) :
    parse (String.ofList ('#' :: (spaces ++ text))) = parse (String.ofList ('#' :: text)) := by
  have hspaces : ∀ c ∈ spaces, (decide (c = ' ') || decide (c = '\t')) = true := by simpa [IsSpace] using h
  have hbody : body ('#' :: (spaces ++ text)) = body ('#' :: text) := by
    simp only [body, List.dropWhile_append_of_pos hspaces]
  simp only [parse, String.toList_ofList, hbody]

/-- Behind anything else there is no keyword, and all of it is taken for the arguments. -/
theorem parse_mark (h : ∀ c ∈ spaces, IsSpace c) (hmark : IsMark c) (text : List Char) :
    parse (String.ofList ('#' :: (spaces ++ c :: text))) = ⟨.null, String.ofList (Text.trim (c :: text))⟩ := by
  obtain ⟨-, hkeyword, -, hspace⟩ := hmark.plain
  have hbody : body ('#' :: c :: text) = c :: text := List.dropWhile_cons_of_neg (by simp [hspace])
  rw [parse_spaces h]
  simp only [parse, String.toList_ofList, hbody, List.takeWhile_cons_of_neg (show ¬isKeywordChar c = true by simp [hkeyword]),
    List.dropWhile_cons_of_neg (show ¬isKeywordChar c = true by simp [hkeyword])]
  rfl

/-- No keyword is read as none. -/
theorem ofKeyword_ne_null {word : String} (h : word ≠ "") : DirectiveKind.ofKeyword word ≠ .null := by
  intro hnull
  have hkeyword := DirectiveKind.keyword_ofKeyword word
  rw [hnull] at hkeyword
  exact h hkeyword.symm

/-! ### Names of macros -/

theorem not_isBlank_of_isNameChar (h : isNameChar c = true) : Text.isBlank c = false := by
  have hbound : c.toNat = 0x24 ∨ 0x30 ≤ c.toNat ∧ c.toNat < 0x80 := by
    delta isNameChar Char.isAlphanum Char.isAlpha Char.isUpper Char.isLower Char.isDigit at h
    simp only [Bool.or_eq_true, Bool.and_eq_true, decide_eq_true_eq, UInt32.le_iff_toNat_le] at h
    have hnat : c.toNat = c.val.toNat := rfl
    rcases h with ((((h | h) | h) | rfl) | rfl)
    · simp at h
      omega
    · simp at h
      omega
    · simp at h
      omega
    · exact .inr (by decide)
    · exact .inl rfl
  simp only [Text.isBlank, Bool.or_eq_false_iff, Bool.and_eq_false_iff, decide_eq_false_iff_not]
  omega

/-- The name that arguments begin with, behind spaces and tabs. -/
theorem macroName?_spaces (kind : DirectiveKind) (h : ∀ c ∈ spaces, IsSpace c) {name rest : List Char} (hne : name ≠ [])
    (hname : ∀ c ∈ name, isNameChar c = true) (hrest : ∀ c ∈ rest.head?, isNameChar c = false) :
    macroName? ⟨kind, String.ofList (Text.trim (spaces ++ (name ++ rest)))⟩ = some (String.ofList name) := by
  obtain ⟨more, htrim, hmore⟩ := trim_append_plain hne (fun c hc => not_isBlank_of_isNameChar (hname c hc)) rest
  have hend : ∀ c ∈ more.head?, isNameChar c = false := by
    intro c hc
    obtain ⟨behind, rfl⟩ := hmore
    exact hrest c (by rw [List.head?_append, Option.mem_def.1 hc]; rfl)
  have htake : more.takeWhile isNameChar = [] := by
    cases more with
    | nil => rfl
    | cons c cs => simp [hend c rfl]
  rw [trim_append_spaces h, htrim, macroName?, String.toList_ofList, List.takeWhile_append_of_pos hname, htake, List.append_nil]
  split
  · exact absurd rfl hne
  · rfl

/-- Behind anything else there is no name. -/
theorem macroName?_mark (kind : DirectiveKind) (h : ∀ c ∈ spaces, IsSpace c) (hmark : IsMark c) (text : List Char) :
    macroName? ⟨kind, String.ofList (Text.trim (spaces ++ c :: text))⟩ = none := by
  obtain ⟨hblank, -, hname, -⟩ := hmark.plain
  obtain ⟨more, htrim, -⟩ := @trim_append_plain [c] (by simp) (by simpa using hblank) text
  rw [List.singleton_append] at htrim
  rw [trim_append_spaces h, htrim, macroName?]
  simp [hname]

end Trivia

end Directive

open Directive (IsSpace Trivia isKeywordChar isNameChar)

/-- The words of a directive are found exactly behind spaces and tabs. Where trivia stand between `#` and its first word, the
kind is that of the word if they are spaces and tabs, and otherwise the directive is one without a keyword. Where trivia
stand behind the first word and an identifier behind them, the name of the macro is the identifier if all of the trivia are
spaces and tabs, and otherwise there is none. -/
theorem directive_words_iff {source : String} {tokens : List Token} (htokens : tokenize source = .ok tokens) {t : Token}
    (ht : t ∈ tokens) {d : Directive} (hd : t.directive? = some d) {between word rest : List Char}
    (htext : t.text.toList = '#' :: (between ++ (word ++ rest))) (hbetween : Trivia between) (hne : word ≠ [])
    (hword : ∀ c ∈ word, isKeywordChar c = true) (hrest : ∀ c ∈ rest.head?, isKeywordChar c = false) :
    (d.kind = .ofKeyword (String.ofList word) ↔ ∀ c ∈ between, IsSpace c) ∧
      (d.kind ≠ .ofKeyword (String.ofList word) → d.kind = .null) ∧
      ∀ separator name behind, rest = separator ++ (name ++ behind) → Trivia separator → name ≠ [] →
        (∀ c ∈ name, isNameChar c = true) → (∀ c ∈ behind.head?, isNameChar c = false) →
        (d.macroName? = some (String.ofList name) ↔ ∀ c ∈ between ++ separator, IsSpace c) ∧
          (d.macroName? ≠ some (String.ofList name) → d.macroName? = none) := by
  obtain ⟨-, -, -, rfl⟩ := exists_whole_of_tokenize htokens ht hd
  have hraw : t.text = String.ofList ('#' :: (between ++ (word ++ rest))) := by rw [← htext, String.ofList_toList]
  have hspelled : String.ofList word ≠ "" := by simpa using hne
  rw [hraw]
  rcases hbetween.cases_spaces with hspaces | ⟨hother, spaces, mark, more, rfl, hspaces, hmark⟩
  · have hparse := @Directive.parse_keyword (String.ofList word) rest (by simpa using hword) hrest hspelled
    rw [String.toList_ofList, List.cons_append] at hparse
    rw [Directive.parse_spaces hspaces, hparse]
    refine ⟨iff_of_true rfl hspaces, fun h => absurd rfl h, ?_⟩
    rintro separator name behind rfl hseparator hname hchars hbehind
    rcases hseparator.cases_spaces with hspaces' | ⟨hother, blanks, mark, more, rfl, hblanks, hmark⟩
    · rw [Directive.macroName?_spaces _ hspaces' hname hchars hbehind]
      exact ⟨iff_of_true rfl (List.forall_mem_append.2 ⟨hspaces, hspaces'⟩), fun h => absurd rfl h⟩
    · rw [List.append_assoc, List.cons_append, Directive.macroName?_mark _ hblanks hmark]
      exact ⟨iff_of_false (by simp) fun h => hother (List.forall_mem_append.1 h).2, fun _ => rfl⟩
  · -- The words come too late: a comment or a continued line is where the keyword would have to be.
    rw [List.append_assoc, List.cons_append, Directive.parse_mark hspaces hmark]
    refine ⟨iff_of_false (Directive.ofKeyword_ne_null hspelled).symm hother, fun _ => rfl, ?_⟩
    intro separator name behind _ _ _ _ _
    rw [← List.nil_append (mark :: _), Directive.macroName?_mark _ (by simp) hmark]
    exact ⟨iff_of_false (by simp) fun h => hother (List.forall_mem_append.1 h).1, fun _ => rfl⟩

/-- A macro behind spaces and tabs, with a comment behind its name. -/
theorem directive_words_iff_macro :
    let source := "# \tdefine\t MAX/* c */ 1\nint a;"
    ∃ t ∈ (tokenize source).toOption.getD [], ∃ d, t.directive? = some d ∧ d.kind = .define ∧ d.macroName? = some "MAX" := by
  intro source
  have htokens : tokenize source = .ok ((tokenize source).toOption.getD []) := by decide +kernel
  have hmem : ∃ t ∈ (tokenize source).toOption.getD [], ∃ d ∈ t.directive?,
      t.text.toList = '#' :: (" \t".toList ++ ("define".toList ++ "\t MAX/* c */ 1".toList)) := by decide +kernel
  obtain ⟨t, ht, d, hd, htext⟩ := hmem
  have hbetween : Trivia " \t".toList := .space (.inl rfl) (.space (.inr rfl) .nil)
  have hseparator : Trivia "\t ".toList := .space (.inr rfl) (.space (.inl rfl) .nil)
  have hkeyword : "define".toList.all isKeywordChar = true := rfl
  have hname : "MAX".toList.all isNameChar = true := rfl
  have hspaces : ∀ c ∈ " \t".toList ++ "\t ".toList, IsSpace c := by simp [IsSpace]
  obtain ⟨hkind, -, hbehind⟩ := directive_words_iff htokens ht hd htext hbetween (by simp)
    (List.all_eq_true.1 hkeyword) (by simp [isKeywordChar])
  obtain ⟨hnamed, -⟩ := hbehind "\t ".toList "MAX".toList "/* c */ 1".toList (by simp) hseparator (by simp)
    (List.all_eq_true.1 hname) (by simp [isNameChar])
  exact ⟨t, ht, d, hd, hkind.2 (List.forall_mem_append.1 hspaces).1, hnamed.2 hspaces⟩

/-- Behind a comment, the keyword of a conditional is lost. The directive says nothing, and the end of the conditional is
reported as one that closes nothing. -/
theorem keyword_behind_comment_lost :
    let source := "#/* guard */ifdef X\nint a;\n#endif"
    (∃ tokens, tokenize source = .ok tokens ∧ ∃ t ∈ tokens, ∃ d ∈ t.directive?, ∃ between word rest,
      t.text.toList = '#' :: (between ++ (word ++ rest)) ∧ Trivia between ∧
        DirectiveKind.ofKeyword (String.ofList word) = .opening .defined ∧ d.kind = .null) ∧
      generateHeader source = .error [⟨.conditional (.unmatched "endif"), 3, ⟨27, 33⟩⟩] := by
  intro source
  have htokens : tokenize source = .ok ((tokenize source).toOption.getD []) := by decide +kernel
  have hmem : ∃ t ∈ (tokenize source).toOption.getD [], ∃ d ∈ t.directive?,
      t.text.toList = '#' :: ("/* guard */".toList ++ ("ifdef".toList ++ " X".toList)) ∧ d.kind = .null := by decide +kernel
  obtain ⟨t, ht, d, hd, htext, hnull⟩ := hmem
  have hcomment : Trivia "/* guard */".toList := @Trivia.comment " guard ".toList [] (by decide +kernel) .nil
  exact ⟨⟨_, htokens, t, ht, d, hd, _, _, _, htext, hcomment, by decide +kernel, hnull⟩, by decide +kernel⟩

end CHeader
