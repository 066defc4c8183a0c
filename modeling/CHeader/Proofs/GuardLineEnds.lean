import CHeader.Proofs.ConditionLines
import CHeader.Proofs.LineNumbers
import CHeader.Proofs.Moving

/-!
# Where a guard line ends

A header writes the guard lines that have a condition as `#`, a keyword, a space and the condition
(`Directive.line`, `Emission.line_of_mem_moveLines`). Such a line delimits itself if it is read as the directive that it
was written for, and the text behind it as it is read alone, only further on (`Directive.DelimitsItself`). A scanner that
is further on reads the same (`Scanner.FurtherOn.items`), so this is a question of the directive alone: its line delimits
itself before every text if its arguments do not go on over the end of their line (`guard_line_delimits_itself_iff`).
Arguments are cut off before the white space at their end, and may then go on over a backslash that was followed by white
space or by an empty line.
-/

namespace CHeader

/-! ### Scanners further on -/

/-- The token `offset` bytes and `lines` lines further on. -/
def Token.moved (offset lines : Nat) (t : Token) : Token :=
  { t with span := t.span.moved offset, line := t.line + lines }

/-- What was read, further on. -/
def readMoved (offset lines : Nat) : Except Diagnostic Token → Except Diagnostic Token
  | .ok t => .ok (t.moved offset lines)
  | .error fault => .error (fault.moved offset lines)

namespace Scanner

/-- The second place has the same text before it as the first, `offset` bytes and `lines` lines further on. -/
structure FurtherOn (offset lines : Nat) (s s' : Scanner) : Prop where
  rest : s'.rest = s.rest
  place : s'.offset = s.offset + offset
  line : ∀ n, s'.lines.lineOf (n + offset) = s.lines.lineOf n + lines

variable {offset lines : Nat} {s s' : Scanner}

theorem furtherOn_ofText (front text : List Char) :
    FurtherOn (byteLength front) (front.count '\n') (ofText text) ⟨.ofText (front ++ text), byteLength front, text⟩ := by
  refine ⟨rfl, (Nat.zero_add _).symm, fun n => ?_⟩
  simp only [ofText]
  rw [LineIndex.lineOf_ofText, LineIndex.lineOf_ofText, Nat.add_comm n, newlinesBefore_append_add]
  omega

theorem FurtherOn.advance (h : FurtherOn offset lines s s') (n : Nat) :
    FurtherOn offset lines (s.advance n) (s'.advance n) := by
  refine ⟨?_, ?_, h.line⟩
  · simp [Scanner.advance, h.rest]
  · simp only [Scanner.advance, h.rest, h.place]
    omega

theorem FurtherOn.skipGap (h : FurtherOn offset lines s s') : FurtherOn offset lines s.skipGap s'.skipGap := by
  have hmoved := h.advance (Lexeme.gapLength s.rest)
  rwa [Scanner.skipGap, Scanner.skipGap, h.rest]

theorem FurtherOn.readLexeme (h : FurtherOn offset lines s s') (spaced : Bool) (c : Char) (cs : List Char) :
    (s'.readLexeme spaced c cs).1 = readMoved offset lines (s.readLexeme spaced c cs).1 ∧
      FurtherOn offset lines (s.readLexeme spaced c cs).2 (s'.readLexeme spaced c cs).2 := by
  have hbehind := h.advance ((Lexeme.lexeme c cs).tail + 1)
  refine ⟨?_, hbehind⟩
  simp only [Scanner.readLexeme, hbehind.place, h.place, h.line]
  cases (Lexeme.lexeme c cs).outcome <;> rfl

theorem FurtherOn.next (h : FurtherOn offset lines s s') :
    s'.next.1 = readMoved offset lines s.next.1 ∧ FurtherOn offset lines s.next.2 s'.next.2 := by
  have hplace := h.skipGap
  have hspaced : s'.offset < s'.skipGap.offset ↔ s.offset < s.skipGap.offset := by
    rw [h.place, hplace.place]
    omega
  simp only [Scanner.next, hplace.rest]
  cases s.skipGap.rest with
  | nil =>
    refine ⟨?_, hplace⟩
    simp [readMoved, Token.moved, Token.endOfText, Span.moved, hplace.place, hplace.line]
  | cons c cs =>
    simp only [hspaced]
    exact hplace.readLexeme _ c cs

theorem FurtherOn.atEnd (h : FurtherOn offset lines s s') : s'.atEnd = s.atEnd := by
  rw [Scanner.atEnd, h.skipGap.rest, Scanner.atEnd]

/-- Further on in a text, the same is read. -/
theorem FurtherOn.items (h : FurtherOn offset lines s s') : s'.items = s.items.map (readMoved offset lines) := by
  fun_induction Scanner.items s generalizing s' with
  | case1 s hend =>
    rw [items_of_atEnd (h.atEnd.trans hend), h.next.1]
    rfl
  | case2 s hend ih =>
    rw [items_of_not_atEnd (h.atEnd.trans hend), h.next.1, ih h.next.2]
    rfl

/-! ### Behind a newline -/

/-- What was read, with white space before it. The end of a text has none. -/
def readSpaced : Except Diagnostic Token → Except Diagnostic Token
  | .ok t => .ok { t with spaced := t.kind ≠ .eof }
  | .error fault => .error fault

theorem skipGap_newline {text : List Char} (hrest : s.rest = '\n' :: text) : s.skipGap = (s.advance 1).skipGap := by
  have hgap : Lexeme.gapLength ('\n' :: text) = Lexeme.gapLength text + 1 := by
    rw [Lexeme.gapLength_cons (by decide), if_pos (by decide), Nat.add_comm]
  obtain ⟨lines, offset, rest⟩ := s
  obtain rfl : rest = '\n' :: text := hrest
  simp [skipGap, advance, hgap, Nat.add_assoc]

/-- A newline is a gap, so that what stands behind it is read, with white space before the first of it. -/
theorem items_newline {text : List Char} (hrest : s.rest = '\n' :: text) :
    s.items = (s.advance 1).items.modifyHead readSpaced := by
  have hgap := skipGap_newline hrest
  have hend : (s.advance 1).atEnd = s.atEnd := by rw [atEnd, atEnd, hgap]
  have hspaced : s.offset < s.skipGap.offset := by
    rw [hgap, skipGap, advance, advance, hrest]
    have hsize : byteLength ['\n'] = 1 := rfl
    simp only [List.take_succ_cons, List.take_zero, hsize]
    omega
  have hnext : s.next.1 = readSpaced (s.advance 1).next.1 ∧ s.next.2 = (s.advance 1).next.2 := by
    simp only [next, ← hgap]
    cases hplace : s.skipGap.rest with
    | nil => exact ⟨rfl, rfl⟩
    | cons c cs =>
      refine ⟨?_, rfl⟩
      have hkind := Lexeme.lexeme_outcome_ne_eof c cs
      simp only [readLexeme]
      cases houtcome : (Lexeme.lexeme c cs).outcome with
      | error fault => rfl
      | ok kind =>
        have hne : kind ≠ .eof := by
          rintro rfl
          exact hkind houtcome
        simp [readSpaced, hspaced, hne]
  cases hatEnd : s.atEnd with
  | true =>
    rw [items_of_atEnd hatEnd, items_of_atEnd (hend.trans hatEnd), hnext.1]
    rfl
  | false =>
    rw [items_of_not_atEnd hatEnd, items_of_not_atEnd (hend.trans hatEnd), hnext.1, hnext.2]
    rfl

/-- Behind the end of a line, a text is read as it is alone, further on. -/
theorem items_behind_newline (front text : List Char) :
    items ⟨.ofText (front ++ '\n' :: text), byteLength front, '\n' :: text⟩ =
      ((ofText text).items.map (readMoved (byteLength front + 1) (front.count '\n' + 1))).modifyHead readSpaced := by
  have hfurther := furtherOn_ofText (front ++ ['\n']) text
  have hsize : byteLength (front ++ ['\n']) = byteLength front + 1 := byteLength_append front ['\n']
  have hcount : (front ++ ['\n']).count '\n' = front.count '\n' + 1 := by simp
  rw [hsize, hcount, List.append_assoc] at hfurther
  rw [items_newline rfl, ← hfurther.items]
  rfl

theorem text_of_readLexeme {spaced : Bool} {c : Char} {cs : List Char} {t : Token}
    (h : (s.readLexeme spaced c cs).1 = .ok t) : t.text.toList = c :: cs.take (Lexeme.lexeme c cs).tail := by
  simp only [readLexeme] at h
  split at h
  · cases h
    exact String.toList_ofList
  · cases h

/-- Where no gap is, the next lexeme is read. -/
theorem next_of_gapLength_eq_zero {c : Char} {cs : List Char} (hrest : s.rest = c :: cs)
    (hgap : Lexeme.gapLength s.rest = 0) : s.atEnd = false ∧ s.next = s.readLexeme false c cs := by
  have hplace : s.skipGap = s := by
    rw [skipGap, hgap]
    simp [advance]
  simp [atEnd, next, hplace, hrest]

end Scanner

/-! ### Directives that run on -/

namespace Lexeme

variable {cs : List Char}

theorem lt_length_of_behind {cs' ds ds' : List Char} {n : Nat} (h : directiveExtent cs' = (directiveExtent ds').behind n)
    (hlength : cs.length = n + ds.length) (hlt : ds.length < (directiveExtent ds').length) :
    cs.length < (directiveExtent cs').length := by
  rw [h, Extent.behind]
  simp only
  omega

/-- A directive that runs on takes the newline behind it before some next line. -/
theorem exists_lt_length_of_directiveRunsOn (h : directiveRunsOn cs = true) :
    ∃ more, cs.length < (directiveExtent (cs ++ '\n' :: more)).length := by
  fun_induction directiveRunsOn cs with
  | case1 | case4 | case9 => cases h
  | case2 | case3 => exact ⟨[], by simp [directiveExtent, Extent.behind]⟩
  | case5 cs ih =>
    obtain ⟨more, hmore⟩ := ih h
    refine ⟨more, lt_length_of_behind (n := 2) ?_ (by simp; omega) hmore⟩
    rw [List.cons_append, List.cons_append, directiveExtent]
  | case6 cs ih =>
    obtain ⟨more, hmore⟩ := ih h
    refine ⟨more, lt_length_of_behind (n := 3) ?_ (by simp; omega) hmore⟩
    rw [List.cons_append, List.cons_append, List.cons_append, directiveExtent]
  | case7 cs n hn ih =>
    obtain ⟨more, hmore⟩ := ih h
    have hle := commentLength?_le hn
    refine ⟨more, lt_length_of_behind (n := 2 + n) ?_ (by simp; omega) hmore⟩
    rw [List.cons_append, List.cons_append, directiveExtent, commentLength?_append hn]
    simp only
    rw [List.drop_append_of_le_length hle]
  | case8 cs hn =>
    refine ⟨[], ?_⟩
    rw [List.cons_append, List.cons_append, directiveExtent]
    cases hm : commentLength? (cs ++ ['\n']) with
    | none =>
      simp only [List.length_append, List.length_cons, List.length_nil]
      omega
    | some m =>
      have hlt : cs.length < m := by
        by_contra hle
        rw [commentLength?_of_append hm (Nat.not_lt.1 hle)] at hn
        cases hn
      simp only [Extent.behind, List.length_cons]
      omega
  | case10 c cs hlast hreturn h₁ h₂ h₃ h₄ h₅ hquote n hn ih =>
    obtain ⟨more, hmore⟩ := ih h
    have hle := quotedLength?_le hn
    have hplain : Plain c (cs ++ '\n' :: more) := Plain.append_of_head ⟨h₁, h₂, h₃, h₄, h₅⟩ hlast hreturn (by simp)
    refine ⟨more, lt_length_of_behind (n := 1 + n) ?_ (by simp; omega) hmore⟩
    rw [List.cons_append, directiveExtent_cons hplain, if_pos hquote, quotedLength?_append hn]
    simp only
    rw [List.drop_append_of_le_length hle]
  | case11 c cs hlast hreturn h₁ h₂ h₃ h₄ h₅ hquote hn ih =>
    have hplain : ∀ more, Plain c (cs ++ '\n' :: more) := fun more =>
      Plain.append_of_head ⟨h₁, h₂, h₃, h₄, h₅⟩ hlast hreturn (by simp)
    cases hnext : quotedLength? c (cs ++ ['\n', c]) with
    | some m =>
      have hlt : cs.length < m := by
        by_contra hle
        rw [quotedLength?_of_append hnext (Nat.not_lt.1 hle)] at hn
        cases hn
      refine ⟨[c], ?_⟩
      rw [List.cons_append, directiveExtent_cons (hplain [c]), if_pos hquote, hnext]
      simp only [Extent.behind, List.length_cons]
      omega
    | none =>
      rw [hnext] at h
      obtain ⟨more, hmore⟩ := ih (by simpa using h)
      refine ⟨more, lt_length_of_behind (n := 1) ?_ (by simp; omega) hmore⟩
      rw [List.cons_append, directiveExtent_cons (hplain more), if_pos hquote,
        quotedLength?_append_newline_eq_none (by simpa using hquote) hn hnext]
  | case12 c cs hlast hreturn h₁ h₂ h₃ h₄ h₅ hquote ih =>
    obtain ⟨more, hmore⟩ := ih h
    have hplain : Plain c (cs ++ '\n' :: more) := Plain.append_of_head ⟨h₁, h₂, h₃, h₄, h₅⟩ hlast hreturn (by simp)
    refine ⟨more, lt_length_of_behind (n := 1) ?_ (by simp; omega) hmore⟩
    rw [List.cons_append, directiveExtent_cons hplain, if_neg hquote]

theorem directive_tail (cs : List Char) : (directive cs).tail = (directiveExtent cs).length := by
  simp only [directive]
  split <;> rfl

/-- A directive that is closed runs on only if its text does. -/
theorem runsOn_of_directiveRunsOn (h : directiveRunsOn cs = true) (hclosed : (directiveExtent cs).unterminated = false) :
    runsOn cs = true := by
  by_contra hruns
  rw [directiveRunsOn_eq_false (Bool.eq_false_of_not_eq_true hruns) hclosed] at h
  cases h

end Lexeme

/-! ### Guard lines -/

/-- The line that a header writes for a directive. -/
def Directive.line (d : Directive) : String :=
  "#" ++ d.kind.keyword ++ " " ++ d.args

/-- Before `text` on the next line, the line of the directive is read as the directive, and behind it the text as it is
read alone. -/
def Directive.DelimitsItself (d : Directive) (text : String) : Prop :=
  (Scanner.ofText (d.line ++ "\n" ++ text).toList).items =
    .ok ⟨.directive d, d.line, ⟨0, byteLength d.line.toList⟩, 1, false⟩ ::
      ((Scanner.ofText text.toList).items.map
        (readMoved (byteLength d.line.toList + 1) (d.line.toList.count '\n' + 1))).modifyHead Scanner.readSpaced

theorem Guard.mem_branchLines {elifs : List String} {inElse : Bool} {line : String} (h : line ∈ branchLines elifs inElse) :
    line = "#else" ∨ ∃ condition ∈ elifs, line = Directive.line ⟨.elif, condition⟩ := by
  rcases List.mem_append.1 h with h | h
  · obtain ⟨condition, hcondition, rfl⟩ := List.mem_map.1 h
    exact .inr ⟨condition, hcondition, rfl⟩
  · cases inElse with
    | false => cases h
    | true => exact .inl (by simpa using h)

/-- But for `#else` and `#endif`, the lines between two declarations are those of the directives that the guards of the
second one are made of. -/
theorem Emission.line_of_mem_moveLines {opened target : GuardPath} {text : String}
    (h : .directive text ∈ moveLines opened target) :
    text = "#endif" ∨ text = "#else" ∨ ∃ guard ∈ target, text = Directive.line ⟨.opening guard.opening, guard.condition⟩ ∨
      ∃ condition ∈ guard.elifs, text = Directive.line ⟨.elif, condition⟩ := by
  obtain ⟨_, htext, heq⟩ := List.mem_map.1 h
  cases heq
  obtain ⟨step, hstep, htext⟩ := List.mem_flatMap.1 htext
  cases step with
  | close => exact .inl (by simpa [GuardStep.lines] using htext)
  | enter guard =>
    have hguard := mem_target_of_mem_transition (.inl hstep)
    rcases List.mem_cons.1 htext with rfl | htext
    · exact .inr (.inr ⟨guard, hguard, .inl rfl⟩)
    · rcases Guard.mem_branchLines htext with helse | helif
      · exact .inr (.inl helse)
      · exact .inr (.inr ⟨guard, hguard, .inr helif⟩)
  | switch here later =>
    have hlater := mem_target_of_mem_transition (.inr ⟨here, hstep⟩)
    rcases Guard.mem_branchLines htext with helse | ⟨condition, hcondition, helif⟩
    · exact .inr (.inl helse)
    · exact .inr (.inr ⟨later, hlater, .inr ⟨condition, List.mem_of_mem_drop hcondition, helif⟩⟩)

namespace Directive

variable {d : Directive}

theorem toList_line (d : Directive) : d.line.toList = '#' :: (d.kind.keyword.toList ++ ' ' :: d.args.toList) := by
  simp [line]

theorem keyword_of_condition {kind : DirectiveKind} (h : kind = .elif ∨ ∃ opening, kind = .opening opening) :
    (∀ c ∈ kind.keyword.toList, isKeywordChar c = true) ∧ kind.keyword ≠ "" ∧
      DirectiveKind.ofKeyword kind.keyword = kind := by
  rcases h with rfl | ⟨opening, rfl⟩
  · exact ⟨List.all_eq_true.1 rfl, by decide, rfl⟩
  · exact ⟨Guard.keyword_isKeywordChar opening, by cases opening <;> decide, Guard.ofKeyword_keyword opening⟩

theorem next_line (d : Directive) (more : List Char) :
    (Scanner.ofText (d.line.toList ++ more)).atEnd = false ∧
      (Scanner.ofText (d.line.toList ++ more)).next = (Scanner.ofText (d.line.toList ++ more)).readLexeme false '#'
        (d.kind.keyword.toList ++ ' ' :: d.args.toList ++ more) := by
  apply Scanner.next_of_gapLength_eq_zero
  · rw [Scanner.ofText, toList_line, List.cons_append]
  · rw [Scanner.ofText, toList_line, List.cons_append, Lexeme.gapLength_cons (by decide), if_neg (by decide)]

section Keyword

variable (hword : ∀ c ∈ d.kind.keyword.toList, isKeywordChar c = true)
include hword

/-- A directive goes on from its keyword to where it goes on from its arguments. -/
theorem directiveExtent_line (more : List Char) :
    Lexeme.directiveExtent (d.kind.keyword.toList ++ ' ' :: d.args.toList ++ more) =
      (Lexeme.directiveExtent (d.args.toList ++ more)).behind (d.kind.keyword.toList.length + 1) := by
  have hordinary : ∀ c ∈ d.kind.keyword.toList ++ [' '], Lexeme.Ordinary c := by
    intro c hc
    rcases List.mem_append.1 hc with hc | hc
    · exact Lexeme.ordinary_of_isKeywordChar (hword c hc)
    · obtain rfl : c = ' ' := List.mem_singleton.1 hc
      exact Lexeme.ordinary_of_isBlank rfl (by decide)
  have hextent := Lexeme.directiveExtent_append hordinary (d.args.toList ++ more)
  simpa using hextent

theorem lexeme_line (hparse : parse d.line = d) (hwhole : Lexeme.Whole d.args.toList)
    (hruns : Lexeme.directiveRunsOn d.args.toList = false) (more : List Char) :
    Lexeme.lexeme '#' (d.kind.keyword.toList ++ ' ' :: d.args.toList ++ '\n' :: more) =
      ⟨.ok (.directive d), (d.kind.keyword.toList ++ ' ' :: d.args.toList).length⟩ := by
  have hextent : Lexeme.directiveExtent (d.kind.keyword.toList ++ ' ' :: d.args.toList ++ '\n' :: more) =
      ⟨(d.kind.keyword.toList ++ ' ' :: d.args.toList).length, false⟩ := by
    rw [directiveExtent_line hword, Lexeme.directiveExtent_append_newline hruns, hwhole]
    simp only [Lexeme.Extent.behind, Lexeme.Extent.mk.injEq, and_true, List.length_append, List.length_cons]
    omega
  rw [Lexeme.lexeme_directive, Lexeme.directive, hextent]
  simp only [Bool.false_eq_true, if_false, List.take_left]
  rw [← toList_line, String.ofList_toList, hparse]

/-- The line of a directive that is all of its text, and does not run on, ends before the next line. -/
theorem delimitsItself (hparse : parse d.line = d) (hwhole : Lexeme.Whole d.args.toList)
    (hruns : Lexeme.directiveRunsOn d.args.toList = false) (text : String) :
    d.DelimitsItself text := by
  have hsource : (d.line ++ "\n" ++ text).toList = d.line.toList ++ '\n' :: text.toList := by simp
  obtain ⟨hend, hnext⟩ := next_line d ('\n' :: text.toList)
  have htoken : (Scanner.ofText (d.line.toList ++ '\n' :: text.toList)).next =
      (.ok ⟨.directive d, d.line, ⟨0, byteLength d.line.toList⟩, 1, false⟩,
        ⟨.ofText (d.line.toList ++ '\n' :: text.toList), byteLength d.line.toList, '\n' :: text.toList⟩) := by
    have hone : (LineIndex.ofText (d.line.toList ++ '\n' :: text.toList)).lineOf 0 = 1 := by
      rw [LineIndex.lineOf_ofText, newlinesBefore]
    have hlength : (d.kind.keyword.toList ++ ' ' :: d.args.toList).length + 1 = d.line.toList.length := by
      rw [toList_line, List.length_cons]
    rw [hnext, Scanner.readLexeme, lexeme_line hword hparse hwhole hruns]
    simp only [Scanner.advance, Scanner.ofText, hlength, List.take_left, List.drop_left, ← toList_line, String.ofList_toList,
      hone, Nat.zero_add]
  rw [DelimitsItself, hsource, Scanner.items_of_not_atEnd hend, htoken, Scanner.items_behind_newline]

/-- Before some text, the line of a directive whose arguments run on is read as more than the directive. -/
theorem exists_not_delimitsItself (hruns : Lexeme.directiveRunsOn d.args.toList = true) :
    ∃ text, ¬d.DelimitsItself text := by
  obtain ⟨more, hlength⟩ := Lexeme.exists_lt_length_of_directiveRunsOn hruns
  refine ⟨String.ofList more, fun hdelimits => ?_⟩
  have hsource : (d.line ++ "\n" ++ String.ofList more).toList = d.line.toList ++ '\n' :: more := by simp
  obtain ⟨hend, hnext⟩ := next_line d ('\n' :: more)
  rw [DelimitsItself, hsource, Scanner.items_of_not_atEnd hend, hnext] at hdelimits
  have htext := Scanner.text_of_readLexeme (List.cons.inj hdelimits).1
  have htaken := congrArg List.length htext
  have hle := Lexeme.directiveExtent_le (d.kind.keyword.toList ++ ' ' :: d.args.toList ++ '\n' :: more)
  rw [Lexeme.lexeme_directive, Lexeme.directive_tail, List.length_cons, List.length_take_of_le hle, directiveExtent_line hword,
    toList_line, List.length_cons] at htaken
  simp only [Lexeme.Extent.behind, List.length_append, List.length_cons] at htaken
  omega

end Keyword

end Directive

/-- A trimmed text has no carriage return at its end, so that it runs on over a backslash there. -/
theorem getLast?_of_runsOn {text : String} (htrimmed : Text.Trimmed text) (hruns : Lexeme.runsOn text.toList = true) :
    text.toList.getLast? = some '\\' := by
  by_cases hslash : ['\\'] <:+ text.toList
  · obtain ⟨front, hfront⟩ := hslash
    rw [← hfront, List.getLast?_concat]
  · have hreturn : ¬['\\', '\r'] <:+ text.toList := by
      rintro ⟨front, hfront⟩
      have hblank := Text.trim_getLast? text.toList '\r' (by rw [htrimmed.2, ← hfront]; simp)
      cases hblank
    rw [runsOn_eq_false_iff.2 ⟨hslash, hreturn⟩] at hruns
    cases hruns

/-- The line of a directive with a condition delimits itself unless the condition runs on, which it does only over a
backslash at its end. -/
theorem guard_line_delimits_itself_iff {source : String} {tokens : List Token} (htokens : tokenize source = .ok tokens)
    {token : Token} (htoken : token ∈ tokens) {d : Directive} (hdirective : token.directive? = some d)
    (hkind : d.kind = .elif ∨ ∃ opening, d.kind = .opening opening) (hargs : d.args ≠ "") :
    ((∀ text, d.DelimitsItself text) ↔ Lexeme.directiveRunsOn d.args.toList = false) ∧
      (Lexeme.directiveRunsOn d.args.toList = true → d.args.toList.getLast? = some '\\') := by
  obtain ⟨hword, hne, hkeyword⟩ := Directive.keyword_of_condition hkind
  obtain ⟨htrimmed, hwhole⟩ := fits_of_tokenize htokens token htoken d hdirective hargs
  have hparse : Directive.parse d.line = d := by rw [Directive.line, Directive.parse_line hword hne htrimmed, hkeyword]
  refine ⟨⟨fun hdelimits => ?_, Directive.delimitsItself hword hparse hwhole⟩, fun hruns => ?_⟩
  · by_contra hruns
    obtain ⟨text, htext⟩ := Directive.exists_not_delimitsItself hword (Bool.eq_true_of_not_eq_false hruns)
    exact htext (hdelimits text)
  · have hclosed : (Lexeme.directiveExtent d.args.toList).unterminated = false := by rw [hwhole]
    exact getLast?_of_runsOn htrimmed (Lexeme.runsOn_of_directiveRunsOn hruns hclosed)

/-- A condition over two lines, with a backslash at the end of a comment. -/
theorem guard_line_delimits_itself_iff_comment :
    let source := "#if A /* b\n c */ // d\\ \n#endif"
    let d : Directive := ⟨.opening .expression, "A /* b\n c */ // d\\"⟩
    (∃ token ∈ (tokenize source).toOption.getD [], token.directive? = some d) ∧ ∀ text, d.DelimitsItself text := by
  intro source d
  have htokens : tokenize source = .ok ((tokenize source).toOption.getD []) := by decide +kernel
  have hmem : ∃ token ∈ (tokenize source).toOption.getD [], token.directive? = some d := by decide +kernel
  obtain ⟨token, htoken, hdirective⟩ := hmem
  have hdelimits := guard_line_delimits_itself_iff htokens htoken hdirective (.inr ⟨.expression, rfl⟩) (by decide)
  exact ⟨⟨token, htoken, hdirective⟩, hdelimits.1.2 (by decide +kernel)⟩

/-- A backslash that a blank keeps from the end of the line comes to stand there in the guard line, which takes the
declaration behind it along. -/
theorem guard_line_runs_on :
    let source := "#ifdef A\\ \nint a;\n#endif"
    let d : Directive := ⟨.opening .defined, "A\\"⟩
    (∃ tokens, tokenize source = .ok tokens ∧ ∃ token ∈ tokens, token.directive? = some d) ∧
      d.line = Guard.openingLine ⟨.defined, "A\\", [], false⟩ ∧
      (∃ tokens, tokenize (d.line ++ "\n" ++ "int a;") = .ok tokens ∧
        tokens.map (fun token => (token.kind, token.text)) =
          [(.directive ⟨.opening .defined, "A\\\nint a;"⟩, "#ifdef A\\\nint a;"), (.eof, "")]) ∧
      ¬d.DelimitsItself "int a;" := by
  intro source d
  have htokens : tokenize source = .ok ((tokenize source).toOption.getD []) := by decide +kernel
  have hline : tokenize (d.line ++ "\n" ++ "int a;") = .ok ((tokenize (d.line ++ "\n" ++ "int a;")).toOption.getD []) := by
    decide +kernel
  refine ⟨⟨_, htokens, by decide +kernel⟩, rfl, ⟨_, hline, by decide +kernel⟩, ?_⟩
  rw [Directive.DelimitsItself]
  decide +kernel

end CHeader
