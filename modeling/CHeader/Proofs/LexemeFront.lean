import CHeader.Proofs.LexemeContext

/-!
# Lexemes of a text cut off behind them

A token is read in the same way if the text ends behind it, or at some place further on
(`lexeme_of_append`). What was looked at behind the token was only to see where it ends.
-/

namespace CHeader.Lexeme

variable {cs more : List Char}

/-! ### Measures -/

theorem length_takeWhile_of_append {p : Char → Bool} (h : ((cs ++ more).takeWhile p).length ≤ cs.length) :
    (cs.takeWhile p).length = ((cs ++ more).takeWhile p).length := by
  rw [List.takeWhile_append] at h ⊢
  split_ifs at h ⊢ with hall
  · rw [List.length_append] at h ⊢
    omega
  · rfl

theorem gapLength_cons {c : Char} (h : c ≠ '\\') (cs : List Char) :
    gapLength (c :: cs) = if isBlank c then 1 + gapLength cs else 0 := by
  rw [gapLength]
  · rintro ds rfl
    exact absurd rfl h
  · rintro ds rfl
    exact absurd rfl h

theorem gapLength_of_append (h : gapLength (cs ++ more) < cs.length) : gapLength cs = gapLength (cs ++ more) := by
  fun_induction gapLength cs with
  | case1 => cases h
  | case2 cs ih =>
    simp only [List.cons_append, gapLength, List.length_cons] at h ⊢
    rw [ih (by omega)]
  | case3 cs ih =>
    simp only [List.cons_append, gapLength, List.length_cons] at h ⊢
    rw [ih (by omega)]
  | case4 c cs hnewline hreturn hblank ih =>
    have hne : c ≠ '\\' := by
      rintro rfl
      cases hblank
    rw [List.cons_append, gapLength_cons hne, if_pos hblank] at h ⊢
    rw [List.length_cons] at h
    rw [ih (by omega)]
  | case5 c cs hnewline hreturn hblank =>
    rw [List.cons_append] at h ⊢
    rw [gapLength, if_neg hblank]
    · rintro ds rfl hds
      rcases cs with _ | ⟨d, cs⟩
      · simp_all [gapLength]
      · exact hnewline cs rfl (by simp_all)
    · rintro ds rfl hds
      rcases cs with _ | ⟨d, _ | ⟨e, cs⟩⟩
      · simp_all [gapLength]
      · simp only [List.cons_append, List.nil_append, List.cons.injEq] at hds
        obtain ⟨rfl, rfl⟩ := hds
        simp only [List.cons_append, List.nil_append, gapLength, List.length_cons, List.length_nil] at h
        omega
      · exact hreturn cs rfl (by simp_all)

theorem numberLength_of_append (h : numberLength (cs ++ more) ≤ cs.length) :
    numberLength cs = numberLength (cs ++ more) := by
  fun_induction numberLength cs with
  | case1 =>
    simp only [List.nil_append, List.length_nil, Nat.le_zero] at h ⊢
    exact h.symm
  | case2 c hc =>
    cases more with
    | nil => simp [numberLength, hc]
    | cons d more =>
      simp only [List.cons_append, List.nil_append, numberLength, hc, if_true, List.length_singleton] at h ⊢
      split_ifs at h ⊢ <;> omega
  | case3 c hc =>
    have hexponent : isExponent c = false := by
      by_contra hexponent
      simp only [isExponent, Bool.or_eq_true, decide_eq_true_eq, Bool.not_eq_false] at hexponent
      rcases hexponent with ((rfl | rfl) | rfl) | rfl <;> exact hc (by decide)
    cases more with
    | nil => simp [numberLength, hc]
    | cons d more => simp [numberLength, hc, hexponent]
  | case4 c d cs hsigned ih =>
    simp only [List.cons_append, numberLength, hsigned, if_true, List.length_cons] at h ⊢
    rw [ih (by omega)]
  | case5 c d cs hsigned hc ih =>
    simp only [List.cons_append, numberLength, hc, if_true, List.length_cons] at h ih ⊢
    rw [if_neg hsigned] at h ⊢
    rw [ih (by omega)]
  | case6 c d cs hsigned hc =>
    simp only [List.cons_append, numberLength]
    rw [if_neg hsigned, if_neg hc]

theorem commentLength?_of_append {n : Nat} (h : commentLength? (cs ++ more) = some n) (hn : n ≤ cs.length) :
    commentLength? cs = some n := by
  fun_induction commentLength? cs generalizing n with
  | case1 =>
    obtain rfl : n = 0 := Nat.le_zero.1 hn
    rw [List.nil_append] at h
    unfold commentLength? at h
    split at h <;> simp at h
  | case2 cs => simpa [commentLength?] using h
  | case3 c cs hclose ih =>
    rw [List.cons_append, commentLength?] at h
    · obtain ⟨m, hm, rfl⟩ := Option.map_eq_some_iff.1 h
      rw [ih hm (by simpa using hn)]
      rfl
    · rintro ds rfl hds
      cases cs with
      | nil =>
        obtain rfl : more = '/' :: ds := hds
        simp [commentLength?] at h
        simp [← h] at hn
      | cons d cs => exact hclose cs rfl (by simp_all)

theorem quotedLength?_of_append {quote : Char} {n : Nat} (h : quotedLength? quote (cs ++ more) = some n)
    (hn : n ≤ cs.length) : quotedLength? quote cs = some n := by
  fun_induction quotedLength? quote cs generalizing n with
  | case1 =>
    obtain rfl : n = 0 := Nat.le_zero.1 hn
    rw [List.nil_append] at h
    unfold quotedLength? at h
    split at h
    · cases h
    · cases h
    · simp at h
    · split_ifs at h <;> simp at h
  | case2 =>
    cases more with
    | nil => simp [quotedLength?] at h
    | cons d more =>
      rw [List.singleton_append, quotedLength?] at h
      obtain ⟨m, hm, rfl⟩ := Option.map_eq_some_iff.1 h
      simp at hn
  | case3 d cs ih =>
    rw [List.cons_append, List.cons_append, quotedLength?] at h
    obtain ⟨m, hm, rfl⟩ := Option.map_eq_some_iff.1 h
    rw [ih hm (by simpa using hn)]
    rfl
  | case4 cs hend hescape =>
    rw [List.cons_append, quotedLength?_cons (by decide), if_pos rfl] at h
    cases h
  | case5 cs hend hescape hnewline =>
    rw [List.cons_append, quotedLength?_cons (ne_backslash hend hescape), if_neg hnewline, if_pos rfl] at h
    exact h
  | case6 c cs hend hescape hnewline hquote ih =>
    rw [List.cons_append, quotedLength?_cons (ne_backslash hend hescape), if_neg hnewline, if_neg hquote] at h
    obtain ⟨m, hm, rfl⟩ := Option.map_eq_some_iff.1 h
    rw [ih hm (by simpa using hn)]
    rfl

/-! ### Directives -/

/-- A character that stands alone in a directive does so in a longer text, if the directive ends where it did. -/
theorem Plain.append {c : Char} (h : Plain c cs) (hlength : (directiveExtent (c :: (cs ++ more))).length ≤ cs.length + 1) :
    Plain c (cs ++ more) := by
  by_cases hne : cs = []
  · subst hne
    refine ⟨h.newline, ?_, ?_, ?_, ?_⟩
    · rintro ds rfl rfl
      simp only [List.nil_append, directiveExtent, Extent.behind, List.length_nil] at hlength
      omega
    · rintro ds rfl rfl
      simp only [List.nil_append, directiveExtent, Extent.behind, List.length_nil] at hlength
      omega
    · rintro ds rfl rfl
      simp only [List.nil_append, directiveExtent, List.length_nil] at hlength
      split at hlength <;> simp only [Extent.behind] at hlength <;> omega
    · rintro ds rfl rfl
      simp only [List.nil_append, directiveExtent, List.length_nil] at hlength
      omega
  · apply h.append_of_ne_nil hne
    rintro rfl rfl hhead
    obtain ⟨ds, rfl⟩ := List.head?_eq_some_iff.1 hhead
    simp only [List.cons_append, List.nil_append, directiveExtent, Extent.behind, List.length_singleton] at hlength
    omega

/-- A directive is the same in a text that ends behind it. -/
theorem directiveExtent_of_append (hlength : (directiveExtent (cs ++ more)).length ≤ cs.length)
    (hclosed : (directiveExtent (cs ++ more)).unterminated = false) : directiveExtent cs = directiveExtent (cs ++ more) := by
  fun_induction directiveExtent cs with
  | case1 =>
    rw [List.nil_append] at hlength hclosed ⊢
    cases hextent : directiveExtent more with
    | mk length unterminated => simp_all
  | case2 => simp [directiveExtent]
  | case3 cs ih =>
    simp only [List.cons_append, directiveExtent, Extent.behind, List.length_cons] at hlength hclosed ⊢
    rw [ih (by omega) hclosed]
  | case4 cs ih =>
    simp only [List.cons_append, directiveExtent, Extent.behind, List.length_cons] at hlength hclosed ⊢
    rw [ih (by omega) hclosed]
  | case5 cs n hn ih =>
    have hle := commentLength?_le hn
    simp only [List.cons_append, directiveExtent, commentLength?_append hn, Extent.behind, List.length_cons] at hlength hclosed ⊢
    rw [List.drop_append_of_le_length hle] at hlength hclosed ⊢
    rw [ih (by rw [List.length_drop]; omega) hclosed]
  | case6 cs hn =>
    simp only [List.cons_append, directiveExtent, List.length_cons] at hlength hclosed
    cases hm : commentLength? (cs ++ more) with
    | none => simp [hm] at hclosed
    | some m =>
      simp only [hm, Extent.behind] at hlength
      rw [commentLength?_of_append hm (by omega)] at hn
      cases hn
  | case7 cs =>
    simp only [List.cons_append, directiveExtent, List.length_cons, lineLength] at hlength ⊢
    rw [@length_takeWhile_of_append cs more _ (by omega)]
  | case8 c cs h₁ h₂ h₃ h₄ h₅ hquote n hn ih =>
    have hplain := Plain.append ⟨h₁, h₂, h₃, h₄, h₅⟩ hlength
    have hle := quotedLength?_le hn
    rw [List.cons_append, directiveExtent_cons hplain, if_pos hquote, quotedLength?_append hn] at hlength hclosed ⊢
    simp only [Extent.behind, List.length_cons] at hlength hclosed ⊢
    rw [List.drop_append_of_le_length hle] at hlength hclosed ⊢
    rw [ih (by rw [List.length_drop]; omega) hclosed]
  | case9 c cs h₁ h₂ h₃ h₄ h₅ hquote hn ih =>
    have hplain := Plain.append ⟨h₁, h₂, h₃, h₄, h₅⟩ hlength
    rw [List.cons_append, directiveExtent_cons hplain, if_pos hquote] at hlength hclosed ⊢
    cases hm : quotedLength? c (cs ++ more) with
    | none =>
      simp only [hm, Extent.behind, List.length_cons] at hlength hclosed ⊢
      rw [ih (by omega) hclosed]
    | some m =>
      simp only [hm, Extent.behind, List.length_cons] at hlength
      rw [quotedLength?_of_append hm (by omega)] at hn
      cases hn
  | case10 c cs h₁ h₂ h₃ h₄ h₅ hquote ih =>
    have hplain := Plain.append ⟨h₁, h₂, h₃, h₄, h₅⟩ hlength
    rw [List.cons_append, directiveExtent_cons hplain, if_neg hquote] at hlength hclosed ⊢
    simp only [Extent.behind, List.length_cons] at hlength hclosed ⊢
    rw [ih (by omega) hclosed]

/-! ### Lexemes -/

variable {c : Char} {kind : TokenKind} {n : Nat}

theorem literal_of_append {quote : Char} {toKind : String → TokenKind} {fault : LexicalFault} {opening : Nat}
    (h : literal quote toKind fault c opening (cs ++ more) = ⟨.ok kind, n⟩) (hn : n ≤ cs.length) :
    literal quote toKind fault c opening cs = ⟨.ok kind, n⟩ := by
  rw [literal] at h
  split at h
  case h_1 m hm =>
    cases h
    rw [List.drop_append_of_le_length (by omega)] at hm
    have hm' := quotedLength?_of_append hm (by rw [List.length_drop]; omega)
    rw [literal, hm']
    simp only
    rw [List.take_append_of_le_length hn]
  case h_2 => cases h

theorem literal_tail_lt {quote : Char} {toKind : String → TokenKind} {fault : LexicalFault} {opening : Nat}
    (h : literal quote toKind fault c opening cs = ⟨.ok kind, n⟩) : opening ≤ n := by
  rw [literal] at h
  split at h
  · cases h
    exact Nat.le_add_right _ _
  · cases h

theorem word_of_append (h : word c (cs ++ more) = ⟨.ok kind, n⟩) (hn : n ≤ cs.length) : word c cs = ⟨.ok kind, n⟩ := by
  have hlength : wordLength (cs ++ more) ≤ n := by
    rw [word_eq] at h
    split_ifs at h
    · exact Nat.le_of_succ_le (literal_tail_lt h)
    · exact Nat.le_of_succ_le (literal_tail_lt h)
    · cases h
      exact Nat.le_refl _
    · cases h
      exact Nat.le_refl _
  have hword : wordLength cs = wordLength (cs ++ more) := length_takeWhile_of_append (Nat.le_trans hlength hn)
  have hle := wordLength_le cs
  have htake : (cs ++ more).take (wordLength cs) = cs.take (wordLength cs) := List.take_append_of_le_length hle
  have hdrop : (cs ++ more).drop (wordLength cs) = cs.drop (wordLength cs) ++ more := List.drop_append_of_le_length hle
  rw [word_eq, ← hword, htake, hdrop] at h
  rw [word_eq]
  rcases Nat.lt_or_eq_of_le hle with hlt | heq
  · have hhead : (cs.drop (wordLength cs) ++ more).head? = (cs.drop (wordLength cs)).head? := by
      obtain ⟨d, ds, hcons⟩ := List.exists_cons_of_ne_nil (mt List.drop_eq_nil_iff.1 (Nat.not_le.2 hlt))
      rw [hcons]
      rfl
    rw [hhead] at h
    split_ifs at h ⊢
    · exact literal_of_append h hn
    · exact literal_of_append h hn
    · simpa [plainWord, htake] using h
    · simpa [plainWord, htake] using h
  · -- The word is all that is left, so that no literal was read, which would be longer.
    have hnil : cs.drop (wordLength cs) = [] := List.drop_eq_nil_iff.2 (Nat.le_of_eq heq.symm)
    simp only [hnil, List.head?_nil, reduceCtorEq, if_false, ite_self]
    split_ifs at h
    · exact absurd (literal_tail_lt h) (by omega)
    · exact absurd (literal_tail_lt h) (by omega)
    · simpa [plainWord, htake] using h
    · simpa [plainWord, htake] using h

theorem number_of_append (h : number c (cs ++ more) = ⟨.ok kind, n⟩) (hn : n ≤ cs.length) :
    number c cs = ⟨.ok kind, n⟩ := by
  simp only [number] at h ⊢
  have hlength : numberLength (cs ++ more) = n := by
    cases h
    rfl
  rw [@numberLength_of_append cs more (by omega), ← h, List.take_append_of_le_length (by omega)]

theorem directive_of_append (h : directive (cs ++ more) = ⟨.ok kind, n⟩) (hn : n ≤ cs.length) :
    directive cs = ⟨.ok kind, n⟩ := by
  simp only [directive] at h ⊢
  split_ifs at h with hopen
  · cases h
  · have hlength : (directiveExtent (cs ++ more)).length = n := by
      cases h
      rfl
    rw [@directiveExtent_of_append cs more (by omega) (by simpa using hopen), if_neg hopen, ← h,
      List.take_append_of_le_length (by omega)]

theorem blockComment_of_append (h : blockComment (cs ++ more) = ⟨.ok kind, n⟩) (hn : n ≤ cs.length) :
    blockComment cs = ⟨.ok kind, n⟩ := by
  rw [blockComment] at h ⊢
  split at h
  case h_1 m hm =>
    cases h
    rw [List.drop_append_of_le_length (by omega)] at hm
    rw [commentLength?_of_append hm (by rw [List.length_drop]; omega)]
  case h_2 => cases h

theorem ofStart?_of_append {p : Punct} {m : Nat} (h : Punct.ofStart? (cs ++ more) = some (p, m)) (hm : m ≤ cs.length) :
    Punct.ofStart? cs = some (p, m) := by
  obtain ⟨⟨spelling, p'⟩, hfind, heq⟩ := Option.map_eq_some_iff.1 h
  cases heq
  obtain ⟨hmatch, before, behind, htable, hnone⟩ := List.find?_eq_some_iff_append.1 hfind
  have hfront : spelling <+: cs :=
    List.prefix_of_prefix_length_le (List.isPrefixOf_iff_prefix.1 hmatch) (List.prefix_append cs more) hm
  have hfind' : Punct.table.find? (·.1.isPrefixOf cs) = some (spelling, p) := by
    refine List.find?_eq_some_iff_append.2 ⟨List.isPrefixOf_iff_prefix.2 hfront, before, behind, htable, ?_⟩
    intro entry hentry
    have hentry := hnone entry hentry
    simp only [Bool.not_eq_true', Bool.eq_false_iff, ne_eq, List.isPrefixOf_iff_prefix] at hentry ⊢
    exact fun hfront => hentry (hfront.trans (List.prefix_append cs more))
  rw [Punct.ofStart?, hfind']
  rfl

theorem punct_of_append (h : punct c (cs ++ more) = ⟨.ok kind, n⟩) (hn : n ≤ cs.length) : punct c cs = ⟨.ok kind, n⟩ := by
  rw [punct] at h ⊢
  split at h
  case h_1 p m hstart =>
    cases h
    have hm : m ≤ (c :: cs).length := by
      rw [List.length_cons]
      omega
    rw [@ofStart?_of_append (c :: cs) more p m hstart hm]
  case h_2 => cases h

/-- A point that is a token of its own stands before no digit. -/
theorem point_of_lexeme_tail_eq_zero (h : lexeme c more = ⟨.ok kind, 0⟩) :
    (decide (c = '.') && startsWithDigit more) = (decide (c = '.') && startsWithDigit []) := by
  by_cases hc : c = '.'
  · subst hc
    cases more with
    | nil => rfl
    | cons d more =>
      by_cases hd : d.isDigit
      · have hnumber : numberLength (d :: more) ≠ 0 := by
          have hchar : isNumberChar d = true := by simp [isNumberChar, Char.isAlphanum, hd]
          cases more with
          | nil => simp [numberLength, hchar]
          | cons e more =>
            rw [numberLength]
            split_ifs <;> omega
        rw [lexeme, if_neg (by decide), if_pos (by simpa [startsWithDigit] using hd)] at h
        simp only [number, Reading.mk.injEq] at h
        exact absurd h.2 hnumber
      · simp [startsWithDigit, hd]
  · simp [hc]

/-- A slash that is a token of its own begins no comment. -/
theorem slash_of_lexeme_tail_eq_zero (h : lexeme c more = ⟨.ok kind, 0⟩) (d : Char) (hd : d = '/' ∨ d = '*') :
    (decide (c = '/') && decide (more.head? = some d)) = (decide (c = '/') && decide (([] : List Char).head? = some d)) := by
  by_cases hc : c = '/'
  · subst hc
    cases more with
    | nil => rfl
    | cons e more =>
      by_cases he : e = d
      · subst he
        exfalso
        rcases hd with rfl | rfl
        · rw [lexeme, if_neg (by decide), if_neg (by simp), if_neg (by decide), if_neg (by decide), if_neg (by decide),
            if_pos (by simp)] at h
          simp [lineLength] at h
        · rw [lexeme, if_neg (by decide), if_neg (by simp), if_neg (by decide), if_neg (by decide), if_neg (by decide),
            if_neg (by simp), if_pos (by simp), blockComment] at h
          split at h
          · simp at h
          · cases h
      · simp [he]
  · simp [hc]

/-- A token is read in the same way if the text ends behind it. -/
theorem lexeme_of_append (h : lexeme c (cs ++ more) = ⟨.ok kind, n⟩) (hn : n ≤ cs.length) : lexeme c cs = ⟨.ok kind, n⟩ := by
  cases cs with
  | nil =>
    -- Only the first character is left; what was looked at behind it began no longer token.
    obtain rfl : n = 0 := Nat.le_zero.1 hn
    rw [List.nil_append] at h
    have hslash := slash_of_lexeme_tail_eq_zero h
    rw [lexeme, point_of_lexeme_tail_eq_zero h, hslash '/' (.inl rfl), hslash '*' (.inr rfl)] at h
    rw [lexeme]
    split_ifs at h ⊢ with hword hnumber hchar hstring hdirective hline hblock
    · exact word_of_append h hn
    · exact number_of_append h hn
    · exact literal_of_append h hn
    · exact literal_of_append h hn
    · exact directive_of_append h hn
    · simp at hline
    · simp at hblock
    · exact punct_of_append h hn
  | cons d cs =>
    have hdigit : startsWithDigit (d :: cs ++ more) = startsWithDigit (d :: cs) := rfl
    have hhead : (d :: cs ++ more).head? = (d :: cs).head? := rfl
    rw [lexeme, hdigit, hhead] at h
    rw [lexeme]
    split_ifs at h ⊢ with hword hnumber hchar hstring hdirective hline hblock
    · exact word_of_append h hn
    · exact number_of_append h hn
    · exact literal_of_append h hn
    · exact literal_of_append h hn
    · exact directive_of_append h hn
    · cases h
      rw [lineLength, length_takeWhile_of_append hn, lineLength]
    · exact blockComment_of_append h hn
    · exact punct_of_append h hn

/-! ### A separator at the end -/

section Concat

variable {d : Char}

theorem gapLength_concat (hd : d ≠ '\n') (h : gapLength cs < cs.length) : gapLength (cs ++ [d]) = gapLength cs := by
  fun_induction gapLength cs with
  | case1 => cases h
  | case2 cs ih =>
    simp only [List.length_cons] at h
    rw [List.cons_append, List.cons_append, gapLength, ih (by omega)]
  | case3 cs ih =>
    simp only [List.length_cons] at h
    rw [List.cons_append, List.cons_append, List.cons_append, gapLength, ih (by omega)]
  | case4 c cs _ _ hblank ih =>
    have hc : c ≠ '\\' := by
      rintro rfl
      cases hblank
    simp only [List.length_cons] at h
    rw [List.cons_append, gapLength_cons hc, if_pos hblank, ih (by omega)]
  | case5 c cs hnewline hreturn hblank =>
    rw [List.cons_append, gapLength, if_neg hblank]
    · rintro ds hc hds
      cases cs with
      | nil => exact hd (by simp_all)
      | cons e es => exact hnewline es hc (by simp_all)
    · rintro ds hc hds
      rcases cs with _ | ⟨e, _ | ⟨e', es⟩⟩
      · simp at hds
      · exact hd (by simp_all)
      · exact hreturn es hc (by simp_all)

/-- A literal that is not closed is not closed by another character than its quote. -/
theorem quotedLength?_concat {quote : Char} (h : quotedLength? quote cs = none) (hd : d ≠ quote) :
    quotedLength? quote (cs ++ [d]) = none := by
  fun_induction quotedLength? quote cs with
  | case1 =>
    by_cases hescape : d = '\\'
    · rw [hescape]
      rfl
    · rw [List.nil_append, quotedLength?_cons hescape, if_neg hd]
      split_ifs <;> rfl
  | case2 => rfl
  | case3 c cs ih => rw [List.cons_append, List.cons_append, quotedLength?, ih (by simpa using h), Option.map_none]
  | case4 cs hend hescape => rw [List.cons_append, quotedLength?_cons (by decide), if_pos rfl]
  | case5 => cases h
  | case6 c cs hend hescape hnewline hquote ih =>
    rw [List.cons_append, quotedLength?_cons (ne_backslash hend hescape), if_neg hnewline, if_neg hquote,
      ih (by simpa using h), Option.map_none]

theorem lineLength_append {more : List Char} (h : lineLength cs < cs.length) : lineLength (cs ++ more) = lineLength cs := by
  induction cs with
  | nil => cases h
  | cons c cs ih =>
    simp only [lineLength, List.cons_append, List.takeWhile_cons] at h ih ⊢
    split_ifs at h ⊢
    · rw [List.length_cons, List.length_cons, ih (by simpa using h)]
    · rfl

/-- A directive that ends with a line does so before one more character. -/
theorem directiveExtent_concat (hd : Separator d) (hlength : (directiveExtent cs).length < cs.length) :
    directiveExtent (cs ++ [d]) = directiveExtent cs := by
  have hplain : ∀ {c : Char} {cs : List Char}, Plain c cs → (directiveExtent (c :: cs)).length < (c :: cs).length →
      Plain c (cs ++ [d]) := by
    intro c cs h hlength
    have hne : cs ≠ [] := by
      rintro rfl
      have hone : (directiveExtent [c]).length = 1 := by
        rw [directiveExtent_cons h]
        split_ifs <;> simp [quotedLength?, directiveExtent, Extent.behind]
      simp [hone] at hlength
    apply h.append_of_ne_nil hne
    rintro rfl rfl hhead
    obtain rfl : d = '\n' := by simpa using hhead
    simp [directiveExtent, Extent.behind] at hlength
  fun_induction directiveExtent cs with
  | case1 => cases hlength
  | case2 => simp [directiveExtent]
  | case3 cs ih =>
    simp only [Extent.behind, List.length_cons] at hlength
    rw [List.cons_append, List.cons_append, directiveExtent, ih (by omega)]
  | case4 cs ih =>
    simp only [Extent.behind, List.length_cons] at hlength
    rw [List.cons_append, List.cons_append, List.cons_append, directiveExtent, ih (by omega)]
  | case5 cs n hn ih =>
    have hle := commentLength?_le hn
    simp only [Extent.behind, List.length_cons] at hlength
    rw [List.cons_append, List.cons_append, directiveExtent, commentLength?_append hn]
    simp only
    rw [List.drop_append_of_le_length hle, ih (by rw [List.length_drop]; omega)]
  | case6 cs hn =>
    simp only [List.length_cons] at hlength
    omega
  | case7 cs =>
    simp only [List.length_cons] at hlength
    rw [List.cons_append, List.cons_append, directiveExtent, lineLength_append (by omega)]
  | case8 c cs h₁ h₂ h₃ h₄ h₅ hquote n hn ih =>
    have hle := quotedLength?_le hn
    have hextent := directiveExtent_cons (⟨h₁, h₂, h₃, h₄, h₅⟩ : Plain c cs)
    rw [if_pos hquote, hn] at hextent
    have hc := hplain ⟨h₁, h₂, h₃, h₄, h₅⟩ (by rw [hextent]; exact hlength)
    rw [List.cons_append, directiveExtent_cons hc, if_pos hquote, quotedLength?_append hn]
    simp only [Extent.behind, List.length_cons] at hlength ⊢
    rw [List.drop_append_of_le_length hle, ih (by rw [List.length_drop]; omega)]
  | case9 c cs h₁ h₂ h₃ h₄ h₅ hquote hn ih =>
    have hextent := directiveExtent_cons (⟨h₁, h₂, h₃, h₄, h₅⟩ : Plain c cs)
    rw [if_pos hquote, hn] at hextent
    have hc := hplain ⟨h₁, h₂, h₃, h₄, h₅⟩ (by rw [hextent]; exact hlength)
    have hne : d ≠ c := by
      rintro rfl
      simp only [Bool.or_eq_true, decide_eq_true_eq] at hquote
      rcases hquote with rfl | rfl
      · exact hd.quote.2 rfl
      · exact hd.quote.1 rfl
    rw [List.cons_append, directiveExtent_cons hc, if_pos hquote, quotedLength?_concat hn hne]
    simp only [Extent.behind, List.length_cons] at hlength ⊢
    rw [ih (by omega)]
  | case10 c cs h₁ h₂ h₃ h₄ h₅ hquote ih =>
    have hextent := directiveExtent_cons (⟨h₁, h₂, h₃, h₄, h₅⟩ : Plain c cs)
    rw [if_neg hquote] at hextent
    have hc := hplain ⟨h₁, h₂, h₃, h₄, h₅⟩ (by rw [hextent]; exact hlength)
    rw [List.cons_append, directiveExtent_cons hc, if_neg hquote]
    simp only [Extent.behind, List.length_cons] at hlength ⊢
    rw [ih (by omega)]

theorem directive_concat (hd : Separator d) (htoken : directive cs = ⟨.ok kind, n⟩) (hn : n < cs.length) :
    directive (cs ++ [d]) = directive cs := by
  simp only [directive] at htoken ⊢
  split_ifs at htoken with hopen
  · cases htoken
  · obtain rfl : (directiveExtent cs).length = n := by
      cases htoken
      rfl
    rw [directiveExtent_concat hd hn, if_neg hopen, if_neg hopen, List.take_append_of_le_length hn.le]

/-- A token that does not reach the end of the text is read as before if a separator is written there. -/
theorem lexeme_concat (hd : Separator d) (h : lexeme c cs = ⟨.ok kind, n⟩) (hn : n < cs.length) :
    lexeme c (cs ++ [d]) = ⟨.ok kind, n⟩ :=
  lexeme_append hd h (fun _ _ hdirective => directive_concat hd hdirective hn) fun _ hline => lineLength_append (hline ▸ hn)

end Concat

end CHeader.Lexeme
