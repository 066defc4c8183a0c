import CHeader.Token.Lexeme
import Mathlib.Data.List.Find
import Mathlib.Data.List.TakeWhile
import Mathlib.Tactic.SplitIfs

/-!
# Lexemes and the text behind them

A lexeme is read by looking at the characters it takes and at a few behind them. What stands behind the
end of a line does not matter, unless the line runs on: it ends in a backslash, or in one before a
carriage return (`runsOn`). So a text that does not run on is read in the same way whether it is the
whole text or further lines follow it (`lexeme_append_newline`). A directive runs
on less often than its text does: in a comment in the style of lines, a backslash continues nothing
(`directiveRunsOn`).
-/

namespace CHeader.Lexeme

/-- Whether a newline behind the text would be part of a continued line. -/
def runsOn : List Char → Bool
  | [] => false
  | ['\\'] => true
  | ['\\', '\r'] => true
  | _ :: cs => runsOn cs

theorem runsOn_of_cons {c : Char} {cs : List Char} (h : runsOn (c :: cs) = false) : runsOn cs = false := by
  unfold runsOn at h
  split at h <;> simp_all

theorem runsOn_of_append {cs ds : List Char} (h : runsOn (cs ++ ds) = false) : runsOn ds = false := by
  induction cs with
  | nil => exact h
  | cons c cs ih => exact ih (runsOn_of_cons h)

theorem runsOn_of_drop {cs : List Char} (h : runsOn cs = false) (n : Nat) : runsOn (cs.drop n) = false := by
  rw [← List.take_append_drop n cs] at h
  exact runsOn_of_append h

/-- A character that no token goes on with, whatever it stands behind. -/
structure Separator (d : Char) : Prop where
  word : isWordChar d = false
  number : isNumberChar d = false
  sign : isSign d = false
  quote : d ≠ '\'' ∧ d ≠ '"'
  comment : d ≠ '/' ∧ d ≠ '*'
  punct : ∀ entry ∈ Punct.table, d ∈ entry.1 → entry.1.length = 1

theorem separator_newline : Separator '\n' := by
  constructor <;> decide

/-! ### Measures -/

variable {cs more : List Char}

/-- A gap that ends before the end of the line does so whatever follows, and one that reaches it goes on. -/
theorem gapLength_append_newline (h : runsOn cs = false) :
    gapLength (cs ++ '\n' :: more) =
      if gapLength cs = cs.length then cs.length + 1 + gapLength more else gapLength cs := by
  fun_induction gapLength cs with
  | case1 => simp [gapLength, isBlank]
  | case2 cs ih =>
    have := ih (@runsOn_of_append ['\\', '\n'] _ h)
    simp only [List.cons_append, gapLength, this]
    split_ifs <;> simp_all <;> omega
  | case3 cs ih =>
    have := ih (@runsOn_of_append ['\\', '\r', '\n'] _ h)
    simp only [List.cons_append, gapLength, this]
    split_ifs <;> simp_all <;> omega
  | case4 c cs hnewline hreturn hblank ih =>
    have hrest := ih (runsOn_of_cons h)
    rw [List.cons_append, gapLength, if_pos hblank, hrest]
    · split_ifs <;> simp_all <;> omega
    · rintro cs' rfl hcs
      cases hblank
    · rintro cs' rfl hcs
      cases hblank
  | case5 c cs hnewline hreturn hblank =>
    rw [List.cons_append, gapLength, if_neg hblank]
    · simp
    · rintro cs' rfl hcs
      cases cs with
      | nil => cases h
      | cons d cs => exact hnewline cs rfl (by simp_all)
    · rintro cs' rfl hcs
      match cs with
      | [] => cases h
      | [d] => simp_all [runsOn]
      | d :: e :: cs => exact hreturn cs rfl (by simp_all)

theorem gapLength_le (cs : List Char) : gapLength cs ≤ cs.length := by
  fun_induction gapLength cs <;> simp_all <;> omega

theorem wordLength_append_separator {d : Char} (h : Separator d) : wordLength (cs ++ d :: more) = wordLength cs := by
  induction cs with
  | nil => simp [wordLength, h.word]
  | cons c cs ih =>
    simp only [wordLength, List.cons_append, List.takeWhile_cons] at ih ⊢
    split_ifs <;> simp [ih]

theorem lineLength_append_newline : lineLength (cs ++ '\n' :: more) = lineLength cs := by
  induction cs with
  | nil => simp [lineLength]
  | cons c cs ih =>
    simp only [lineLength, List.cons_append, List.takeWhile_cons] at ih ⊢
    split_ifs
    · rw [List.length_cons, List.length_cons, ih]
    · rfl

theorem numberLength_append_separator {d : Char} (h : Separator d) :
    numberLength (cs ++ d :: more) = numberLength cs := by
  have hexponent : isExponent d = false := by
    have hletter : isExponent d = true → isNumberChar d = true := by
      simp only [isExponent, Bool.or_eq_true, decide_eq_true_eq]
      rintro (((rfl | rfl) | rfl) | rfl) <;> rfl
    cases hd : isExponent d with
    | false => rfl
    | true => exact absurd (hletter hd) (by simp [h.number])
  fun_induction numberLength cs with
  | case1 => cases more <;> simp [numberLength, h.number, hexponent]
  | case2 c hc => cases more <;> simp [numberLength, hc, h.sign, h.number, hexponent]
  | case3 c hc => simp [numberLength, hc, h.sign]
  | case4 c d cs hsign ih => simp [numberLength, hsign, ih]
  | case5 c d cs hsign hc ih =>
    rw [List.cons_append] at ih
    rw [List.cons_append, List.cons_append, numberLength, if_neg hsign, if_pos hc, ih]
  | case6 c d cs hsign hc => simp [numberLength, hsign, hc]

theorem commentLength?_append {n : Nat} (h : commentLength? cs = some n) (more : List Char) :
    commentLength? (cs ++ more) = some n := by
  fun_induction commentLength? cs generalizing n with
  | case1 => cases h
  | case2 cs => simpa [commentLength?] using h
  | case3 c cs hne ih =>
    obtain ⟨m, hm, rfl⟩ := Option.map_eq_some_iff.1 h
    rw [List.cons_append, commentLength?, ih hm]
    · rfl
    · rintro cs' rfl hcs
      cases cs with
      | nil => cases hm
      | cons d cs => exact hne cs rfl (by simp_all)

theorem quotedLength?_cons {quote c : Char} (h : c ≠ '\\') (cs : List Char) :
    quotedLength? quote (c :: cs) =
      if c = '\n' then none else if c = quote then some 1 else (quotedLength? quote cs).map (· + 1) := by
  rw [quotedLength?]
  · rintro rfl
    exact absurd rfl h
  · rintro d ds rfl
    exact absurd rfl h

theorem ne_backslash {c : Char} {cs : List Char} (hend : c = '\\' → cs = [] → False)
    (hescape : ∀ d ds, c = '\\' → cs = d :: ds → False) : c ≠ '\\' := by
  rintro rfl
  cases cs with
  | nil => exact hend rfl rfl
  | cons d ds => exact hescape d ds rfl rfl

theorem quotedLength?_append {quote : Char} {n : Nat} (h : quotedLength? quote cs = some n) (more : List Char) :
    quotedLength? quote (cs ++ more) = some n := by
  fun_induction quotedLength? quote cs generalizing n with
  | case1 | case2 | case4 => cases h
  | case3 c cs ih =>
    obtain ⟨m, hm, rfl⟩ := Option.map_eq_some_iff.1 h
    rw [List.cons_append, List.cons_append, quotedLength?, ih hm]
    rfl
  | case5 cs hend hescape hnewline =>
    rw [List.cons_append, quotedLength?_cons (ne_backslash hend hescape), if_neg hnewline, if_pos rfl, h]
  | case6 c cs hend hescape hnewline hquote ih =>
    obtain ⟨m, hm, rfl⟩ := Option.map_eq_some_iff.1 h
    rw [List.cons_append, quotedLength?_cons (ne_backslash hend hescape), if_neg hnewline, if_neg hquote, ih hm]
    rfl

/-- A literal that the line does not close stays unclosed. -/
theorem quotedLength?_append_newline {quote : Char} (h : runsOn cs = false) :
    quotedLength? quote (cs ++ '\n' :: more) = quotedLength? quote cs := by
  fun_induction quotedLength? quote cs with
  | case1 => rw [List.nil_append, quotedLength?_cons (by decide), if_pos rfl]
  | case2 => cases h
  | case3 c cs ih =>
    have hrest := ih (@runsOn_of_append ['\\', c] _ h)
    rw [List.cons_append, List.cons_append, quotedLength?, hrest]
  | case4 cs hend hescape => rw [List.cons_append, quotedLength?_cons (by decide), if_pos rfl]
  | case5 cs hend hescape hnewline =>
    rw [List.cons_append, quotedLength?_cons (ne_backslash hend hescape), if_neg hnewline, if_pos rfl]
  | case6 c cs hend hescape hnewline hquote ih =>
    rw [List.cons_append, quotedLength?_cons (ne_backslash hend hescape), if_neg hnewline, if_neg hquote,
      ih (runsOn_of_cons h)]

/-- A literal that its quote does not close at the start of the next line is not closed on later lines. -/
theorem quotedLength?_append_newline_eq_none {quote : Char} (hquote : quote = '"' ∨ quote = '\'')
    (h : quotedLength? quote cs = none) (hnext : quotedLength? quote (cs ++ ['\n', quote]) = none) :
    quotedLength? quote (cs ++ '\n' :: more) = none := by
  fun_induction quotedLength? quote cs with
  | case1 => rw [List.nil_append, quotedLength?_cons (by decide), if_pos rfl]
  | case2 =>
    -- the backslash takes the newline with it, so that the quote behind it is the closing one
    rcases hquote with rfl | rfl <;> simp [quotedLength?] at hnext
  | case3 c cs ih =>
    simp only [List.cons_append, quotedLength?, Option.map_eq_none_iff] at h hnext ⊢
    exact ih h hnext
  | case4 cs hend hescape => rw [List.cons_append, quotedLength?_cons (by decide), if_pos rfl]
  | case5 => cases h
  | case6 c cs hend hescape hnewline hne ih =>
    have hc := ne_backslash hend hescape
    rw [List.cons_append, quotedLength?_cons hc, if_neg hnewline, if_neg hne, Option.map_eq_none_iff] at hnext ⊢
    exact ih (Option.map_eq_none_iff.1 h) hnext

theorem commentLength?_le {n : Nat} (h : commentLength? cs = some n) : n ≤ cs.length := by
  fun_induction commentLength? cs generalizing n with
  | case1 => cases h
  | case2 cs =>
    cases h
    simp
  | case3 c cs _ ih =>
    obtain ⟨m, hm, rfl⟩ := Option.map_eq_some_iff.1 h
    simpa using ih hm

theorem quotedLength?_le {quote : Char} {n : Nat} (h : quotedLength? quote cs = some n) : n ≤ cs.length := by
  fun_induction quotedLength? quote cs generalizing n with
  | case1 | case2 | case4 => cases h
  | case3 c cs ih =>
    obtain ⟨m, hm, rfl⟩ := Option.map_eq_some_iff.1 h
    simpa using ih hm
  | case5 =>
    cases h
    simp
  | case6 c cs _ _ _ _ ih =>
    obtain ⟨m, hm, rfl⟩ := Option.map_eq_some_iff.1 h
    simpa using ih hm

/-! ### Directives -/

/-- In a directive, `c` before `cs` neither ends nor continues the line, and begins no comment. -/
structure Plain (c : Char) (cs : List Char) : Prop where
  newline : c ≠ '\n'
  continued : ∀ ds, c = '\\' → cs = '\n' :: ds → False
  returned : ∀ ds, c = '\\' → cs = '\r' :: '\n' :: ds → False
  block : ∀ ds, c = '/' → cs = '*' :: ds → False
  line : ∀ ds, c = '/' → cs = '/' :: ds → False

theorem directiveExtent_cons {c : Char} (h : Plain c cs) :
    directiveExtent (c :: cs) =
      if c = '"' || c = '\'' then
        match quotedLength? c cs with
        | some n => (directiveExtent (cs.drop n)).behind (1 + n)
        | none => (directiveExtent cs).behind 1
      else (directiveExtent cs).behind 1 :=
  directiveExtent.eq_7 c cs h.newline h.continued h.returned h.block h.line

theorem Plain.append_of_ne_nil {c : Char} (h : Plain c cs) (hne : cs ≠ [])
    (hreturn : c = '\\' → cs = ['\r'] → more.head? ≠ some '\n') : Plain c (cs ++ more) := by
  obtain ⟨d, ds, rfl⟩ := List.exists_cons_of_ne_nil hne
  refine ⟨h.newline, fun es hc hes => h.continued ds hc (by simp_all), fun es hc hes => ?_,
    fun es hc hes => h.block ds hc (by simp_all), fun es hc hes => h.line ds hc (by simp_all)⟩
  cases ds with
  | nil =>
    simp only [List.cons_append, List.nil_append, List.cons.injEq] at hes
    obtain ⟨rfl, rfl⟩ := hes
    exact hreturn hc rfl rfl
  | cons e ds => exact h.returned ds hc (by simp_all)

theorem Plain.append_of_head {c : Char} (h : Plain c cs) (hlast : c = '\\' → cs = [] → False)
    (hreturn : c = '\\' → cs = ['\r'] → False) (hmore : ∀ d ∈ more.head?, d ≠ '/' ∧ d ≠ '*') : Plain c (cs ++ more) := by
  by_cases hne : cs = []
  · subst hne
    refine ⟨h.newline, fun ds hc _ => hlast hc rfl, fun ds hc _ => hlast hc rfl, fun ds _ hds => ?_, fun ds _ hds => ?_⟩
    · rw [List.nil_append] at hds
      exact (hmore '*' (by simp [hds])).2 rfl
    · rw [List.nil_append] at hds
      exact (hmore '/' (by simp [hds])).1 rfl
  · exact h.append_of_ne_nil hne fun hc hcs => (hreturn hc hcs).elim

/-- Whether a directive goes on over the end of its line before some next line: it ends in a backslash outside line
comments, or inside a block comment. A literal that is not closed on the line may go on to the next one over a backslash
too, and be closed there. -/
def directiveRunsOn : List Char → Bool
  | [] => false
  | ['\\'] => true
  | ['\\', '\r'] => true
  | '\n' :: _ => false
  | '\\' :: '\n' :: cs => directiveRunsOn cs
  | '\\' :: '\r' :: '\n' :: cs => directiveRunsOn cs
  | '/' :: '*' :: cs =>
    match commentLength? cs with
    | some n => directiveRunsOn (cs.drop n)
    | none => true
  | '/' :: '/' :: _ => false
  | c :: cs =>
    if c = '"' || c = '\'' then
      match quotedLength? c cs with
      | some n => directiveRunsOn (cs.drop n)
      | none => (quotedLength? c (cs ++ ['\n', c])).isSome || directiveRunsOn cs
    else directiveRunsOn cs
termination_by cs => cs.length
decreasing_by all_goals grind

/-- A directive that does not run on ends with its line whatever stands on the next. -/
theorem directiveExtent_append_newline (h : directiveRunsOn cs = false) :
    directiveExtent (cs ++ '\n' :: more) = directiveExtent cs := by
  fun_induction directiveRunsOn cs with
  | case1 => simp [directiveExtent]
  | case2 | case3 => cases h
  | case4 cs => simp [directiveExtent]
  | case5 cs ih => rw [List.cons_append, List.cons_append, directiveExtent, ih h, directiveExtent]
  | case6 cs ih => rw [List.cons_append, List.cons_append, List.cons_append, directiveExtent, ih h, directiveExtent]
  | case7 cs n hn ih =>
    rw [List.cons_append, List.cons_append, directiveExtent, directiveExtent, commentLength?_append hn, hn]
    simp only
    rw [List.drop_append_of_le_length (commentLength?_le hn), ih h]
  | case8 => cases h
  | case9 cs =>
    rw [List.cons_append, List.cons_append, directiveExtent, directiveExtent, lineLength_append_newline]
  | case10 c cs hlast hreturn h₁ h₂ h₃ h₄ h₅ hquote n hn ih =>
    have hplain : Plain c cs := ⟨h₁, h₂, h₃, h₄, h₅⟩
    have hplain' : Plain c (cs ++ '\n' :: more) := hplain.append_of_head hlast hreturn (by simp)
    rw [List.cons_append, directiveExtent_cons hplain', if_pos hquote, directiveExtent_cons hplain, if_pos hquote,
      quotedLength?_append hn, hn]
    simp only
    rw [List.drop_append_of_le_length (quotedLength?_le hn), ih h]
  | case11 c cs hlast hreturn h₁ h₂ h₃ h₄ h₅ hquote hn ih =>
    have hplain : Plain c cs := ⟨h₁, h₂, h₃, h₄, h₅⟩
    have hplain' : Plain c (cs ++ '\n' :: more) := hplain.append_of_head hlast hreturn (by simp)
    obtain ⟨hnext, hrest⟩ := Bool.or_eq_false_iff.1 h
    have hopen : quotedLength? c (cs ++ '\n' :: more) = none :=
      quotedLength?_append_newline_eq_none (by simpa using hquote) hn (by simpa using hnext)
    rw [List.cons_append, directiveExtent_cons hplain', if_pos hquote, directiveExtent_cons hplain, if_pos hquote,
      hopen, hn]
    simp only
    rw [ih hrest]
  | case12 c cs hlast hreturn h₁ h₂ h₃ h₄ h₅ hquote ih =>
    have hplain : Plain c cs := ⟨h₁, h₂, h₃, h₄, h₅⟩
    have hplain' : Plain c (cs ++ '\n' :: more) := hplain.append_of_head hlast hreturn (by simp)
    rw [List.cons_append, directiveExtent_cons hplain', if_neg hquote, directiveExtent_cons hplain, if_neg hquote, ih h]

/-- A directive that is closed runs on only over a backslash. -/
theorem directiveRunsOn_eq_false (h : runsOn cs = false) (hclosed : (directiveExtent cs).unterminated = false) :
    directiveRunsOn cs = false := by
  fun_induction directiveRunsOn cs with
  | case1 | case4 | case9 => rfl
  | case2 | case3 => cases h
  | case5 cs ih =>
    rw [directiveExtent] at hclosed
    exact ih (@runsOn_of_append ['\\', '\n'] _ h) hclosed
  | case6 cs ih =>
    rw [directiveExtent] at hclosed
    exact ih (@runsOn_of_append ['\\', '\r', '\n'] _ h) hclosed
  | case7 cs n hn ih =>
    rw [directiveExtent, hn] at hclosed
    exact ih (runsOn_of_drop (@runsOn_of_append ['/', '*'] _ h) n) hclosed
  | case8 cs hn => simp [directiveExtent, hn] at hclosed
  | case10 c cs hlast hreturn h₁ h₂ h₃ h₄ h₅ hquote n hn ih =>
    rw [directiveExtent_cons ⟨h₁, h₂, h₃, h₄, h₅⟩, if_pos hquote, hn] at hclosed
    exact ih (runsOn_of_drop (runsOn_of_cons h) n) hclosed
  | case11 c cs hlast hreturn h₁ h₂ h₃ h₄ h₅ hquote hn ih =>
    rw [directiveExtent_cons ⟨h₁, h₂, h₃, h₄, h₅⟩, if_pos hquote, hn] at hclosed
    rw [quotedLength?_append_newline (runsOn_of_cons h), hn, ih (runsOn_of_cons h) hclosed]
    rfl
  | case12 c cs hlast hreturn h₁ h₂ h₃ h₄ h₅ hquote ih =>
    rw [directiveExtent_cons ⟨h₁, h₂, h₃, h₄, h₅⟩, if_neg hquote] at hclosed
    exact ih (runsOn_of_cons h) hclosed

/-! ### Operators -/

theorem ofStart?_congr {cs ds : List Char}
    (h : ∀ entry ∈ Punct.table, entry.1.isPrefixOf cs = entry.1.isPrefixOf ds) :
    Punct.ofStart? cs = Punct.ofStart? ds := by
  rw [Punct.ofStart?, List.find?_congr h, Punct.ofStart?]

/-- A character that a list does not have stops it from being at the front. -/
theorem isPrefixOf_append_cons {c : Char} {front : List Char} (h : c ∉ front) (cs more : List Char) :
    front.isPrefixOf (cs ++ c :: more) = front.isPrefixOf cs := by
  induction front generalizing cs with
  | nil => simp
  | cons d front ih =>
    have hd : d ≠ c := fun heq => h (by simp [heq])
    cases cs with
    | nil => simp [List.isPrefixOf, hd]
    | cons e cs => simp [List.isPrefixOf, ih (fun hc => h (by simp [hc]))]

theorem punct_append_separator {d : Char} (h : Separator d) (c : Char) : punct c (cs ++ d :: more) = punct c cs := by
  have hstart : Punct.ofStart? (c :: (cs ++ d :: more)) = Punct.ofStart? (c :: cs) := by
    refine ofStart?_congr fun entry hentry => ?_
    by_cases hd : d ∈ entry.1
    · obtain ⟨e, he⟩ := List.length_eq_one_iff.1 (h.punct entry hentry hd)
      simp [he, List.isPrefixOf]
    · exact isPrefixOf_append_cons hd (c :: cs) more
  rw [punct, hstart, punct]

/-! ### Lexemes -/

/-- What is read is a token. -/
def Reading.IsToken (reading : Reading) : Prop :=
  ∃ kind, reading.outcome = .ok kind

theorem literal_append {quote c : Char} {kind : String → TokenKind} {fault : LexicalFault} {opening : Nat}
    (hopening : opening ≤ cs.length) (h : (literal quote kind fault c opening cs).IsToken) (more : List Char) :
    literal quote kind fault c opening (cs ++ more) = literal quote kind fault c opening cs := by
  rw [literal] at h
  split at h
  case h_1 n hn =>
    have hn' : opening + n ≤ cs.length := by
      have := quotedLength?_le hn
      rw [List.length_drop] at this
      omega
    rw [literal, literal, List.drop_append_of_le_length hopening, quotedLength?_append hn, hn]
    simp only
    rw [List.take_append_of_le_length hn']
  case h_2 => obtain ⟨kind, ⟨⟩⟩ := h

theorem wordLength_le (cs : List Char) : wordLength cs ≤ cs.length :=
  (List.takeWhile_sublist _).length_le

/-- A word that is no literal's beginning. -/
def plainWord (c : Char) (cs : List Char) (n : Nat) : Reading :=
  let spelling := String.ofList (c :: cs.take n)
  ⟨.ok (match Keyword.ofWord? spelling with | some k => .keyword k | none => .identifier spelling), n⟩

/-- A word is read by what it is and the character behind it. -/
theorem word_eq (c : Char) (cs : List Char) :
    word c cs =
      if isLiteralPrefix (String.ofList (c :: cs.take (wordLength cs))) then
        if (cs.drop (wordLength cs)).head? = some '\'' then charLiteral c (wordLength cs + 1) cs
        else if (cs.drop (wordLength cs)).head? = some '"' then stringLiteral c (wordLength cs + 1) cs
        else plainWord c cs (wordLength cs)
      else plainWord c cs (wordLength cs) := by
  simp only [word]
  split_ifs with hliteral hchar hstring
  · obtain ⟨ds, hds⟩ := List.head?_eq_some_iff.1 hchar
    simp only [hds]
  · obtain ⟨ds, hds⟩ := List.head?_eq_some_iff.1 hstring
    simp only [hds]
  · split
    · simp_all
    · simp_all
    · rfl
  · rfl

/-- The quote behind a word is in the text. -/
theorem wordLength_lt {d : Char} (h : (cs.drop (wordLength cs)).head? = some d) : wordLength cs + 1 ≤ cs.length := by
  obtain ⟨ds, hds⟩ := List.head?_eq_some_iff.1 h
  have := congrArg List.length hds
  rw [List.length_drop, List.length_cons] at this
  omega

theorem head?_append_cons {d e : Char} (h : d ≠ e) (cs more : List Char) :
    (cs ++ d :: more).head? = some e ↔ cs.head? = some e := by
  cases cs <;> simp [h]

theorem word_append_separator {c d : Char} (hd : Separator d) (h : (word c cs).IsToken) :
    word c (cs ++ d :: more) = word c cs := by
  have hle := wordLength_le cs
  have htake : (cs ++ d :: more).take (wordLength cs) = cs.take (wordLength cs) := List.take_append_of_le_length hle
  have hdrop : (cs ++ d :: more).drop (wordLength cs) = cs.drop (wordLength cs) ++ d :: more :=
    List.drop_append_of_le_length hle
  have hchar := head?_append_cons hd.quote.1 (cs.drop (wordLength cs)) more
  have hstring := head?_append_cons hd.quote.2 (cs.drop (wordLength cs)) more
  rw [word_eq] at h ⊢
  rw [word_eq, wordLength_append_separator hd, htake, hdrop]
  simp only [plainWord, htake, hchar, hstring]
  split_ifs at h ⊢ with hliteral hquote hquote
  · exact literal_append (wordLength_lt hquote) h _
  · exact literal_append (wordLength_lt hquote) h _
  · rfl
  · rfl

theorem numberLength_le (cs : List Char) : numberLength cs ≤ cs.length := by
  fun_induction numberLength cs <;> simp_all <;> omega

theorem number_append_separator {d : Char} (h : Separator d) (c : Char) : number c (cs ++ d :: more) = number c cs := by
  rw [number, numberLength_append_separator h, List.take_append_of_le_length (numberLength_le cs), number]

theorem startsWithDigit_append_separator {d : Char} (h : Separator d) :
    startsWithDigit (cs ++ d :: more) = startsWithDigit cs := by
  cases cs with
  | nil =>
    have hd := h.number
    simp only [isNumberChar, Char.isAlphanum, Bool.or_eq_false_iff] at hd
    exact hd.1.1.2
  | cons c cs => rfl

theorem directiveExtent_le (cs : List Char) : (directiveExtent cs).length ≤ cs.length := by
  fun_induction directiveExtent cs with
  | case1 | case2 => simp
  | case6 cs =>
    simp only [List.length_cons]
    omega
  | case3 cs ih | case4 cs ih | case9 _ cs _ _ _ _ _ _ _ ih | case10 _ cs _ _ _ _ _ _ ih =>
    simp only [Extent.behind, List.length_cons]
    omega
  | case5 cs n hn ih =>
    have hle := commentLength?_le hn
    simp only [Extent.behind, List.length_cons, List.length_drop] at ih ⊢
    omega
  | case7 cs =>
    have hle : lineLength cs ≤ cs.length := (List.takeWhile_sublist _).length_le
    simp only [List.length_cons]
    omega
  | case8 c cs _ _ _ _ _ _ n hn ih =>
    have hle := quotedLength?_le hn
    simp only [Extent.behind, List.length_cons, List.length_drop] at ih ⊢
    omega

theorem directive_append_newline (h : runsOn cs = false) (htoken : (directive cs).IsToken) :
    directive (cs ++ '\n' :: more) = directive cs := by
  simp only [directive] at htoken ⊢
  split_ifs at htoken with hopen
  · obtain ⟨kind, ⟨⟩⟩ := htoken
  · rw [directiveExtent_append_newline (directiveRunsOn_eq_false h (by simpa using hopen)), if_neg hopen, if_neg hopen,
      List.take_append_of_le_length (directiveExtent_le cs)]

theorem blockComment_append (htoken : (blockComment cs).IsToken) (hne : cs ≠ []) (more : List Char) :
    blockComment (cs ++ more) = blockComment cs := by
  obtain ⟨c, cs, rfl⟩ := List.exists_cons_of_ne_nil hne
  simp only [blockComment, List.cons_append, List.drop_succ_cons, List.drop_zero] at htoken ⊢
  cases hn : commentLength? cs with
  | none =>
    rw [hn] at htoken
    obtain ⟨kind, ⟨⟩⟩ := htoken
  | some n => rw [commentLength?_append hn]

/-- A token that a separator follows is read in the same way, if a directive or a comment in the style of lines does
not go on with its line. -/
theorem lexeme_append {c d : Char} {kind : TokenKind} {n : Nat} (hd : Separator d) (h : lexeme c cs = ⟨.ok kind, n⟩)
    (hdirective : ∀ parsed, kind = .directive parsed → directive cs = ⟨.ok kind, n⟩ →
      directive (cs ++ d :: more) = directive cs)
    (hcomment : kind = .lineComment → lineLength cs = n → lineLength (cs ++ d :: more) = lineLength cs) :
    lexeme c (cs ++ d :: more) = ⟨.ok kind, n⟩ := by
  have hslash := head?_append_cons hd.comment.1 cs more
  have hstar := head?_append_cons hd.comment.2 cs more
  have htoken : ∀ {reading : Reading}, reading = ⟨.ok kind, n⟩ → reading.IsToken := fun h => ⟨kind, by rw [h]⟩
  rw [lexeme] at h ⊢
  rw [startsWithDigit_append_separator hd]
  simp only [hslash, hstar]
  split_ifs at h ⊢ with hword hnumber hchar hstring hsharp hline hblock
  · rw [word_append_separator hd (htoken h), h]
  · rw [number_append_separator hd c, h]
  · rw [charLiteral, literal_append (Nat.zero_le _) (htoken h), ← charLiteral, h]
  · rw [stringLiteral, literal_append (Nat.zero_le _) (htoken h), ← stringLiteral, h]
  · have hkind : ∃ parsed, kind = .directive parsed := by
      simp only [directive] at h
      split_ifs at h
      · cases h
      · cases h
        exact ⟨_, rfl⟩
    obtain ⟨parsed, hparsed⟩ := hkind
    rw [hdirective parsed hparsed h, h]
  · cases h
    rw [hcomment rfl rfl]
  · rw [blockComment_append (htoken h), h]
    rintro rfl
    simp at hblock
  · rw [punct_append_separator hd c, h]

/-- A token is read in the same way whether its line is the last or not. -/
theorem lexeme_append_newline {c : Char} (h : runsOn (c :: cs) = false) (htoken : (lexeme c cs).IsToken) :
    lexeme c (cs ++ '\n' :: more) = lexeme c cs := by
  obtain ⟨kind, hkind⟩ := htoken
  have hlexeme : lexeme c cs = ⟨.ok kind, (lexeme c cs).tail⟩ := by rw [← hkind]
  refine (lexeme_append separator_newline hlexeme ?_ ?_).trans hlexeme.symm
  · intro parsed _ hdirective
    exact directive_append_newline (runsOn_of_cons h) ⟨kind, by rw [hdirective]⟩
  · intro _ _
    exact lineLength_append_newline

theorem lexeme_append_separator {c d : Char} {kind : TokenKind} {n : Nat} (hd : Separator d)
    (h : lexeme c cs = ⟨.ok kind, n⟩) (hdirective : ∀ directive, kind ≠ .directive directive)
    (hcomment : kind ≠ .lineComment) : lexeme c (cs ++ d :: more) = ⟨.ok kind, n⟩ :=
  lexeme_append hd h (fun parsed hparsed _ => absurd hparsed (hdirective parsed)) fun hkind _ => absurd hkind hcomment

/-! ### What a lexeme takes -/

theorem lineLength_le (cs : List Char) : lineLength cs ≤ cs.length :=
  (List.takeWhile_sublist _).length_le

theorem literal_tail_le {quote c : Char} {kind : String → TokenKind} {fault : LexicalFault} {opening : Nat}
    (hopening : opening ≤ cs.length) : (literal quote kind fault c opening cs).tail ≤ cs.length := by
  rw [literal]
  split
  case h_1 n hn =>
    have := quotedLength?_le hn
    simp only [List.length_drop] at this ⊢
    omega
  case h_2 =>
    have := lineLength_le (cs.drop opening)
    simp only [List.length_drop] at this ⊢
    omega

theorem word_tail_le (c : Char) (cs : List Char) : (word c cs).tail ≤ cs.length := by
  rw [word_eq]
  split_ifs with hliteral hquote hquote
  · exact literal_tail_le (wordLength_lt hquote)
  · exact literal_tail_le (wordLength_lt hquote)
  · exact wordLength_le cs
  · exact wordLength_le cs

theorem punct_tail_le (c : Char) (cs : List Char) : (punct c cs).tail ≤ cs.length := by
  rw [punct]
  split
  case h_1 p n hstart =>
    obtain ⟨⟨spelling, p'⟩, hfind, heq⟩ := Option.map_eq_some_iff.1 hstart
    cases heq
    have hmatch : spelling.isPrefixOf (c :: cs) = true := by simpa using List.find?_some hfind
    have hfront := (List.isPrefixOf_iff_prefix.1 hmatch).length_le
    simp only [List.length_cons] at hfront ⊢
    omega
  case h_2 => exact Nat.zero_le _

theorem blockComment_tail_le (hne : cs ≠ []) : (blockComment cs).tail ≤ cs.length := by
  obtain ⟨c, cs, rfl⟩ := List.exists_cons_of_ne_nil hne
  simp only [blockComment, List.drop_succ_cons, List.drop_zero]
  split
  case h_1 n hn =>
    have := commentLength?_le hn
    simp only [List.length_cons]
    omega
  case h_2 => exact Nat.le_refl _

theorem directive_tail_le (cs : List Char) : (directive cs).tail ≤ cs.length := by
  simp only [directive]
  split <;> exact directiveExtent_le cs

/-- A lexeme takes characters of the text only. -/
theorem lexeme_tail_le (c : Char) (cs : List Char) : (lexeme c cs).tail ≤ cs.length := by
  rw [lexeme]
  split_ifs with hword hnumber hchar hstring hdirective hline hblock
  · exact word_tail_le c cs
  · exact numberLength_le cs
  · exact literal_tail_le (Nat.zero_le _)
  · exact literal_tail_le (Nat.zero_le _)
  · exact directive_tail_le cs
  · exact lineLength_le cs
  · refine blockComment_tail_le ?_
    rintro rfl
    simp at hblock
  · exact punct_tail_le c cs

/-- No lexeme is the end of the text. -/
theorem lexeme_outcome_ne_eof (c : Char) (cs : List Char) : (lexeme c cs).outcome ≠ .ok .eof := by
  have hliteral : ∀ quote kind fault opening, (∀ spelling, kind spelling ≠ TokenKind.eof) →
      (literal quote kind fault c opening cs).outcome ≠ .ok .eof := by
    intro quote kind fault opening hkind
    rw [literal]
    split <;> simp [hkind]
  have hplain : ∀ n, (plainWord c cs n).outcome ≠ .ok .eof := by
    intro n
    simp only [plainWord]
    split <;> simp
  rw [lexeme]
  split_ifs
  · rw [word_eq]
    split_ifs
    · exact hliteral _ _ _ _ (by simp)
    · exact hliteral _ _ _ _ (by simp)
    · exact hplain _
    · exact hplain _
  · simp [number]
  · exact hliteral _ _ _ _ (by simp)
  · exact hliteral _ _ _ _ (by simp)
  · simp only [directive]
    split_ifs <;> simp
  · simp
  · rw [blockComment]
    split <;> simp
  · rw [punct]
    split <;> simp

/-- An operator is spelled as its kind tells. -/
theorem take_of_lexeme_punct {c : Char} {cs : List Char} {p : Punct} {n : Nat} (h : lexeme c cs = ⟨.ok (.punct p), n⟩) :
    (c :: cs).take (n + 1) = p.spelling.toList := by
  have hliteral : ∀ quote toKind fault opening, (∀ spelling, toKind spelling ≠ .punct p) →
      literal quote toKind fault c opening cs ≠ ⟨.ok (.punct p), n⟩ := by
    intro quote toKind fault opening hnone h
    rw [literal] at h
    split at h
    · exact hnone _ (Except.ok.inj (Reading.mk.inj h).1)
    · cases h
  have hplain : ∀ m, plainWord c cs m ≠ ⟨.ok (.punct p), n⟩ := by
    intro m h
    simp only [plainWord] at h
    split at h <;> cases h
  rw [lexeme] at h
  split_ifs at h with hword hnumber hchar hstring hsharp hline hblock
  · rw [word_eq] at h
    split_ifs at h
    · exact absurd h (hliteral _ _ _ _ fun _ => by simp)
    · exact absurd h (hliteral _ _ _ _ fun _ => by simp)
    · exact absurd h (hplain _)
    · exact absurd h (hplain _)
  · cases h
  · exact absurd h (hliteral _ _ _ _ fun _ => by simp)
  · exact absurd h (hliteral _ _ _ _ fun _ => by simp)
  · simp only [directive] at h
    split_ifs at h <;> cases h
  · cases h
  · rw [blockComment] at h
    split at h <;> cases h
  · rw [punct] at h
    split at h
    case h_1 q m hstart =>
      cases h
      rw [Punct.ofStart?, Option.map_eq_some_iff] at hstart
      obtain ⟨⟨spelling, q'⟩, hfind, heq⟩ := hstart
      obtain ⟨rfl, rfl⟩ := Prod.mk.inj heq
      have hfront : spelling.isPrefixOf (c :: cs) = true := List.find?_some (p := fun entry : List Char × Punct => entry.1.isPrefixOf (c :: cs)) hfind
      obtain ⟨rest, hrest⟩ := List.isPrefixOf_iff_prefix.1 hfront
      have hspelling := Punct.spelling_of_mem_table _ (List.mem_of_find?_eq_some hfind)
      have hpositive : ∀ entry ∈ Punct.table, 0 < entry.1.length := by decide
      have hlength := hpositive _ (List.mem_of_find?_eq_some hfind)
      rw [Nat.sub_add_cancel hlength, ← hrest, List.take_left]
      exact hspelling.symm
    case h_2 => cases h

end CHeader.Lexeme
