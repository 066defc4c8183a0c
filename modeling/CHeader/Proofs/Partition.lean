import CHeader.Proofs.Collecting
import Mathlib.Data.List.TakeWhile

/-!
# The runs of an outline are the tokens of the text

Every way in which the outline takes tokens off a text keeps them: comments and stray tokens, a
construct with the comments and directives met in it, the body of a function, and what is passed over
behind a construct that cannot be read. So the runs are, one behind the other, all tokens up to the
end of the text (`flatMap_tokens_outline`), and each directive of the text is in exactly one of them.
-/

namespace CHeader

namespace Outline

/-- Tokens up to the end of the text stay in front of it. -/
theorem append_untilEnd {taken rest : List Token} (htaken : ∀ t ∈ taken, t.kind ≠ .eof) :
    taken ++ untilEnd rest = untilEnd (taken ++ rest) := by
  rw [untilEnd, untilEnd, List.takeWhile_append_of_pos]
  simpa using htaken

theorem untilEnd_cons {t : Token} {ts : List Token} (ht : t.kind ≠ .eof) : untilEnd (t :: ts) = t :: untilEnd ts := by
  simp [untilEnd, ht]

theorem untilEnd_cons_eof {t : Token} {ts : List Token} (ht : t.kind = .eof) : untilEnd (t :: ts) = [] := by
  simp [untilEnd, ht]

theorem untilEnd_concat_eof {body : List Token} {last : Token} (hlast : last.kind = .eof)
    (hbody : ∀ t ∈ body, t.kind ≠ .eof) : untilEnd (body ++ [last]) = body := by
  rw [← append_untilEnd hbody, untilEnd_cons_eof hlast, List.append_nil]

theorem untilEnd_prefix (ts : List Token) : untilEnd ts <+: ts :=
  List.takeWhile_prefix _

theorem kind_of_mem_untilEnd {t : Token} {ts : List Token} (ht : t ∈ untilEnd ts) : t.kind ≠ .eof := by
  simpa using List.mem_takeWhile_imp ht

/-- Behind the tokens before the end, nothing but the end is left. -/
theorem untilEnd_drop (ts : List Token) : untilEnd (ts.drop (untilEnd ts).length) = [] := by
  induction ts with
  | nil => rfl
  | cons t ts ih =>
    by_cases ht : t.kind = .eof
    · rw [untilEnd_cons_eof ht, List.length_nil, List.drop_zero, untilEnd_cons_eof ht]
    · rw [untilEnd_cons ht, List.length_cons, List.drop_succ_cons, ih]

/-- Tokens off the front and what is left of the text before its end. -/
theorem prefix_append_untilEnd {taken ts : List Token} (hfront : taken <+: ts) (htaken : ∀ t ∈ taken, t.kind ≠ .eof) :
    taken ++ untilEnd (ts.drop taken.length) = untilEnd ts := by
  obtain ⟨rest, rfl⟩ := hfront
  rw [List.drop_left, append_untilEnd htaken]

theorem prefix_recovery (depth : Nat) (ts : List Token) : recovery depth ts <+: ts := by
  fun_induction recovery depth ts <;> simp_all

theorem kind_of_mem_recovery {depth : Nat} {t : Token} {ts : List Token} (ht : t ∈ recovery depth ts) :
    t.kind ≠ .eof := by
  fun_induction recovery depth ts <;> grind

/-- What is passed over begins with the first token there is. -/
theorem recovery_cons (depth : Nat) {t : Token} (ht : t.kind ≠ .eof) (ts : List Token) :
    ∃ behind, recovery depth (t :: ts) = t :: behind := by
  rw [recovery]
  split
  case h_1 heof => exact absurd heof ht
  case h_2 | h_4 => split_ifs <;> exact ⟨_, rfl⟩
  case h_3 | h_5 => exact ⟨_, rfl⟩

/-- A body ends here, or goes on behind this token with other braces open. -/
theorem body?_cons {depth : Nat} {t : Token} {ts inside : List Token} {close : Token}
    (h : body? depth (t :: ts) = some (inside, close)) :
    t.kind ≠ .eof ∧ (inside = [] ∧ close = t ∨
      ∃ depth' inside', body? depth' ts = some (inside', close) ∧ inside = t :: inside') := by
  have hinside : ∀ depth', (body? depth' ts).map (fun found => (t :: found.1, found.2)) = some (inside, close) →
      ∃ depth' inside', body? depth' ts = some (inside', close) ∧ inside = t :: inside' := by
    intro depth' h
    obtain ⟨⟨inside', close'⟩, hbody, heq⟩ := Option.map_eq_some_iff.1 h
    obtain ⟨rfl, rfl⟩ := Prod.mk.inj heq
    exact ⟨depth', inside', hbody, rfl⟩
  rw [body?] at h
  split at h
  case h_1 => cases h
  case h_2 hkind => exact ⟨by simp [hkind], .inr (hinside _ h)⟩
  case h_3 hkind =>
    split_ifs at h with hdepth
    · cases h
      exact ⟨by simp [hkind], .inl ⟨rfl, rfl⟩⟩
    · exact ⟨by simp [hkind], .inr (hinside _ h)⟩
  case h_4 heof _ _ => exact ⟨heof, .inr (hinside _ h)⟩

/-- A body ends with a brace. -/
theorem kind_of_body? {depth : Nat} {ts inside : List Token} {close : Token} (h : body? depth ts = some (inside, close)) :
    close.kind = .closing .brace := by
  induction ts generalizing depth inside with
  | nil => cases h
  | cons t ts ih =>
    rw [body?] at h
    split at h
    case h_1 => cases h
    case h_2 | h_4 =>
      obtain ⟨⟨inside', close'⟩, hbody, heq⟩ := Option.map_eq_some_iff.1 h
      obtain ⟨rfl, rfl⟩ := Prod.mk.inj heq
      exact ih hbody
    case h_3 hkind =>
      split_ifs at h
      · cases h
        exact hkind
      · obtain ⟨⟨inside', close'⟩, hbody, heq⟩ := Option.map_eq_some_iff.1 h
        obtain ⟨rfl, rfl⟩ := Prod.mk.inj heq
        exact ih hbody

/-- A body is what stands before the brace that closes it. -/
theorem eq_append_of_body? {depth : Nat} {ts inside : List Token} {close : Token}
    (h : body? depth ts = some (inside, close)) :
    (∃ rest, ts = inside ++ close :: rest) ∧ ∀ t ∈ inside ++ [close], t.kind ≠ .eof := by
  induction ts generalizing depth inside with
  | nil => simp [body?] at h
  | cons t ts ih =>
    obtain ⟨ht, ⟨rfl, rfl⟩ | ⟨depth', inside', hbody, rfl⟩⟩ := body?_cons h
    · exact ⟨⟨ts, rfl⟩, by simpa using ht⟩
    · obtain ⟨⟨rest, rfl⟩, hkinds⟩ := ih hbody
      exact ⟨⟨rest, rfl⟩, List.forall_mem_cons.2 ⟨ht, hkinds⟩⟩

/-- A function takes its body off the text. -/
theorem function_tokens (c : Collected) {brace : Token} (hbrace : brace.kind ≠ .eof) (ts : List Token) :
    (function c brace ts).1.tokens ++ untilEnd (function c brace ts).2 = c.met.reverse ++ untilEnd (brace :: ts) := by
  rw [function]
  split
  case h_1 inside close hbody =>
    obtain ⟨⟨rest, rfl⟩, hkinds⟩ := eq_append_of_body? hbody
    have hdrop : (inside ++ close :: rest).drop (inside.length + 1) = rest := by simp
    have htaken : ∀ t ∈ brace :: (inside ++ [close]), t.kind ≠ .eof :=
      List.forall_mem_cons.2 ⟨hbrace, hkinds⟩
    have hsplit : brace :: (inside ++ close :: rest) = brace :: (inside ++ [close]) ++ rest := by simp
    rw [hdrop, hsplit, ← append_untilEnd htaken, Item.tokens, List.append_assoc]
  case h_2 =>
    rw [Item.tokens, untilEnd_drop, untilEnd_cons hbrace]
    simp

/-- Collecting a construct loses no token. -/
theorem collect_tokens (markers : Bool) (first : Token) (c : Collected) (ts : List Token) :
    (collect markers first c ts).1.tokens ++ untilEnd (collect markers first c ts).2 =
      c.met.reverse ++ untilEnd ts := by
  induction ts generalizing c with
  | nil => simp [collect, Collected.malformed, Item.tokens]
  | cons t ts ih =>
    rw [collect_cons]
    by_cases heof : t.kind = .eof
    · rw [Collected.verdict_eq_endOfText_iff.2 heof]
      simp [Collected.stop, Collected.malformed, Item.tokens, untilEnd_cons_eof heof]
    · cases hverdict : c.verdict markers t with
      | goOn c' => simp [ih, (Collected.grows_of_verdict hverdict).met, untilEnd_cons heof]
      | ends => simp [Collected.stop, Item.tokens, untilEnd_cons heof]
      | body => exact function_tokens c heof ts
      | unexpected =>
        have hbehind : recovery 0 (t :: ts) ++ untilEnd ((t :: ts).drop (recovery 0 (t :: ts)).length) = untilEnd (t :: ts) :=
          prefix_append_untilEnd (prefix_recovery ..) fun _ => kind_of_mem_recovery
        simp only [Collected.stop, Collected.malformed, Item.tokens]
        rw [List.append_assoc, hbehind]
      | unbalanced =>
        let behind := recovery (openBraces c.opened.tail) ts
        have hbehind : behind ++ untilEnd (ts.drop behind.length) = untilEnd ts :=
          prefix_append_untilEnd (prefix_recovery ..) fun _ => kind_of_mem_recovery
        simp only [Collected.stop, Collected.malformed, Item.tokens]
        rw [List.append_assoc, List.cons_append, hbehind, untilEnd_cons heof]
      | endOfText => exact absurd (Collected.verdict_eq_endOfText_iff.1 hverdict) heof

/-- Insignificant tokens stand before the first significant one. -/
theorem dropWhile_insignificant (ts : List Token) :
    ∃ passed, ts = passed ++ ts.dropWhile (!·.isSignificant) ∧ ∀ t ∈ passed, t.isSignificant = false := by
  refine ⟨ts.takeWhile (!·.isSignificant), List.takeWhile_append_dropWhile.symm, ?_⟩
  intro t ht
  simpa using List.mem_takeWhile_imp ht

theorem dropWhile_insignificant_append {passed : List Token} (hpassed : ∀ t ∈ passed, t.isSignificant = false)
    {t : Token} (ht : t.isSignificant = true) (ts : List Token) :
    (passed ++ t :: ts).dropWhile (!·.isSignificant) = t :: ts := by
  rw [List.dropWhile_append_of_pos (by simpa using hpassed), List.dropWhile_cons_of_neg (by simp [ht])]

/-- The tokens through the brace of `extern "C" {`: behind comments and directives a string, and behind others a
brace. -/
theorem linkageLength?_eq_some_iff {ts : List Token} {n : Nat} :
    linkageLength? ts = some n ↔ ∃ first string second brace rest,
      ts = first ++ string :: (second ++ brace :: rest) ∧ (∀ t ∈ first ++ second, t.isSignificant = false) ∧
      (∃ spelling, string.kind = .stringLiteral spelling) ∧ brace.kind = .opening .brace ∧
      n = first.length + second.length + 2 := by
  constructor
  · intro h
    rw [linkageLength?] at h
    obtain ⟨first, hfirst, hfirst'⟩ := dropWhile_insignificant ts
    split at h
    case h_2 => cases h
    case h_1 spelling _ _ _ _ behind hstring =>
      obtain ⟨second, hsecond, hsecond'⟩ := dropWhile_insignificant behind
      split at h
      case h_2 => cases h
      case h_1 rest hbrace =>
        rw [hbrace] at hsecond
        rw [hstring, hsecond] at hfirst
        cases h
        refine ⟨first, _, second, _, rest, hfirst, ?_, ⟨spelling, rfl⟩, rfl, ?_⟩
        · intro t ht
          rcases List.mem_append.1 ht with ht | ht
          · exact hfirst' t ht
          · exact hsecond' t ht
        · have hlength := congrArg List.length hfirst
          simp only [List.length_append, List.length_cons] at hlength
          omega
  · rintro ⟨first, string, second, brace, rest, rfl, hpassed, ⟨spelling, hstring⟩, hbrace, rfl⟩
    have hfirst : ∀ t ∈ first, t.isSignificant = false := fun t ht => hpassed t (List.mem_append_left _ ht)
    have hsecond : ∀ t ∈ second, t.isSignificant = false := fun t ht => hpassed t (List.mem_append_right _ ht)
    have hstring' : string.isSignificant = true := by simp [Token.isSignificant, hstring]
    have hbrace' : brace.isSignificant = true := by simp [Token.isSignificant, hbrace]
    obtain ⟨kind, _, _, _, _⟩ := string
    obtain ⟨kind', _, _, _, _⟩ := brace
    cases hstring
    cases hbrace
    simp only [linkageLength?, dropWhile_insignificant_append hfirst hstring',
      dropWhile_insignificant_append hsecond hbrace']
    simp
    omega

/-- The tokens through the brace of `extern "C" {` are no end of the text. -/
theorem kind_of_mem_take_linkageLength? {ts : List Token} {n : Nat} (h : linkageLength? ts = some n) :
    ∀ t ∈ ts.take n, t.kind ≠ .eof := by
  obtain ⟨first, string, second, brace, rest, rfl, hpassed, ⟨spelling, hstring⟩, hbrace, rfl⟩ :=
    linkageLength?_eq_some_iff.1 h
  have hlength : first.length + second.length + 2 = (first ++ string :: (second ++ [brace])).length := by
    simp
    omega
  have hsplit : first ++ string :: (second ++ brace :: rest) = first ++ string :: (second ++ [brace]) ++ rest := by simp
  rw [hlength, hsplit, List.take_left]
  have hinsignificant : ∀ t : Token, t.isSignificant = false → t.kind ≠ .eof := by
    intro t ht heof
    simp [Token.isSignificant, heof] at ht
  intro t ht
  simp only [List.mem_append, List.mem_cons, List.not_mem_nil, or_false] at ht
  rcases ht with ht | rfl | ht | rfl
  · exact hinsignificant t (hpassed t (List.mem_append_left _ ht))
  · simp [hstring]
  · exact hinsignificant t (hpassed t (List.mem_append_right _ ht))
  · simp [hbrace]

theorem external_tokens (markers : Bool) {t : Token} (ht : t.kind ≠ .eof) (ts : List Token) :
    (external markers t ts).1.tokens ++ untilEnd (external markers t ts).2 = untilEnd (t :: ts) := by
  rw [external]
  split_ifs
  · rw [collect_tokens, untilEnd_cons ht]
    rfl
  · have hbehind : recovery 0 (t :: ts) ++ untilEnd ((t :: ts).drop (recovery 0 (t :: ts)).length) = untilEnd (t :: ts) :=
      prefix_append_untilEnd (prefix_recovery ..) fun _ => kind_of_mem_recovery
    obtain ⟨behind, hrecovery⟩ := recovery_cons 0 ht ts
    rw [hrecovery] at hbehind ⊢
    simpa [Item.tokens] using hbehind

/-- Tokens that declare nothing are no end of the text. -/
theorem kind_of_mem_skipped {linkage linkage' n : Nat} {t : Token} {ts : List Token} (ht : t.kind ≠ .eof)
    (h : skipped? linkage t ts = some (n, linkage')) : ∀ skipped ∈ t :: ts.take n, skipped.kind ≠ .eof := by
  refine List.forall_mem_cons.2 ⟨ht, ?_⟩
  rw [skipped?] at h
  split at h
  case h_1 | h_2 | h_3 =>
    cases h
    simp
  case h_4 =>
    split_ifs at h
    cases h
    simp
  case h_5 =>
    obtain ⟨n', hlength, hn⟩ := Option.map_eq_some_iff.1 h
    cases hn
    exact kind_of_mem_take_linkageLength? hlength
  case h_6 => cases h

end Outline

/-- The runs of an outline are the tokens before the end of the text. -/
theorem flatMap_tokens_outline (markers : Bool) (linkage : Nat) (ts : List Token) :
    (outline markers linkage ts).flatMap Item.tokens = Outline.untilEnd ts := by
  fun_induction outline markers linkage ts with
  | case1 => rfl
  | case2 linkage t ts heof => rw [Outline.untilEnd_cons_eof heof, List.flatMap_nil]
  | case3 linkage t ts directive hkind ih => simp [Item.tokens, ih, Outline.untilEnd_cons, hkind]
  | case4 linkage t ts n linkage' hskipped heof _ ih =>
    have hkinds := Outline.kind_of_mem_skipped heof hskipped
    rw [List.flatMap_cons, ih, Item.tokens, Outline.append_untilEnd hkinds, List.cons_append, List.take_append_drop]
  | case5 linkage t ts _ _ heof _ ih =>
    rw [List.flatMap_cons, ih, Outline.external_tokens markers heof]

/-- A construct of an outline is collected from a token that may begin a declaration. -/
theorem collect_of_mem_outline {markers : Bool} {linkage : Nat} {ts tokens : List Token} {construct : Construct}
    (h : .construct tokens construct ∈ outline markers linkage ts) :
    ∃ first behind rest, first.kind.canStartDeclaration = true ∧
      Outline.collect markers first (.start first) behind = (.construct tokens construct, rest) := by
  fun_induction outline markers linkage ts with
  | case1 | case2 => simp at h
  | case3 linkage t ts _ _ ih => exact ih (by simpa using h)
  | case4 linkage t ts n linkage' _ _ _ ih => exact ih (by simpa using h)
  | case5 linkage t ts _ run _ _ ih =>
    rcases List.mem_cons.1 h with hrun | h
    · have hexternal : Outline.external markers t ts = (.construct tokens construct, run.2) := Prod.ext hrun.symm rfl
      rw [Outline.external] at hexternal
      split_ifs at hexternal with hstart
      · exact ⟨t, ts, run.2, hstart, hexternal⟩
      · cases hexternal
    · exact ih h

/-- A construct of an outline begins with the first token of its run, which may begin a declaration. -/
theorem first_of_mem_outline {markers : Bool} {linkage : Nat} {ts tokens : List Token} {construct : Construct}
    (h : .construct tokens construct ∈ outline markers linkage ts) :
    ∃ first, first.kind.canStartDeclaration = true ∧ tokens.head? = some first ∧ construct.head.head? = some first := by
  obtain ⟨first, behind, rest, hstart, hcollect⟩ := collect_of_mem_outline h
  exact ⟨first, hstart, Outline.collect_first (Outline.Collected.begins_start first) hcollect⟩

/-! ### Tokens that make no construct -/

namespace Outline

theorem issue_of_endFault (c : Collected) (first : Token) : ∃ issue, (c.endFault first).cause = .construct issue := by
  unfold Collected.endFault
  split <;> exact ⟨_, rfl⟩

theorem issue_of_collect {markers : Bool} {first : Token} {c : Collected} {ts before behind : List Token}
    {fault : Diagnostic} (h : (collect markers first c ts).1 = .malformed before fault behind) :
    ∃ issue, fault.cause = .construct issue := by
  induction ts generalizing c with
  | nil =>
    cases h
    exact issue_of_endFault c first
  | cons t ts ih =>
    rw [collect_cons] at h
    cases hverdict : c.verdict markers t with
    | goOn c' =>
      simp only [hverdict] at h
      exact ih h
    | ends =>
      simp only [hverdict, Collected.stop] at h
      cases h
    | body =>
      simp only [hverdict, Collected.stop, function] at h
      split at h <;> cases h
      exact ⟨_, rfl⟩
    | unexpected | unbalanced =>
      simp only [hverdict, Collected.stop] at h
      cases h
      exact ⟨_, rfl⟩
    | endOfText =>
      simp only [hverdict, Collected.stop] at h
      cases h
      exact issue_of_endFault c first

end Outline

/-- What is wrong with a run of an outline is no fault of the conditionals. -/
theorem issue_of_mem_outline {markers : Bool} {linkage : Nat} {ts before behind : List Token} {fault : Diagnostic}
    (h : .malformed before fault behind ∈ outline markers linkage ts) : ∃ issue, fault.cause = .construct issue := by
  fun_induction outline markers linkage ts with
  | case1 | case2 => simp at h
  | case3 linkage t ts _ _ ih => exact ih (by simpa using h)
  | case4 linkage t ts n linkage' _ _ _ ih => exact ih (by simpa using h)
  | case5 linkage t ts _ run _ _ ih =>
    rcases List.mem_cons.1 h with hrun | h
    · have hexternal : (Outline.external markers t ts).1 = .malformed before fault behind := hrun.symm
      rw [Outline.external] at hexternal
      split_ifs at hexternal
      · exact Outline.issue_of_collect hexternal
      · cases hexternal
        exact ⟨_, rfl⟩
    · exact ih h

end CHeader
