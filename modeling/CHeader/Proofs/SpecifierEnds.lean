import CHeader.Proofs.Brackets

/-!
# The end of the specifiers

Specifiers are read off the front of some tokens, and each of them takes in what belongs to it: a word its argument, an
aggregate its attributes, its tag and its body. Where all brackets are closed, none of them reaches over the end of the
tokens unless what follows there could belong to it. Whatever else follows, the specifiers stay the same
(`Specifiers.take_append`).
-/

namespace CHeader

open Nesting (closing parenthesized openBehind?)

variable {opened ts more : List Token} {t : Token}

/-! ### Groups -/

theorem Nesting.closing_of_closed {depth : Nat} (h : openBehind? opened ts = some []) (hdepth : depth ≤ opened.length)
    (more : List Token) :
    closing depth (ts ++ more) = closing depth ts ∧
      openBehind? (opened.drop depth) (ts.drop (closing depth ts).length) = some [] := by
  induction ts generalizing opened depth with
  | nil =>
    obtain rfl : opened = [] := Option.some.inj h
    obtain rfl : depth = 0 := by simpa using hdepth
    simp [closing, h]
  | cons t ts ih =>
    cases depth with
    | zero => simp [closing, h]
    | succ depth =>
      rw [openBehind?_cons] at h
      obtain ⟨opened', hstep, hts⟩ := Option.bind_eq_some_iff.1 h
      have hnext : depthBehind (depth + 1) t.kind ≤ opened'.length ∧
          opened'.drop (depthBehind (depth + 1) t.kind) = opened.drop (depth + 1) := by
        unfold openStep at hstep
        unfold depthBehind
        split_ifs at hstep ⊢
        · cases hstep
          exact ⟨Nat.succ_le_succ hdepth, rfl⟩
        · split at hstep
          · split_ifs at hstep
            cases hstep
            exact ⟨Nat.le_of_succ_le_succ hdepth, rfl⟩
          · cases hstep
        · cases hstep
          exact ⟨hdepth, rfl⟩
      obtain ⟨hclosing, hrest⟩ := ih hts hnext.1
      rw [List.cons_append, closing, closing, hclosing]
      exact ⟨rfl, by rwa [hnext.2] at hrest⟩

/-- A group that closed tokens begin with does not reach over their end. -/
theorem group_of_closed {bracket : Bracket} {group : List Token → List Token} (hnil : group [] = [])
    (hgroup : ∀ t ts, group (t :: ts) = if t.kind = .opening bracket then t :: closing 1 ts else [])
    (h : openBehind? [] ts = some []) (hmore : ts = [] → ∀ u ∈ more.head?, u.kind ≠ .opening bracket) :
    group (ts ++ more) = group ts ∧ openBehind? [] (ts.drop (group ts).length) = some [] := by
  cases ts with
  | nil =>
    cases more with
    | nil => simp [hnil, h]
    | cons u more =>
      have hu := hmore rfl u rfl
      simp [hgroup, hnil, hu, h]
  | cons t ts =>
    simp only [List.cons_append, hgroup]
    split_ifs with hopening
    · rw [Nesting.openBehind?_cons, Nesting.openStep_opening hopening, Option.bind_some] at h
      obtain ⟨hclosing, hrest⟩ := Nesting.closing_of_closed h (Nat.le_refl 1) more
      exact ⟨by rw [hclosing], hrest⟩
    · exact ⟨rfl, h⟩

/-- Behind a word, closed tokens are closed. -/
theorem openBehind?_of_word (hword : t.kind.isPunctuation = false) (h : openBehind? [] (t :: ts) = some []) :
    openBehind? [] ts = some [] := by
  rwa [Nesting.openBehind?_cons, Nesting.openStep_of_noBracket (noBracket_of_word hword)] at h

/-! ### Parts at the end -/

/-- The words that take a group in parentheses behind them for their argument. -/
def Token.takesArgument (t : Token) : Bool :=
  t.isAttribute || t.isTypeof || t.kind = .keyword .alignasKw || t.kind = .keyword .atomicKw

/-- What follows is no attribute and no body, and no argument of the last token. -/
structure SetOff (ts more : List Token) : Prop where
  plain : ∀ u ∈ more.head?, u.isAttribute = false ∧ u.kind ≠ .opening .brace
  argument : ∀ t ∈ ts.getLast?, t.takesArgument = true → ∀ u ∈ more.head?, u.kind ≠ .opening .paren

theorem SetOff.behind {front : List Token} (h : SetOff (front ++ ts) more) : SetOff ts more := by
  refine ⟨h.plain, fun t ht => h.argument t ?_⟩
  rw [List.getLast?_append, Option.mem_def.1 ht]
  rfl

theorem SetOff.drop (h : SetOff ts more) (n : Nat) : SetOff (ts.drop n) more := by
  rw [← List.take_append_drop n ts] at h
  exact h.behind

theorem attributes_of_closed (h : openBehind? [] ts = some []) (hoff : SetOff ts more) :
    attributes (ts ++ more) = attributes ts ∧ openBehind? [] (ts.drop (attributes ts).length) = some [] := by
  fun_induction attributes ts with
  | case1 =>
    cases more with
    | nil => simp [attributes, h]
    | cons u more => simp [attributes, (hoff.plain u rfl).1, h]
  | case2 t ts hattribute argument =>
    rename_i ih
    have hbehind := openBehind?_of_word (isPunctuation_of_isAttribute hattribute) h
    have hword : ts = [] → ∀ u ∈ more.head?, u.kind ≠ .opening .paren := by
      rintro rfl
      exact hoff.argument t rfl (by simp [Token.takesArgument, hattribute])
    obtain ⟨hargument, hrest⟩ : parenthesized (ts ++ more) = argument ∧ openBehind? [] (ts.drop argument.length) = some [] :=
      group_of_closed rfl (fun _ _ => rfl) hbehind hword
    obtain ⟨hmore, hrest'⟩ := ih hrest ((@SetOff.behind ts more [t] hoff).drop argument.length)
    refine ⟨?_, ?_⟩
    · rw [List.cons_append, attributes, if_pos hattribute]
      have hdrop : (ts ++ more).drop argument.length = ts.drop argument.length ++ more :=
        List.drop_append_of_le_length (Nesting.prefix_parenthesized ts).length_le
      simp only [hargument, hdrop, hmore]
    · rwa [List.length_cons, List.drop_succ_cons, List.length_append, ← List.drop_drop]
  | case3 t ts hattribute =>
    rw [List.cons_append, attributes, if_neg hattribute]
    exact ⟨rfl, h⟩

namespace Aggregate

theorem tagged_of_closed (h : openBehind? [] ts = some []) (hoff : SetOff ts more)
    (hname : ts = [] → ∀ u ∈ more.head?, u.isName = false) :
    tagged (ts ++ more) = tagged ts ∧ openBehind? [] (ts.drop (tagged ts).length) = some [] := by
  cases ts with
  | nil =>
    cases more with
    | nil => simp [tagged, h]
    | cons u more =>
      have hu := hname rfl u rfl
      simp [tagged, hu, h]
  | cons t ts =>
    simp only [List.cons_append, tagged]
    split_ifs with hisName
    · obtain ⟨hsame, hrest⟩ := attributes_of_closed (openBehind?_of_word (isPunctuation_of_isName hisName) h)
        (@SetOff.behind ts more [t] hoff)
      exact ⟨by rw [hsame], hrest⟩
    · exact ⟨rfl, h⟩

/-- An aggregate in closed tokens does not reach over their end, unless its tag would stand there. -/
theorem ofTokens_of_closed (keyword : Token) (h : openBehind? [] ts = some []) (hoff : SetOff ts more)
    (hname : ts.drop (attributes ts).length = [] → ∀ u ∈ more.head?, u.isName = false) :
    ofTokens keyword (ts ++ more) = ofTokens keyword ts ∧
      openBehind? [] ((keyword :: ts).drop ((ofTokens keyword ts).head ++ (ofTokens keyword ts).body).length) = some [] := by
  obtain ⟨hbefore, hrest⟩ := attributes_of_closed h hoff
  obtain ⟨htagged, hrest'⟩ := tagged_of_closed hrest (hoff.drop _) hname
  have hfront := (prefix_attributes ts).length_le
  have hfront' := (append_prefix_of_drop (prefix_attributes ts) (prefix_tagged _)).length_le
  rw [List.drop_drop, ← List.length_append] at hrest'
  obtain ⟨hbody, hrest''⟩ := @group_of_closed _ more .brace bodyOf rfl (fun _ _ => rfl) hrest'
    fun _ u hu => (hoff.plain u hu).2
  constructor
  · unfold ofTokens
    simp only [hbefore, List.drop_append_of_le_length hfront, htagged, List.drop_append_of_le_length hfront', hbody]
  · rwa [List.drop_drop, ← List.length_append] at hrest''

/-- Cut off behind its body or later, an aggregate is the same. -/
theorem ofTokens_of_whole {keyword : Token} {ts us : List Token}
    (h : (ofTokens keyword ts).head ++ (ofTokens keyword ts).body <+: keyword :: us) (hus : us <+: ts) :
    ofTokens keyword us = ofTokens keyword ts := by
  obtain ⟨inner, hinner⟩ : ∃ inner, (ofTokens keyword ts).head = keyword :: inner := ⟨_, rfl⟩
  rw [hinner, List.cons_append] at h
  have hfront := (List.prefix_cons_inj keyword).1 h
  have hbody : (ofTokens keyword ts).body = bodyOf (ts.drop inner.length) := by
    obtain rfl : attributes ts ++ tagged (ts.drop (attributes ts).length) = inner := (List.cons.inj hinner).2
    rfl
  have hsame : bodyOf (us.drop inner.length) = (ofTokens keyword ts).body := by
    rw [hbody]
    refine bodyOf_of_front ?_ (hus.drop _)
    rw [← hbody]
    simpa using hfront.drop inner.length
  rw [ofTokens_of_front hinner ((List.prefix_append _ _).trans hfront) hus, hsame]

end Aggregate

/-! ### Specifiers at the end -/

namespace Specifier

variable {markers typed behindExtern : Bool} {s : Specifier}

/-- A specifier at the front of closed tokens is the same whatever follows that is set off from them. -/
theorem first?_append (markers typed behindExtern : Bool) (t : Token) (h : openBehind? [] ts = some [])
    (hoff : SetOff (t :: ts) more)
    (hname : (∃ k, t.kind = .keyword k ∧ k.isAggregate = true) → ts.drop (attributes ts).length = [] →
      ∀ u ∈ more.head?, u.isName = false) :
    first? markers typed behindExtern t (ts ++ more) = first? markers typed behindExtern t ts := by
  have hgroup : t.takesArgument = true → parenthesized (ts ++ more) = parenthesized ts := by
    intro hargument
    refine (group_of_closed rfl (fun _ _ => rfl) h ?_).1
    rintro rfl
    exact hoff.argument t rfl hargument
  have haggregate : (∃ k, t.kind = .keyword k ∧ k.isAggregate = true) →
      Aggregate.ofTokens t (ts ++ more) = Aggregate.ofTokens t ts :=
    fun hkeyword => (Aggregate.ofTokens_of_closed t h (@SetOff.behind ts more [t] hoff) (hname hkeyword)).1
  unfold first?
  split
  case h_1 word hkind =>
    unfold ofIdentifier? withArgument
    by_cases hargument : t.takesArgument = true
    · simp only [hgroup hargument]
    · simp only [Token.takesArgument, Bool.or_eq_true, not_or, Bool.not_eq_true] at hargument
      simp only [hargument.1.1, Bool.false_eq_true, if_false]
  case h_2 k hkind =>
    unfold ofKeyword? withArgument hasArgument
    by_cases hk : k.isAggregate = true
    · rw [if_pos hk, if_pos hk, haggregate ⟨k, hkind, hk⟩]
    · rw [if_neg hk, if_neg hk]
      by_cases hargument : t.takesArgument = true
      · simp only [hgroup hargument]
      · cases k <;> first | rfl | simp [Token.takesArgument, hkind] at hargument
  all_goals rfl

/-- Cut off behind its tokens or later, a specifier is the same. -/
theorem first?_of_front {us : List Token} (h : first? markers typed behindExtern t ts = some s) (hfront : s.tokens <+: t :: us) (hus : us <+: ts) :
    first? markers typed behindExtern t us = some s := by
  have hargument : ∀ role, s = withArgument role t ts → parenthesized us = parenthesized ts := by
    rintro role rfl
    exact Nesting.parenthesized_of_front ((List.prefix_cons_inj t).1 hfront) hus
  unfold first? at h ⊢
  split at h
  case h_1 =>
    unfold ofIdentifier? at h ⊢
    split at h
    case h_1 => simpa using h
    case h_2 =>
      split_ifs at h ⊢
      · rw [← h, withArgument, hargument _ (Option.some.inj h).symm, withArgument]
      · rw [← h, withArgument, hargument _ (Option.some.inj h).symm, withArgument]
      · exact h
  case h_2 k hkind =>
    unfold ofKeyword? at h ⊢
    by_cases hk : k.isAggregate = true
    · rw [if_pos hk] at h ⊢
      obtain rfl := Option.some.inj h
      simp only [Aggregate.ofTokens_of_whole hfront hus]
    · rw [if_neg hk] at h ⊢
      by_cases hword : k = .alignasKw ∨ k = .atomicKw
      · obtain ⟨role, hrole⟩ : ∃ role, s = withArgument role t ts := by
          rcases hword with rfl | rfl <;> exact ⟨_, (Option.some.inj h).symm⟩
        have hsame := hargument role hrole
        unfold withArgument hasArgument at h ⊢
        rwa [hsame]
      · cases k <;> first | exact h | simp at hword
  case h_3 => exact h
  case h_4 => exact h

/-- An aggregate of nothing but attributes has neither a tag nor a body. -/
theorem eq_of_bare {k : Keyword} (hkind : t.kind = .keyword k) (hk : k.isAggregate = true)
    (hnil : ts.drop (attributes ts).length = []) (h : first? markers typed behindExtern t ts = some s) :
    s = ⟨.aggregate ⟨t :: attributes ts, none, []⟩, t :: attributes ts⟩ := by
  have hbare : Aggregate.ofTokens t ts = ⟨t :: attributes ts, none, []⟩ := by
    simp [Aggregate.ofTokens, hnil, Aggregate.tagged, Aggregate.bodyOf]
  rw [first?, hkind] at h
  simp only [ofKeyword?, if_pos hk, hbare, List.append_nil] at h
  exact (Option.some.inj h).symm

/-- It leaves closed tokens. -/
theorem openBehind?_of_first? (h : openBehind? [] (t :: ts) = some [])
    (hfirst : first? markers typed behindExtern t ts = some s) : openBehind? [] ((t :: ts).drop s.tokens.length) = some [] := by
  have hbehind := openBehind?_of_word (isPunctuation_of_first? hfirst) h
  have hoff : SetOff ts [] := ⟨by simp, by simp⟩
  cases form_of_first? hfirst with
  | word => exact hbehind
  | argument => exact (@group_of_closed _ [] .paren _ rfl (fun _ _ => rfl) hbehind (by simp)).2
  | aggregate => exact (Aggregate.ofTokens_of_closed t hbehind hoff (by simp)).2

end Specifier

namespace Specifiers

/-- The specifiers at the front of closed tokens are the same whatever follows that is set off from them and begins no
specifier. -/
theorem take_append {markers typed behindExtern : Bool} (h : openBehind? [] ts = some []) (hoff : SetOff ts more)
    (hname : (∀ u ∈ more.head?, u.isName = false) ∨
      ∀ s ∈ (take markers typed behindExtern ts).getLast?, ∀ a ∈ s.aggregate?, a.tag.isSome = true ∨ a.body ≠ [])
    (hstart : ∀ behind, take markers (typed || (take markers typed behindExtern ts).any (·.isType)) behind more = []) :
    take markers typed behindExtern (ts ++ more) = take markers typed behindExtern ts := by
  fun_induction take markers typed behindExtern ts with
  | case1 typed behindExtern => simpa using hstart behindExtern
  | case2 typed behindExtern t ts s hs ih =>
    have hbehind := openBehind?_of_word (Specifier.isPunctuation_of_first? hs) h
    have hrest := Specifier.openBehind?_of_first? h hs
    obtain ⟨hfront, hhead⟩ := Specifier.prefix_of_first? hs
    obtain ⟨inner, hinner⟩ := List.head?_eq_some_iff.1 hhead
    have hle : s.tokens.length - 1 ≤ ts.length := by
      have := hfront.length_le
      simp only [List.length_cons] at this
      omega
    have hdrop : (t :: ts).drop s.tokens.length = ts.drop (s.tokens.length - 1) := by simp [hinner]
    rw [hdrop] at hrest
    have hsame : Specifier.first? markers typed behindExtern t (ts ++ more) = some s := by
      rw [Specifier.first?_append markers typed behindExtern t hbehind hoff ?_, hs]
      rintro ⟨k, hkind, hk⟩ hnil
      refine hname.resolve_right fun hcomplete => ?_
      have hbare := Specifier.eq_of_bare hkind hk hnil hs
      have hnone : ts.drop (s.tokens.length - 1) = [] := by simpa [hbare] using hnil
      have hlast := hcomplete s (by rw [hnone, take]; rfl) ⟨t :: attributes ts, none, []⟩ (by rw [hbare]; rfl)
      simp at hlast
    rw [List.cons_append, take, hsame]
    simp only [List.drop_append_of_le_length hle]
    rw [ih hrest ((@SetOff.behind ts more [t] hoff).drop _) ?_ ?_]
    · refine hname.imp_right fun hcomplete s' hs' => hcomplete s' ?_
      rw [List.getLast?_cons, Option.mem_def.1 hs']
      rfl
    · simpa [Bool.or_assoc] using hstart
  | case3 typed behindExtern t ts hs =>
    have hnone : Specifier.first? markers typed behindExtern t (ts ++ more) = none := by
      by_cases hword : t.kind.isPunctuation = false
      · rw [Specifier.first?_append markers typed behindExtern t (openBehind?_of_word hword h) hoff ?_, hs]
        rintro ⟨k, hkind, hk⟩
        simp [Specifier.first?, hkind, Specifier.ofKeyword?, hk] at hs
      · cases hfirst : Specifier.first? markers typed behindExtern t (ts ++ more) with
        | none => rfl
        | some s => exact absurd (Specifier.isPunctuation_of_first? hfirst) hword
    rw [List.cons_append, take, hnone]

end Specifiers

end CHeader
