import CHeader.Proofs.Parts
import Mathlib.Data.List.Infix

/-!
# Levels

The level of some tokens is the depth behind them (`Nesting.level`), which is the number of brackets that are open
there (`Nesting.openBehind?`). A group that something follows is closed, so that it does not change the level; and the specifiers of a construct are words and groups. What stands between
the groups of an aggregate is a word, or the brace of its body (`Aggregate.outside_head`). Read again without the
tokens behind it, an aggregate is the same (`Aggregate.ofTokens_body`).
-/

namespace CHeader

namespace Nesting

/-! ### Levels -/

/-- The depth behind some tokens. -/
def level (depth : Nat) (ts : List Token) : Nat :=
  ts.foldl (fun depth t => depthBehind depth t.kind) depth

@[simp] theorem level_nil (depth : Nat) : level depth [] = depth := rfl

@[simp] theorem level_cons (depth : Nat) (t : Token) (ts : List Token) :
    level depth (t :: ts) = level (depthBehind depth t.kind) ts := rfl

@[simp] theorem level_append (depth : Nat) (ts us : List Token) : level depth (ts ++ us) = level (level depth ts) us :=
  List.foldl_append

theorem depthBehind_of_word {kind : TokenKind} (h : kind.isPunctuation = false) (depth : Nat) :
    depthBehind depth kind = depth := by
  unfold TokenKind.isPunctuation at h
  unfold depthBehind TokenKind.isOpening TokenKind.isClosing
  split at h <;> simp_all

/-- A group that something follows is closed. -/
theorem level_closing {depth : Nat} {ts rest : List Token} (h : closing depth ts ++ rest = ts) (hrest : rest ≠ []) :
    level depth (closing depth ts) = 0 := by
  fun_induction closing depth ts with
  | case1 => rfl
  | case2 => exact absurd h hrest
  | case3 depth t ts ih =>
    rw [level_cons]
    exact ih (List.cons.inj h).2

theorem level_parenthesized {ts rest : List Token} (h : parenthesized ts ++ rest = ts) (hrest : rest ≠ []) :
    level 0 (parenthesized ts) = 0 := by
  cases ts with
  | nil => rfl
  | cons t ts =>
    by_cases hopening : t.kind = .opening .paren
    · rw [parenthesized, if_pos hopening] at h ⊢
      rw [level_cons, hopening]
      exact level_closing (List.cons.inj h).2 hrest
    · rw [parenthesized, if_neg hopening]
      rfl

/-! ### Outside the groups -/

/-- The tokens outside all groups satisfy `P`, where `depth` brackets are open before them. -/
def Outside (P : Token → Prop) : Nat → List Token → Prop
  | _, [] => True
  | depth, t :: ts => (depth = 0 → P t) ∧ Outside P (depthBehind depth t.kind) ts

instance decidableOutside (P : Token → Prop) [DecidablePred P] : ∀ depth ts, Decidable (Outside P depth ts)
  | _, [] => .isTrue trivial
  | depth, t :: ts => @instDecidableAnd _ _ _ (decidableOutside P (depthBehind depth t.kind) ts)

variable {P : Token → Prop}

theorem outside_append {depth : Nat} {ts us : List Token} :
    Outside P depth (ts ++ us) ↔ Outside P depth ts ∧ Outside P (level depth ts) us := by
  induction ts generalizing depth with
  | nil => simp [Outside]
  | cons t ts ih => simp only [List.cons_append, Outside, level_cons, ih, and_assoc]

/-- Inside a group, no token is outside. -/
theorem outside_closing (depth : Nat) (ts : List Token) : Outside P depth (closing depth ts) := by
  fun_induction closing depth ts with
  | case1 => trivial
  | case2 => trivial
  | case3 depth t ts ih => exact ⟨fun h => absurd h (Nat.succ_ne_zero depth), ih⟩

theorem outside_parenthesized (hparen : ∀ t : Token, t.kind = .opening .paren → P t) (ts : List Token) :
    Outside P 0 (parenthesized ts) := by
  cases ts with
  | nil => trivial
  | cons t ts =>
    by_cases hopening : t.kind = .opening .paren
    · rw [parenthesized, if_pos hopening]
      refine ⟨fun _ => hparen t hopening, ?_⟩
      rw [hopening]
      exact outside_closing 1 ts
    · rw [parenthesized, if_neg hopening]
      trivial

/-! ### Open brackets -/

/-- The brackets that are open behind a token, the innermost first; `none` if it closes none of them. -/
def openStep (opened : List Token) (t : Token) : Option (List Token) :=
  if t.kind.isOpening then some (t :: opened)
  else if t.kind.isClosing then
    match opened with
    | opening :: outer => if t.kind.closes opening.kind then some outer else none
    | [] => none
  else some opened

/-- The brackets that are open behind some tokens. -/
def openBehind? (opened : List Token) (ts : List Token) : Option (List Token) :=
  ts.foldlM openStep opened

theorem openBehind?_append (opened ts us : List Token) :
    openBehind? opened (ts ++ us) = (openBehind? opened ts).bind (openBehind? · us) :=
  List.foldlM_append

theorem openBehind?_cons (opened : List Token) (t : Token) (ts : List Token) :
    openBehind? opened (t :: ts) = (openStep opened t).bind (openBehind? · ts) :=
  List.foldlM_cons

theorem openStep_of_noBracket {t : Token} (h : t.kind.isOpening = false ∧ t.kind.isClosing = false) (opened : List Token) :
    openStep opened t = some opened := by
  simp [openStep, h.1, h.2]

theorem openStep_opening {t : Token} {bracket : Bracket} (h : t.kind = .opening bracket) (opened : List Token) :
    openStep opened t = some (t :: opened) := by
  simp [openStep, h, TokenKind.isOpening]

/-- A bracket that closes one of kind `bracket` is of that kind. -/
theorem openStep_closing_iff {t opening : Token} {bracket : Bracket} {opened behind : List Token}
    (ht : t.kind.isClosing = true) (hopening : opening.kind = .opening bracket) :
    openStep (opening :: opened) t = some behind ↔ t.kind = .closing bracket ∧ behind = opened := by
  obtain ⟨bracket', hkind⟩ := TokenKind.isClosing_iff.1 ht
  simp only [openStep, hkind, hopening, TokenKind.isOpening, TokenKind.isClosing, TokenKind.closes]
  by_cases h : bracket' = bracket
  · simp [h, eq_comm]
  · simp [h]

theorem openBehind?_of_noBrackets {ts : List Token} (h : ∀ t ∈ ts, t.kind.isOpening = false ∧ t.kind.isClosing = false)
    (opened : List Token) : openBehind? opened ts = some opened := by
  induction ts with
  | nil => rfl
  | cons t ts ih =>
    obtain ⟨ht, hts⟩ := List.forall_mem_cons.1 h
    rw [openBehind?_cons, openStep_of_noBracket ht, Option.bind_some, ih hts]

/-- A depth counts the brackets that are open, and others around them. -/
theorem depthBehind_of_openStep {opened between : List Token} {t : Token} (h : openStep opened t = some between)
    (outer : Nat) : depthBehind (opened.length + outer) t.kind = between.length + outer := by
  unfold openStep at h
  unfold depthBehind
  split_ifs at h ⊢
  · cases h
    rw [List.length_cons, Nat.add_right_comm]
  · cases opened with
    | nil => cases h
    | cons opening opened =>
      simp only at h
      split_ifs at h
      cases h
      rw [List.length_cons, Nat.add_right_comm, Nat.add_sub_cancel]
  · cases h
    rfl

theorem length_of_openStep {opened between : List Token} {t : Token} (h : openStep opened t = some between) :
    depthBehind opened.length t.kind = between.length :=
  depthBehind_of_openStep h 0

/-- The level is the number of brackets that are open. -/
theorem level_of_openBehind? {opened ts behind : List Token} (h : openBehind? opened ts = some behind) :
    level opened.length ts = behind.length := by
  induction ts generalizing opened with
  | nil =>
    cases h
    rfl
  | cons t ts ih =>
    rw [openBehind?_cons] at h
    obtain ⟨between, hstep, hbehind⟩ := Option.bind_eq_some_iff.1 h
    rw [level_cons, length_of_openStep hstep, ih hbehind]

/-- No bracket closes one of another kind, if the right ones are open before the tokens. -/
def Fits (ts : List Token) : Prop :=
  ∃ opened behind, openBehind? opened ts = some behind

theorem Fits.of_infix {ts us : List Token} (h : Fits us) (hwithin : ts <:+: us) : Fits ts := by
  obtain ⟨opened, behind, hus⟩ := h
  obtain ⟨before, more, rfl⟩ := hwithin
  rw [openBehind?_append, openBehind?_append] at hus
  obtain ⟨between, hbetween, -⟩ := Option.bind_eq_some_iff.1 hus
  obtain ⟨opened', -, hts⟩ := Option.bind_eq_some_iff.1 hbetween
  exact ⟨opened', between, hts⟩

/-- Where all brackets fit, a group that something follows ends with the bracket that closes it, and what follows is
read with the brackets around the group. -/
theorem exists_of_closing {extra opened ts rest behind : List Token} {t : Token}
    (h : openBehind? (extra ++ t :: opened) ts = some behind) (hsplit : closing (extra.length + 1) ts ++ rest = ts)
    (hrest : rest ≠ []) :
    ∃ inside close, closing (extra.length + 1) ts = inside ++ [close] ∧ close.kind.isClosing = true ∧
      openStep (t :: opened) close = some opened ∧ openBehind? opened rest = some behind := by
  induction ts generalizing extra with
  | nil => exact absurd (List.append_eq_nil_iff.1 hsplit).2 hrest
  | cons u us ih =>
    rw [openBehind?_cons] at h
    obtain ⟨between, hstep, hus⟩ := Option.bind_eq_some_iff.1 h
    rw [closing, List.cons_append] at hsplit
    have hsplit' := (List.cons.inj hsplit).2
    rw [closing]
    by_cases hopening : u.kind.isOpening = true
    · obtain rfl : u :: (extra ++ t :: opened) = between := by simpa [openStep, hopening] using hstep
      have hdepth : depthBehind (extra.length + 1) u.kind = (u :: extra).length + 1 := by simp [depthBehind, hopening]
      rw [hdepth] at hsplit' ⊢
      obtain ⟨inside, close, hclosing, hclose⟩ := ih hus hsplit'
      exact ⟨u :: inside, close, by rw [hclosing, List.cons_append], hclose⟩
    · by_cases hclosing : u.kind.isClosing = true
      · have hdepth : depthBehind (extra.length + 1) u.kind = extra.length := by simp [depthBehind, hopening, hclosing]
        rw [hdepth] at hsplit' ⊢
        cases extra with
        | nil =>
          obtain ⟨hcloses, rfl⟩ : u.kind.closes t.kind = true ∧ opened = between := by
            simpa [openStep, hopening, hclosing] using hstep
          obtain rfl : rest = us := by simpa [closing] using hsplit'
          exact ⟨[], u, by simp [closing], hclosing, hstep, hus⟩
        | cons e extra =>
          obtain ⟨-, rfl⟩ : u.kind.closes e.kind = true ∧ extra ++ t :: opened = between := by
            simpa [openStep, hopening, hclosing] using hstep
          obtain ⟨inside, close, hinside, hclose⟩ := ih hus hsplit'
          exact ⟨u :: inside, close, by rw [List.length_cons, hinside, List.cons_append], hclose⟩
      · have hdepth : depthBehind (extra.length + 1) u.kind = extra.length + 1 := by simp [depthBehind, hopening, hclosing]
        rw [hdepth] at hsplit' ⊢
        obtain rfl : extra ++ t :: opened = between := by simpa [openStep, hopening, hclosing] using hstep
        obtain ⟨inside, close, hinside, hclose⟩ := ih hus hsplit'
        exact ⟨u :: inside, close, by rw [hinside, List.cons_append], hclose⟩

/-! ### Fronts -/

/-- Cut off behind a group, the tokens begin with the same group. -/
theorem closing_of_front {depth : Nat} {ts us : List Token} (h : closing depth ts <+: us) (hus : us <+: ts) :
    closing depth us = closing depth ts := by
  fun_induction closing depth ts generalizing us with
  | case1 => rw [closing]
  | case2 depth => rw [List.prefix_nil.1 hus, closing]
  | case3 depth t ts ih =>
    obtain ⟨vs, rfl⟩ : ∃ vs, us = t :: vs := by
      obtain ⟨rest, rfl⟩ := h
      exact ⟨_, rfl⟩
    rw [closing, ih ((List.prefix_cons_inj t).1 h) ((List.prefix_cons_inj t).1 hus)]

theorem parenthesized_of_front {ts us : List Token} (h : parenthesized ts <+: us) (hus : us <+: ts) :
    parenthesized us = parenthesized ts := by
  cases us with
  | nil => exact (List.prefix_nil.1 h).symm
  | cons t us =>
    obtain ⟨rest, rfl⟩ := hus
    rw [List.cons_append] at h ⊢
    by_cases hopening : t.kind = .opening .paren
    · rw [parenthesized, if_pos hopening] at h ⊢
      rw [parenthesized, if_pos hopening, closing_of_front ((List.prefix_cons_inj t).1 h) (List.prefix_append _ _)]
    · rw [parenthesized, if_neg hopening, parenthesized, if_neg hopening]

end Nesting

open Nesting (level Outside)

/-! ### Attributes -/

theorem isPunctuation_of_isAttribute {t : Token} (h : t.isAttribute = true) : t.kind.isPunctuation = false := by
  unfold Token.isAttribute TokenKind.identifier? at h
  split at h <;> simp_all [TokenKind.isPunctuation]

theorem noBracket_of_word {t : Token} (h : t.kind.isPunctuation = false) :
    t.kind.isOpening = false ∧ t.kind.isClosing = false := by
  unfold TokenKind.isPunctuation at h
  unfold TokenKind.isOpening TokenKind.isClosing
  split at h <;> simp_all

theorem isPunctuation_of_isName {t : Token} (h : t.isName = true) : t.kind.isPunctuation = false := by
  unfold Token.isName TokenKind.identifier? at h
  split at h <;> simp_all [TokenKind.isPunctuation]

theorem level_attributes {ts rest : List Token} (h : attributes ts ++ rest = ts) (hrest : rest ≠ []) :
    level 0 (attributes ts) = 0 := by
  fun_induction attributes ts with
  | case1 => rfl
  | case2 t ts hattribute argument ih =>
    have hsplit : argument ++ (attributes (ts.drop argument.length) ++ rest) = ts := by
      simpa using h
    have hdrop : attributes (ts.drop argument.length) ++ rest = ts.drop argument.length := by
      simpa using congrArg (List.drop argument.length) hsplit
    rw [Nesting.level_cons, Nesting.depthBehind_of_word (isPunctuation_of_isAttribute hattribute), Nesting.level_append,
      Nesting.level_parenthesized hsplit (by simp [hrest]), ih hdrop]
  | case3 => rfl

theorem outside_attributes {P : Token → Prop} (hword : ∀ t : Token, t.kind.isPunctuation = false → P t)
    (hparen : ∀ t : Token, t.kind = .opening .paren → P t) (ts : List Token) : Outside P 0 (attributes ts) := by
  fun_induction attributes ts with
  | case1 => trivial
  | case2 t ts hattribute argument ih =>
    have ht := isPunctuation_of_isAttribute hattribute
    refine ⟨fun _ => hword t ht, ?_⟩
    rw [Nesting.depthBehind_of_word ht, Nesting.outside_append]
    refine ⟨Nesting.outside_parenthesized hparen ts, ?_⟩
    by_cases hmore : ts.drop argument.length = []
    · rw [hmore, attributes]
      trivial
    · rw [Nesting.level_parenthesized (List.prefix_iff_eq_append.1 (Nesting.prefix_parenthesized ts)) hmore]
      exact ih
  | case3 => trivial

theorem attributes_of_front {ts us : List Token} (h : attributes ts <+: us) (hus : us <+: ts) :
    attributes us = attributes ts := by
  fun_induction attributes ts generalizing us with
  | case1 => rw [List.prefix_nil.1 hus, attributes]
  | case2 t ts hattribute =>
    rename_i ih
    obtain ⟨vs, rfl⟩ : ∃ vs, us = t :: vs := by
      obtain ⟨rest, rfl⟩ := h
      exact ⟨_, rfl⟩
    obtain ⟨more, hmore⟩ := (List.prefix_cons_inj t).1 h
    have hvs := (List.prefix_cons_inj t).1 hus
    have hargument : Nesting.parenthesized vs = Nesting.parenthesized ts := by
      rw [List.append_assoc] at hmore
      exact Nesting.parenthesized_of_front ⟨_, hmore⟩ hvs
    rw [attributes, if_pos hattribute]
    simp only [hargument]
    rw [ih ?_ (hvs.drop _)]
    rw [← hmore, List.append_assoc, List.drop_left]
    exact List.prefix_append _ _
  | case3 t ts hattribute =>
    cases us with
    | nil => rw [attributes]
    | cons u us =>
      obtain rfl : u = t := (List.cons_prefix_cons.1 hus).1
      rw [attributes, if_neg hattribute]

/-! ### Aggregates -/

namespace Aggregate

theorem level_tagged {ts rest : List Token} (h : tagged ts ++ rest = ts) (hrest : rest ≠ []) : level 0 (tagged ts) = 0 := by
  cases ts with
  | nil => rfl
  | cons t ts =>
    by_cases hname : t.isName
    · rw [tagged, if_pos hname] at h ⊢
      rw [Nesting.level_cons, Nesting.depthBehind_of_word (isPunctuation_of_isName hname)]
      exact level_attributes (List.cons.inj h).2 hrest
    · rw [tagged, if_neg hname]
      rfl

theorem level_bodyOf {ts rest : List Token} (h : bodyOf ts ++ rest = ts) (hrest : rest ≠ []) : level 0 (bodyOf ts) = 0 := by
  cases ts with
  | nil => rfl
  | cons t ts =>
    by_cases hopening : t.kind = .opening .brace
    · rw [bodyOf, if_pos hopening] at h ⊢
      rw [Nesting.level_cons, hopening]
      exact Nesting.level_closing (List.cons.inj h).2 hrest
    · rw [bodyOf, if_neg hopening]
      rfl

theorem outside_tagged {P : Token → Prop} (hword : ∀ t : Token, t.kind.isPunctuation = false → P t)
    (hparen : ∀ t : Token, t.kind = .opening .paren → P t) (ts : List Token) : Outside P 0 (tagged ts) := by
  cases ts with
  | nil => trivial
  | cons t ts =>
    rw [tagged]
    split_ifs with hname
    · have ht := isPunctuation_of_isName hname
      refine ⟨fun _ => hword t ht, ?_⟩
      rw [Nesting.depthBehind_of_word ht]
      exact outside_attributes hword hparen ts
    · trivial

theorem tagged_of_front {ts us : List Token} (h : tagged ts <+: us) (hus : us <+: ts) : tagged us = tagged ts := by
  cases us with
  | nil => exact (List.prefix_nil.1 h).symm
  | cons t us =>
    obtain ⟨rest, rfl⟩ := hus
    rw [List.cons_append] at h ⊢
    by_cases hname : t.isName
    · rw [tagged, if_pos hname] at h ⊢
      rw [tagged, if_pos hname, attributes_of_front ((List.prefix_cons_inj t).1 h) (List.prefix_append _ _)]
    · rw [tagged, if_neg hname, tagged, if_neg hname]

theorem bodyOf_of_front {ts us : List Token} (h : bodyOf ts <+: us) (hus : us <+: ts) : bodyOf us = bodyOf ts := by
  cases us with
  | nil => exact (List.prefix_nil.1 h).symm
  | cons t us =>
    obtain ⟨rest, rfl⟩ := hus
    rw [List.cons_append] at h ⊢
    by_cases hopening : t.kind = .opening .brace
    · rw [bodyOf, if_pos hopening] at h ⊢
      rw [bodyOf, if_pos hopening, Nesting.closing_of_front ((List.prefix_cons_inj t).1 h) (List.prefix_append _ _)]
    · rw [bodyOf, if_neg hopening, bodyOf, if_neg hopening]

/-- The parts of an aggregate, one behind the other. -/
theorem exists_parts (keyword : Token) (ts : List Token) :
    ∃ first second rest, attributes ts ++ first = ts ∧ tagged first ++ second = first ∧ bodyOf second ++ rest = second ∧
      (ofTokens keyword ts).head = keyword :: (attributes ts ++ tagged first) ∧
      (ofTokens keyword ts).body = bodyOf second := by
  obtain ⟨first, hfirst⟩ := prefix_attributes ts
  obtain ⟨second, hsecond⟩ := prefix_tagged first
  obtain ⟨rest, hrest⟩ := prefix_bodyOf second
  have hdrop : ts.drop (attributes ts).length = first := by
    simpa using congrArg (List.drop (attributes ts).length) hfirst.symm
  have hdrop' : ts.drop (attributes ts ++ tagged first).length = second := by
    rw [List.length_append, ← List.drop_drop, hdrop]
    simpa using congrArg (List.drop (tagged first).length) hsecond.symm
  refine ⟨first, second, rest, hfirst, hsecond, hrest, ?_, ?_⟩
  · simp only [ofTokens, hdrop]
  · simp only [ofTokens, hdrop, hdrop']

/-- The parts of an aggregate that something follows: something follows each of them. -/
theorem exists_parts_behind {keyword : Token} {ts rest : List Token}
    (h : (ofTokens keyword ts).head ++ (ofTokens keyword ts).body ++ rest = keyword :: ts) (hrest : rest ≠ []) :
    ∃ first second, (attributes ts ++ first = ts ∧ first ≠ []) ∧ (tagged first ++ second = first ∧ second ≠ []) ∧
      bodyOf second ++ rest = second ∧ (ofTokens keyword ts).head = keyword :: (attributes ts ++ tagged first) ∧
      (ofTokens keyword ts).body = bodyOf second := by
  obtain ⟨first, second, rest', hfirst, hsecond, hthird, hhead, hbody⟩ := exists_parts keyword ts
  obtain rfl : rest' = rest := by
    rw [hhead, hbody, List.cons_append, List.cons_append] at h
    have hts := (List.cons.inj h).2
    rw [List.append_assoc, List.append_assoc] at hts
    have hfirst' := List.append_cancel_left (hts.trans hfirst.symm)
    have hsecond' := List.append_cancel_left (hfirst'.trans hsecond.symm)
    exact (List.append_cancel_left (hsecond'.trans hthird.symm)).symm
  have hne : second ≠ [] := by
    rintro rfl
    exact hrest (List.append_eq_nil_iff.1 hthird).2
  have hne' : first ≠ [] := by
    rintro rfl
    exact hne (List.append_eq_nil_iff.1 hsecond).2
  exact ⟨first, second, ⟨hfirst, hne'⟩, ⟨hsecond, hne⟩, hthird, hhead, hbody⟩

/-- What something follows of an aggregate is closed. -/
theorem level_ofTokens {keyword : Token} {ts rest : List Token} (hword : keyword.kind.isPunctuation = false)
    (h : (ofTokens keyword ts).head ++ (ofTokens keyword ts).body ++ rest = keyword :: ts) (hrest : rest ≠ []) :
    level 0 (ofTokens keyword ts).head = 0 ∧ level 0 ((ofTokens keyword ts).head ++ (ofTokens keyword ts).body) = 0 := by
  obtain ⟨first, second, ⟨hfirst, hne⟩, ⟨hsecond, hne'⟩, hthird, hhead, hbody⟩ := exists_parts_behind h hrest
  have hlevel : level 0 (ofTokens keyword ts).head = 0 := by
    rw [hhead, Nesting.level_cons, Nesting.depthBehind_of_word hword, Nesting.level_append, level_attributes hfirst hne,
      level_tagged hsecond hne']
  refine ⟨hlevel, ?_⟩
  rw [Nesting.level_append, hlevel, hbody, level_bodyOf hthird hrest]

/-- Words and the parentheses of attributes stand outside the groups before the body. -/
theorem outside_head {P : Token → Prop} (hword : ∀ t : Token, t.kind.isPunctuation = false → P t)
    (hparen : ∀ t : Token, t.kind = .opening .paren → P t) {keyword : Token} (hkeyword : keyword.kind.isPunctuation = false)
    (ts : List Token) : Outside P 0 (ofTokens keyword ts).head := by
  obtain ⟨first, second, rest, hfirst, -, -, hhead, -⟩ := exists_parts keyword ts
  rw [hhead]
  refine ⟨fun _ => hword keyword hkeyword, ?_⟩
  rw [Nesting.depthBehind_of_word hkeyword, Nesting.outside_append]
  refine ⟨outside_attributes hword hparen ts, ?_⟩
  by_cases hne : first = []
  · rw [hne, tagged]
    trivial
  · rw [level_attributes hfirst hne]
    exact outside_tagged hword hparen first

/-- Inside the braces of a body, no token is outside. -/
theorem outside_body (P : Token → Prop) (keyword : Token) (ts : List Token) :
    (ofTokens keyword ts).body = [] ∨
      ∃ brace inner, (ofTokens keyword ts).body = brace :: inner ∧ brace.kind = .opening .brace ∧ Outside P 1 inner := by
  obtain ⟨-, second, -, -, -, -, -, hbody⟩ := exists_parts keyword ts
  rw [hbody]
  cases second with
  | nil => exact .inl rfl
  | cons t second =>
    rw [bodyOf]
    split_ifs with hopening
    · exact .inr ⟨t, _, rfl, hopening, Nesting.outside_closing 1 second⟩
    · exact .inl rfl

/-- Cut off behind its head or later, an aggregate has the same head and what is left of its body. -/
theorem ofTokens_of_front {keyword : Token} {ts us inner : List Token} (hinner : (ofTokens keyword ts).head = keyword :: inner)
    (h : inner <+: us) (hus : us <+: ts) :
    ofTokens keyword us = { ofTokens keyword ts with body := bodyOf (us.drop inner.length) } := by
  obtain rfl : attributes ts ++ tagged (ts.drop (attributes ts).length) = inner := (List.cons.inj hinner).2
  have hbefore : attributes us = attributes ts := attributes_of_front ((List.prefix_append _ _).trans h) hus
  have htagged : tagged (us.drop (attributes ts).length) = tagged (ts.drop (attributes ts).length) := by
    refine tagged_of_front ?_ (hus.drop _)
    simpa using h.drop (attributes ts).length
  simp only [ofTokens, hbefore, htagged]

/-- The head of an aggregate is one without a body. -/
theorem ofTokens_head {keyword : Token} {ts inner : List Token} (hinner : (ofTokens keyword ts).head = keyword :: inner) :
    ofTokens keyword inner = { ofTokens keyword ts with body := [] } := by
  have hall := prefix_ofTokens keyword ts
  rw [hinner] at hall
  have hfront := (List.prefix_append inner _).trans ((List.prefix_cons_inj keyword).1 hall)
  rw [ofTokens_of_front hinner List.prefix_rfl hfront, List.drop_length]
  rfl

/-- Nothing behind its body belongs to an aggregate. -/
theorem ofTokens_body {keyword : Token} {ts inner : List Token} (hinner : (ofTokens keyword ts).head = keyword :: inner) :
    ofTokens keyword (inner ++ (ofTokens keyword ts).body) = ofTokens keyword ts := by
  have hall := prefix_ofTokens keyword ts
  rw [hinner] at hall
  have hfront : inner ++ (ofTokens keyword ts).body <+: ts := (List.prefix_cons_inj keyword).1 hall
  have hwhole : (ofTokens keyword ts).body = bodyOf (ts.drop inner.length) := by
    obtain rfl : attributes ts ++ tagged (ts.drop (attributes ts).length) = inner := (List.cons.inj hinner).2
    rfl
  rw [ofTokens_of_front hinner (List.prefix_append _ _) hfront, List.drop_left]
  have hbody : bodyOf (ofTokens keyword ts).body = (ofTokens keyword ts).body := by
    rw [hwhole]
    refine bodyOf_of_front List.prefix_rfl (prefix_bodyOf _)
  rw [hbody]

end Aggregate

/-! ### Specifiers -/

namespace Specifier

variable {markers typed behindExtern : Bool} {t : Token} {ts rest : List Token} {s : Specifier}

/-- Specifiers begin with words. -/
theorem isPunctuation_of_first? (h : first? markers typed behindExtern t ts = some s) : t.kind.isPunctuation = false := by
  unfold first? at h
  unfold TokenKind.isPunctuation
  split at h <;> simp_all

theorem level_of_first? (h : first? markers typed behindExtern t ts = some s) (hsplit : s.tokens ++ rest = t :: ts)
    (hrest : rest ≠ []) : level 0 s.tokens = 0 := by
  have hword := isPunctuation_of_first? h
  cases form_of_first? h with
  | word role _ => rw [Nesting.level_cons, Nesting.depthBehind_of_word hword, Nesting.level_nil]
  | argument role _ =>
    rw [withArgument, Nesting.level_cons, Nesting.depthBehind_of_word hword]
    exact Nesting.level_parenthesized (List.cons.inj hsplit).2 hrest
  | aggregate => exact (Aggregate.level_ofTokens hword hsplit hrest).2

/-- An aggregate begins with its keyword. -/
theorem keyword_of_aggregate? (h : first? markers typed behindExtern t ts = some s) {a : Aggregate}
    (ha : s.aggregate? = some a) : (∃ k, t.kind = .keyword k ∧ k.isAggregate = true) ∧ a = .ofTokens t ts := by
  have hform := form_of_first? h
  cases hform with
  | word role simple | argument role simple =>
    cases role <;> cases ha
    exact absurd rfl (simple _)
  | aggregate =>
    cases ha
    refine ⟨?_, rfl⟩
    unfold first? at h
    split at h
    · unfold ofIdentifier? withArgument at h
      split at h
      · cases h
      · split_ifs at h <;> cases h
    · rename_i k hkind
      refine ⟨k, hkind, ?_⟩
      unfold ofKeyword? withArgument at h
      by_contra haggregate
      rw [if_neg haggregate] at h
      split at h
      case h_5 => split_ifs at h <;> cases h
      case h_6 => split_ifs at h <;> cases h
      all_goals cases h
    · split_ifs at h
      cases h
    · cases h

end Specifier

/-- Each specifier is taken off what is behind those before it, and these are closed. The specifiers behind it are taken
off what is left. -/
theorem Specifiers.exists_of_take {markers typed behindExtern : Bool} {ts : List Token} {before behind : Specifiers} {s : Specifier}
    (h : take markers typed behindExtern ts = before ++ s :: behind) :
    ∃ typed' behindExtern' t us, ts = before.tokens ++ t :: us ∧
      Specifier.first? markers typed' behindExtern' t us = some s ∧ level 0 before.tokens = 0 ∧
      behind = take markers (typed' || s.isType) (t.kind = .keyword .externKw) (us.drop (s.tokens.length - 1)) := by
  induction before generalizing typed behindExtern ts with
  | nil =>
    cases ts with
    | nil => simp [take] at h
    | cons t ts =>
      rw [take] at h
      split at h
      · rename_i s' hs
        obtain ⟨rfl, hbehind⟩ := List.cons.inj h
        exact ⟨_, _, t, ts, rfl, hs, rfl, hbehind.symm⟩
      · cases h
  | cons s' before ih =>
    cases ts with
    | nil => simp [take] at h
    | cons t ts =>
      rw [take] at h
      split at h
      · rename_i s'' hs
        obtain ⟨rfl, hrest⟩ := List.cons.inj h
        obtain ⟨typed', behindExtern', u, us, hus, hfirst, hlevel, hbehind⟩ := ih hrest
        obtain ⟨hfront, hhead⟩ := Specifier.prefix_of_first? hs
        obtain ⟨inner, hinner⟩ := List.head?_eq_some_iff.1 hhead
        have hsplit : s''.tokens ++ (tokens before ++ u :: us) = t :: ts := by
          have hdrop : ts.drop (s''.tokens.length - 1) = (t :: ts).drop s''.tokens.length := by
            rw [hinner]
            rfl
          rw [← hus, hdrop]
          exact List.prefix_iff_eq_append.1 hfront
        have hcons : tokens (s'' :: before) = s''.tokens ++ tokens before := List.flatMap_cons
        refine ⟨typed', behindExtern', u, us, ?_, hfirst, ?_, hbehind⟩
        · rw [hcons, List.append_assoc, hsplit]
        · rw [hcons, Nesting.level_append, Specifier.level_of_first? hs hsplit (by simp), hlevel]
      · cases h

end CHeader
