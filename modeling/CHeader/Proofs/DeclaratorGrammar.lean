import CHeader.Proofs.Braces
import CHeader.Proofs.Checked.Declarators

/-!
# The grammar of declarators

A declarator is a name inside pointers, groups, arrays, parameter lists and attributes (`Declares`). Read from left to
right, the only guide is the token before a parenthesis: in front of the name it is a star, a qualifier or another
parenthesis, so that every group is entered; behind the name it is the name itself or a closing bracket, so that every
group is passed over. `Declarator.ofTokens` therefore finds the one name that is declared, and the parameter list if it
stands directly behind that name.
-/

namespace CHeader

open Nesting (closing depthBehind openBehind? openStep parenthesized)

/-! ### Groups -/

/-- A group in brackets of one kind, with properly nested tokens inside. -/
def IsGroup (bracket : Bracket) (group : List Token) : Prop :=
  ∃ opening inside close, group = opening :: (inside ++ [close]) ∧ opening.kind = .opening bracket ∧
    close.kind = .closing bracket ∧ openBehind? [] inside = some []

/-- An attribute word with its argument, if it has one. -/
inductive IsAttribute : List Token → Prop
  | word {word : Token} (hword : word.isAttribute = true) : IsAttribute [word]
  | applied {word : Token} {argument : List Token} (hword : word.isAttribute = true) (hargument : IsGroup .paren argument) :
    IsAttribute (word :: argument)

section Groups

variable {bracket : Bracket} {group rest : List Token}

/-- A bracket that is open before properly nested tokens is closed by the first closing one behind them. -/
theorem Nesting.closing_of_nested {inside : List Token} {close : Token} (hinside : openBehind? [] inside = some [])
    (hclose : close.kind.isClosing = true) (rest : List Token) :
    closing 1 (inside ++ close :: rest) = inside ++ [close] := by
  suffices h : ∀ (opened : List Token), openBehind? opened inside = some [] →
      closing (opened.length + 1) (inside ++ close :: rest) = inside ++ [close] from h [] hinside
  clear hinside
  induction inside with
  | nil =>
    intro opened hopened
    obtain rfl : opened = [] := Option.some.inj hopened
    simp [closing, depthBehind, hclose, Checked.isOpening_of_isClosing hclose]
  | cons t inside ih =>
    intro opened hopened
    rw [openBehind?_cons] at hopened
    obtain ⟨between, hstep, hbehind⟩ := Option.bind_eq_some_iff.1 hopened
    rw [List.cons_append, closing, depthBehind_of_openStep hstep 1, ih between hbehind, List.cons_append]

/-- Tokens that begin with no parenthesis begin with no group. -/
theorem Nesting.parenthesized_eq_nil_iff {ts : List Token} :
    parenthesized ts = [] ↔ ∀ t ∈ ts.head?, t.kind ≠ .opening .paren := by
  cases ts with
  | nil => simp [parenthesized]
  | cons t ts => by_cases hparen : t.kind = .opening .paren <;> simp [parenthesized, hparen]

theorem IsGroup.openBehind? (h : IsGroup bracket group) (opened : List Token) : openBehind? opened group = some opened := by
  obtain ⟨opening, inside, close, rfl, hopening, hclose, hinside⟩ := h
  rw [Nesting.openBehind?_cons, Nesting.openStep_opening hopening, Option.bind_some, Nesting.openBehind?_append,
    Nesting.openBehind?_of_closed hinside, Option.bind_some, Nesting.openBehind?_cons,
    (Nesting.openStep_closing_iff (by simp [hclose, TokenKind.isClosing]) hopening).2 ⟨hclose, rfl⟩]
  rfl

theorem IsAttribute.openBehind? (h : IsAttribute group) (opened : List Token) : openBehind? opened group = some opened := by
  have hword {word : Token} (hattribute : word.isAttribute = true) : openStep opened word = some opened :=
    Nesting.openStep_of_noBracket (noBracket_of_word (isPunctuation_of_isAttribute hattribute)) opened
  cases h with
  | word hattribute =>
    rw [Nesting.openBehind?_cons, hword hattribute]
    rfl
  | applied hattribute hgroup => rw [Nesting.openBehind?_cons, hword hattribute, Option.bind_some, hgroup.openBehind?]

/-- A group is taken off what begins with it. -/
theorem IsGroup.exists_closing (h : IsGroup bracket group) (rest : List Token) :
    ∃ opening inside, group = opening :: inside ∧ opening.kind = .opening bracket ∧ closing 1 (inside ++ rest) = inside := by
  obtain ⟨opening, inside, close, rfl, hopening, hclose, hinside⟩ := h
  refine ⟨opening, inside ++ [close], rfl, hopening, ?_⟩
  rw [List.append_assoc, List.singleton_append, Nesting.closing_of_nested hinside (by simp [hclose, TokenKind.isClosing])]

theorem IsGroup.parenthesized (h : IsGroup .paren group) (rest : List Token) : parenthesized (group ++ rest) = group := by
  obtain ⟨opening, inside, rfl, hopening, hclosing⟩ := h.exists_closing rest
  rw [List.cons_append, Nesting.parenthesized, if_pos hopening, hclosing]

end Groups

/-! ### Declarators -/

/-- The two kinds of declarators: only a direct one has arrays, parameters and attributes behind it. -/
inductive DeclaratorForm
  | declarator
  | direct
  deriving DecidableEq, Repr

/-- `Declares form before name behind` says that `before ++ name :: behind` is a declarator that declares `name`. -/
inductive Declares : DeclaratorForm → List Token → Token → List Token → Prop
  | pointer {star name : Token} {qualifiers before behind : List Token} (hstar : star.kind = .punct .star)
    (hqualifiers : ∀ qualifier ∈ qualifiers, qualifier.kind.isTypeQualifier = true)
    (inner : Declares .declarator before name behind) :
    Declares .declarator (star :: (qualifiers ++ before)) name behind
  | direct {name : Token} {before behind : List Token} (inner : Declares .direct before name behind) :
    Declares .declarator before name behind
  | name {name : Token} (hname : name.isName = true) : Declares .direct [] name []
  | attributed {name : Token} {extension : List Token} (hextension : IsAttribute extension) (hname : name.isName = true) :
    Declares .direct extension name []
  | group {opening name close : Token} {before behind : List Token} (hopening : opening.kind = .opening .paren)
    (hclose : close.kind = .closing .paren) (inner : Declares .declarator before name behind) :
    Declares .direct (opening :: before) name (behind ++ [close])
  | array {name : Token} {before behind bounds : List Token} (inner : Declares .direct before name behind)
    (hbounds : IsGroup .square bounds) : Declares .direct before name (behind ++ bounds)
  | function {name : Token} {before behind parameters : List Token} (inner : Declares .direct before name behind)
    (hparameters : IsGroup .paren parameters) : Declares .direct before name (behind ++ parameters)
  | attributes {name : Token} {before behind extension : List Token} (inner : Declares .direct before name behind)
    (hextension : IsAttribute extension) : Declares .direct before name (behind ++ extension)

namespace Declares

variable {form : DeclaratorForm} {before behind : List Token} {name : Token}

/-- What is declared is a name. -/
theorem isName (h : Declares form before name behind) : name.isName = true := by
  induction h with
  | pointer _ _ _ ih | direct _ ih | group _ _ _ ih | array _ _ ih | function _ _ ih | attributes _ _ ih => exact ih
  | name hname | attributed _ hname => exact hname

/-- All brackets of a declarator are closed. -/
theorem openBehind? (h : Declares form before name behind) (opened : List Token) :
    openBehind? opened (before ++ name :: behind) = some opened := by
  have hword {word : Token} (hname : word.isName = true) (opened : List Token) : openStep opened word = some opened :=
    Nesting.openStep_of_noBracket (noBracket_of_word (isPunctuation_of_isName hname)) opened
  -- What stands behind a declarator closes no bracket that was open before it.
  have hmore {before behind group : List Token} {name : Token} {opened : List Token}
      (hinner : Nesting.openBehind? opened (before ++ name :: behind) = some opened)
      (hgroup : Nesting.openBehind? opened group = some opened) :
      Nesting.openBehind? opened (before ++ name :: (behind ++ group)) = some opened := by
    have hassoc : before ++ name :: (behind ++ group) = (before ++ name :: behind) ++ group := by simp
    rw [hassoc, Nesting.openBehind?_append, hinner, Option.bind_some, hgroup]
  induction h generalizing opened with
  | pointer hstar hqualifiers _ ih =>
    rename_i star name qualifiers before behind _
    have hplain : ∀ t ∈ star :: qualifiers, t.kind.isOpening = false ∧ t.kind.isClosing = false := by
      refine List.forall_mem_cons.2 ⟨by simp [hstar, TokenKind.isOpening, TokenKind.isClosing], fun t ht => ?_⟩
      refine noBracket_of_word ?_
      have hqualifier := hqualifiers t ht
      unfold TokenKind.isTypeQualifier at hqualifier
      split at hqualifier <;> simp_all [TokenKind.isPunctuation]
    have hassoc : star :: (qualifiers ++ before) ++ name :: behind = (star :: qualifiers) ++ (before ++ name :: behind) := by
      simp
    rw [hassoc, Nesting.openBehind?_append, Nesting.openBehind?_of_noBrackets hplain, Option.bind_some, ih]
  | direct _ ih => exact ih opened
  | name hname =>
    rw [List.nil_append, Nesting.openBehind?_cons, hword hname]
    rfl
  | attributed hattribute hname =>
    rw [Nesting.openBehind?_append, hattribute.openBehind?, Option.bind_some, Nesting.openBehind?_cons, hword hname]
    rfl
  | group hopening hclose _ ih =>
    rename_i opening name close before behind _
    have hassoc : opening :: before ++ name :: (behind ++ [close]) = opening :: ((before ++ name :: behind) ++ [close]) := by
      simp
    rw [hassoc, Nesting.openBehind?_cons, Nesting.openStep_opening hopening, Option.bind_some, Nesting.openBehind?_append, ih,
      Option.bind_some, Nesting.openBehind?_cons,
      (Nesting.openStep_closing_iff (by simp [hclose, TokenKind.isClosing]) hopening).2 ⟨hclose, rfl⟩]
    rfl
  | array _ hbounds ih => exact hmore (ih opened) (hbounds.openBehind? opened)
  | function _ hparameters ih => exact hmore (ih opened) (hparameters.openBehind? opened)
  | attributes _ hattribute ih => exact hmore (ih opened) (hattribute.openBehind? opened)

end Declares

/-! ### Behind the name -/

/-- What can stand behind a declared name, from left to right: parentheses that close the groups around it, bracketed
groups and attributes. A parenthesis that opens directly behind an attribute word opens its argument. -/
inductive Trailing : List Token → Prop
  | nil : Trailing []
  | close {t : Token} {rest : List Token} (ht : t.kind = .closing .paren) (hrest : Trailing rest) : Trailing (t :: rest)
  | group {bracket : Bracket} {group rest : List Token} (hbracket : bracket ≠ .brace) (hgroup : IsGroup bracket group)
    (hrest : Trailing rest) : Trailing (group ++ rest)
  | word {word : Token} {rest : List Token} (hword : word.isAttribute = true)
    (hbare : ∀ t ∈ rest.head?, t.kind ≠ .opening .paren) (hrest : Trailing rest) : Trailing (word :: rest)
  | applied {word : Token} {argument rest : List Token} (hword : word.isAttribute = true) (hargument : IsGroup .paren argument)
    (hrest : Trailing rest) : Trailing (word :: (argument ++ rest))

namespace Trailing

variable {first second : List Token}

/-- What begins with a parenthesis begins with a group. -/
theorem exists_group {t : Token} {ts : List Token} (h : Trailing (t :: ts)) (ht : t.kind = .opening .paren) :
    ∃ group rest, t :: ts = group ++ rest ∧ IsGroup .paren group ∧ Trailing rest := by
  have hword (hattribute : t.isAttribute = true) : False := by
    have hkind := isPunctuation_of_isAttribute hattribute
    simp [ht, TokenKind.isPunctuation] at hkind
  generalize hall : t :: ts = all at h
  cases h with
  | nil => cases hall
  | close hclose =>
    obtain rfl := (List.cons.inj hall).1
    simp [ht] at hclose
  | group hbracket hgroup hrest =>
    rename_i bracket group rest
    obtain ⟨opening, inside, rfl, hopening, -⟩ := hgroup.exists_closing rest
    obtain rfl : t = opening := (List.cons.inj hall).1
    obtain rfl : Bracket.paren = bracket := by simpa [ht] using hopening
    exact ⟨_, _, rfl, hgroup, hrest⟩
  | word hattribute =>
    obtain rfl := (List.cons.inj hall).1
    exact (hword hattribute).elim
  | applied hattribute =>
    obtain rfl := (List.cons.inj hall).1
    exact (hword hattribute).elim

theorem append (hfirst : Trailing first) (hsecond : Trailing second) : Trailing (first ++ second) := by
  induction hfirst with
  | nil => exact hsecond
  | close ht _ ih => exact .close ht ih
  | group hbracket hgroup _ ih =>
    rw [List.append_assoc]
    exact .group hbracket hgroup ih
  | applied hword hargument _ ih =>
    rw [List.cons_append, List.append_assoc]
    exact .applied hword hargument ih
  | word hword hbare hrest ih =>
    rename_i word rest
    by_cases hparen : ∀ t ∈ (rest ++ second).head?, t.kind ≠ .opening .paren
    · exact .word hword hparen ih
    · -- The parenthesis stands in the second part, and what it opens is the argument of the word.
      push Not at hparen
      obtain ⟨t, ht, hkind⟩ := hparen
      obtain ⟨ts, hts⟩ := List.head?_eq_some_iff.1 ht
      obtain ⟨group, behind, hsplit, hgroup, hbehind⟩ := (hts ▸ ih).exists_group hkind
      rw [List.cons_append, hts, hsplit]
      exact .applied hword hgroup hbehind

theorem of_isAttribute (h : IsAttribute first) : Trailing first := by
  cases h with
  | word hattribute => exact .word hattribute (by simp) .nil
  | applied hattribute hgroup =>
    rename_i word argument
    rw [← List.append_nil argument]
    exact .applied hattribute hgroup .nil

theorem of_isGroup {bracket : Bracket} (h : IsGroup bracket first) (hbracket : bracket ≠ .brace) : Trailing first := by
  rw [← List.append_nil first]
  exact .group hbracket h .nil

end Trailing

theorem Declares.trailing {form : DeclaratorForm} {before behind : List Token} {name : Token}
    (h : Declares form before name behind) : Trailing behind := by
  induction h with
  | pointer _ _ _ ih | direct _ ih => exact ih
  | name | attributed => exact .nil
  | group _ hclose _ ih => exact ih.append (.close hclose .nil)
  | array _ hbounds ih => exact ih.append (.of_isGroup hbounds (by simp))
  | function _ hparameters ih => exact ih.append (.of_isGroup hparameters (by simp))
  | attributes _ hattribute ih => exact ih.append (.of_isAttribute hattribute)

/-! ### Reading by position -/

namespace Checked

/-- The tokens from position `opening` on are a group in parentheses, which the one at position `close` ends. -/
def Parenthesized (view : View) (opening close : Nat) : Prop :=
  ∃ group, IsGroup .paren group ∧ view.Shows opening group ∧ close + 1 = opening + group.length

/-- The brackets of the group in parentheses that the tokens from position `i` on begin with, if they do. -/
def parametersAt (i : Nat) (ts : List Token) : Option (Nat × Nat) :=
  if (parenthesized ts).isEmpty then none else some (i, i + (parenthesized ts).length - 1)

namespace PlacedDeclarator

/-- Where the reading of a stretch stands: at position `i`, before the tokens `ts` that are left of it. -/
structure Before (view : View) (start stop i : Nat) (context : Declarator.Context) (ts : List Token) : Prop where
  shows : view.Shows i ts
  ends : i + ts.length = stop
  begins : start ≤ i
  behind : contextBefore? view start i = some context

variable {view : View} {start stop i k : Nat} {context : Declarator.Context} {placed placed' : PlacedDeclarator}
  {t : Token} {ts group rest : List Token} {bracket : Bracket}

namespace Before

theorem next (h : Before view start stop i context (t :: ts)) : Before view start stop (i + 1) (contextBehind t) ts :=
  ⟨h.shows.2, by rw [← h.ends, add_length_cons], h.begins.trans (Nat.le_succ i), contextBefore?_succ h.begins h.shows.1⟩

/-- The context behind some tokens is that of the last. -/
theorem behind_concat {before : List Token} (h : Before view start stop i context (before ++ t :: rest)) :
    Before view start stop (i + before.length + 1) (contextBehind t) rest := by
  obtain ⟨hbefore, ht, hrest⟩ := View.shows_append.1 h.shows
  have hbegins := h.begins
  refine ⟨hrest, ?_, by omega, contextBefore?_succ (by omega) ht⟩
  rw [← h.ends, List.length_append, List.length_cons]
  omega

theorem behind_group (h : Before view start stop i context (group ++ rest)) (hgroup : IsGroup bracket group)
    (hbracket : bracket ≠ .brace) : Before view start stop (i + group.length) .group rest := by
  obtain ⟨opening, inside, close, rfl, hopening, hclose, hinside⟩ := hgroup
  have hassoc : opening :: (inside ++ [close]) ++ rest = (opening :: inside) ++ close :: rest := by simp
  have hlength : i + (opening :: (inside ++ [close])).length = i + (opening :: inside).length + 1 := by simp; omega
  have hcontext : contextBehind close = .group := by
    cases bracket <;> simp_all [contextBehind]
  rw [hlength, ← hcontext]
  exact behind_concat (hassoc ▸ h)

theorem behind_append {before : List Token} (h : Before view start stop i context (before ++ rest)) :
    ∃ context', Before view start stop (i + before.length) context' rest := by
  rcases List.eq_nil_or_concat' before with rfl | ⟨before, t, rfl⟩
  · exact ⟨context, h⟩
  · rw [List.append_assoc] at h
    exact ⟨_, by simpa [Nat.add_assoc] using h.behind_concat⟩

/-- A step leads to where the reading goes on. -/
theorem readFrom?_of_step (h : Before view start stop i context (t :: ts)) (hnext : i < k)
    (hstep : step? view start stop placed i t = some (placed', k)) :
    readFrom? view start stop placed i = readFrom? view start stop placed' k := by
  have hends := h.ends
  rw [add_length_cons] at hends
  rw [readFrom?, dif_pos (by omega), h.shows.1]
  simp only [Option.bind_eq_bind, Option.bind_some, hstep, dif_pos hnext]

/-- A token that says nothing is passed over. -/
theorem readFrom?_past (h : Before view start stop i context (t :: ts))
    (hstep : step? view start stop placed i t = some (placed, i + 1)) :
    readFrom? view start stop placed i = readFrom? view start stop placed (i + 1) :=
  h.readFrom?_of_step (Nat.lt_succ_self i) hstep

theorem matching?_eq (h : Before view start stop i context (t :: ts)) (hopening : t.kind.isOpening = true) :
    matching? view stop i = some (i + (closing 1 ts).length) := by
  rw [← h.ends]
  exact Checked.matching?_eq h.shows hopening

/-- An attribute word is passed over with its argument. -/
theorem readFrom?_attribute (h : Before view start stop i context (t :: ts)) (hattribute : t.isAttribute = true) :
    readFrom? view start stop placed i = readFrom? view start stop placed (i + 1 + (parenthesized ts).length) := by
  refine h.readFrom?_of_step (by omega) ?_
  obtain ⟨name, hname⟩ : ∃ name, t.kind = .identifier name := by
    unfold Token.isAttribute TokenKind.identifier? at hattribute
    split at hattribute <;> simp_all
  have hargument := groupEnd?_eq h.next.shows
  rw [h.next.ends] at hargument
  simp [step?, hname, hattribute, hargument]

end Before

/-! ### Before the name -/

theorem Before.readFrom?_qualifiers (placed : PlacedDeclarator) {qualifiers : List Token}
    (h : Before view start stop i .other (qualifiers ++ rest))
    (hqualifiers : ∀ t ∈ qualifiers, t.kind.isTypeQualifier = true) :
    readFrom? view start stop placed i = readFrom? view start stop placed (i + qualifiers.length) ∧
      Before view start stop (i + qualifiers.length) .other rest := by
  induction qualifiers generalizing i with
  | nil => exact ⟨rfl, h⟩
  | cons t qualifiers ih =>
    obtain ⟨ht, hmore⟩ := List.forall_mem_cons.1 hqualifiers
    obtain ⟨keyword, hkind⟩ : ∃ keyword, t.kind = .keyword keyword := by
      unfold TokenKind.isTypeQualifier at ht
      split at ht <;> simp_all
    have hnext := Before.next h
    have hcontext : contextBehind t = .other := by simp [contextBehind, hkind]
    rw [hcontext] at hnext
    rw [Before.readFrom?_past h (by simp [step?, hkind]), add_length_cons]
    exact ih hnext hmore

/-- Nothing before the name is taken for one. -/
theorem readFrom?_before {form : DeclaratorForm} {before behind : List Token} {name : Token}
    (hdeclares : Declares form before name behind) (h : Before view start stop i .other (before ++ name :: rest)) :
    readFrom? view start stop placed i = readFrom? view start stop placed (i + before.length) := by
  induction hdeclares generalizing i rest with
  | pointer hstar hqualifiers _ ih =>
    rename_i star name qualifiers before behind _
    have hassoc : star :: (qualifiers ++ before) ++ name :: rest = star :: (qualifiers ++ (before ++ name :: rest)) := by simp
    rw [hassoc] at h
    have hcontext : contextBehind star = .other := by simp [contextBehind, hstar]
    obtain ⟨hread, hbehind⟩ := Before.readFrom?_qualifiers placed (hcontext ▸ h.next) hqualifiers
    rw [h.readFrom?_past (by simp [step?, hstar]), hread, ih hbehind, add_length_cons,
      List.length_append, Nat.add_assoc (i + 1)]
  | direct _ ih => exact ih h
  | name => rfl
  | attributed hextension hname =>
    cases hextension with
    | word hword =>
      rename_i name word
      rw [List.cons_append, List.nil_append] at h
      have hbare : parenthesized (name :: rest) = [] := by
        refine Nesting.parenthesized_eq_nil_iff.2 ?_
        rintro _ ⟨⟩ hparen
        have hkind := isPunctuation_of_isName hname
        simp [hparen, TokenKind.isPunctuation] at hkind
      rw [Before.readFrom?_attribute h hword, hbare]
      rfl
    | applied hword hargument =>
      rw [List.cons_append] at h
      rw [Before.readFrom?_attribute h hword, hargument.parenthesized, add_length_cons]
  | group hopening hclose _ ih =>
    rename_i opening name close before behind _
    rw [List.cons_append] at h
    have hmatching := Before.matching?_eq h (by simp [hopening, TokenKind.isOpening])
    have hcontext : contextBehind opening = .other := by simp [contextBehind, hopening]
    rw [Before.readFrom?_past h (by simp [step?, hopening, hmatching, h.behind]),
      ih (hcontext ▸ Before.next h), add_length_cons]
  | array _ _ ih | function _ _ ih | attributes _ _ ih => exact ih h

/-! ### From the name on -/

/-- What stands behind the name, and is no parameter list directly behind it, changes nothing. -/
theorem readFrom?_trailing (htrailing : Trailing ts) (h : Before view start stop i context ts)
    (hgroup : context = .group ∨ ∀ t ∈ ts.head?, t.kind ≠ .opening .paren) :
    readFrom? view start stop placed i = some placed := by
  induction htrailing generalizing i context with
  | nil =>
    have hends := h.ends
    rw [readFrom?, dif_neg (by simp at hends; omega)]
  | close ht _ ih =>
    rw [h.readFrom?_past (by simp [step?, ht])]
    exact ih h.next (.inl (by simp [contextBehind, ht]))
  | group hbracket hisGroup _ ih =>
    rename_i bracket group rest _
    rw [← ih (h.behind_group hisGroup hbracket) (.inl rfl)]
    obtain ⟨opening, inside, rfl, hopening, hclosing⟩ := hisGroup.exists_closing rest
    rw [List.cons_append] at h
    have hmatching := Before.matching?_eq h (by simp [hopening, TokenKind.isOpening])
    rw [hclosing] at hmatching
    refine Before.readFrom?_of_step h (by simp) ?_
    rw [add_length_cons, Nat.add_right_comm]
    cases bracket with
    | paren =>
      obtain rfl : context = .group := hgroup.resolve_right fun hne => hne opening rfl hopening
      simp [step?, hopening, hmatching, h.behind]
    | square => simp [step?, hopening, hmatching]
    | brace => exact absurd rfl hbracket
  | word hword hbare _ ih =>
    rename_i word rest _
    rw [h.readFrom?_attribute hword, Nesting.parenthesized_eq_nil_iff.2 hbare]
    exact ih h.next (.inr hbare)
  | applied hword hargument _ ih =>
    rw [h.readFrom?_attribute hword, hargument.parenthesized]
    exact ih (h.next.behind_group hargument (by simp)) (.inl rfl)

/-- A parameter list counts if it stands directly behind the name. -/
theorem readFrom?_behind {p : Nat} (htrailing : Trailing ts) (h : Before view start stop (p + 1) .name ts) :
    readFrom? view start stop ⟨some p, none⟩ (p + 1) = some ⟨some p, parametersAt (p + 1) ts⟩ := by
  by_cases hparen : ∀ t ∈ ts.head?, t.kind ≠ .opening .paren
  · rw [readFrom?_trailing htrailing h (.inr hparen), parametersAt, Nesting.parenthesized_eq_nil_iff.2 hparen]
    rfl
  · push Not at hparen
    obtain ⟨t, ht, hkind⟩ := hparen
    obtain ⟨ts, rfl⟩ := List.head?_eq_some_iff.1 ht
    obtain ⟨group, rest, hsplit, hgroup, hrest⟩ := htrailing.exists_group hkind
    rw [hsplit] at h ⊢
    have hmore := h.behind_group hgroup (by simp)
    rw [parametersAt, hgroup.parenthesized]
    obtain ⟨opening, inside, rfl, hopening, hclosing⟩ := hgroup.exists_closing rest
    rw [List.cons_append] at h
    have hmatching := h.matching?_eq (by simp [hopening, TokenKind.isOpening])
    rw [hclosing] at hmatching
    have hstep : step? view start stop ⟨some p, none⟩ (p + 1) opening =
        some (⟨some p, some (p + 1, p + 1 + inside.length)⟩, p + 1 + (opening :: inside).length) := by
      simp [step?, hopening, hmatching, h.behind, sub?_of_le, Nat.add_assoc]
    rw [h.readFrom?_of_step (by simp) hstep, readFrom?_trailing hrest hmore (.inl rfl)]
    rfl

section Declarator

variable {before behind : List Token} {name : Token}

/-- A declarator is read to its name and the parameter list directly behind it. -/
theorem ofStretch?_eq_of_declares (hdeclares : Declares .declarator before name behind)
    (hshows : view.Shows i (before ++ name :: behind)) :
    ofStretch? view ⟨i, i + (before ++ name :: behind).length⟩ =
      some ⟨some (i + before.length), parametersAt (i + before.length + 1) behind⟩ := by
  have hstart : Before view i (i + (before ++ name :: behind).length) i .other (before ++ name :: behind) :=
    ⟨hshows, rfl, Nat.le_refl i, by rw [contextBefore?, if_neg (Nat.lt_irrefl i)]⟩
  obtain ⟨word, hword, hattribute⟩ : ∃ word, name.kind = .identifier word ∧ name.isAttribute = false := by
    have hname := hdeclares.isName
    unfold Token.isName TokenKind.identifier? at hname
    unfold Token.isAttribute TokenKind.identifier?
    split at hname <;> simp_all
  have hcontext : contextBehind name = .name := by simp [contextBehind, hword, hattribute]
  obtain ⟨context, hname⟩ := hstart.behind_append
  have hstep : step? view i (i + (before ++ name :: behind).length) {} (i + before.length) name =
      some (⟨some (i + before.length), none⟩, i + before.length + 1) := by
    simp [step?, hword, hattribute]
  rw [ofStretch?, readFrom?_before hdeclares hstart, hname.readFrom?_of_step (Nat.lt_succ_self _) hstep]
  exact readFrom?_behind hdeclares.trailing (hcontext ▸ hstart.behind_concat)

/-- The same by tokens. -/
theorem ofTokens_of_declares (hdeclares : Declares .declarator before name behind) :
    Declarator.ofTokens (before ++ name :: behind) = ⟨some name, behind.head?.filter (·.kind = .opening .paren)⟩ := by
  have hshows := View.shows_list (before ++ name :: behind)
  obtain ⟨placed, hplaced, hfinds⟩ := ofStretch?_eq hshows ⟨[], [], hdeclares.openBehind? []⟩
  rw [ofStretch?_eq_of_declares hdeclares hshows] at hplaced
  cases hplaced
  obtain ⟨hname, hparameters, -⟩ := hfinds
  generalize Declarator.ofTokens (before ++ name :: behind) = d at hname hparameters
  obtain ⟨dname, dparameters⟩ := d
  congr
  · simpa [eq_comm] using hname
  · cases behind with
    | nil => simpa [parametersAt, parenthesized] using hparameters.symm
    | cons t ts =>
      by_cases hparen : t.kind = .opening .paren <;>
        simpa [parametersAt, parenthesized, hparen, Option.filter] using hparameters.symm

/-- In the tokens of a declarator, the declared name is found, and the brackets of the parameter list if the name is
directly followed by one. -/
theorem ofStretch?_of_declares (hdeclares : Declares .declarator before name behind)
    (hshows : view.Shows i (before ++ name :: behind)) :
    Declarator.ofTokens (before ++ name :: behind) = ⟨some name, behind.head?.filter (·.kind = .opening .paren)⟩ ∧
      ∃ placed, ofStretch? view ⟨i, i + (before ++ name :: behind).length⟩ = some placed ∧
        placed.name = some (i + before.length) ∧
        (placed.parameters.isSome ↔ ∃ t ∈ behind.head?, t.kind = .opening .paren) ∧
        ∀ opening close, placed.parameters = some (opening, close) →
          opening = i + before.length + 1 ∧ Parenthesized view opening close := by
  refine ⟨ofTokens_of_declares hdeclares, _, ofStretch?_eq_of_declares hdeclares hshows, rfl, ?_, ?_⟩
  · have hempty := @Nesting.parenthesized_eq_nil_iff behind
    by_cases hnone : parenthesized behind = []
    · simpa [parametersAt, hnone] using hempty.1 hnone
    · simpa [parametersAt, hnone] using fun h => hnone (hempty.2 h)
  · rintro opening close hbrackets
    have hbehind := (View.shows_append.1 hshows).2.2
    by_cases hnone : parenthesized behind = []
    · simp [parametersAt, hnone] at hbrackets
    · obtain ⟨t, ht, hkind⟩ : ∃ t ∈ behind.head?, t.kind = .opening .paren := by
        simpa using fun h => hnone (Nesting.parenthesized_eq_nil_iff.2 h)
      obtain ⟨ts, rfl⟩ := List.head?_eq_some_iff.1 ht
      obtain ⟨group, rest, hsplit, hgroup, -⟩ := hdeclares.trailing.exists_group hkind
      rw [hsplit] at hbehind hbrackets
      obtain ⟨rfl, rfl⟩ : i + before.length + 1 = opening ∧ i + before.length + 1 + group.length - 1 = close := by
        have hgiven := hbrackets
        rw [parametersAt, hgroup.parenthesized] at hgiven
        split_ifs at hgiven
        simpa using hgiven
      refine ⟨rfl, group, hgroup, (View.shows_append.1 hbehind).1, ?_⟩
      omega

/-- A function in a group is found in `*const (f(int))[3]`. -/
theorem ofStretch?_of_declares_group :
    let word (kind : TokenKind) : Token := { (default : Token) with kind := kind }
    let before := [word (.punct .star), word (.keyword .constKw), word (.opening .paren)]
    let parameters := [word (.opening .paren), word (.keyword .intKw), word (.closing .paren)]
    let behind := parameters ++ [word (.closing .paren)] ++ [word (.opening .square), word (.number "3"), word (.closing .square)]
    let ts := before ++ word (.identifier "f") :: behind
    Declares .declarator before (word (.identifier "f")) behind ∧
      ∃ placed, ofStretch? (fun i => ts[i]?) ⟨0, 0 + ts.length⟩ = some placed ∧ placed.name = some 3 ∧
        placed.parameters.isSome := by
  intro word before parameters behind ts
  have hparameters : IsGroup .paren parameters := ⟨_, [word (.keyword .intKw)], _, rfl, rfl, rfl, rfl⟩
  have hbounds : IsGroup .square [word (.opening .square), word (.number "3"), word (.closing .square)] :=
    ⟨_, [word (.number "3")], _, rfl, rfl, rfl, rfl⟩
  have hgroup : Declares .direct [word (.opening .paren)] (word (.identifier "f")) (parameters ++ [word (.closing .paren)]) :=
    .group rfl rfl (.direct (.function (.name (by decide)) hparameters))
  have hdeclares : Declares .declarator before (word (.identifier "f")) behind :=
    @Declares.pointer _ _ [word (.keyword .constKw)] _ _ rfl (by decide) (.direct (.array hgroup hbounds))
  obtain ⟨-, placed, hplaced, hname, hparameters, -⟩ := ofStretch?_of_declares hdeclares (View.shows_list ts)
  exact ⟨hdeclares, placed, hplaced, hname, hparameters.2 ⟨_, rfl, rfl⟩⟩

end Declarator

end PlacedDeclarator

end Checked

end CHeader
