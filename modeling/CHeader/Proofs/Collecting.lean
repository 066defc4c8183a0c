import CHeader.Outline
import Mathlib.Tactic.SplitIfs

/-!
# Collecting a construct, token by token

What one token does to what is collected of a construct before it is its `Verdict`: the construct goes
on with more collected, ends here, goes over into the body of a function, or cannot be continued.
`Outline.collect` is the run of these verdicts (`collect_cons`). A construct that is found keeps the
token it begins with (`collect_first`).
-/

namespace CHeader

namespace TokenKind

theorem isOpening_iff {kind : TokenKind} : kind.isOpening = true ↔ ∃ bracket, kind = opening bracket := by
  unfold isOpening
  split <;> simp_all

theorem isClosing_iff {kind : TokenKind} : kind.isClosing = true ↔ ∃ bracket, kind = closing bracket := by
  unfold isClosing
  split <;> simp_all

theorem closes_closing_iff {bracket : Bracket} {kind : TokenKind} :
    (closing bracket).closes kind = true ↔ kind = opening bracket := by
  unfold closes
  split <;> simp_all [eq_comm]

end TokenKind

namespace Shape

/-- The parenthesis that is found stands behind a name. -/
theorem exists_of_behindNamedParen? {depth : Nat} {before : Option Token} {ts behind : List Token}
    (h : behindNamedParen? depth before ts = some behind) :
    ∃ taken opening name, ts = taken ++ opening :: behind ∧ opening.kind = .opening .paren ∧
      taken.getLast?.or before = some name ∧ name.isName = true := by
  fun_induction behindNamedParen? depth before ts with
  | case1 => cases h
  | case2 depth before t ts hfound =>
    cases h
    obtain ⟨⟨-, hopening⟩, hname⟩ : (depth = 0 ∧ t.kind = .opening .paren) ∧ before.any Token.isName = true := by
      simpa using hfound
    obtain ⟨name, hbefore, hisName⟩ := (Option.any_eq_true ..).1 hname
    exact ⟨[], t, name, rfl, hopening, hbefore, hisName⟩
  | case3 depth before t ts _ ih =>
    obtain ⟨taken, opening, name, rfl, hopening, hname, hisName⟩ := ih h
    refine ⟨t :: taken, opening, name, rfl, hopening, ?_, hisName⟩
    rw [← hname, List.getLast?_cons]
    cases taken.getLast? <;> rfl

/-- Parameter declarations stand behind a head that is not empty. -/
theorem parameterDeclarations?_suffix {markers : Bool} {tokens parameters : List Token}
    (h : parameterDeclarations? markers tokens = some parameters) : ∃ head, head ≠ [] ∧ tokens = head ++ parameters := by
  simp only [parameterDeclarations?] at h
  split_ifs at h
  obtain ⟨group, hgroup, h⟩ := Option.bind_eq_some_iff.1 h
  obtain ⟨taken, opening, -, htaken, -⟩ := exists_of_behindNamedParen? hgroup
  split_ifs at h
  cases h
  refine ⟨tokens.take (Specifiers.ofTokens markers tokens).tokens.length ++ taken ++ opening :: Nesting.closing 1 group,
    by simp, ?_⟩
  have hgroup' : Nesting.closing 1 group ++ group.drop (Nesting.closing 1 group).length = group :=
    List.prefix_iff_eq_append.1 (Nesting.prefix_closing ..)
  rw [List.append_assoc, List.cons_append, hgroup', List.append_assoc, ← htaken, behindSpecifiers, List.take_append_drop]

end Shape

namespace Outline

/-- What a token does to a construct. -/
inductive Verdict
  | goOn (c : Collected)
  /-- The token is the semicolon at the end. -/
  | ends
  /-- The token opens the body of a function. -/
  | body
  /-- A brace that nothing asks for. -/
  | unexpected
  /-- A bracket that closes none of those open. -/
  | unbalanced
  | endOfText
  deriving Repr

namespace Collected

/-- The verdict on a token behind what is collected. -/
def verdict (markers : Bool) (c : Collected) (t : Token) : Verdict :=
  match t.kind with
  | .eof => .endOfText
  | .directive _ | .lineComment | .blockComment => .goOn (c.pass t)
  | .opening bracket =>
    if bracket = .brace && c.opened.isEmpty then
      if c.head.isSome || Shape.isFunctionHead markers t c.tokens.reverse then .body
      else if Shape.expectsBrace markers t c.tokens.reverse then .goOn (c.push t)
      else .unexpected
    else .goOn (c.push t)
  | .closing _ =>
    if c.opened.head?.any (t.kind.closes ·.kind) then .goOn { c.add t with opened := c.opened.tail }
    else .unbalanced
  | .punct .semi =>
    if c.opened.isEmpty && c.head.isNone then
      match Shape.parameterDeclarations? markers c.tokens.reverse with
      | some parameters =>
        .goOn { c.add t with head := some (c.tokens.reverse.take (c.tokens.reverse.length - parameters.length)) }
      | none => .ends
    else .goOn (c.add t)
  | _ => .goOn (c.add t)

/-- The construct, or the tokens that make none, at a token that does not go on with it. -/
def stop (first : Token) (c : Collected) (t : Token) (ts : List Token) : Verdict → Item × List Token
  | .ends => (.construct (t :: c.met).reverse (c.finish (.semicolon t)), ts)
  | .body => function c t ts
  | .unexpected =>
    let behind := recovery 0 (t :: ts)
    (c.malformed (.ofIssue .unexpectedBrace t) behind, (t :: ts).drop behind.length)
  | .unbalanced =>
    let behind := recovery (openBraces c.opened.tail) ts
    (c.malformed (.ofIssue (.unbalanced t.kind) t) (t :: behind), ts.drop behind.length)
  | _ => (c.malformed (c.endFault first) [], t :: ts)

/-- The ways in which a token goes on with a construct. -/
inductive Grows (markers : Bool) (c : Collected) (t : Token) : Collected → Prop
  | passed (kind : t.isSignificant = false) : Grows markers c t (c.pass t)
  | added (kind : t.isSignificant = true) (noBracket : t.kind.isOpening = false ∧ t.kind.isClosing = false)
      (inside : t.kind = .punct .semi → c.opened ≠ [] ∨ c.head.isSome) : Grows markers c t (c.add t)
  | opened (bracket : Bracket) (kind : t.kind = .opening bracket)
      (expected : bracket = .brace → c.opened ≠ [] ∨ c.head = none ∧
        Shape.isFunctionHead markers t c.tokens.reverse = false ∧ Shape.expectsBrace markers t c.tokens.reverse = true) :
      Grows markers c t (c.push t)
  | closed (bracket : Bracket) (kind : t.kind = .closing bracket) (opening : Token) (outer : List Token)
      (partner : opening.kind = .opening bracket) (innermost : c.opened = opening :: outer) :
      Grows markers c t { c.add t with opened := outer }
  /-- The first parameter declaration of a definition in the old style ends here. -/
  | divided (kind : t.kind = .punct .semi) (outside : c.opened = []) (undivided : c.head = none)
      (parameters : List Token) (begun : Shape.parameterDeclarations? markers c.tokens.reverse = some parameters) :
      Grows markers c t { c.add t with head := some (c.tokens.reverse.take (c.tokens.reverse.length - parameters.length)) }

theorem grows_of_verdict {markers : Bool} {c c' : Collected} {t : Token} (h : c.verdict markers t = .goOn c') :
    Grows markers c t c' := by
  unfold verdict at h
  split at h
  case h_1 => cases h
  case h_2 hkind | h_3 hkind | h_4 hkind =>
    cases h
    exact .passed (by simp [hkind, Token.isSignificant])
  case h_5 bracket hkind =>
    split_ifs at h with hbrace _ hexpects
    · cases h
      refine .opened bracket hkind fun _ => .inr ?_
      simp_all
    · cases h
      refine .opened bracket hkind fun hb => .inl ?_
      simp_all
  case h_6 bracket hkind =>
    split_ifs at h with hcloses
    cases h
    cases hopened : c.opened with
    | nil => simp [hopened] at hcloses
    | cons opening outer =>
      simp only [hopened, hkind, List.head?_cons, Option.any_some, TokenKind.closes_closing_iff] at hcloses
      exact .closed bracket hkind opening outer hcloses hopened
  case h_7 hkind =>
    split_ifs at h with hends
    · split at h
      · cases h
        exact .divided hkind (by simp_all) (by simp_all) _ ‹_›
      · cases h
    · cases h
      exact .added (by simp [hkind, Token.isSignificant]) (by simp [hkind, TokenKind.isOpening, TokenKind.isClosing])
        fun _ => by cases hhead : c.head <;> simp_all
  case h_8 _ hdirective hline hblock hopening hclosing hsemi =>
    cases h
    have hsignificant : t.isSignificant = true := by
      rw [Token.isSignificant]
      split <;> simp_all
    have hopening' : ¬t.kind.isOpening := fun h => (TokenKind.isOpening_iff.1 h).elim hopening
    have hclosing' : ¬t.kind.isClosing := fun h => (TokenKind.isClosing_iff.1 h).elim hclosing
    exact .added hsignificant ⟨by simpa using hopening', by simpa using hclosing'⟩ fun hkind => absurd hkind hsemi

theorem verdict_of_grows {markers : Bool} {c c' : Collected} {t : Token} (h : Grows markers c t c')
    (heof : t.kind ≠ .eof) : c.verdict markers t = .goOn c' := by
  unfold verdict
  cases h with
  | passed kind =>
    unfold Token.isSignificant at kind
    split at kind <;> simp_all
  | added kind noBracket inside =>
    obtain ⟨hopening, hclosing⟩ := noBracket
    split
    case h_1 hkind => exact absurd hkind heof
    case h_2 hkind | h_3 hkind | h_4 hkind => simp [Token.isSignificant, hkind] at kind
    case h_5 hkind => simp [hkind, TokenKind.isOpening] at hopening
    case h_6 hkind => simp [hkind, TokenKind.isClosing] at hclosing
    case h_7 hkind =>
      rw [if_neg]
      rcases inside hkind with hopened | hhead
      · simp [hopened]
      · cases hc : c.head <;> simp_all
    case h_8 => rfl
  | opened bracket kind expected =>
    simp only [kind]
    split_ifs with hbrace hbody hexpects
    · exfalso
      simp_all
    · rfl
    · exfalso
      simp_all
    · rfl
  | closed bracket kind opening outer partner innermost =>
    simp [kind, innermost, partner, TokenKind.closes]
  | divided kind outside undivided parameters begun =>
    simp [kind, outside, undivided, begun]

theorem verdict_eq_endOfText_iff {markers : Bool} {c : Collected} {t : Token} :
    c.verdict markers t = .endOfText ↔ t.kind = .eof := by
  unfold verdict
  grind

/-- A construct ends with a semicolon outside all brackets behind which no parameter declarations begin. -/
theorem of_verdict_eq_ends {markers : Bool} {c : Collected} {t : Token} (h : c.verdict markers t = .ends) :
    t.kind = .punct .semi ∧ c.opened = [] ∧ c.head = none ∧
      Shape.parameterDeclarations? markers c.tokens.reverse = none := by
  unfold verdict at h
  grind [Option.isNone_iff_eq_none, List.isEmpty_iff]

/-- A body begins outside all brackets, behind the head of a function or its parameter declarations. -/
theorem of_verdict_eq_body {markers : Bool} {c : Collected} {t : Token} (h : c.verdict markers t = .body) :
    t.kind = .opening .brace ∧ c.opened = [] ∧
      (c.head.isSome ∨ Shape.isFunctionHead markers t c.tokens.reverse = true) := by
  unfold verdict at h
  grind

namespace Grows

variable {markers : Bool} {c c' : Collected} {t : Token}

theorem met (h : Grows markers c t c') : c'.met = t :: c.met := by
  cases h <;> rfl

theorem tokens (h : Grows markers c t c') : c'.tokens = if t.isSignificant then t :: c.tokens else c.tokens := by
  cases h with
  | passed kind => simp [kind, pass]
  | added kind => simp [kind, add]
  | opened _ kind => simp [push, add, Token.isSignificant, kind]
  | closed _ kind => simp [add, Token.isSignificant, kind]
  | divided kind => simp [add, Token.isSignificant, kind]

end Grows

end Collected

/-- Collecting is a run of verdicts. -/
theorem collect_cons (markers : Bool) (first : Token) (c : Collected) (t : Token) (ts : List Token) :
    collect markers first c (t :: ts) =
      match c.verdict markers t with
      | .goOn c' => collect markers first c' ts
      | verdict => c.stop first t ts verdict := by
  rw [collect]
  split
  case h_1 heof => simp only [Collected.verdict, heof, Collected.stop]
  case h_2 hkind => simp only [Collected.verdict, hkind]
  case h_3 hkind => simp only [Collected.verdict, hkind]
  case h_4 hkind => simp only [Collected.verdict, hkind]
  case h_5 hkind =>
    simp only [Collected.verdict, hkind]
    split_ifs <;> rfl
  case h_6 hkind =>
    simp only [Collected.verdict, hkind]
    split_ifs
    · rfl
    · simp only [Collected.stop, hkind]
  case h_7 hkind =>
    simp only [Collected.verdict, hkind]
    cases hopened : c.opened.isEmpty <;> cases hhead : c.head <;>
      cases hbegun : Shape.parameterDeclarations? markers c.tokens.reverse <;> simp [Collected.stop]
  case h_8 h₁ h₂ h₃ h₄ h₅ h₆ h₇ =>
    rw [Collected.verdict]
    split <;> simp_all

/-! ### The first token of a construct -/

/-- What is collected begins with `first`. -/
structure Collected.Begins (c : Collected) (first : Token) : Prop where
  met : c.met.getLast? = some first
  tokens : c.tokens.getLast? = some first
  head : ∀ head ∈ c.head, head.head? = some first

theorem Collected.begins_start (first : Token) : (Collected.start first).Begins first :=
  ⟨rfl, rfl, by simp [Collected.start]⟩

theorem Collected.Begins.finish {c : Collected} {first : Token} (h : c.Begins first) (ending : Ending) :
    (c.finish ending).head.head? = some first := by
  cases hhead : c.head with
  | some head => simpa [Collected.finish, hhead] using h.head head hhead
  | none => simpa [Collected.finish, hhead, List.head?_reverse] using h.tokens

theorem Collected.Begins.head?_met {c : Collected} {first : Token} (h : c.Begins first) (behind : List Token) :
    (c.met.reverse ++ behind).head? = some first := by
  rw [List.head?_append, List.head?_reverse, h.met]
  rfl

theorem Collected.Grows.begins {markers : Bool} {c c' : Collected} {t first : Token} (h : Grows markers c t c')
    (hbegins : c.Begins first) : c'.Begins first := by
  have hmet : c'.met.getLast? = some first := by
    rw [h.met, List.getLast?_cons, hbegins.met]
    rfl
  have htokens : c'.tokens.getLast? = some first := by
    rw [h.tokens]
    split_ifs
    · rw [List.getLast?_cons, hbegins.tokens]
      rfl
    · exact hbegins.tokens
  refine ⟨hmet, htokens, ?_⟩
  cases h with
  | divided _ _ _ parameters begun =>
    rintro head ⟨⟩
    obtain ⟨before, hne, hsplit⟩ := Shape.parameterDeclarations?_suffix begun
    have hfirst : c.tokens.reverse.head? = some first := by rw [List.head?_reverse, hbegins.tokens]
    rw [hsplit] at hfirst ⊢
    rw [List.length_append, Nat.add_sub_cancel, List.take_left]
    obtain ⟨token, before, rfl⟩ := List.exists_cons_of_ne_nil hne
    simpa using hfirst
  | _ => exact hbegins.head

/-- A construct begins with the token that its collection begins with. -/
theorem collect_first {markers : Bool} {first : Token} {c : Collected} {ts tokens rest : List Token}
    {construct : Construct} (hbegins : c.Begins first)
    (h : collect markers first c ts = (.construct tokens construct, rest)) :
    tokens.head? = some first ∧ construct.head.head? = some first := by
  induction ts generalizing c with
  | nil => cases h
  | cons t ts ih =>
    rw [collect_cons] at h
    cases hverdict : c.verdict markers t with
    | goOn c' =>
      simp only [hverdict] at h
      exact ih ((Collected.grows_of_verdict hverdict).begins hbegins) h
    | ends =>
      simp only [hverdict, Collected.stop, List.reverse_cons] at h
      cases h
      exact ⟨hbegins.head?_met [t], hbegins.finish _⟩
    | body =>
      simp only [hverdict, Collected.stop, function] at h
      split at h <;> cases h
      exact ⟨hbegins.head?_met _, hbegins.finish _⟩
    | unexpected | unbalanced | endOfText =>
      simp only [hverdict, Collected.stop] at h
      cases h

end Outline

end CHeader
