import CHeader.Proofs.Brackets
import CHeader.Proofs.Copied
import CHeader.Proofs.Rebuilt

/-!
# Aggregates that are declared apart

Where an aggregate with a tag and a body stands before declarators, it is declared apart from them: its tokens are
copied from the source, and a semicolon is written behind them. The specifiers before it may have asked for other
things, but what a token adds does not depend on them (`Alone`): outside the groups of an aggregate stand words,
and the brace of its body, which the aggregate asks for by itself. So the aggregate is a construct without the
specifiers (`collect_alone`).
-/

namespace CHeader

open Lexed (allChars)
open Nesting (level Outside)

/-! ### Outside the groups of an aggregate -/

/-- The body of an aggregate stands outside all groups. -/
theorem Aggregate.level_head_of_body {keyword : Token} (hkeyword : keyword.kind.isPunctuation = false) {ts : List Token}
    (h : (ofTokens keyword ts).body ≠ []) : level 0 (ofTokens keyword ts).head = 0 := by
  obtain ⟨first, second, rest, hfirst, hsecond, -, hhead, hbody⟩ := exists_parts keyword ts
  have hne : second ≠ [] := by
    rintro rfl
    exact h hbody
  have hne' : first ≠ [] := fun hnil => hne (List.append_eq_nil_iff.1 (hsecond.trans hnil)).2
  rw [hhead, Nesting.level_cons, Nesting.depthBehind_of_word hkeyword, Nesting.level_append, level_attributes hfirst hne',
    level_tagged hsecond hne]

/-- Behind its keyword, a token of an aggregate outside all groups is no semicolon, and a brace only where the body begins. -/
theorem Aggregate.outside_tokens {keyword t : Token} {us inner front behind : List Token}
    (hword : keyword.kind.isPunctuation = false) (hinner : (ofTokens keyword us).head = keyword :: inner)
    (hsplit : inner ++ (ofTokens keyword us).body = front ++ t :: behind) (hlevel : level 0 (keyword :: front) = 0) :
    t.kind ≠ .punct .semi ∧ (t.kind = .opening .brace → front = inner) := by
  rcases List.append_eq_append_iff.1 hsplit with ⟨inside, rfl, hbody⟩ | ⟨later, hfront, hrest⟩
  · -- in the body only its brace is outside
    rcases outside_body (fun _ => False) keyword us with hnone | ⟨brace, braced, hbody', hkind, houtside⟩
    · rw [hnone] at hbody
      simp at hbody
    · have hclosed := level_head_of_body hword (by simp [hbody'] : (ofTokens keyword us).body ≠ [])
      rw [hbody'] at hbody
      cases inside with
      | nil =>
        obtain rfl : brace = t := (List.cons.inj hbody).1
        exact ⟨by simp [hkind], fun _ => List.append_nil inner⟩
      | cons u inside =>
        obtain ⟨rfl, rfl⟩ := List.cons.inj hbody
        have hinside : level 1 inside = 0 := by
          rw [← List.cons_append, Nesting.level_append, ← hinner, hclosed, Nesting.level_cons, hkind] at hlevel
          exact hlevel
        exact ((Nesting.outside_append.1 houtside).2.1 hinside).elim
  · cases later with
    | nil =>
      rw [List.append_nil] at hfront
      refine ⟨?_, fun _ => hfront.symm⟩
      rcases outside_body (fun _ => False) keyword us with hnone | ⟨brace, braced, hbody', hkind, -⟩
      · rw [hnone] at hrest
        cases hrest
      · rw [hbody', List.nil_append] at hrest
        obtain rfl : t = brace := (List.cons.inj hrest).1
        simp [hkind]
    | cons u later =>
      obtain rfl : t = u := (List.cons.inj hrest).1
      have hplain : Outside (fun t => t.kind ≠ .punct .semi ∧ t.kind ≠ .opening .brace) 0 (keyword :: inner) := by
        rw [← hinner]
        refine outside_head (fun v hv => ?_) (fun v hv => by simp [hv]) hword us
        constructor <;> intro hpunct <;> simp [hpunct, TokenKind.isPunctuation] at hv
      rw [hfront, ← List.cons_append] at hplain
      obtain ⟨hsemi, hopening⟩ := (Nesting.outside_append.1 hplain).2.1 hlevel
      exact ⟨hsemi, fun hkind => absurd hkind hopening⟩

/-- Behind specifiers the last of which is an aggregate without its body, a brace opens the body. -/
theorem Shape.expectsBrace_of_specifiers {markers : Bool} {tokens : List Token}
    (hwhole : (Specifiers.ofTokens markers tokens).tokens = tokens) {s : Specifier} {a : Aggregate}
    (hs : (Specifiers.ofTokens markers tokens).getLast? = some s) (ha : s.aggregate? = some a) (hbody : a.body = [])
    (brace : Token) : isFunctionHead markers brace tokens = false ∧ expectsBrace markers brace tokens = true := by
  have hbehind : behindSpecifiers (.ofTokens markers tokens) tokens = [] := by
    rw [behindSpecifiers, hwhole, List.drop_length]
  have hlast : (Specifiers.ofTokens markers tokens).aggregate? = some a := by
    obtain ⟨init, hinit⟩ := List.getLast?_eq_some_iff.1 hs
    simp [hinit, Specifiers.aggregate?, ha]
  constructor
  · simp [isFunctionHead, lastDeclarator?, hbehind, declarators]
  · simp [expectsBrace, hbehind, hlast, hbody]

/-! ### An aggregate without other specifiers -/

section Whole

variable {keyword : Token} {k : Keyword} {inner : List Token}

theorem first?_of_isAggregate (hkind : keyword.kind = .keyword k) (hk : k.isAggregate = true) (markers typed behindExtern : Bool)
    (ts : List Token) :
    Specifier.first? markers typed behindExtern keyword ts =
      some ⟨.aggregate (.ofTokens keyword ts), (Aggregate.ofTokens keyword ts).head ++ (Aggregate.ofTokens keyword ts).body⟩ := by
  simp [Specifier.first?, hkind, Specifier.ofKeyword?, hk]

theorem opens_of_isAggregate (hkind : keyword.kind = .keyword k) (hk : k.isAggregate = true) : keyword.Opens :=
  fun ts => ⟨_, first?_of_isAggregate hkind hk true false false ts, rfl⟩

/-- The only specifier of tokens that all belong to an aggregate. -/
theorem ofTokens_of_whole (hkind : keyword.kind = .keyword k) (hk : k.isAggregate = true)
    (hwhole : (Aggregate.ofTokens keyword inner).head ++ (Aggregate.ofTokens keyword inner).body = keyword :: inner) :
    Specifiers.ofTokens true (keyword :: inner) = [⟨.aggregate (.ofTokens keyword inner), keyword :: inner⟩] := by
  rw [Specifiers.ofTokens, Specifiers.take, first?_of_isAggregate hkind hk, hwhole]
  simp [Specifiers.take]

theorem behindSpecifiers_of_whole (hkind : keyword.kind = .keyword k) (hk : k.isAggregate = true)
    (hwhole : (Aggregate.ofTokens keyword inner).head ++ (Aggregate.ofTokens keyword inner).body = keyword :: inner) :
    Shape.behindSpecifiers (.ofTokens true (keyword :: inner)) (keyword :: inner) = [] := by
  rw [ofTokens_of_whole hkind hk hwhole]
  simp [Shape.behindSpecifiers, Specifiers.tokens]

/-- Behind the head of an aggregate, a brace opens its body. -/
theorem expectsBrace_of_whole (hkind : keyword.kind = .keyword k) (hk : k.isAggregate = true)
    (hwhole : (Aggregate.ofTokens keyword inner).head ++ (Aggregate.ofTokens keyword inner).body = keyword :: inner)
    (hbody : (Aggregate.ofTokens keyword inner).body = []) (brace : Token) :
    Shape.isFunctionHead true brace (keyword :: inner) = false ∧ Shape.expectsBrace true brace (keyword :: inner) = true := by
  have hspecs := ofTokens_of_whole hkind hk hwhole
  refine Shape.expectsBrace_of_specifiers ?_ (by rw [hspecs]; rfl) rfl hbody brace
  rw [hspecs, Specifiers.tokens, List.flatMap_singleton]

theorem parameterDeclarations?_of_whole (hkind : keyword.kind = .keyword k) (hk : k.isAggregate = true)
    (hwhole : (Aggregate.ofTokens keyword inner).head ++ (Aggregate.ofTokens keyword inner).body = keyword :: inner) :
    Shape.parameterDeclarations? true (keyword :: inner) = none := by
  simp [Shape.parameterDeclarations?, behindSpecifiers_of_whole hkind hk hwhole, Shape.behindNamedParen?]

end Whole

namespace Outline

/-! ### The next token of a head -/

/-- As many brackets are open as the tokens leave open. -/
def Collected.Level (c : Collected) : Prop :=
  c.opened.length = level 0 c.tokens.reverse

theorem Collected.Grows.level {markers : Bool} {c c' : Collected} {t : Token} (h : Grows markers c t c') (hlevel : c.Level) :
    c'.Level := by
  unfold Level at hlevel ⊢
  cases h with
  | passed => exact hlevel
  | added _ noBracket => simp [add, hlevel, Nesting.depthBehind, noBracket]
  | opened _ kind => simp [push, add, hlevel, Nesting.depthBehind, kind, TokenKind.isOpening]
  | closed _ kind opening outer _ innermost =>
    rw [innermost, List.length_cons] at hlevel
    simp [add, ← hlevel, Nesting.depthBehind, kind, TokenKind.isOpening, TokenKind.isClosing]
  | divided kind => simp [add, hlevel, Nesting.depthBehind, kind, TokenKind.isOpening, TokenKind.isClosing]

variable {first t : Token} {c c' d : Collected} {todo more ts run rest : List Token} {k : Construct}

/-- Comments and directives aside, the next token is the next one of the head. -/
theorem collect_next (h : collect true first c ts = (.construct run k, rest)) (hwithin : c.Within)
    (hnext : c.tokens.reverse ++ t :: more = k.head) :
    ∃ passed behind c', ts = passed ++ t :: behind ∧ (∀ u ∈ passed, u.isSignificant = false) ∧ t.kind ≠ .eof ∧
      t.isSignificant = true ∧ Collected.Grows true (c.passAll passed) t c' ∧ c'.Within ∧
      collect true first c' behind = (.construct run k, rest) := by
  induction ts generalizing c with
  | nil => cases h
  | cons u ts ih =>
    rw [collect_cons] at h
    cases hverdict : c.verdict true u with
    | goOn c' =>
      simp only [hverdict] at h
      have hgrows := Collected.grows_of_verdict hverdict
      have hwithin' := hgrows.within hwithin
      have htokens := hgrows.tokens
      by_cases hu : u.isSignificant
      · have hfront := prefix_of_collect hwithin' h
        rw [if_pos hu] at htokens
        rw [htokens, List.reverse_cons, ← hnext, List.append_assoc, List.prefix_append_right_inj] at hfront
        obtain rfl : u = t := (List.cons_prefix_cons.1 hfront).1
        have heof : u.kind ≠ .eof := by
          intro heof
          rw [Collected.verdict_eq_endOfText_iff.2 heof] at hverdict
          cases hverdict
        exact ⟨[], ts, c', rfl, by simp, heof, hu, hgrows, hwithin', h⟩
      · have hu' : u.isSignificant = false := by simpa using hu
        obtain rfl : c' = c.pass u := by
          cases hgrows with
          | passed => rfl
          | added kind => exact absurd kind hu
          | opened _ kind | closed _ kind | divided kind => simp [Token.isSignificant, kind] at hu'
        obtain ⟨passed, behind, c', rfl, hpassed, hrest⟩ := ih h hwithin' hnext
        exact ⟨u :: passed, behind, c', rfl, List.forall_mem_cons.2 ⟨hu', hpassed⟩, hrest⟩
    | ends =>
      simp only [hverdict, Collected.stop] at h
      cases h
      have hlength := congrArg List.length (hwithin.head_append_parameters (.semicolon u))
      rw [← hnext] at hlength
      simp only [List.length_append, List.length_cons] at hlength
      omega
    | body =>
      simp only [hverdict, Collected.stop, function] at h
      split at h <;> cases h
      rename_i inside close _
      have hlength := congrArg List.length (hwithin.head_append_parameters (.body u close))
      rw [← hnext] at hlength
      simp only [List.length_append, List.length_cons] at hlength
      omega
    | unexpected | unbalanced | endOfText =>
      simp only [hverdict, Collected.stop] at h
      cases h

theorem Collected.Level.passAll (h : c.Level) (passed : List Token) : (c.passAll passed).Level := by
  simpa [Level] using h

/-- Collecting goes through all of the head. -/
theorem collect_through (h : collect true first c ts = (.construct run k, rest)) (hwithin : c.Within) (hlevel : c.Level)
    (hhead : c.tokens.reverse ++ (todo ++ more) = k.head) :
    ∃ behind c', collect true first c' behind = (.construct run k, rest) ∧ c'.Within ∧ c'.Level ∧
      c'.tokens.reverse = c.tokens.reverse ++ todo := by
  induction todo generalizing c ts with
  | nil => exact ⟨ts, c, h, hwithin, hlevel, by simp⟩
  | cons t todo ih =>
    obtain ⟨passed, behind, c', rfl, -, -, hsignificant, hgrows, hwithin', hcollect⟩ := collect_next h hwithin hhead
    have htokens : c'.tokens = t :: c.tokens := by rw [hgrows.tokens, if_pos hsignificant, Collected.tokens_passAll]
    obtain ⟨behind', d, hd, hwithin'', hlevel', htokens'⟩ :=
      ih hcollect hwithin' (hgrows.level (hlevel.passAll passed)) (by simpa [htokens] using hhead)
    exact ⟨behind', d, hd, hwithin'', hlevel', by simp [htokens', htokens]⟩

/-! ### Two collections -/

/-- What is collected behind some tokens, and what is collected without them. -/
structure Alone (before : List Token) (c d : Collected) : Prop where
  tokens : c.tokens.reverse = before ++ d.tokens.reverse
  opened : c.opened = d.opened
  undivided : d.head = none
  level : d.Level

/-- Outside all groups, what is collected allows a token: no semicolon, and a brace only where the body of an
aggregate is expected. -/
def Allows (markers : Bool) (tokens : List Token) (t : Token) : Prop :=
  t.kind ≠ .punct .semi ∧ (t.kind = .opening .brace →
    Shape.isFunctionHead markers t tokens = false ∧ Shape.expectsBrace markers t tokens = true)

variable {before : List Token}

/-- What is allowed is collected behind other tokens and without them. -/
theorem Alone.grows (h : Alone before c d) (hgrows : Collected.Grows true c t c')
    (hallows : Nesting.level 0 d.tokens.reverse = 0 → Allows true d.tokens.reverse t) :
    ∃ d', Collected.Grows true d t d' ∧ Alone before c' d' := by
  have hallows' : d.opened = [] → Allows true d.tokens.reverse t := by
    intro hopened
    refine hallows ?_
    rw [← h.level, hopened]
    rfl
  have halone : ∀ {d'}, Collected.Grows true d t d' → c'.tokens.reverse = before ++ d'.tokens.reverse →
      c'.opened = d'.opened → d'.head = d.head → ∃ d', Collected.Grows true d t d' ∧ Alone before c' d' := by
    intro d' hgrows' htokens hopened hhead
    exact ⟨d', hgrows', htokens, hopened, hhead.trans h.undivided, hgrows'.level h.level⟩
  cases hgrows with
  | passed kind => exact halone (.passed kind) h.tokens h.opened rfl
  | added kind noBracket inside =>
    refine halone (.added kind noBracket fun hsemi => ?_) (by simp [Collected.add, h.tokens]) h.opened rfl
    by_cases hopened : d.opened = []
    · exact absurd hsemi (hallows' hopened).1
    · exact .inl hopened
  | opened bracket kind expected =>
    refine halone (.opened bracket kind fun hbrace => ?_) (by simp [Collected.push, Collected.add, h.tokens])
      (congrArg (t :: ·) h.opened) rfl
    by_cases hopened : d.opened = []
    · exact .inr ⟨h.undivided, (hallows' hopened).2 (by rw [kind, hbrace])⟩
    · exact .inl hopened
  | closed bracket kind opening outer partner innermost =>
    exact halone (.closed bracket kind opening outer partner (h.opened ▸ innermost)) (by simp [Collected.add, h.tokens]) rfl rfl
  | divided kind outside => exact absurd kind (hallows' (h.opened ▸ outside)).1

/-- What is allowed one after another is collected behind other tokens and without them. -/
theorem Alone.collect (h : Alone before c d) (hcollect : Outline.collect true first c ts = (.construct run k, rest))
    (hwithin : c.Within) (hhead : c.tokens.reverse ++ (todo ++ more) = k.head)
    (hallows : ∀ front t behind, todo = front ++ t :: behind → Nesting.level 0 (d.tokens.reverse ++ front) = 0 →
      Allows true (d.tokens.reverse ++ front) t) :
    ∃ taken behind c' d', Outline.collect true first c' behind = (.construct run k, rest) ∧ Alone before c' d' ∧
      d'.tokens.reverse = d.tokens.reverse ++ todo ∧ c'.met.reverse = c.met.reverse ++ taken ∧
      d'.met.reverse = d.met.reverse ++ taken ∧ taken.getLast? = todo.getLast? ∧
      ∀ start more, Outline.collect true start d (taken ++ more) = Outline.collect true start d' more := by
  induction todo generalizing c d ts with
  | nil => exact ⟨[], ts, c, d, hcollect, h, by simp, by simp, by simp, rfl, fun start more => rfl⟩
  | cons t todo ih =>
    obtain ⟨passed, behind, c₁, rfl, hpassed, heof, hsignificant, hgrows, hwithin', hcollect'⟩ :=
      collect_next hcollect hwithin hhead
    have hpass : Alone before (c.passAll passed) (d.passAll passed) :=
      ⟨by simpa using h.tokens, by simpa using h.opened, by simpa using h.undivided, h.level.passAll passed⟩
    obtain ⟨d₁, hgrows', halone⟩ := hpass.grows hgrows (by simpa using hallows [] t todo rfl)
    have hc : c₁.tokens.reverse = c.tokens.reverse ++ [t] := by rw [hgrows.tokens, if_pos hsignificant]; simp
    have hd : d₁.tokens.reverse = d.tokens.reverse ++ [t] := by rw [hgrows'.tokens, if_pos hsignificant]; simp
    obtain ⟨taken, behind', c', d', hrest, halone', htokens, hmet, hmet', hlast, hmore⟩ :=
      ih halone hcollect' hwithin' (by simpa [hc] using hhead) fun front u behind hsplit => by
        simpa [hd] using hallows (t :: front) u behind (by rw [hsplit]; rfl)
    refine ⟨passed ++ t :: taken, behind', c', d', hrest, halone', by simp [htokens, hd], ?_, ?_, ?_, fun start more => ?_⟩
    · rw [hmet, hgrows.met]
      simp
    · rw [hmet', hgrows'.met]
      simp
    · rw [List.getLast?_append, List.getLast?_cons, List.getLast?_cons, hlast]
      rfl
    · rw [List.append_assoc, collect_passAll true start hpassed, List.cons_append, collect_cons,
        Collected.verdict_of_grows hgrows' heof]
      exact hmore start more

/-! ### Collecting an aggregate -/

/-- Collecting comes to a word of the head outside all groups. -/
theorem collect_word (h : collect true first (.start first) ts = (.construct run k, rest))
    (hstart : first.kind.canStartDeclaration = true) (hhead : before ++ t :: more = k.head) (hlevel : level 0 before = 0)
    (hword : t.kind.isPunctuation = false) :
    ∃ passed behind c, collect true first c behind = (.construct run k, rest) ∧ c.Within ∧ c.opened = [] ∧
      c.tokens.reverse = before ++ [t] ∧ c.met.reverse = passed ++ [t] := by
  have hfirst := (collect_first (Collected.begins_start first) h).2
  have hwithin := Collected.within_start hstart
  cases before with
  | nil =>
    obtain rfl : t = first := by simpa [← hhead] using hfirst
    exact ⟨[], ts, .start t, h, hwithin, rfl, rfl, rfl⟩
  | cons u before =>
    obtain rfl : u = first := by simpa [← hhead] using hfirst
    have hbegun : (Collected.start u).Level := by
      rw [Collected.Level, Collected.start, List.reverse_singleton, Nesting.level_cons]
      unfold TokenKind.canStartDeclaration at hstart
      split at hstart <;> simp_all [Nesting.depthBehind, TokenKind.isOpening, TokenKind.isClosing]
    obtain ⟨behind, c, hcollect, hwithin', hlevel', htokens⟩ := @collect_through _ _ before (t :: more) _ _ _ _ h hwithin hbegun hhead
    have hnext : c.tokens.reverse ++ t :: more = k.head := by
      rw [htokens, ← hhead]
      rfl
    obtain ⟨passed, behind', c', rfl, -, -, hsignificant, hgrows, hwithin'', hcollect'⟩ := collect_next hcollect hwithin' hnext
    have hopened : c.opened = [] := by
      rw [← List.length_eq_zero_iff, hlevel', htokens]
      exact hlevel
    refine ⟨c.met.reverse ++ passed, behind', c', hcollect', hwithin'', ?_, ?_, ?_⟩
    · cases hgrows with
      | passed => simpa [Collected.pass] using hopened
      | added => simpa [Collected.add] using hopened
      | opened _ kind | closed _ kind | divided kind => simp [kind, TokenKind.isPunctuation] at hword
    · rw [hgrows.tokens, if_pos hsignificant, Collected.tokens_passAll, List.reverse_cons, htokens]
      rfl
    · rw [hgrows.met, List.reverse_cons, Collected.reverse_met_passAll]

variable {keyword : Token} {kw : Keyword} {us inner : List Token}

/-- The tokens of an aggregate are allowed one after another. -/
theorem allows_aggregate (hkind : keyword.kind = .keyword kw) (hkw : kw.isAggregate = true)
    (hinner : (Aggregate.ofTokens keyword us).head = keyword :: inner) {front behind : List Token}
    (hsplit : inner ++ (Aggregate.ofTokens keyword us).body = front ++ t :: behind)
    (hlevel : level 0 (keyword :: front) = 0) : Allows true (keyword :: front) t := by
  have hword : keyword.kind.isPunctuation = false := by rw [hkind]; rfl
  obtain ⟨hsemi, hbrace⟩ := Aggregate.outside_tokens hword hinner hsplit hlevel
  refine ⟨hsemi, fun hopening => ?_⟩
  obtain rfl := hbrace hopening
  have halone := Aggregate.ofTokens_head hinner
  refine expectsBrace_of_whole hkind hkw ?_ ?_ t
  · simp [halone, hinner]
  · simp [halone]

/-- The tokens of an aggregate, with a semicolon behind them, are a construct. -/
theorem collect_alone (h : collect true first (.start first) ts = (.construct run k, rest))
    (hstart : first.kind.canStartDeclaration = true) (hhead : before ++ keyword :: us = k.head) (hbefore : level 0 before = 0)
    (hkind : keyword.kind = .keyword kw) (hkw : kw.isAggregate = true)
    (hsplit : (Aggregate.ofTokens keyword us).head ++ (Aggregate.ofTokens keyword us).body ++ more = keyword :: us)
    (hmore : more ≠ []) :
    ∃ passed taken behind, run = passed ++ keyword :: taken ++ behind ∧
      (keyword :: taken).getLast? = ((Aggregate.ofTokens keyword us).head ++ (Aggregate.ofTokens keyword us).body).getLast? ∧
      ∀ semicolon : Token, semicolon.kind = .punct .semi →
        ∃ k', collect true keyword (.start keyword) (taken ++ [semicolon]) = (.construct (keyword :: taken ++ [semicolon]) k', []) ∧
          k'.head = (Aggregate.ofTokens keyword us).head ++ (Aggregate.ofTokens keyword us).body ∧
          k'.ending = .semicolon semicolon := by
  have hword : keyword.kind.isPunctuation = false := by rw [hkind]; rfl
  obtain ⟨inner, hinner⟩ : ∃ inner, (Aggregate.ofTokens keyword us).head = keyword :: inner := ⟨_, rfl⟩
  have hclosed := (Aggregate.level_ofTokens hword hsplit hmore).2
  have hbody := Aggregate.ofTokens_body hinner
  obtain ⟨passed, behind, c, hcollect, hwithin, hopened, htokens, hmet⟩ := collect_word h hstart hhead hbefore hword
  have halone : Alone before c (.start keyword) :=
    ⟨htokens, hopened, rfl, by simp [Collected.Level, Collected.start, Nesting.depthBehind_of_word hword]⟩
  rw [hinner] at hsplit hclosed ⊢
  have hhead' : c.tokens.reverse ++ (inner ++ (Aggregate.ofTokens keyword us).body ++ more) = k.head := by
    rw [htokens, ← hhead, ← hsplit]
    simp
  obtain ⟨taken, behind', c', d', hcollect', halone', htokens', hmet', hmet'', hlast, hmore'⟩ :=
    halone.collect hcollect hwithin hhead' fun front t behind hfront hlevel =>
      allows_aggregate hkind hkw hinner hfront hlevel
  obtain ⟨taken', -, hrun, -, -⟩ := collect_taken hcollect'
  have hall : d'.tokens.reverse = keyword :: inner ++ (Aggregate.ofTokens keyword us).body := htokens'
  have hopened' : d'.opened = [] := by
    rw [← List.length_eq_zero_iff, halone'.level, hall]
    exact hclosed
  refine ⟨passed, taken, taken', ?_, ?_, fun semicolon hsemicolon => ?_⟩
  · rw [hrun, hmet', hmet]
    simp
  · rw [List.cons_append, List.getLast?_cons, List.getLast?_cons, hlast]
  · have hends : d'.verdict true semicolon = .ends := by
      have hnone : Shape.parameterDeclarations? true d'.tokens.reverse = none := by
        have hwhole : (Aggregate.ofTokens keyword (inner ++ (Aggregate.ofTokens keyword us).body)).head ++
            (Aggregate.ofTokens keyword (inner ++ (Aggregate.ofTokens keyword us).body)).body =
              keyword :: (inner ++ (Aggregate.ofTokens keyword us).body) := by
          rw [hbody, hinner]
          rfl
        rw [hall]
        exact parameterDeclarations?_of_whole hkind hkw hwhole
      simp [Collected.verdict, hsemicolon, hopened', halone'.undivided, hnone]
    refine ⟨d'.finish (.semicolon semicolon), ?_, ?_, rfl⟩
    · rw [hmore', collect_cons, hends]
      simp [Collected.stop, hmet'', Collected.start]
    · simp [Collected.finish, halone'.undivided, hall]

end Outline

/-! ### Texts -/

/-- The aggregate of a definition among the tokens of a construct with declarators. -/
theorem exists_aggregate_of_tagged? {markers : Bool} {k : Construct} {a : Aggregate} {tag : Token}
    (htagged : Construct.tagged? (.ofTokens markers k.head) = some (a, tag)) (hpieces : k.pieces (.ofTokens markers k.head) ≠ []) :
    ∃ before keyword us more kw, before ++ keyword :: us = k.head ∧ level 0 before = 0 ∧ keyword.kind = .keyword kw ∧
      kw.isAggregate = true ∧ a = .ofTokens keyword us ∧ a.head ++ a.body ++ more = keyword :: us ∧ more ≠ [] := by
  have hmem := List.mem_of_getLast? (Construct.aggregate?_of_tagged? htagged).1
  obtain ⟨s, hs, ha⟩ := List.mem_filterMap.1 hmem
  obtain ⟨pre, post, hspecs⟩ := List.append_of_mem hs
  obtain ⟨typed, behindExtern, keyword, us, hhead, hfirst, hlevel, -⟩ := Specifiers.exists_of_take hspecs
  obtain ⟨⟨kw, hkind, hkw⟩, rfl⟩ := Specifier.keyword_of_aggregate? hfirst ha
  obtain ⟨more, hmore⟩ := Aggregate.prefix_ofTokens keyword us
  refine ⟨Specifiers.tokens pre, keyword, us, more, kw, hhead.symm, hlevel, hkind, hkw, rfl, hmore, ?_⟩
  rintro rfl
  rw [List.append_nil, ← Specifier.tokens_of_aggregate? hfirst ha] at hmore
  refine hpieces ?_
  have hbehind : Shape.behindSpecifiers (.ofTokens markers k.head) k.head = [] := by
    rw [Shape.behindSpecifiers, List.drop_eq_nil_iff, hspecs, hhead, ← hmore]
    simp [Specifiers.tokens]
  rw [Construct.pieces, hbehind, declarators]
  rfl

/-- The copy of a definition, with a semicolon behind it, is one declaration wherever it stands. -/
theorem readsAs_tagged {source : List Char} {before behind run ts rest : List Token} {k : Construct} {first : Token}
    (hbody : Tokenized source (before ++ run ++ behind)) (hstart : first.kind.canStartDeclaration = true)
    (hcollect : Outline.collect true first (.start first) ts = (.construct run k, rest)) {a : Aggregate} {tag : Token}
    (htagged : Construct.tagged? (.ofTokens true k.head) = some (a, tag)) (hpieces : k.pieces (.ofTokens true k.head) ≠ [])
    {start last : Token} (hfirst : a.head.head? = some start) (hlast : a.body.getLast? = some last) {site : Site}
    (hsource : site.source = source) :
    ∃ directives, ReadsAs (site.between start last ++ ";").toList
      (Item.Declares directives (site.between start last ++ ";")) := by
  obtain ⟨front, keyword, us, more, kw, hhead, hlevel, hkind, hkw, rfl, hsplit, hmore⟩ :=
    exists_aggregate_of_tagged? htagged hpieces
  obtain ⟨inner, hinner⟩ : ∃ inner, (Aggregate.ofTokens keyword us).head = keyword :: inner := ⟨_, rfl⟩
  obtain rfl : keyword = start := by simpa [hinner] using hfirst
  obtain ⟨passed, taken, after, rfl, htaken, hmake⟩ :=
    Outline.collect_alone hcollect hstart hhead hlevel hkind hkw hsplit hmore
  obtain ⟨k', hcollect', hhead', hending⟩ := hmake writtenSemicolon rfl
  have hlast' : (keyword :: taken).getLast? = some last := by
    rw [htaken, List.getLast?_append, hlast]
    rfl
  obtain ⟨l, row, hgap, hreads, hkinds, hslice⟩ := @Tokenized.cut _ (before ++ passed) (after ++ behind) taken keyword last
    (by simpa using hbody) hlast'
  have htext : (site.between keyword last).toList = allChars (l :: row) := by
    rw [Site.between, hsource, hslice, Option.getD_some, String.toList_ofList]
  have hopens := opens_of_isAggregate hkind hkw
  -- The last token of the body does not swallow what is written behind it.
  have hsignificant : last.isSignificant = true := by
    refine (Outline.head_of_collect (Outline.Collected.within_start hstart) hcollect).2 last ?_
    rw [← hhead, ← hsplit]
    have := List.mem_of_getLast? hlast
    simp [this]
  have hreads' : Reads (l :: (row ++ [⟨[], .punct .semi, [';']⟩])) [] :=
    hreads.concat_semicolon hkinds fun t ht => by
      rw [hlast'] at ht
      rwa [← Option.some_inj.1 ht]
  have hwhole : k'.head = keyword :: (inner ++ (Aggregate.ofTokens keyword us).body) := by rw [hhead', hinner]; rfl
  have hspecs : Specifiers.ofTokens true k'.head =
      [⟨.aggregate (.ofTokens keyword us), keyword :: (inner ++ (Aggregate.ofTokens keyword us).body)⟩] := by
    rw [hwhole, ofTokens_of_whole hkind hkw] <;> rw [Aggregate.ofTokens_body hinner]
    rw [hinner]
    rfl
  have hcopied : k'.Copied (.ofTokens true k'.head) := by
    refine .bare ?_ ?_ ?_
    · simp [hspecs, Specifiers.isTypedef]
    · rw [Construct.pieces, hspecs, hwhole]
      simp [Shape.behindSpecifiers, Specifiers.tokens, declarators]
    · simp [hspecs, Specifiers.aggregate?, Specifier.aggregate?]
  have hconstruct : IsConstruct (keyword :: (taken ++ [writtenSemicolon])) k' := isConstruct_of_collect hopens hcollect'
  refine ⟨_, hcopied.readsAs hconstruct hopens hwhole ?_ ?_ hgap hreads' ?_ ?_⟩
  · rw [Construct.last, hending, ← List.cons_append, List.getLast?_concat]
  · rw [← List.cons_append]
    refine (hbody.ordered.sublist ?_).nodup_append (by simp) (by simp [writtenSemicolon, Token.written])
    exact ((List.sublist_append_right passed _).trans (List.sublist_append_left _ after)).trans
      ((List.sublist_append_right before _).trans (List.sublist_append_left _ behind))
  · rw [← List.cons_append, ← List.cons_append, List.map_append, List.map_append, hkinds]
    rfl
  · rw [String.toList_append, htext, ← List.cons_append, Lexed.allChars_append]
    rfl

end CHeader
