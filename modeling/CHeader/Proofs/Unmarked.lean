import CHeader.Proofs.Locality
import CHeader.Proofs.Parts

/-!
# Marker words before a declaration

A construct may begin with marker words, which are no part of what it declares. Its declarations are copied from
the token behind them. Every verdict on a construct looks at its specifiers and at what is behind them, and the
marker words add nothing to either (`Unmarked`); so from that token on the same construct is collected without
them (`collect_unmarked`).
-/

namespace CHeader

/-- A marker word. -/
def Token.IsMark (t : Token) : Prop :=
  (Specifier.markerOf? true t).isSome = true

/-- A token that begins a specifier, and no marker word. -/
def Token.Opens (t : Token) : Prop :=
  ∀ ts, ∃ s, Specifier.first? true false false t ts = some s ∧ s.isMarker = false

/-! ### Specifiers -/

theorem Token.IsMark.first? {t : Token} (h : t.IsMark) (typed behindExtern : Bool) (ts : List Token) :
    ∃ visibility, Specifier.first? true typed behindExtern t ts = some ⟨.marker visibility, [t]⟩ := by
  obtain ⟨visibility, hvisibility⟩ := Option.isSome_iff_exists.1 h
  refine ⟨visibility, ?_⟩
  have hkind : ∃ word, t.kind = .identifier word := by
    unfold Specifier.markerOf? at hvisibility
    split at hvisibility
    · exact ⟨_, ‹_›⟩
    · cases hvisibility
  obtain ⟨word, hword⟩ := hkind
  simp [Specifier.first?, hword, Specifier.ofIdentifier?, hvisibility]

/-- A token that a specifier begins with is a marker word or begins another, whatever follows it. -/
theorem Token.isMark_or_opens {t : Token} {ts : List Token} {s : Specifier}
    (h : Specifier.first? true false false t ts = some s) : t.IsMark ∨ t.Opens := by
  by_cases hmark : t.IsMark
  · exact .inl hmark
  refine .inr fun us => ?_
  have hnone : Specifier.markerOf? true t = none := by simpa [IsMark] using hmark
  unfold Specifier.first? at h ⊢
  split at h
  · simp only [Specifier.ofIdentifier?, hnone, Bool.false_eq_true, if_false]
    by_cases hattribute : t.isAttribute
    · exact ⟨_, if_pos hattribute, rfl⟩
    · by_cases htypeof : t.isTypeof
      · exact ⟨_, by rw [if_neg hattribute, if_pos htypeof], rfl⟩
      · exact ⟨_, by rw [if_neg hattribute, if_neg htypeof], rfl⟩
  · unfold Specifier.ofKeyword? at h ⊢
    by_cases haggregate : Keyword.isAggregate ‹_›
    · rw [if_pos haggregate]
      exact ⟨_, rfl, rfl⟩
    · rw [if_neg haggregate] at h ⊢
      split at h
      case h_5 =>
        cases Specifier.hasArgument us <;> exact ⟨_, rfl, rfl⟩
      case h_6 =>
        split_ifs at h ⊢
        · exact ⟨_, rfl, rfl⟩
        · exact ⟨_, rfl, rfl⟩
      all_goals exact ⟨_, rfl, rfl⟩
  · cases h
  · cases h

namespace Specifiers

/-- Marker words at the front are specifiers of their own. -/
theorem ofTokens_marks {marks : List Token} (h : ∀ t ∈ marks, t.IsMark) (ts : List Token) :
    ∃ specs : Specifiers, ofTokens true (marks ++ ts) = specs ++ ofTokens true ts ∧ specs.tokens = marks ∧
      ∀ s ∈ specs, s.isMarker = true := by
  induction marks with
  | nil => exact ⟨[], rfl, rfl, by simp⟩
  | cons t marks ih =>
    obtain ⟨ht, hmarks⟩ := List.forall_mem_cons.1 h
    obtain ⟨specs, hspecs, htokens, hmarker⟩ := ih hmarks
    obtain ⟨visibility, hfirst⟩ := ht.first? false false (marks ++ ts)
    have hlinked : t.kind ≠ .keyword .externKw := by
      intro hkind
      simp [Token.IsMark, Specifier.markerOf?, hkind] at ht
    refine ⟨⟨.marker visibility, [t]⟩ :: specs, ?_, ?_, List.forall_mem_cons.2 ⟨rfl, hmarker⟩⟩
    · have hrest : take true false false (marks ++ ts) = specs ++ ofTokens true ts := hspecs
      rw [List.cons_append, ofTokens, take, hfirst]
      simp [Specifier.isType, hlinked, hrest]
    · rw [tokens, List.flatMap_cons]
      exact congrArg (t :: ·) htokens

theorem ofTokens_opens {t : Token} (h : t.Opens) (ts : List Token) :
    ∃ s specs, ofTokens true (t :: ts) = s :: specs ∧ s.isMarker = false ∧ s.tokens.head? = some t := by
  obtain ⟨s, hs, hmarker⟩ := h ts
  rw [ofTokens, take, hs]
  exact ⟨s, _, rfl, hmarker, (Specifier.prefix_of_first? hs).2⟩

/-- The declarations of a construct start behind its marker words. -/
theorem exists_marks {ts : List Token} {start : Token} (h : (ofTokens true ts).kept.head? = some start) :
    ∃ marks more, ts = marks ++ start :: more ∧ (∀ t ∈ marks, t.IsMark) ∧ start.Opens := by
  induction ts with
  | nil => simp [ofTokens, take, kept] at h
  | cons t ts ih =>
    cases hfirst : Specifier.first? true false false t ts with
    | none =>
      rw [ofTokens, take, hfirst] at h
      cases h
    | some s =>
      rcases Token.isMark_or_opens hfirst with hmark | hopens
      · obtain ⟨specs, hspecs, -, hmarker⟩ := @ofTokens_marks [t] (by simpa using hmark) ts
        have hkept : (ofTokens true (t :: ts)).kept = (ofTokens true ts).kept := by
          have hnone : specs.kept = [] := by
            rw [kept, List.flatMap_eq_nil_iff]
            intro s hs
            rw [Specifier.kept, if_pos (hmarker s hs)]
          rw [List.singleton_append] at hspecs
          rw [hspecs, kept, List.flatMap_append]
          exact congrArg (· ++ _) hnone
        obtain ⟨marks, more, rfl, hmarks, hstart⟩ := ih (by rwa [hkept] at h)
        exact ⟨t :: marks, more, rfl, List.forall_mem_cons.2 ⟨hmark, hmarks⟩, hstart⟩
      · obtain ⟨s, specs, hspecs, hmarker, hhead⟩ := ofTokens_opens hopens ts
        obtain ⟨rest, hrest⟩ := List.head?_eq_some_iff.1 hhead
        rw [hspecs, kept, List.flatMap_cons, Specifier.kept, hmarker, if_neg (by simp), hrest] at h
        obtain rfl : t = start := by simpa using h
        exact ⟨[], ts, rfl, by simp, hopens⟩

variable {specs rest : Specifiers}

/-- Marker words have no other role. -/
theorem any_append_marks (h : ∀ s ∈ specs, s.isMarker = true) {p : Specifier → Bool}
    (hp : ∀ s, p s = true → s.isMarker = false) : (specs ++ rest).any p = rest.any p := by
  have hnone : specs.any p = false := by
    rw [List.any_eq_false]
    intro s hs hrole
    simpa [hp s hrole] using h s hs
  rw [List.any_append, hnone]
  rfl

theorem isTypedef_append_marks (h : ∀ s ∈ specs, s.isMarker = true) : isTypedef (specs ++ rest) = rest.isTypedef :=
  any_append_marks h fun s hs => by simp [Specifier.isMarker, of_decide_eq_true hs]

theorem isInline_append_marks (h : ∀ s ∈ specs, s.isMarker = true) : isInline (specs ++ rest) = rest.isInline :=
  any_append_marks h fun s hs => by simp [Specifier.isMarker, of_decide_eq_true hs]

theorem isStatic_append_marks (h : ∀ s ∈ specs, s.isMarker = true) : isStatic (specs ++ rest) = rest.isStatic :=
  any_append_marks h fun s hs => by simp [Specifier.isMarker, of_decide_eq_true hs]

theorem aggregate?_append_marks (h : ∀ s ∈ specs, s.isMarker = true) : aggregate? (specs ++ rest) = rest.aggregate? := by
  have hnone : specs.filterMap (·.aggregate?) = [] := by
    rw [List.filterMap_eq_nil_iff]
    intro s hs
    have hmarker := h s hs
    unfold Specifier.isMarker at hmarker
    unfold Specifier.aggregate?
    split at hmarker <;> simp_all
  rw [aggregate?, List.filterMap_append, hnone]
  rfl

theorem tokens_append (specs rest : Specifiers) : tokens (specs ++ rest) = specs.tokens ++ rest.tokens :=
  List.flatMap_append

end Specifiers

namespace Shape

variable {marks tokens : List Token}

theorem behindSpecifiers_marks (h : ∀ t ∈ marks, t.IsMark) (tokens : List Token) :
    behindSpecifiers (.ofTokens true (marks ++ tokens)) (marks ++ tokens) =
      behindSpecifiers (.ofTokens true tokens) tokens := by
  obtain ⟨specs, hspecs, htokens, -⟩ := Specifiers.ofTokens_marks h tokens
  rw [behindSpecifiers, behindSpecifiers, hspecs, Specifiers.tokens_append, htokens, List.length_append,
    ← List.drop_drop, List.drop_left]

theorem isFunctionHead_marks (h : ∀ t ∈ marks, t.IsMark) (brace : Token) (tokens : List Token) :
    isFunctionHead true brace (marks ++ tokens) = isFunctionHead true brace tokens := by
  obtain ⟨specs, hspecs, -, hmarker⟩ := Specifiers.ofTokens_marks h tokens
  have htypedef : (Specifiers.ofTokens true (marks ++ tokens)).isTypedef = (Specifiers.ofTokens true tokens).isTypedef := by
    rw [hspecs, Specifiers.isTypedef_append_marks hmarker]
  simp only [isFunctionHead, htypedef, lastDeclarator?, behindSpecifiers_marks h]

theorem expectsBrace_marks (h : ∀ t ∈ marks, t.IsMark) (brace : Token) (tokens : List Token) :
    expectsBrace true brace (marks ++ tokens) = expectsBrace true brace tokens := by
  obtain ⟨specs, hspecs, -, hmarker⟩ := Specifiers.ofTokens_marks h tokens
  have haggregate : (Specifiers.ofTokens true (marks ++ tokens)).aggregate? = (Specifiers.ofTokens true tokens).aggregate? := by
    rw [hspecs, Specifiers.aggregate?_append_marks hmarker]
  simp only [expectsBrace, haggregate, lastDeclarator?, behindSpecifiers_marks h]

/-- The parameter declarations in the old style are told by the last specifier, which is behind the marker words. -/
theorem parameterDeclarations?_marks (h : ∀ t ∈ marks, t.IsMark) {start : Token} (hstart : start.Opens) (more : List Token) :
    parameterDeclarations? true (marks ++ start :: more) = parameterDeclarations? true (start :: more) := by
  obtain ⟨specs, hspecs, htokens, hmarker⟩ := Specifiers.ofTokens_marks h (start :: more)
  have htypedef : (Specifiers.ofTokens true (marks ++ start :: more)).isTypedef =
      (Specifiers.ofTokens true (start :: more)).isTypedef := by
    rw [hspecs, Specifiers.isTypedef_append_marks hmarker]
  have hlast : (Specifiers.ofTokens true (marks ++ start :: more)).tokens.getLast? =
      (Specifiers.ofTokens true (start :: more)).tokens.getLast? := by
    obtain ⟨s, rest, hrest, -, hhead⟩ := Specifiers.ofTokens_opens hstart more
    obtain ⟨inner, hinner⟩ := List.head?_eq_some_iff.1 hhead
    have hne : (Specifiers.ofTokens true (start :: more)).tokens ≠ [] := by simp [hrest, Specifiers.tokens, hinner]
    rw [hspecs, Specifiers.tokens_append, List.getLast?_append, List.getLast?_eq_some_getLast hne]
    rfl
  simp only [parameterDeclarations?, htypedef, hlast, behindSpecifiers_marks h]

end Shape

namespace Outline

/-! ### Collecting -/

/-- What is collected behind some marker words, and what is collected without them. -/
structure Unmarked (marks : List Token) (start : Token) (c c' : Collected) : Prop where
  words : ∀ t ∈ marks, t.IsMark
  opens : start.Opens
  tokens : c.tokens.reverse = marks ++ c'.tokens.reverse
  start : c'.tokens.reverse.head? = some start
  opened : c.opened = c'.opened
  head : c.head = c'.head.map (marks ++ ·)

namespace Unmarked

variable {marks : List Token} {start first t : Token} {c c' d : Collected}

theorem parameterDeclarations?_eq (h : Unmarked marks start c c') :
    Shape.parameterDeclarations? true c.tokens.reverse = Shape.parameterDeclarations? true c'.tokens.reverse := by
  obtain ⟨more, hmore⟩ := List.head?_eq_some_iff.1 h.start
  rw [h.tokens, hmore, Shape.parameterDeclarations?_marks h.words h.opens]

theorem head_eq_none (h : Unmarked marks start c c') : c'.head = none ↔ c.head = none := by
  rw [h.head, Option.map_eq_none_iff]

/-- What a token adds is the same with the marker words and without. -/
theorem grows (h : Unmarked marks start c c') (hgrows : Collected.Grows true c t d) :
    ∃ d', Collected.Grows true c' t d' ∧ Unmarked marks start d d' := by
  have hsome : c'.head.isSome = c.head.isSome := by rw [h.head, Option.isSome_map]
  have hadd : ∀ (opened : List Token) (head head' : Option (List Token)), head = head'.map (marks ++ ·) →
      Unmarked marks start { c.add t with opened, head } { c'.add t with opened, head := head' } := by
    intro opened head head' hhead
    refine ⟨h.words, h.opens, ?_, ?_, rfl, hhead⟩
    · simp [Collected.add, h.tokens]
    · simp only [Collected.add, List.reverse_cons, List.head?_append, h.start, Option.some_or]
  cases hgrows with
  | passed kind => exact ⟨_, .passed kind, h.words, h.opens, h.tokens, h.start, h.opened, h.head⟩
  | added kind noBracket inside =>
    refine ⟨_, .added kind noBracket ?_, ?_⟩
    · rwa [← h.opened, hsome]
    · have hadded := hadd c.opened c.head c'.head h.head
      exact ⟨hadded.words, hadded.opens, hadded.tokens, hadded.start, h.opened, h.head⟩
  | opened bracket kind expected =>
    refine ⟨_, .opened bracket kind ?_, ?_⟩
    · rw [h.tokens, Shape.isFunctionHead_marks h.words, Shape.expectsBrace_marks h.words] at expected
      rwa [← h.opened, h.head_eq_none]
    · have hadded := hadd (t :: c.opened) c.head c'.head h.head
      exact ⟨hadded.words, hadded.opens, hadded.tokens, hadded.start, congrArg (t :: ·) h.opened, h.head⟩
  | closed bracket kind opening outer partner innermost =>
    exact ⟨_, .closed bracket kind opening outer partner (h.opened ▸ innermost), hadd outer c.head c'.head h.head⟩
  | divided kind outside undivided parameters begun =>
    have hbegun := h.parameterDeclarations?_eq.symm.trans begun
    refine ⟨_, .divided kind (h.opened ▸ outside) (h.head_eq_none.2 undivided) parameters hbegun, ?_⟩
    have hsuffix : parameters.length ≤ c'.tokens.reverse.length := by
      obtain ⟨head, -, hsplit⟩ := Shape.parameterDeclarations?_suffix hbegun
      rw [hsplit, List.length_append]
      omega
    have htake : c.tokens.reverse.take (c.tokens.reverse.length - parameters.length) =
        marks ++ c'.tokens.reverse.take (c'.tokens.reverse.length - parameters.length) := by
      rw [h.tokens, List.length_append, Nat.add_sub_assoc hsuffix, List.take_length_add_append]
    have hadded := hadd [] (some (c.tokens.reverse.take (c.tokens.reverse.length - parameters.length)))
      (some (c'.tokens.reverse.take (c'.tokens.reverse.length - parameters.length))) (by rw [htake]; rfl)
    exact ⟨hadded.words, hadded.opens, hadded.tokens, hadded.start, h.opened, hadded.head⟩

/-- What ends the construct is the same with the marker words and without. -/
theorem verdict_of_ends (h : Unmarked marks start c c') (hends : c.verdict true t = .ends) : c'.verdict true t = .ends := by
  obtain ⟨hkind, hopened, hhead, hnone⟩ := Collected.of_verdict_eq_ends hends
  rw [h.parameterDeclarations?_eq] at hnone
  rw [h.opened] at hopened
  simp [Collected.verdict, hkind, hopened, h.head_eq_none.2 hhead, hnone]

theorem verdict_of_body (h : Unmarked marks start c c') (hbody : c.verdict true t = .body) : c'.verdict true t = .body := by
  obtain ⟨hkind, hopened, hfunction⟩ := Collected.of_verdict_eq_body hbody
  rw [h.head, Option.isSome_map, h.tokens, Shape.isFunctionHead_marks h.words] at hfunction
  rw [h.opened] at hopened
  simp [Collected.verdict, hkind, hopened, hfunction]

theorem finish (h : Unmarked marks start c c') (ending : Ending) :
    (c.finish ending).head = marks ++ (c'.finish ending).head ∧
      (c.finish ending).parameters = (c'.finish ending).parameters := by
  have hhead : c.head.getD c.tokens.reverse = marks ++ c'.head.getD c'.tokens.reverse := by
    rw [h.head, h.tokens]
    cases c'.head <;> rfl
  refine ⟨hhead, ?_⟩
  change c.tokens.reverse.drop (c.head.getD c.tokens.reverse).length = _
  rw [hhead, h.tokens, List.length_append, ← List.drop_drop, List.drop_left]
  rfl

/-- A construct is collected in the same way with the marker words and without. -/
theorem collect (h : Unmarked marks start c c') {passed : List Token} (hmet : c.met.reverse = passed ++ c'.met.reverse)
    {ts run rest : List Token} {k : Construct} (hcollect : Outline.collect true first c ts = (.construct run k, rest)) :
    ∃ run' k', Outline.collect true start c' ts = (.construct run' k', rest) ∧ run = passed ++ run' ∧
      k.head = marks ++ k'.head ∧ k.parameters = k'.parameters ∧ k.ending = k'.ending := by
  induction ts generalizing c c' with
  | nil => cases hcollect
  | cons t ts ih =>
    rw [collect_cons] at hcollect ⊢
    cases hverdict : c.verdict true t with
    | goOn d =>
      simp only [hverdict] at hcollect
      have hgrows := Collected.grows_of_verdict hverdict
      obtain ⟨d', hgrows', hd⟩ := h.grows hgrows
      have heof : t.kind ≠ .eof := by
        intro heof
        rw [Collected.verdict_eq_endOfText_iff.2 heof] at hverdict
        cases hverdict
      simp only [Collected.verdict_of_grows hgrows' heof]
      refine ih hd ?_ hcollect
      rw [hgrows.met, hgrows'.met, List.reverse_cons, hmet, List.reverse_cons, List.append_assoc]
    | ends =>
      simp only [hverdict, Collected.stop] at hcollect
      cases hcollect
      simp only [h.verdict_of_ends hverdict, Collected.stop]
      obtain ⟨hhead, hparameters⟩ := h.finish (.semicolon t)
      exact ⟨_, _, rfl, by simp [hmet], hhead, hparameters, rfl⟩
    | body =>
      simp only [hverdict, Collected.stop, function] at hcollect
      simp only [h.verdict_of_body hverdict, Collected.stop, function]
      split at hcollect <;> cases hcollect
      rename_i inside close hbody
      obtain ⟨hhead, hparameters⟩ := h.finish (.body t close)
      exact ⟨_, _, rfl, by simp [hmet], hhead, hparameters, rfl⟩
    | unexpected | unbalanced | endOfText =>
      simp only [hverdict, Collected.stop] at hcollect
      cases hcollect

end Unmarked

theorem not_punct_of_first? {t : Token} {ts : List Token} {s : Specifier} {typed behindExtern : Bool}
    (h : Specifier.first? true typed behindExtern t ts = some s) (p : Punct) : t.kind ≠ .punct p := by
  intro hkind
  simp [Specifier.first?, hkind] at h

/-- The construct that begins with marker words is also collected without them. -/
theorem collect_unmarked {first start : Token} {c : Collected} {todo more ts run rest : List Token} {k : Construct}
    (h : collect true first c ts = (.construct run k, rest)) (hwithin : c.Within) (hopened : c.opened = [])
    (hhead : c.head = none) (hfront : k.head = c.tokens.reverse ++ todo ++ start :: more)
    (hmarks : ∀ t ∈ c.tokens.reverse ++ todo, t.IsMark) (hopens : start.Opens) :
    ∃ passed behind run' k', collect true start (.start start) behind = (.construct run' k', rest) ∧
      run = passed ++ run' ∧ k'.head = start :: more ∧ k.parameters = k'.parameters ∧ k.ending = k'.ending := by
  induction ts generalizing c todo with
  | nil => cases h
  | cons t ts ih =>
    rw [collect_cons] at h
    cases hverdict : c.verdict true t with
    | goOn d =>
      simp only [hverdict] at h
      have hgrows := Collected.grows_of_verdict hverdict
      by_cases hsignificant : t.isSignificant = true
      · -- A token of the construct is the next of the marker words, or the token behind them.
        have hnext : [t] <+: todo ++ start :: (more ++ k.parameters) := by
          have hfound := prefix_of_collect (hgrows.within hwithin) h
          rw [hgrows.tokens, if_pos hsignificant, List.reverse_cons, hfront, List.append_assoc, List.append_assoc,
            List.prefix_append_right_inj] at hfound
          simpa using hfound
        have hspecifier : ∃ s, Specifier.first? true false false t ts = some s := by
          cases todo with
          | nil =>
            obtain rfl : t = start := by simpa using hnext
            obtain ⟨s, hs, -⟩ := hopens ts
            exact ⟨s, hs⟩
          | cons u us =>
            obtain rfl : t = u := by simpa using hnext
            obtain ⟨visibility, hs⟩ := (hmarks t (by simp)).first? false false ts
            exact ⟨_, hs⟩
        obtain ⟨s, hs⟩ := hspecifier
        cases hgrows with
        | passed kind => simp [kind] at hsignificant
        | opened bracket kind => exact absurd kind (not_punct_of_first? hs _)
        | closed bracket kind => exact absurd kind (not_punct_of_first? hs _)
        | divided kind => exact absurd kind (not_punct_of_first? hs _)
        | added kind noBracket inside =>
          cases todo with
          | nil =>
            obtain rfl : t = start := by simpa using hnext
            rw [List.append_nil] at hfront hmarks
            have hunmarked : Unmarked c.tokens.reverse t (c.add t) (.start t) :=
              ⟨hmarks, hopens, by simp [Collected.add, Collected.start], by simp [Collected.start], hopened, hhead⟩
            have hmet : (c.add t).met.reverse = c.met.reverse ++ (Collected.start t).met.reverse := by
              simp [Collected.add, Collected.start]
            obtain ⟨run', k', hcollect, hrun, hhead', hparameters, hending⟩ := hunmarked.collect hmet h
            rw [hfront] at hhead'
            exact ⟨_, ts, run', k', hcollect, hrun, (List.append_cancel_left hhead').symm, hparameters, hending⟩
          | cons u us =>
            obtain rfl : t = u := by simpa using hnext
            have hsplit : c.tokens.reverse ++ t :: us = (c.add t).tokens.reverse ++ us := by simp [Collected.add]
            rw [hsplit] at hfront hmarks
            exact ih h ((Collected.Grows.added kind noBracket inside : Collected.Grows true c t _).within hwithin) hopened hhead
              hfront hmarks
      · cases hgrows with
        | passed kind => exact ih h ((Collected.Grows.passed kind : Collected.Grows true c t _).within hwithin) hopened hhead hfront hmarks
        | added kind | opened _ kind | closed _ kind | divided kind =>
          simp_all [Token.isSignificant]
    | ends =>
      simp only [hverdict, Collected.stop] at h
      cases h
      simp [Collected.finish, hhead] at hfront
    | body =>
      simp only [hverdict, Collected.stop, function] at h
      split at h <;> cases h
      simp [Collected.finish, hhead] at hfront
    | unexpected | unbalanced | endOfText =>
      simp only [hverdict, Collected.stop] at h
      cases h

end Outline

end CHeader
