import CHeader.Construct.Entry
import CHeader.Proofs.Partition

/-!
# The parts of a construct are tokens of it

Specifiers are taken off the front of a construct (`Specifiers.prefix_take`), and each declarator is cut out
of what is behind them. The head of a construct is some of the tokens of its run, in order
(`head_of_mem_outline`). So what is spelled anew from a construct is spelled from tokens of the text, none
of them out of place.
-/

namespace CHeader

/-- What is taken off the front, and then off the front of the rest, is at the front. -/
theorem append_prefix_of_drop {first second ts : List Token} (hfirst : first <+: ts)
    (hsecond : second <+: ts.drop first.length) : first ++ second <+: ts := by
  obtain ⟨rest, rfl⟩ := hfirst
  rw [List.drop_left] at hsecond
  exact (List.prefix_append_right_inj first).2 hsecond

/-! ### Specifiers -/

theorem prefix_attributes (ts : List Token) : attributes ts <+: ts := by
  fun_induction attributes ts with
  | case1 => simp
  | case2 t ts h argument ih =>
    exact (List.prefix_cons_inj t).2 (append_prefix_of_drop (Nesting.prefix_parenthesized ts) ih)
  | case3 => simp

namespace Aggregate

theorem prefix_tagged (ts : List Token) : tagged ts <+: ts := by
  cases ts with
  | nil => simp [tagged]
  | cons t ts =>
    rw [tagged]
    split_ifs
    · exact (List.prefix_cons_inj t).2 (prefix_attributes ts)
    · simp

theorem prefix_bodyOf (ts : List Token) : bodyOf ts <+: ts := by
  cases ts with
  | nil => simp [bodyOf]
  | cons t ts =>
    rw [bodyOf]
    split_ifs
    · exact (List.prefix_cons_inj t).2 (Nesting.prefix_closing 1 ts)
    · simp

/-- The tokens of an aggregate are the first ones. -/
theorem prefix_ofTokens (keyword : Token) (ts : List Token) :
    (ofTokens keyword ts).head ++ (ofTokens keyword ts).body <+: keyword :: ts := by
  have hhead := append_prefix_of_drop (prefix_attributes ts) (prefix_tagged (ts.drop (attributes ts).length))
  exact (List.prefix_cons_inj keyword).2 (append_prefix_of_drop hhead (prefix_bodyOf _))

end Aggregate

namespace Specifier

/-- The forms that a specifier may have. -/
inductive Form (t : Token) (ts : List Token) : Specifier → Prop
  | word (role : SpecifierRole) (simple : ∀ a, role ≠ .aggregate a) : Form t ts ⟨role, [t]⟩
  | argument (role : SpecifierRole) (simple : ∀ a, role ≠ .aggregate a) : Form t ts (withArgument role t ts)
  | aggregate : Form t ts ⟨.aggregate (Aggregate.ofTokens t ts), (Aggregate.ofTokens t ts).head ++ (Aggregate.ofTokens t ts).body⟩

theorem form_of_first? {markers typed behindExtern : Bool} {t : Token} {ts : List Token} {s : Specifier}
    (h : first? markers typed behindExtern t ts = some s) : Form t ts s := by
  unfold first? at h
  split at h
  · unfold ofIdentifier? at h
    split at h
    · cases h
      exact .word _ (by simp)
    · split_ifs at h <;> cases h
      · exact .argument _ (by simp)
      · exact .argument _ (by simp)
      · exact .word _ (by simp)
  · rename_i k _
    unfold ofKeyword? at h
    by_cases haggregate : k.isAggregate
    · rw [if_pos haggregate] at h
      cases h
      exact .aggregate
    · rw [if_neg haggregate] at h
      split at h
      case h_4 =>
        cases h
        exact .argument _ (by simp)
      case h_5 =>
        cases h
        exact .argument _ (by split_ifs <;> simp)
      case h_6 =>
        split_ifs at h <;> cases h
        · exact .word _ (by simp)
        · exact .word _ (by simp)
      all_goals
        cases h
        exact .word _ (by simp)
  · split_ifs at h
    cases h
    exact .word _ (by simp)
  · cases h

variable {markers typed behindExtern : Bool} {t : Token} {ts : List Token} {s : Specifier}

/-- A specifier is not empty, and is taken off the front. -/
theorem prefix_of_first? (h : first? markers typed behindExtern t ts = some s) :
    s.tokens <+: t :: ts ∧ s.tokens.head? = some t := by
  cases form_of_first? h with
  | word role _ => exact ⟨by simp, rfl⟩
  | argument role _ => exact ⟨(List.prefix_cons_inj t).2 (Nesting.prefix_parenthesized ts), rfl⟩
  | aggregate => exact ⟨Aggregate.prefix_ofTokens t ts, rfl⟩

/-- An aggregate is no marker word. -/
theorem isMarker_of_aggregate? {s : Specifier} {a : Aggregate} (h : s.aggregate? = some a) : s.isMarker = false := by
  unfold aggregate? at h
  unfold isMarker
  split at h <;> simp_all

/-- The tokens of an aggregate are those of its specifier. -/
theorem tokens_of_aggregate? (h : first? markers typed behindExtern t ts = some s) {a : Aggregate}
    (ha : s.aggregate? = some a) : s.tokens = a.head ++ a.body := by
  cases form_of_first? h with
  | word role simple | argument role simple =>
    cases role <;> cases ha
    exact absurd rfl (simple _)
  | aggregate =>
    cases ha
    rfl

end Specifier

namespace Specifiers

/-- The specifiers are the tokens at the front. -/
theorem prefix_take (markers typed behindExtern : Bool) (ts : List Token) :
    (take markers typed behindExtern ts).tokens <+: ts := by
  fun_induction take markers typed behindExtern ts with
  | case1 => simp [tokens]
  | case2 typed behindExtern t ts s hs ih =>
    obtain ⟨hfront, hfirst⟩ := Specifier.prefix_of_first? hs
    obtain ⟨rest, hrest⟩ := List.head?_eq_some_iff.1 hfirst
    have hdrop : ts.drop (s.tokens.length - 1) = (t :: ts).drop s.tokens.length := by
      rw [hrest]
      rfl
    rw [hdrop] at ih ⊢
    exact append_prefix_of_drop hfront ih
  | case3 => simp [tokens]

theorem prefix_ofTokens (markers : Bool) (ts : List Token) : (ofTokens markers ts).tokens <+: ts :=
  prefix_take ..

/-- Specifiers and what is behind them are all tokens. -/
theorem tokens_append_behind (markers : Bool) (ts : List Token) :
    (ofTokens markers ts).tokens ++ Shape.behindSpecifiers (ofTokens markers ts) ts = ts :=
  List.prefix_iff_eq_append.1 (prefix_ofTokens markers ts)

/-- What is kept of the specifiers is some of their tokens. -/
theorem sublist_kept (specs : Specifiers) : specs.kept.Sublist specs.tokens := by
  induction specs with
  | nil => exact .slnil
  | cons s specs ih =>
    refine List.Sublist.append ?_ ih
    show s.kept.Sublist s.tokens
    rw [Specifier.kept]
    split_ifs
    · exact List.nil_sublist _
    · exact List.Sublist.refl _

/-- Each specifier is the first of some tokens. -/
theorem first?_of_mem_take {markers typed behindExtern : Bool} {ts : List Token} {s : Specifier}
    (h : s ∈ take markers typed behindExtern ts) :
    ∃ typed' behindExtern' t rest, Specifier.first? markers typed' behindExtern' t rest = some s := by
  fun_induction take markers typed behindExtern ts with
  | case1 => cases h
  | case2 typed behindExtern t ts s' hs ih =>
    rcases List.mem_cons.1 h with rfl | h
    · exact ⟨_, _, _, _, hs⟩
    · exact ih h
  | case3 => cases h

theorem exists_last_aggregate {specs : Specifiers} {a : Aggregate} (h : specs.aggregate? = some a) :
    ∃ before s behind, specs = before ++ s :: behind ∧ s.aggregate? = some a ∧
      specs.keptWithoutBody = kept before ++ (a.head ++ kept behind) := by
  induction specs with
  | nil => cases h
  | cons s specs ih =>
    rw [keptWithoutBody]
    cases hlater : aggregate? specs with
    | none =>
      have hnone : specs.filterMap (·.aggregate?) = [] := List.getLast?_eq_none_iff.1 hlater
      have hany : specs.any (·.aggregate?.isSome) = false := by
        simpa [List.filterMap_eq_nil_iff] using hnone
      have hs : s.aggregate? = some a := by
        rw [aggregate?, List.filterMap_cons, hnone] at h
        split at h
        · cases h
        · rename_i b hb
          exact hb.trans h
      refine ⟨[], s, specs, rfl, hs, ?_⟩
      simp [hs, hany, kept]
    | some b =>
      have hne : specs.filterMap (·.aggregate?) ≠ [] := List.ne_nil_of_mem (List.mem_of_getLast? hlater)
      have ha : aggregate? specs = some a := by
        rw [← h, aggregate?, aggregate?, List.filterMap_cons]
        split
        · rfl
        · rw [List.getLast?_cons_of_ne_nil hne]
      have hany : specs.any (·.aggregate?.isSome) = true := by
        obtain ⟨s', hs', ha'⟩ := List.mem_filterMap.1 (List.mem_of_getLast? ha)
        exact List.any_eq_true.2 ⟨s', hs', by rw [ha']; rfl⟩
      obtain ⟨before, s', behind, rfl, hs', hkept⟩ := ih ha
      refine ⟨s :: before, s', behind, rfl, hs', ?_⟩
      have hcons : kept (s :: before) = s.kept ++ kept before := List.flatMap_cons
      rw [hkept, hcons, hany, List.append_assoc]
      split <;> rfl

/-- The specifiers before the last aggregate and those behind it are spelled as they are kept, and of the aggregate the
body is left out. -/
theorem exists_keptWithoutBody {markers : Bool} {ts : List Token} {a : Aggregate} (h : (ofTokens markers ts).aggregate? = some a) :
    ∃ before s behind, ofTokens markers ts = before ++ s :: behind ∧ s.aggregate? = some a ∧
      (ofTokens markers ts).tokens = tokens before ++ (a.head ++ a.body ++ tokens behind) ∧
      (ofTokens markers ts).kept = kept before ++ (a.head ++ a.body ++ kept behind) ∧
      (ofTokens markers ts).keptWithoutBody = kept before ++ (a.head ++ kept behind) := by
  obtain ⟨before, s, behind, hsplit, hs, hkept⟩ := exists_last_aggregate h
  obtain ⟨_, _, _, _, hfirst⟩ := first?_of_mem_take (show s ∈ ofTokens markers ts by simp [hsplit])
  have htokens : s.tokens = a.head ++ a.body := Specifier.tokens_of_aggregate? hfirst hs
  have hwhole : s.kept = a.head ++ a.body := by
    rw [Specifier.kept, Specifier.isMarker_of_aggregate? hs, if_neg Bool.false_ne_true, htokens]
  refine ⟨before, s, behind, hsplit, hs, ?_, ?_, hkept⟩
  · rw [hsplit, tokens, List.flatMap_append, List.flatMap_cons, htokens]
    rfl
  · rw [hsplit, kept, List.flatMap_append, List.flatMap_cons, hwhole]
    rfl

end Specifiers

/-! ### Declarators -/

namespace Nesting

theorem sublist_of_mem_splitCommas {stop : Token} {depth : Nat} {ts : List Token} {piece : Piece}
    (h : piece ∈ splitCommas stop depth ts) : piece.tokens.Sublist ts := by
  fun_induction splitCommas stop depth ts generalizing piece with
  | case1 =>
    cases List.mem_singleton.1 h
    exact List.nil_sublist _
  | case2 depth u us _ ih =>
    rcases List.mem_cons.1 h with rfl | h
    · exact List.nil_sublist _
    · exact (ih h).cons u
  | case3 depth u us _ first rest hsplit ih =>
    rw [hsplit] at ih
    rcases List.mem_cons.1 h with rfl | h
    · exact (ih List.mem_cons_self).cons_cons u
    · exact (ih (List.mem_cons_of_mem _ h)).cons u
  | case4 => cases h

end Nesting

namespace Construct

theorem sublist_of_mem_pieces {c : Construct} {specs : Specifiers} {piece : Nesting.Piece}
    (h : piece ∈ c.pieces specs) : piece.tokens.Sublist (Shape.behindSpecifiers specs c.head) := by
  simp only [pieces, declarators] at h
  split_ifs at h
  · cases h
  · exact Nesting.sublist_of_mem_splitCommas h

/-- The aggregate of a definition is the last of the specifiers, and has a body. -/
theorem aggregate?_of_tagged? {specs : Specifiers} {a : Aggregate} {tag : Token} (h : tagged? specs = some (a, tag)) :
    specs.aggregate? = some a ∧ a.body ≠ [] := by
  unfold tagged? at h
  obtain ⟨a', ha, h⟩ := Option.bind_eq_some_iff.1 h
  obtain ⟨tag', htag, h⟩ := Option.bind_eq_some_iff.1 h
  split_ifs at h with hbody
  cases h
  exact ⟨ha, by simpa using hbody⟩

/-- The tokens of the aggregate that is declared apart are kept. -/
theorem subset_kept_of_tagged? {markers : Bool} {ts : List Token} {a : Aggregate} {tag : Token}
    (h : tagged? (.ofTokens markers ts) = some (a, tag)) : a.head ++ a.body ⊆ (Specifiers.ofTokens markers ts).kept := by
  obtain ⟨s, hs, ha⟩ := List.mem_filterMap.1 (List.mem_of_getLast? (aggregate?_of_tagged? h).1)
  obtain ⟨_, _, _, _, hfirst⟩ := Specifiers.first?_of_mem_take hs
  intro t ht
  refine List.mem_flatMap.2 ⟨s, hs, ?_⟩
  rwa [Specifier.kept, Specifier.isMarker_of_aggregate? ha, if_neg Bool.false_ne_true, Specifier.tokens_of_aggregate? hfirst ha]

theorem subset_of_tagged? {markers : Bool} {ts : List Token} {a : Aggregate} {tag : Token}
    (h : tagged? (.ofTokens markers ts) = some (a, tag)) : a.head ++ a.body ⊆ ts := fun _ ht =>
  (Specifiers.prefix_ofTokens markers ts).subset ((Specifiers.sublist_kept _).subset (subset_kept_of_tagged? h ht))

end Construct

/-! ### Constructs -/

namespace Outline

/-- What is collected of a construct is met, in order, and belongs to the declarations. -/
structure Collected.Within (c : Collected) : Prop where
  tokens : c.tokens.Sublist c.met
  significant : ∀ t ∈ c.tokens, t.isSignificant = true
  head : ∀ head ∈ c.head, head <+: c.tokens.reverse

theorem isSignificant_of_canStartDeclaration {t : Token} (h : t.kind.canStartDeclaration = true) :
    t.isSignificant = true := by
  unfold TokenKind.canStartDeclaration at h
  unfold Token.isSignificant
  split at h <;> simp_all

theorem Collected.within_start {first : Token} (h : first.kind.canStartDeclaration = true) :
    (Collected.start first).Within :=
  ⟨List.Sublist.refl _, by simpa [start] using isSignificant_of_canStartDeclaration h, by simp [start]⟩

theorem Collected.Grows.within {markers : Bool} {c c' : Collected} {t : Token} (h : Grows markers c t c')
    (hwithin : c.Within) : c'.Within := by
  refine ⟨?_, ?_, ?_⟩
  · rw [h.tokens, h.met]
    split_ifs
    · exact hwithin.tokens.cons_cons t
    · exact hwithin.tokens.cons t
  · rw [h.tokens]
    split_ifs with hsignificant
    · exact List.forall_mem_cons.2 ⟨hsignificant, hwithin.significant⟩
    · exact hwithin.significant
  · have hold : ∀ head ∈ c.head, head <+: c'.tokens.reverse := by
      intro head hhead
      have hfront := hwithin.head head hhead
      rw [h.tokens]
      split_ifs
      · rw [List.reverse_cons]
        exact hfront.trans (List.prefix_append _ _)
      · exact hfront
    cases h with
    | divided _ _ _ parameters =>
      rintro head ⟨⟩
      simp only [add, List.reverse_cons]
      exact (List.take_prefix _ _).trans (List.prefix_append _ _)
    | _ => exact hold

theorem Collected.Within.finish {c : Collected} (h : c.Within) (ending : Ending) :
    (c.finish ending).head.Sublist c.met.reverse ∧ ∀ t ∈ (c.finish ending).head, t.isSignificant = true := by
  have hfront : (c.finish ending).head <+: c.tokens.reverse := by
    cases hhead : c.head with
    | none => simp [Collected.finish, hhead]
    | some head => simpa [Collected.finish, hhead] using h.head head hhead
  refine ⟨hfront.sublist.trans h.tokens.reverse, fun t ht => ?_⟩
  exact h.significant t (List.mem_reverse.1 (hfront.subset ht))

/-- The head and the parameter declarations are all that is collected. -/
theorem Collected.Within.head_append_parameters {c : Collected} (h : c.Within) (ending : Ending) :
    (c.finish ending).head ++ (c.finish ending).parameters = c.tokens.reverse := by
  have hfront : (c.finish ending).head <+: c.tokens.reverse := by
    cases hhead : c.head with
    | none => simp [Collected.finish, hhead]
    | some head => simpa [Collected.finish, hhead] using h.head head hhead
  exact List.prefix_iff_eq_append.1 hfront

/-- The ways in which a construct ends behind what is collected, each with the tokens of its end. -/
inductive Collected.Ends (markers : Bool) (c : Collected) : Ending → List Token → Prop
  | semicolon {t : Token} (verdict : c.verdict markers t = .ends) : Ends markers c (.semicolon t) [t]
  | body {brace : Token} (inside : List Token) (close : Token) (verdict : c.verdict markers brace = .body) :
      Ends markers c (.body brace close) (brace :: (inside ++ [close]))

theorem Collected.Ends.last {markers : Bool} {c : Collected} {ending : Ending} {behind : List Token}
    (h : c.Ends markers ending behind) : behind.getLast? = some (c.finish ending).last := by
  cases h with
  | semicolon => rfl
  | body inside close =>
    rw [← List.cons_append, List.getLast?_concat]
    rfl

/-- A construct is what is collected where it ends, and what growing keeps holds of that. -/
theorem exists_finish_of_collect {P : Collected → Prop} {markers : Bool}
    (hgrows : ∀ {c c' : Collected} {t : Token}, Collected.Grows markers c t c' → P c → P c') {first : Token} {c : Collected}
    (hc : P c) {ts tokens rest : List Token} {construct : Construct}
    (h : collect markers first c ts = (.construct tokens construct, rest)) :
    ∃ c' ending behind, P c' ∧ construct = c'.finish ending ∧ tokens = c'.met.reverse ++ behind ∧
      c'.Ends markers ending behind := by
  induction ts generalizing c with
  | nil => cases h
  | cons t ts ih =>
    rw [collect_cons] at h
    cases hverdict : c.verdict markers t with
    | goOn c' =>
      simp only [hverdict] at h
      exact ih (hgrows (Collected.grows_of_verdict hverdict) hc) h
    | ends =>
      simp only [hverdict, Collected.stop] at h
      cases h
      exact ⟨c, .semicolon t, [t], hc, rfl, List.reverse_cons, .semicolon hverdict⟩
    | body =>
      simp only [hverdict, Collected.stop, function] at h
      split at h <;> cases h
      exact ⟨c, .body t _, _, hc, rfl, rfl, .body _ _ hverdict⟩
    | unexpected | unbalanced | endOfText =>
      simp only [hverdict, Collected.stop] at h
      cases h

/-- A construct is collected up to the tokens of its end, whatever follows. -/
theorem exists_ends_of_collect {markers : Bool} {first : Token} {c : Collected} {ts run rest : List Token} {k : Construct}
    (h : collect markers first c ts = (.construct run k, rest)) :
    ∃ taken c' ending behind, ts = taken ++ (behind ++ rest) ∧ c'.met.reverse = c.met.reverse ++ taken ∧
      (c.Within → c'.Within) ∧ k = c'.finish ending ∧ run = c'.met.reverse ++ behind ∧ c'.Ends markers ending behind ∧
      (∀ brace close, ending = .body brace close → close.kind = .closing .brace) ∧
      ∀ more, collect markers first c (taken ++ more) = collect markers first c' more := by
  induction ts generalizing c with
  | nil => cases h
  | cons t ts ih =>
    rw [collect_cons] at h
    cases hverdict : c.verdict markers t with
    | goOn c' =>
      rw [hverdict] at h
      obtain ⟨taken, c'', ending, behind, rfl, hmet, hwithin, hk, hrun, hends, hclose, hcollect⟩ := ih h
      have hgrows := Collected.grows_of_verdict hverdict
      refine ⟨t :: taken, c'', ending, behind, rfl, ?_, fun hc => hwithin (hgrows.within hc), hk, hrun, hends, hclose,
        fun more => ?_⟩
      · rw [hmet, hgrows.met, List.reverse_cons, List.append_assoc]
        rfl
      · rw [List.cons_append, collect_cons, hverdict]
        exact hcollect more
    | ends =>
      rw [hverdict] at h
      cases h
      exact ⟨[], c, _, [t], rfl, by simp, id, rfl, by simp, .semicolon hverdict, by simp, fun _ => rfl⟩
    | body =>
      rw [hverdict] at h
      simp only [Collected.stop, function] at h
      cases hbody : body? 0 ts with
      | none => simp [hbody] at h
      | some found =>
        obtain ⟨inside, close⟩ := found
        obtain ⟨⟨behind, rfl⟩, -⟩ := eq_append_of_body? hbody
        simp only [hbody] at h
        cases h
        refine ⟨[], c, _, _, by simp, by simp, id, rfl, rfl, .body inside close hverdict, ?_, fun _ => rfl⟩
        rintro brace close' heq
        obtain ⟨rfl, rfl⟩ := Ending.body.inj heq
        exact kind_of_body? hbody
    | unexpected | unbalanced | endOfText =>
      rw [hverdict] at h
      cases h

section Ends

variable {markers : Bool} {first : Token} {c : Collected} {ts tokens rest : List Token} {construct : Construct}

/-- What is collected already begins the construct. -/
theorem prefix_of_collect (hwithin : c.Within) (h : collect markers first c ts = (.construct tokens construct, rest)) :
    c.tokens.reverse <+: construct.head ++ construct.parameters := by
  let Behind (c' : Collected) : Prop := c'.Within ∧ c.tokens.reverse <+: c'.tokens.reverse
  have hgrows : ∀ {c c' : Collected} {t : Token}, Collected.Grows markers c t c' → Behind c → Behind c' := by
    rintro c c' t hgrows ⟨hwithin, hfront⟩
    refine ⟨hgrows.within hwithin, hfront.trans ?_⟩
    rw [hgrows.tokens]
    split_ifs
    · rw [List.reverse_cons]
      exact List.prefix_append _ _
    · exact List.prefix_refl _
  obtain ⟨c', ending, behind, ⟨hwithin', hfront⟩, rfl, -, -⟩ :=
    exists_finish_of_collect (P := Behind) hgrows ⟨hwithin, List.prefix_refl _⟩ h
  rwa [hwithin'.head_append_parameters]

/-- The last token of a construct ends its run. -/
theorem last_of_collect (h : collect markers first c ts = (.construct tokens construct, rest)) :
    tokens.getLast? = some construct.last := by
  obtain ⟨c', ending, behind, -, rfl, rfl, hends⟩ := exists_finish_of_collect (P := fun _ => True) (fun _ _ => trivial) trivial h
  rw [List.getLast?_append, hends.last]
  rfl

/-- The head of a construct is some of the tokens of its run. -/
theorem head_of_collect (hwithin : c.Within) (h : collect markers first c ts = (.construct tokens construct, rest)) :
    construct.head.Sublist tokens ∧ ∀ t ∈ construct.head, t.isSignificant = true := by
  obtain ⟨c', ending, behind, hwithin', rfl, rfl, -⟩ := exists_finish_of_collect Collected.Grows.within hwithin h
  obtain ⟨hhead, hsignificant⟩ := hwithin'.finish ending
  exact ⟨hhead.trans (List.sublist_append_left _ _), hsignificant⟩

end Ends

end Outline

theorem head_of_mem_outline {markers : Bool} {linkage : Nat} {ts tokens : List Token} {construct : Construct}
    (h : .construct tokens construct ∈ outline markers linkage ts) :
    construct.head.Sublist tokens ∧ ∀ t ∈ construct.head, t.isSignificant = true := by
  obtain ⟨first, behind, rest, hstart, hcollect⟩ := collect_of_mem_outline h
  exact Outline.head_of_collect (Outline.Collected.within_start hstart) hcollect

end CHeader
