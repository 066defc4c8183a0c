import CHeader.Proofs.Braces

/-!
# Where reading starts again

A run is settled by its own tokens if any token follows it, also where they make no construct: what is passed over behind a
fault ends with a semicolon or a brace, and a token that follows shows that it has ended. So the runs of a text can be cut
off before any of them and are found again where other tokens follow, and inside blocks as outside (`outline_cut`). Only
a closing brace that is a broken construct outside all blocks may close a block there.

So a text that is read to its end leaves the texts around it alone: its tokens make runs of their own there
(`Faultless.survey_between`), and the declarations of the texts stay (`shown_between`).
-/

namespace CHeader

open Lexed (allChars)
open Lexeme (runsOn)

/-- A semicolon or a closing brace. -/
def Token.IsEnd (t : Token) : Prop :=
  t.kind = .punct .semi ∨ t.kind = .closing .brace

instance (t : Token) : Decidable t.IsEnd :=
  inferInstanceAs (Decidable (_ ∨ _))

namespace Outline

variable {f : Token → Token}

/-! ### One run -/

/-- A construct ends with a semicolon or with the brace of its body. -/
theorem isEnd_of_collect {markers : Bool} {first : Token} {c : Collected} {ts run rest : List Token} {k : Construct}
    (h : collect markers first c ts = (.construct run k, rest)) : k.last.IsEnd := by
  obtain ⟨_, c', ending, behind, -, -, -, rfl, -, hends, hclose, -⟩ := exists_ends_of_collect h
  cases hends with
  | semicolon verdict => exact .inl (Collected.of_verdict_eq_ends verdict).1
  | body inside close => exact .inr (hclose _ close rfl)

theorem recovery_settled (hf : KeepsKinds f) {depth : Nat} {behind after : List Token} {next : Token}
    (hnext : next.kind ≠ .eof) (h : recovery depth (behind ++ next :: after) = behind) (more : List Token) :
    recovery depth (behind.map f ++ more) = behind.map f := by
  induction behind generalizing depth with
  | nil =>
    obtain ⟨behind, hbehind⟩ := recovery_cons depth hnext after
    rw [List.nil_append, hbehind] at h
    cases h
  | cons t behind ih =>
    rw [List.cons_append, recovery] at h
    rw [List.map_cons, List.cons_append, recovery, hf t]
    split at h
    case h_1 => cases h
    case h_2 | h_4 =>
      split_ifs at h ⊢
      · obtain rfl : behind = [] := (List.cons.inj h).2.symm
        rfl
      · rw [ih (List.cons.inj h).2]
    case h_3 | h_5 => rw [ih (List.cons.inj h).2]

/-- What is passed over is settled by its tokens if another token follows. -/
theorem recovery_cut (hf : KeepsKinds f) {depth : Nat} {ts after : List Token} {next : Token} (hnext : next.kind ≠ .eof)
    (h : ts.drop (recovery depth ts).length = next :: after) :
    ts = recovery depth ts ++ next :: after ∧
      ∀ more, recovery depth ((recovery depth ts).map f ++ more) = (recovery depth ts).map f := by
  have hsplit := List.prefix_append_drop (prefix_recovery depth ts)
  rw [h] at hsplit
  constructor
  · exact hsplit
  · intro more
    apply recovery_settled hf hnext
    rw [← hsplit]

theorem openBraces_map (hf : KeepsKinds f) (opened : List Token) : openBraces (opened.map f) = openBraces opened := by
  simp only [openBraces, List.countP_map, Function.comp_def, hf _]

/-- A brace is unexpected only outside all brackets. -/
theorem of_verdict_eq_unexpected {markers : Bool} {c : Collected} {t : Token} (h : c.verdict markers t = .unexpected) :
    t.kind = .opening .brace ∧ c.opened = [] := by
  unfold Collected.verdict at h
  grind [List.isEmpty_iff]

/-- A bracket is unbalanced if it does not close the innermost one that is open. -/
theorem of_verdict_eq_unbalanced {markers : Bool} {c : Collected} {t : Token} (h : c.verdict markers t = .unbalanced) :
    ∃ bracket, t.kind = .closing bracket ∧ ∀ opening ∈ c.opened.head?, opening.kind ≠ .opening bracket := by
  unfold Collected.verdict at h
  split at h <;> try grind
  case h_6 bracket hkind =>
    split_ifs at h with hcloses
    refine ⟨bracket, hkind, fun opening hopening hpartner => hcloses ?_⟩
    rw [Option.mem_def.1 hopening, hkind]
    exact TokenKind.closes_closing_iff.2 hpartner

/-- What a broken construct is made of is settled if another token follows. -/
theorem collect_settled_of_not_sound (hf : KeepsKinds f) {markers : Bool} {first next : Token} {c : Collected}
    {ts after : List Token} {item : Item} (hnext : next.kind ≠ .eof)
    (h : collect markers first c ts = (item, next :: after)) (hbroken : ¬ item.Sound) :
    ∃ taken, ts = taken ++ next :: after ∧ item.tokens = c.met.reverse ++ taken ∧
      (∃ t ∈ taken, t.kind.isPunctuation = true) ∧
      ∃ item', ¬ item'.Sound ∧ ∀ more, collect markers (f first) (c.map f) (taken.map f ++ more) = (item', more) := by
  induction ts generalizing c with
  | nil => cases h
  | cons t ts ih =>
    rw [collect_cons] at h
    have hmapped := Collected.verdict_map hf markers c t
    cases hverdict : c.verdict markers t with
    | goOn c' =>
      simp only [hverdict] at h
      obtain ⟨taken, rfl, htokens, ⟨u, hu, hend⟩, item', hbroken', hmore⟩ := ih h
      have hmet := (Collected.grows_of_verdict hverdict).met
      refine ⟨t :: taken, rfl, by rw [htokens, hmet]; simp, ⟨u, List.mem_cons_of_mem t hu, hend⟩, item', hbroken', ?_⟩
      intro more
      rw [List.map_cons, List.cons_append, collect_cons, hmapped, hverdict]
      exact hmore more
    | ends =>
      simp only [hverdict, Collected.stop] at h
      cases h
      exact absurd trivial hbroken
    | body =>
      simp only [hverdict, Collected.stop, function] at h
      split at h
      case h_1 =>
        obtain ⟨rfl, -⟩ := Prod.mk.inj h
        exact absurd trivial hbroken
      case h_2 =>
        -- a body that is never closed reaches to the end of the text
        obtain ⟨-, hrest⟩ := Prod.mk.inj h
        have hend := untilEnd_drop ts
        rw [hrest, untilEnd_cons hnext] at hend
        cases hend
    | unexpected =>
      simp only [hverdict, Collected.stop] at h
      obtain ⟨rfl, hrest⟩ := Prod.mk.inj h
      have hkind := (of_verdict_eq_unexpected hverdict).1
      obtain ⟨hsplit, hsettled⟩ := recovery_cut hf hnext hrest
      obtain ⟨behind, hbehind⟩ := recovery_cons 0 (by simp [hkind] : t.kind ≠ .eof) ts
      refine ⟨recovery 0 (t :: ts), hsplit, rfl, ⟨t, by simp [hbehind], by simp [hkind, TokenKind.isPunctuation]⟩,
        (c.map f).malformed (.ofIssue .unexpectedBrace (f t)) ((recovery 0 (t :: ts)).map f), id, ?_⟩
      intro more
      have hmore := hsettled more
      rw [hbehind, List.map_cons, List.cons_append] at hmore ⊢
      rw [collect_cons, hmapped, hverdict]
      simp only [Verdict.map, Collected.stop, hmore]
      simp
    | unbalanced =>
      simp only [hverdict, Collected.stop] at h
      obtain ⟨rfl, hrest⟩ := Prod.mk.inj h
      obtain ⟨bracket, hkind, -⟩ := of_verdict_eq_unbalanced hverdict
      obtain ⟨hsplit, hsettled⟩ := recovery_cut hf hnext hrest
      refine ⟨t :: recovery (openBraces c.opened.tail) ts, by rw [List.cons_append, ← hsplit], rfl,
        ⟨t, List.mem_cons_self, by simp [hkind, TokenKind.isPunctuation]⟩,
        (c.map f).malformed (.ofIssue (.unbalanced (f t).kind) (f t)) (f t :: (recovery (openBraces c.opened.tail) ts).map f),
        id, ?_⟩
      intro more
      have hopened : openBraces (c.map f).opened.tail = openBraces c.opened.tail := by
        rw [Collected.map, ← List.map_tail, openBraces_map hf]
      rw [List.map_cons, List.cons_append, collect_cons, hmapped, hverdict]
      simp only [Verdict.map, Collected.stop, hopened, hsettled more]
      simp
    | endOfText =>
      simp only [hverdict, Collected.stop] at h
      obtain ⟨-, hrest⟩ := Prod.mk.inj h
      obtain ⟨rfl, rfl⟩ := List.cons.inj hrest
      exact absurd (Collected.verdict_eq_endOfText_iff.1 hverdict) hnext

/-- What is collected is settled if another token follows. -/
theorem collect_settled (hf : KeepsKinds f) {markers : Bool} {first next : Token} {c : Collected} {ts after : List Token}
    {item : Item} (hnext : next.kind ≠ .eof) (h : collect markers first c ts = (item, next :: after)) :
    ∃ taken, ts = taken ++ next :: after ∧ item.tokens = c.met.reverse ++ taken ∧
      (∃ t ∈ taken, t.kind.isPunctuation = true) ∧
      ∃ item', (item'.Sound → item.Sound) ∧
        ∀ more, collect markers (f first) (c.map f) (taken.map f ++ more) = (item', more) := by
  by_cases hsound : item.Sound
  · have hsound' : (collect markers first c ts).1.Sound := by rwa [h]
    obtain ⟨tokens, construct, rest, hconstruct⟩ := exists_construct_of_sound hsound'
    obtain ⟨rfl, rfl⟩ := Prod.mk.inj (h.symm.trans hconstruct)
    obtain ⟨taken, rfl, htokens, -, hmore⟩ := collect_taken hconstruct
    have hmapped := collect_map hf (hmore [])
    rw [List.append_nil] at hmapped
    obtain ⟨taken', hsplit, -, -, hmore'⟩ := collect_taken hmapped
    rw [List.map_nil, List.append_nil] at hsplit
    obtain ⟨t, ht, hend⟩ := exists_end_of_collect (hmore [])
    rw [List.append_nil] at ht
    subst hsplit
    exact ⟨taken, rfl, htokens, ⟨t, ht, hend⟩, .construct (tokens.map f) (construct.map f), fun _ => hsound, hmore'⟩
  · obtain ⟨taken, hsplit, htokens, hend, item', hbroken, hmore⟩ := collect_settled_of_not_sound hf hnext h hsound
    exact ⟨taken, hsplit, htokens, hend, item', fun h => absurd h hbroken, hmore⟩

/-- A run that should be a construct is settled if another token follows. -/
theorem external_settled (hf : KeepsKinds f) {markers : Bool} {t next : Token} {ts after : List Token} {item : Item}
    (ht : t.kind ≠ .eof) (hnext : next.kind ≠ .eof) (h : external markers t ts = (item, next :: after)) :
    ∃ taken, ts = taken ++ next :: after ∧ item.tokens = t :: taken ∧
      (t.kind.canStartDeclaration = true → ∃ u ∈ taken, u.kind.isPunctuation = true) ∧
      ∃ item', (item'.Sound → item.Sound) ∧ ∀ more, external markers (f t) (taken.map f ++ more) = (item', more) := by
  by_cases hstart : t.kind.canStartDeclaration
  · rw [external, if_pos hstart] at h
    obtain ⟨taken, hsplit, htokens, hend, item', hitem, hmore⟩ := collect_settled hf hnext h
    refine ⟨taken, hsplit, htokens, fun _ => hend, item', hitem, ?_⟩
    intro more
    rw [external, hf t, if_pos hstart]
    exact hmore more
  · rw [external, if_neg hstart] at h
    obtain ⟨rfl, hrest⟩ := Prod.mk.inj h
    obtain ⟨taken, htaken⟩ := recovery_cons 0 ht ts
    have hrest' : (t :: ts).drop (recovery 0 (t :: ts)).length = next :: after := by
      rw [htaken] at hrest ⊢
      exact hrest
    obtain ⟨hsplit, hsettled⟩ := recovery_cut hf hnext hrest'
    rw [htaken] at hsplit hsettled ⊢
    refine ⟨taken, (List.cons.inj hsplit).2, rfl, fun h => absurd h hstart,
      .malformed [] (.ofIssue (.expectedDeclaration t.kind) (f t)) (f t :: taken.map f), id, ?_⟩
    intro more
    have hmore := hsettled more
    rw [List.map_cons, List.cons_append] at hmore
    rw [external, hf t, if_neg hstart]
    simp [hmore]

/-- A closing brace makes no construct, and reading starts again behind it. -/
theorem external_of_closing {markers : Bool} {t : Token} (h : t.kind = .closing .brace) (ts : List Token) :
    external markers t ts = (.malformed [] (.ofIssue (.expectedDeclaration t.kind) t) [t], ts) := by
  simp [external, recovery, h, TokenKind.canStartDeclaration]

/-! ### Tokens that declare nothing -/

theorem linkageLength?_take {ts : List Token} {n : Nat} (h : linkageLength? ts = some n) :
    n ≤ ts.length ∧ ∀ more, linkageLength? (ts.take n ++ more) = some n := by
  obtain ⟨opening, hfront, hblock, rfl⟩ := linkageLength?_iff_blockOpening.1 h
  constructor
  · exact hfront.length_le
  · intro more
    rw [← List.prefix_iff_eq_take.1 hfront]
    exact linkageLength?_iff_blockOpening.2 ⟨opening, List.prefix_append opening more, hblock, rfl⟩

theorem skipped?_take {linkage linkage' n : Nat} {t : Token} {ts : List Token}
    (h : skipped? linkage t ts = some (n, linkage')) :
    n ≤ ts.length ∧ ∀ more, skipped? linkage t (ts.take n ++ more) = some (n, linkage') := by
  unfold skipped? at h ⊢
  split at h
  case h_1 | h_2 | h_3 =>
    cases h
    exact ⟨Nat.zero_le _, fun more => rfl⟩
  case h_4 =>
    split_ifs at h with hlinkage
    cases h
    exact ⟨Nat.zero_le _, fun more => if_pos hlinkage⟩
  case h_5 =>
    obtain ⟨m, hm, heq⟩ := Option.map_eq_some_iff.1 h
    cases heq
    obtain ⟨hle, hmore⟩ := linkageLength?_take hm
    constructor
    · exact hle
    · intro more
      rw [hmore more, Option.map_some]
  case h_6 => cases h

/-- What declares nothing is settled by its tokens, inside blocks as outside. -/
theorem skipped?_settled (hf : KeepsKinds f) {linkage linkage' n : Nat} {t : Token} {ts : List Token}
    (h : skipped? linkage t ts = some (n, linkage')) (outer : Nat) (more : List Token) :
    skipped? (linkage + outer) (f t) ((ts.take n).map f ++ more) = some (n, linkage' + outer) := by
  rw [← skipped?_map hf] at h
  have hmore := (skipped?_take h).2 more
  rw [← List.map_take] at hmore
  exact skipped?_add hmore outer

/-- Where a construct should begin, one should begin whatever follows its tokens, unless a brace closes a block there. -/
theorem skipped?_settled_eq_none (hf : KeepsKinds f) {linkage outer : Nat} {t : Token} {taken rest : List Token}
    (h : skipped? linkage t (taken ++ rest) = none) (hbrace : t.kind = .closing .brace → linkage + outer = 0)
    (hend : t.kind.canStartDeclaration = true → ∃ u ∈ taken, u.kind.isPunctuation = true) (more : List Token) :
    skipped? (linkage + outer) (f t) (taken.map f ++ more) = none := by
  unfold skipped? at h ⊢
  rw [hf t]
  split at h
  case h_1 | h_2 | h_3 => cases h
  case h_4 hkind =>
    have houtside := hbrace hkind
    apply if_neg
    omega
  case h_5 hkind =>
    obtain ⟨u, hu, hpunctuation⟩ := hend (by rw [hkind]; rfl)
    have hnone := Option.map_eq_none_iff.1 h
    rw [← linkageLength?_map hf, List.map_append] at hnone
    have hend' : ∃ u ∈ taken.map f, u.kind.isPunctuation = true := ⟨f u, List.mem_map_of_mem hu, by rw [hf u, hpunctuation]⟩
    rw [linkageLength?_append_eq_none hend' hnone more, Option.map_none]
  case h_6 => rfl

end Outline

/-! ### All runs before a place -/

theorem exists_next_of_outline {markers : Bool} {linkage : Nat} {ts : List Token} (h : outline markers linkage ts ≠ []) :
    ∃ next after, ts = next :: after ∧ next.kind ≠ .eof := by
  cases ts with
  | nil => simp [outline] at h
  | cons next after =>
    refine ⟨next, after, rfl, ?_⟩
    intro heof
    simp [outline, heof] at h

/-- A closing brace where no block is open. -/
def Item.IsStray : Item → Prop
  | malformed before _ behind => ∃ brace : Token, before = [] ∧ behind = [brace] ∧ brace.kind = .closing .brace
  | _ => False

/-- The runs before any run are found again where other tokens follow, inside blocks as outside. Those that are no broken
constructs there are none here, but for the braces that close a block there. -/
theorem outline_cut {f : Token → Token} (hf : KeepsKinds f) {markers : Bool} {linkage : Nat} {ts : List Token}
    {items later : List Item} (h : outline markers linkage ts = items ++ later) (hlater : later ≠ []) (outer : Nat) :
    ∃ items' linkage', (∀ more, outline markers (linkage + outer) ((items.flatMap Item.tokens).map f ++ more) =
        items' ++ outline markers linkage' more) ∧
      List.Forall₂ (fun item item' => item'.Sound → item.Sound ∨ item.IsStray) items items' := by
  induction items generalizing linkage ts outer with
  | nil => exact ⟨[], linkage + outer, fun more => rfl, .nil⟩
  | cons item items ih =>
    obtain ⟨t, ts, rfl, ht⟩ := exists_next_of_outline (by rw [h]; simp)
    have hmapped : (f t).kind ≠ .eof := by rwa [hf t]
    simp only [List.flatMap_cons, List.map_append]
    by_cases hdirective : t.directive?.isSome
    · rw [outline_cons_directive hdirective] at h
      obtain ⟨rfl, hrest⟩ := List.cons.inj h
      obtain ⟨items', linkage', hmore, hall⟩ := ih hrest outer
      refine ⟨.directive (f t) :: items', linkage', ?_, .cons (fun _ => .inl trivial) hall⟩
      intro more
      rw [Item.tokens, List.map_singleton, List.append_assoc, List.singleton_append,
        outline_cons_directive (by rwa [hf.directive?]), hmore more, List.cons_append]
    have hdirective : t.directive? = none := by simpa using hdirective
    have hdirective' : (f t).directive? = none := by rwa [hf.directive?]
    cases hskipped : Outline.skipped? linkage t ts with
    | some found =>
      obtain ⟨n, linkage₁⟩ := found
      rw [outline_cons_skipped ht hdirective hskipped] at h
      obtain ⟨rfl, hrest⟩ := List.cons.inj h
      obtain ⟨items', linkage', hmore, hall⟩ := ih hrest outer
      refine ⟨.skipped (f t :: (ts.take n).map f) :: items', linkage', ?_, .cons (fun _ => .inl trivial) hall⟩
      intro more
      have hlength : ((ts.take n).map f).length = n := by simp [(Outline.skipped?_take hskipped).1]
      rw [Item.tokens, List.map_cons, List.cons_append, List.cons_append, List.append_assoc,
        outline_cons_skipped hmapped hdirective' (Outline.skipped?_settled hf hskipped outer _), List.take_left' hlength,
        List.drop_left' hlength, hmore more, List.cons_append]
    | none =>
      rw [outline_cons_external ht hdirective hskipped] at h
      obtain ⟨rfl, hrest⟩ := List.cons.inj h
      by_cases hstray : t.kind = .closing .brace ∧ 0 < linkage + outer
      · -- the brace closes a block there
        obtain ⟨hkind, hinside⟩ := hstray
        rw [Outline.external_of_closing hkind] at hrest ⊢
        have hnone : linkage = 0 := by
          simp only [Outline.skipped?, hkind] at hskipped
          split_ifs at hskipped
          omega
        subst hnone
        obtain ⟨items', linkage', hmore, hall⟩ := ih hrest (outer - 1)
        refine ⟨.skipped [f t] :: items', linkage', ?_, .cons (fun _ => .inr ⟨t, rfl, rfl, hkind⟩) hall⟩
        intro more
        have hclosed : ∀ us, Outline.skipped? (0 + outer) (f t) us = some (0, 0 + (outer - 1)) := by
          intro us
          simp only [Outline.skipped?, hf t, hkind, if_pos hinside]
          congr 2
          omega
        rw [Item.tokens, List.nil_append, List.map_singleton, List.append_assoc, List.singleton_append,
          outline_cons_skipped hmapped hdirective' (hclosed _), List.take_zero, List.drop_zero, hmore more,
          List.cons_append]
      · obtain ⟨next, after, hafter, hnext⟩ := exists_next_of_outline (by rw [hrest]; simp [hlater])
        obtain ⟨taken, rfl, htokens, hend, item', hitem, htaken⟩ :=
          Outline.external_settled hf ht hnext (Prod.ext rfl hafter)
        obtain ⟨items', linkage', hmore, hall⟩ := ih hrest outer
        refine ⟨item' :: items', linkage', ?_, .cons (fun h => .inl (hitem h)) hall⟩
        intro more
        have hnone := Outline.skipped?_settled_eq_none hf hskipped (fun hkind => by simpa [hkind] using hstray) hend
        rw [htokens, List.map_cons, List.cons_append, List.cons_append, List.append_assoc,
          outline_cons_external hmapped hdirective' (hnone _), htaken, hmore more, List.cons_append]

theorem sound_or_isStray_of_forall₂ {items items' : List Item}
    (h : List.Forall₂ (fun item item' => item'.Sound → item.Sound ∨ item.IsStray) items items')
    (hsound : ∀ item ∈ items', item.Sound) : ∀ item ∈ items, item.Sound ∨ item.IsStray := by
  induction h with
  | nil => simp
  | cons hitem _ ih =>
    obtain ⟨hfirst, hrest⟩ := List.forall_mem_cons.1 hsound
    exact List.forall_mem_cons.2 ⟨hitem hfirst, ih hrest⟩

/-! ### A text between two others -/

/-- The lexemes of a text, and the white space behind them. -/
structure LexedText (text : List Char) (ls : List Lexed) (rest : List Char) : Prop where
  chars : text = allChars ls ++ rest
  reads : Reads ls rest
  gap : IsGap rest

theorem LexedText.join {first second : List Char} {ls ms : List Lexed} {rest rest' : List Char}
    (h : LexedText first ls rest) (hruns : runsOn first = false) (h' : LexedText second ms rest') :
    ∃ behind, LexedText (first ++ '\n' :: second) (ls ++ Lexed.widen (rest ++ ['\n']) ms) behind := by
  obtain ⟨behind, hchars, hreads, hgap⟩ := reads_join (h.reads.append_newline (by rwa [← h.chars])) h.gap h'.reads h'.gap
  exact ⟨behind, by rw [h.chars, h'.chars, hchars], hreads, hgap⟩

/-- A text whose last token is a semicolon or a brace does not go on in the line behind it. -/
theorem LexedText.runsOn_eq_false {text : List Char} {ls : List Lexed} {rest : List Char} {body : List Token}
    (h : LexedText text ls rest) (hstands : Stands 0 ls body) (hends : ∃ t ∈ body.getLast?, t.IsEnd) :
    runsOn text = false := by
  obtain ⟨t, ht, hend⟩ := hends
  obtain ⟨front, rfl⟩ := List.getLast?_eq_some_iff.1 ht
  obtain ⟨init, behind, rfl, -, hbehind⟩ := hstands.split_tokens
  obtain _ | ⟨hkind, -, -, -, hnil⟩ := hbehind
  cases hnil
  rename_i l
  obtain ⟨-, hread, -⟩ := reads_append.1 h.reads
  obtain ⟨c, cs, htext, hlexeme⟩ := hread.lexeme
  have hmark : ∃ d, l.text = [d] ∧ d ≠ '\\' ∧ d ≠ '\r' := by
    rw [← hkind] at hlexeme
    rcases hend with hend | hend <;> rw [hend] at hlexeme <;> have htake := Lexeme.take_of_lexeme_punct hlexeme
    · exact ⟨';', by rw [htext]; simpa [Punct.spelling] using htake, by decide⟩
    · exact ⟨'\x7d', by rw [htext]; simpa [Punct.spelling] using htake, by decide⟩
  obtain ⟨d, hd, hslash, hreturn⟩ := hmark
  rw [h.chars, Lexed.allChars_append, Lexed.allChars_cons, hd, Lexed.allChars_nil, List.append_nil]
  have hchars : allChars init ++ (l.gap ++ [d]) ++ rest = (allChars init ++ l.gap) ++ d :: rest := by simp
  rw [hchars, Lexeme.runsOn_append_cons hslash hreturn]
  exact h.gap.runsOn_eq_false

theorem exists_lexedText {source : String} {body : List Token} {last : Token} (h : tokenize source = .ok (body ++ [last])) :
    ∃ ls rest, LexedText source.toList ls rest ∧ Stands 0 ls body := by
  obtain ⟨ls, rest, body', last', hchars, hreads, hgap, htokens, hstands, -⟩ := reads_of_tokenize h
  obtain ⟨rfl, -⟩ := List.append_inj' htokens rfl
  exact ⟨ls, rest, ⟨hchars, hreads, hgap⟩, hstands⟩

/-- The tokens of three texts one behind the other, of which only the last may run on. Those of each stand where its characters
do. -/
theorem tokenize_join {a g b : String} {ls gs ms : List Lexed} {restA restG restB : List Char}
    (ha : LexedText a.toList ls restA) (hrunsA : runsOn a.toList = false) (hg : LexedText g.toList gs restG)
    (hrunsG : runsOn g.toList = false) (hb : LexedText b.toList ms restB) :
    ∃ us ws vs last, tokenize (a ++ "\n" ++ g ++ "\n" ++ b) = .ok (us ++ (ws ++ vs) ++ [last]) ∧ last.kind = .eof ∧
      Stands 0 ls us ∧ Stands (byteLength (a ++ "\n").toList) gs ws ∧
      Stands (byteLength (a ++ "\n" ++ g ++ "\n").toList) ms vs := by
  obtain ⟨restGB, hgb⟩ := hg.join hrunsG hb
  obtain ⟨restAGB, hwhole⟩ := ha.join hrunsA hgb
  have hchars : (a ++ "\n" ++ g ++ "\n" ++ b).toList = a.toList ++ '\n' :: (g.toList ++ '\n' :: b.toList) := by simp
  obtain ⟨body, last, htokens, hstands, hlast⟩ := tokenize_of_reads (hchars.trans hwhole.chars) hwhole.reads hwhole.gap
  obtain ⟨us, behind, rfl, hus, hbehind⟩ := hstands.split
  rw [stands_widen] at hbehind
  obtain ⟨ws, vs, rfl, hws, hvs⟩ := hbehind.split
  rw [stands_widen] at hvs
  have hplaceA : (a ++ "\n").toList = allChars ls ++ (restA ++ ['\n']) := by simp [ha.chars]
  have hplaceG : (a ++ "\n" ++ g ++ "\n").toList = allChars ls ++ (restA ++ ['\n']) ++ (allChars gs ++ (restG ++ ['\n'])) := by
    simp [ha.chars, hg.chars]
  refine ⟨us, ws, vs, last, htokens, hlast, hus, ?_, ?_⟩
  · rw [hplaceA, byteLength_append]
    convert hws using 1
    omega
  · rw [hplaceG, byteLength_append, byteLength_append, byteLength_append (allChars gs)]
    convert hvs using 1
    omega

/-- The tokens of a text between two texts without errors may make runs of their own there that leave the conditionals as they
are. Then the runs of the three are one behind the other, and those of the other two say what they say alone. -/
theorem Faultless.survey_between {markers : Bool} {a g b : String} {bodyA bodyG bodyB : List Token} {lastA lastG lastB : Token}
    (hA : Faultless markers a bodyA lastA) (hends : ¬['\\'] <:+ a.toList ∧ ¬['\\', '\r'] <:+ a.toList)
    (hG : tokenize g = .ok (bodyG ++ [lastG])) (hendsG : ∃ t ∈ bodyG.getLast?, t.IsEnd)
    (hB : Faultless markers b bodyB lastB) {P : List Item → Prop}
    (hruns : ∀ gs rest ws, LexedText g.toList gs rest → Stands 0 gs bodyG → Stands (byteLength (a ++ "\n").toList) gs ws →
      (∀ w ∈ ws, w.line = 1 + newlinesBefore w.span.start (a ++ "\n" ++ g ++ "\n" ++ b).toList) → ∀ linkage,
      ∃ items linkage', (∀ more, outline markers linkage (ws ++ more) = items ++ outline markers linkage' more) ∧
        (∀ t : Tracker, t.passAll (items.flatMap Item.tokens) = .ok t) ∧ P items) :
    ∃ items, P items ∧ (∀ t : Tracker, t.passAll (items.flatMap Item.tokens) = .ok t) ∧
      surveySource markers (a ++ "\n" ++ g ++ "\n" ++ b) = .ok (Survey.recordAll {}
        (entriesFrom a.toList markers { recognizeBlocks := markers } (outline markers 0 (bodyA ++ [lastA])) ++
          (entriesFrom (a ++ "\n" ++ g ++ "\n" ++ b).toList markers { recognizeBlocks := markers } items ++
            (entriesFrom b.toList markers { recognizeBlocks := markers } (outline markers 0 (bodyB ++ [lastB]))).map
              (Entry.moved (byteLength (a ++ "\n" ++ g ++ "\n").toList) ((a ++ "\n" ++ g ++ "\n").toList.count '\n'))))) := by
  obtain ⟨ls, restA, hlexedA, hstandsA⟩ := exists_lexedText hA.tokens
  obtain ⟨gs, restG, hlexedG, hstandsG⟩ := exists_lexedText hG
  obtain ⟨ms, restB, hlexedB, hstandsB⟩ := exists_lexedText hB.tokens
  obtain ⟨us, ws, vs, last, htokens, hlast, hus, hws, hvs⟩ := tokenize_join hlexedA (runsOn_eq_false_iff.2 hends)
    hlexedG (hlexedG.runsOn_eq_false hstandsG hendsG) hlexedB
  have hline : ∀ t ∈ us ++ (ws ++ vs), t.line = 1 + newlinesBefore t.span.start (a ++ "\n" ++ g ++ "\n" ++ b).toList :=
    fun t ht => line_of_mem_tokenize htokens (List.mem_append_left _ ht)
  obtain ⟨itemsA, linkage, hrunsA, hpassA, hentriesA⟩ := hA.placed [] ('\n' :: (g.toList ++ '\n' :: b.toList)) (by simp)
    hlexedA.chars hlexedA.reads hstandsA hus (fun u hu => hline u (List.mem_append_left _ hu)) 0
  obtain ⟨itemsG, linkage', hrunsG, hpassG, hfound⟩ := hruns gs restG ws hlexedG hstandsG hws
    (fun w hw => hline w (by simp [hw])) linkage
  obtain ⟨itemsB, linkage'', hrunsB, hpassB, hentriesB⟩ := hB.placed (a ++ "\n" ++ g ++ "\n").toList [] (by simp)
    hlexedB.chars hlexedB.reads hstandsB hvs (fun v hv => hline v (by simp [hv])) linkage'
  have houtline : outline markers 0 (us ++ (ws ++ vs) ++ [last]) = itemsA ++ (itemsG ++ itemsB) := by
    have hend : outline markers linkage'' [last] = [] := by rw [outline, hlast]
    rw [List.append_assoc, hrunsA, List.append_assoc, hrunsG, hrunsB, hend, List.append_nil]
  have hpass : Tracker.passAll { recognizeBlocks := markers } ((itemsA ++ (itemsG ++ itemsB)).flatMap Item.tokens) =
      .ok { recognizeBlocks := markers } := by
    rw [List.flatMap_append, Tracker.passAll_append, hpassA, List.flatMap_append]
    show Tracker.passAll _ _ = _
    rw [Tracker.passAll_append, hpassG]
    exact hpassB
  have hzero : Entry.moved (byteLength []) (List.count '\n' []) = id := funext Entry.moved_zero
  rw [hzero, List.map_id] at hentriesA
  have hentries := @entriesFrom_append (a ++ "\n" ++ g ++ "\n" ++ b).toList markers _ _ _ hpassA (itemsG ++ itemsB)
  rw [entriesFrom_append (hpassG _), hentriesA, hentriesB] at hentries
  have hsurvey := surveySource_of_passAll htokens (by rw [houtline, hpass])
  rw [houtline, hentries] at hsurvey
  exact ⟨itemsG, hfound, hpassG, hsurvey⟩

/-- Declarations between others move the numbers of those behind them. -/
theorem shown_between {offset lines : Nat} (entries between behind : List Entry) :
    (Survey.recordAll {} (entries ++ (between ++ behind.map (Entry.moved offset lines)))).declarations.shown =
      (Survey.recordAll {} entries).declarations.shown ++
        (between.filterMap Entry.named?).zipIdx (Survey.recordAll {} entries).declarations.items.length ++
        (Survey.recordAll {} behind).declarations.shown.map fun entry =>
          ((entry.1.1.moved offset lines, entry.1.2),
            entry.2 + ((Survey.recordAll {} entries).declarations.items.length +
              ((between.filterMap Entry.named?).zipIdx
                (Survey.recordAll {} entries).declarations.items.length).length)) := by
  have hlength : (Survey.recordAll {} (entries ++ between)).declarations.items.length =
      (Survey.recordAll {} entries).declarations.items.length + (between.filterMap Entry.named?).length := by
    rw [length_items_recordAll, length_items_recordAll, List.filterMap_append, List.length_append]
  rw [← List.append_assoc, shown_append_moved, shown_append, hlength, List.length_zipIdx]

end CHeader
