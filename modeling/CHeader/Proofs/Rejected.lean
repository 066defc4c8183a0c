import CHeader.Proofs.Definitions
import CHeader.Proofs.Resuming
import CHeader.Proofs.Separators

/-!
# Texts that are rejected at their first token

Where a construct should begin with a token that begins none, reading starts again behind the next semicolon, or behind the
brace that closes the first one opened. Other brackets are not looked at there, and a semicolon between braces is no end
(`Outline.recovery_of_passedOver`): what is passed over behind an open brace is what a body would be
(`Outline.recovery_of_body?`). So a text that ends where reading starts again (`Rejected`) is one issue wherever it stands, and
nothing of it is left open for what follows (`survey_around_rejected`).
-/

namespace CHeader

open Nesting (openBehind? braces)

/-- Tokens that end with their only semicolon, or with the brace that closes the first of their braces, before which no
semicolon stands. Parentheses and square brackets need not fit. -/
inductive PassedOver : List Token → Prop
  | semicolon {front : List Token} {semi : Token} (hfront : ∀ t ∈ front, t.kind ≠ .punct .semi ∧ ¬ t.IsBrace)
    (hsemi : semi.kind = .punct .semi) : PassedOver (front ++ [semi])
  | braces {front inside : List Token} {opening closing : Token} (hfront : ∀ t ∈ front, t.kind ≠ .punct .semi ∧ ¬ t.IsBrace)
    (hopening : opening.kind = .opening .brace) (hclosing : closing.kind = .closing .brace)
    (hbalanced : openBehind? [] (braces inside) = some []) : PassedOver (front ++ opening :: (inside ++ [closing]))

theorem PassedOver.ends {ts : List Token} (h : PassedOver ts) : ∃ t ∈ ts.getLast?, t.IsEnd := by
  cases h with
  | @semicolon front semi _ hsemi => exact ⟨semi, by simp, .inl hsemi⟩
  | @braces front inside opening closing _ _ hclosing _ => exact ⟨closing, by simp [List.getLast?_cons], .inr hclosing⟩

namespace Outline

variable {close : Token} {ts inside front : List Token} {depth : Nat}

/-- What is passed over behind an open brace ends with the brace that closes it, as a body does. -/
theorem recovery_of_body? (h : body? depth ts = some (inside, close)) : recovery (depth + 1) ts = inside ++ [close] := by
  induction ts generalizing depth inside with
  | nil => cases h
  | cons t ts ih =>
    have hinside : ∀ depth', (body? depth' ts).map (fun found => (t :: found.1, found.2)) = some (inside, close) →
        t :: recovery (depth' + 1) ts = inside ++ [close] := by
      intro depth' h
      obtain ⟨⟨inside', close'⟩, hbody, heq⟩ := Option.map_eq_some_iff.1 h
      obtain ⟨rfl, rfl⟩ := Prod.mk.inj heq
      rw [ih hbody, List.cons_append]
    rw [body?] at h
    rw [recovery]
    split at h
    case h_1 => cases h
    case h_2 hkind =>
      simp only [hkind]
      exact hinside (depth + 1) h
    case h_3 hkind =>
      simp only [hkind]
      split_ifs at h with hdepth
      · cases h
        rw [if_pos (by omega)]
        rfl
      · rw [if_neg (by omega), ← hinside (depth - 1) h]
        congr 2
        omega
    case h_4 heof hopening hclosing =>
      split
      case h_1 hkind => exact absurd hkind heof
      case h_2 =>
        rw [if_neg (Nat.succ_ne_zero depth)]
        exact hinside depth h
      case h_3 hkind => exact absurd hkind hopening
      case h_4 hkind => exact absurd hkind hclosing
      case h_5 => exact hinside depth h

/-- Tokens other than semicolons and braces are passed over, whatever brackets they are. -/
theorem recovery_append (hfront : ∀ t ∈ front, t.kind ≠ .punct .semi ∧ ¬ t.IsBrace) (heof : ∀ t ∈ front, t.kind ≠ .eof)
    (depth : Nat) (ts : List Token) : recovery depth (front ++ ts) = front ++ recovery depth ts := by
  induction front with
  | nil => rfl
  | cons t front ih =>
    obtain ⟨⟨hsemi, hbrace⟩, hfront⟩ := List.forall_mem_cons.1 hfront
    obtain ⟨ht, heof⟩ := List.forall_mem_cons.1 heof
    rw [List.cons_append, recovery]
    split
    case h_1 hkind => exact absurd hkind ht
    case h_2 hkind => exact absurd hkind hsemi
    case h_3 hkind => exact absurd (.inl hkind) hbrace
    case h_4 hkind => exact absurd (.inr hkind) hbrace
    case h_5 => rw [ih hfront heof, List.cons_append]

theorem recovery_comments {comments : List Token} (h : ∀ t ∈ comments, t.kind.isComment = true) (depth : Nat)
    (ts : List Token) : recovery depth (comments ++ ts) = comments ++ recovery depth ts := by
  have hother : ∀ t ∈ comments, (t.kind ≠ .punct .semi ∧ ¬ t.IsBrace) ∧ t.kind ≠ .eof := by
    intro t ht
    have hcomment := h t ht
    refine ⟨⟨?_, ?_⟩, ?_⟩
    · intro hkind
      simp [hkind, TokenKind.isComment] at hcomment
    · rintro (hkind | hkind) <;> simp [hkind, TokenKind.isComment] at hcomment
    · intro hkind
      simp [hkind, TokenKind.isComment] at hcomment
  exact recovery_append (fun t ht => (hother t ht).1) (fun t ht => (hother t ht).2) depth ts

/-- Such tokens are passed over to their end, and no further. -/
theorem recovery_of_passedOver (h : PassedOver ts) (heof : ∀ t ∈ ts, t.kind ≠ .eof) (more : List Token) :
    recovery 0 (ts ++ more) = ts := by
  cases h with
  | @semicolon front semi hfront hsemi =>
    have hinner : ∀ t ∈ front, t.kind ≠ .eof := fun t ht => heof t (List.mem_append_left _ ht)
    rw [List.append_assoc, recovery_append hfront hinner, List.singleton_append, recovery]
    simp only [hsemi, if_true]
  | @braces front inside opening closing hfront hopening hclosing hbalanced =>
    have hinner : ∀ t ∈ front, t.kind ≠ .eof := fun t ht => heof t (List.mem_append_left _ ht)
    have hinside : ∀ t ∈ inside, t.kind ≠ .eof := fun t ht => heof t (by simp [ht])
    have hbody : body? 0 (inside ++ closing :: more) = some (inside, closing) :=
      @body?_of_braces [] inside (by simp) hinside hbalanced closing hclosing more
    rw [List.append_assoc, recovery_append hfront hinner, List.cons_append, recovery]
    simp only [hopening]
    rw [List.append_assoc, List.singleton_append, recovery_of_body? hbody]

end Outline

/-- Comments are runs of their own. -/
theorem outline_comments {comments : List Token} (hcomments : ∀ t ∈ comments, t.kind.isComment = true) (markers : Bool)
    (linkage : Nat) (ts : List Token) :
    outline markers linkage (comments ++ ts) = comments.map (fun t => .skipped [t]) ++ outline markers linkage ts := by
  induction comments with
  | nil => rfl
  | cons t comments ih =>
    obtain ⟨ht, hcomments⟩ := List.forall_mem_cons.1 hcomments
    have hkind : t.kind = .lineComment ∨ t.kind = .blockComment := by
      unfold TokenKind.isComment at ht
      grind
    have hskipped : Outline.skipped? linkage t (comments ++ ts) = some (0, linkage) := by
      rcases hkind with hkind | hkind <;> simp [Outline.skipped?, hkind]
    have hdirective : t.directive? = none := by rcases hkind with hkind | hkind <;> simp [Token.directive?, hkind]
    have heof : t.kind ≠ .eof := by rcases hkind with hkind | hkind <;> simp [hkind]
    rw [List.cons_append, outline_cons_skipped heof hdirective hskipped, List.take_zero, List.drop_zero, ih hcomments]
    rfl

/-- A construct that should begin with a token that begins none is no declaration, and reading starts again behind what is
passed over. -/
theorem outline_cons_rejected {t : Token} {behind more : List Token} (heof : t.kind ≠ .eof) (hdirective : t.directive? = none)
    (hcomment : t.kind.isComment = false) (hrejects : t.kind.canStartDeclaration = false) (hsemi : t.kind ≠ .punct .semi)
    (hbrace : t.kind ≠ .closing .brace) (hrecovery : Outline.recovery 0 (t :: (behind ++ more)) = t :: behind)
    (markers : Bool) (linkage : Nat) :
    outline markers linkage (t :: (behind ++ more)) =
      .malformed [] (.ofIssue (.expectedDeclaration t.kind) t) (t :: behind) :: outline markers linkage more := by
  have hskipped : Outline.skipped? linkage t (behind ++ more) = none := by
    unfold Outline.skipped?
    split
    case h_1 hkind | h_2 hkind => simp [hkind, TokenKind.isComment] at hcomment
    case h_3 hkind => exact absurd hkind hsemi
    case h_4 hkind => exact absurd hkind hbrace
    case h_5 hkind => simp [hkind, TokenKind.canStartDeclaration, Keyword.canStart, Keyword.isStorageClass] at hrejects
    case h_6 => rfl
  rw [outline_cons_external heof hdirective hskipped, Outline.external, if_neg (by simp [hrejects]), hrecovery]
  simp

/-- A text without directives whose first token other than comments begins no declaration, and that ends where reading starts
again. -/
structure Rejected (source : String) (body : List Token) (first last : Token) : Prop where
  tokens : tokenize source = .ok (body ++ [last])
  plain : ∀ t ∈ body, t.directive? = none
  begins : body.find? (fun t => !t.kind.isComment) = some first
  rejects : first.kind.canStartDeclaration = false
  semicolon : first.kind ≠ .punct .semi
  brace : first.kind ≠ .closing .brace
  passed : PassedOver body

namespace Rejected

variable {source : String} {body : List Token} {first last : Token}

/-- Its tokens, moved to anywhere, are comments and a run that is no declaration. -/
theorem outline_map (h : Rejected source body first last) (heof : ∀ t ∈ body, t.kind ≠ .eof) {f : Token → Token}
    (hf : KeepsKinds f) (markers : Bool) (linkage : Nat) :
    ∃ comments passed, body = comments ++ first :: passed ∧ ∀ more, outline markers linkage (body.map f ++ more) =
      comments.map (fun t => .skipped [f t]) ++
        .malformed [] (.ofIssue (.expectedDeclaration first.kind) (f first)) ((first :: passed).map f) ::
          outline markers linkage more := by
  obtain ⟨hfirst, comments, passed, rfl, hcomments⟩ := List.find?_eq_some_iff_append.1 h.begins
  have hcomments : ∀ t ∈ comments, t.kind.isComment = true := fun t ht => by simpa using hcomments t ht
  have hcomments' : ∀ t ∈ comments.map f, t.kind.isComment = true := by
    intro u hu
    obtain ⟨t, ht, rfl⟩ := List.mem_map.1 hu
    rw [hf]
    exact hcomments t ht
  have hmem : first ∈ comments ++ first :: passed := by simp
  -- what is passed over is settled by its tokens if one more follows, and any may stand for it
  have hpassed : Outline.recovery 0 (first :: passed ++ [first]) = first :: passed := by
    have hwhole := Outline.recovery_of_passedOver h.passed heof [first]
    rw [List.append_assoc, Outline.recovery_comments hcomments] at hwhole
    exact List.append_cancel_left hwhole
  refine ⟨comments, passed, rfl, ?_⟩
  intro more
  have hmoved : Outline.recovery 0 (f first :: (passed.map f ++ more)) = f first :: passed.map f :=
    Outline.recovery_settled hf (heof first hmem) hpassed more
  rw [List.map_append, List.map_cons, List.append_assoc, List.cons_append, outline_comments hcomments',
    outline_cons_rejected (by rw [hf]; exact heof first hmem) (by rw [hf.directive?]; exact h.plain first hmem)
      (by rw [hf]; simpa using hfirst) (by rw [hf]; exact h.rejects) (by rw [hf]; exact h.semicolon)
      (by rw [hf]; exact h.brace) hmoved, hf, List.map_map]
  rfl

/-- Put anywhere in a larger text, it is an issue at its first token and nothing else. -/
theorem placed (h : Rejected source body first last) (before behind : List Char) {whole : List Char}
    (hwhole : whole = before ++ source.toList ++ behind) {ls : List Lexed} {rest : List Char}
    (hlexed : LexedText source.toList ls rest) (hbody : Stands 0 ls body) {us : List Token}
    (hus : Stands (byteLength before) ls us) (hlines : ∀ u ∈ us, u.line = 1 + newlinesBefore u.span.start whole)
    (markers : Bool) (linkage : Nat) :
    ∃ items, (∀ more, outline markers linkage (us ++ more) = items ++ outline markers linkage more) ∧
      (∀ t : Tracker, t.passAll (items.flatMap Item.tokens) = .ok t) ∧
      ∀ t : Tracker, entriesFrom whole markers t items =
        [.issue ((Diagnostic.ofIssue (.expectedDeclaration first.kind) first).moved (byteLength before)
          (before.count '\n'))] := by
  obtain ⟨f, hf, rfl⟩ := exists_moves_of_tokenize h.tokens before behind hwhole hlexed.chars hlexed.reads hbody hus hlines
  have heof : ∀ t ∈ body, t.kind ≠ .eof := by
    intro t ht
    obtain ⟨l, hl, hkind, -⟩ := hbody.exists_of_mem ht
    rw [hkind]
    exact hlexed.reads.kind_ne_eof l hl
  obtain ⟨comments, passed, rfl, houtline⟩ := h.outline_map heof hf.keepsKinds markers linkage
  have hplain : ∀ t ∈ comments ++ first :: passed, (f t).directive? = none := by
    intro t ht
    rw [hf.keepsKinds.directive?]
    exact h.plain t ht
  have hskipped : ∀ item ∈ comments.map (fun t => Item.skipped [f t]), ∀ t ∈ item.tokens, t.directive? = none := by
    simpa [Item.tokens] using fun t ht => hplain t (List.mem_append_left _ ht)
  have hmalformed : ∀ t ∈ (first :: passed).map f, t.directive? = none := by
    simpa using fun t ht => hplain t (List.mem_append_right _ ht)
  let items : List Item := comments.map (fun t => .skipped [f t]) ++
    [.malformed [] (.ofIssue (.expectedDeclaration first.kind) (f first)) ((first :: passed).map f)]
  have hitems : ∀ item ∈ items, ∀ t ∈ item.tokens, t.directive? = none := by
    intro item hitem
    rcases List.mem_append.1 hitem with hcomment | hrejected
    · exact hskipped item hcomment
    · rw [List.mem_singleton.1 hrejected, Item.tokens, List.nil_append]
      exact hmalformed
  refine ⟨items, fun more => by rw [houtline, List.append_cons], ?_, ?_⟩
  · intro t
    apply Tracker.passAll_of_noDirectives
    intro u hu
    obtain ⟨item, hitem, hu⟩ := List.mem_flatMap.1 hu
    exact hitems item hitem u hu
  · intro t
    have hnone : (comments.map fun t => Item.skipped [f t]).flatMap (·.entries whole markers t) = [] := by
      simp [List.flatMap_eq_nil_iff, Item.entries]
    rw [entriesFrom_of_noDirectives hitems, List.flatMap_append, hnone, ← hf.ofIssue]
    rfl

end Rejected

/-- A text that is rejected at its first token, put between two texts without errors, costs one issue at that token and
nothing else. The declarations of the first text come first, and behind them those of the second, with their names, kinds,
visibilities, guards and texts; only the numbers, the spans and the lines of the second are counted from the start of the
whole. -/
theorem survey_around_rejected {markers : Bool} {a g b : String} {before behind : Survey} {body : List Token}
    {first last : Token} (ha : surveySource markers a = .ok before) (hbefore : before.errors = [])
    (hends : ¬['\\'] <:+ a.toList ∧ ¬['\\', '\r'] <:+ a.toList) (hg : Rejected g body first last)
    (hb : surveySource markers b = .ok behind) (hbehind : behind.errors = []) :
    ∃ whole, surveySource markers (a ++ "\n" ++ g ++ "\n" ++ b) = .ok whole ∧
      whole.errors = [(Diagnostic.ofIssue (.expectedDeclaration first.kind) first).moved (byteLength (a ++ "\n").toList)
        ((a ++ "\n").toList.count '\n')] ∧
      whole.declarations.shown = before.declarations.shown ++ behind.declarations.shown.map fun entry =>
        ((entry.1.1.moved (byteLength (a ++ "\n" ++ g ++ "\n").toList) ((a ++ "\n" ++ g ++ "\n").toList.count '\n'),
          entry.1.2), entry.2 + before.declarations.items.length) := by
  obtain ⟨bodyA, lastA, hA, rfl⟩ := Faultless.of_survey ha hbefore
  obtain ⟨bodyB, lastB, hB, rfl⟩ := Faultless.of_survey hb hbehind
  obtain ⟨items, hentries, -, hsurvey⟩ := hA.survey_between hends hg.tokens hg.passed.ends hB
    fun gs rest ws hlexed hstands hws hlines linkage =>
      let ⟨items, hruns, hpass, hentries⟩ := hg.placed (a ++ "\n").toList ('\n' :: b.toList) (by simp) hlexed hstands hws hlines
        markers linkage
      ⟨items, linkage, hruns, hpass, hentries⟩
  rw [hentries] at hsurvey
  refine ⟨_, hsurvey, ?_, ?_⟩
  · rw [Survey.errors_recordAll, List.filterMap_append, hA.issues, List.filterMap_append, List.filterMap_map]
    simp only [Function.comp_def, Entry.issue?_moved, ← List.map_filterMap, hB.issues]
    rfl
  · refine (shown_between _ [_] _).trans ?_
    show _ ++ [] ++ _ = _
    rw [List.append_nil]
    rfl

/-- A parenthesis left open before braces with a semicolon inside, between a variable in a block that stays open and a
function. -/
theorem survey_around_rejected_braces :
    let a := "extern \"C\" \x7b\nint z;"
    let g := "/* */ ( ] x \x7b int y; \x7b ) \x7d \x7d"
    let b := "int f(void);"
    ∃ before behind body first last whole, surveySource true a = .ok before ∧ before.errors = [] ∧
      (¬['\\'] <:+ a.toList ∧ ¬['\\', '\r'] <:+ a.toList) ∧ Rejected g body first last ∧
      surveySource true b = .ok behind ∧ behind.errors = [] ∧
      surveySource true (a ++ "\n" ++ g ++ "\n" ++ b) = .ok whole ∧
      whole.errors = [(Diagnostic.ofIssue (.expectedDeclaration first.kind) first).moved (byteLength (a ++ "\n").toList)
        ((a ++ "\n").toList.count '\n')] ∧
      whole.declarations.shown = before.declarations.shown ++ behind.declarations.shown.map fun entry =>
        ((entry.1.1.moved (byteLength (a ++ "\n" ++ g ++ "\n").toList) ((a ++ "\n" ++ g ++ "\n").toList.count '\n'),
          entry.1.2), entry.2 + before.declarations.items.length) := by
  intro a g b
  have ha : surveySource true a = .ok ((surveySource true a).toOption.getD {}) := by decide +kernel
  have hb : surveySource true b = .ok ((surveySource true b).toOption.getD {}) := by decide +kernel
  have hbefore : ((surveySource true a).toOption.getD {}).errors = [] := by decide +kernel
  have hbehind : ((surveySource true b).toOption.getD {}).errors = [] := by decide +kernel
  have hends : ¬['\\'] <:+ a.toList ∧ ¬['\\', '\r'] <:+ a.toList := by decide +kernel
  let body := ((tokenize g).toOption.getD []).dropLast
  let last := ((tokenize g).toOption.getD []).getLast?.getD default
  let inside := (body.drop 5).dropLast
  have hsplit : body = body.take 4 ++ (body.drop 4).head?.getD default :: (inside ++ [body.getLast?.getD default]) := by
    decide +kernel
  have hpassed : PassedOver (body.take 4 ++ (body.drop 4).head?.getD default :: (inside ++ [body.getLast?.getD default])) :=
    .braces (by decide +kernel) (by decide +kernel) (by decide +kernel) (by decide +kernel)
  have hg : Rejected g body ((body.drop 1).head?.getD default) last :=
    ⟨by decide +kernel, by decide +kernel, by decide +kernel, by decide +kernel, by decide +kernel, by decide +kernel,
      hsplit ▸ hpassed⟩
  obtain ⟨whole, hwhole, herrors, hshown⟩ := survey_around_rejected ha hbefore hends hg hb hbehind
  exact ⟨_, _, _, _, _, whole, ha, hbefore, hends, hg, hb, hbehind, hwhole, herrors, hshown⟩

end CHeader
