import CHeader.Proofs.Joining
import CHeader.Proofs.Restored

/-!
# The guards of what is spelled

A prototype or a variable is spelled anew from tokens of its construct, and is written under the guards at the start of
the construct. A conditional between two of those tokens is found and makes an issue. Two kinds of conditionals are not
looked for: those before the first token that is spelled, where words have been left out, and those in the body of an
aggregate, which is left out as a whole. Where both are closed before the next token that is spelled
(`Construct.KeepsConditionals`), every spelled token stands under the guards of its declaration
(`synthesized_under_guard`).
-/

namespace CHeader

/-! ### Conditionals among tokens -/

/-- Whether a token is a directive that opens, switches or closes a conditional. -/
def Token.isConditional (t : Token) : Bool :=
  t.directive?.any (·.kind.isConditional)

theorem isConditional_of_isSignificant {t : Token} (h : t.isSignificant = true) : t.isConditional = false := by
  unfold Token.isSignificant at h
  unfold Token.isConditional Token.directive?
  split at h <;> simp_all

namespace Tracker

variable {t : Tracker}

/-- Nothing but conditionals is followed. -/
theorem pass_of_isConditional {token : Token} (h : token.isConditional = false) : t.pass token = .ok t := by
  cases hdirective : token.directive? with
  | none => exact pass_of_directive?_eq_none hdirective
  | some directive =>
    have hkind : directive.kind.isConditional = false := by simpa [Token.isConditional, hdirective] using h
    exact (pass_eq_ok_iff hdirective).2 (Steps.other hkind).step_eq_ok

theorem passAll_filter_isConditional (tokens : List Token) :
    t.passAll (tokens.filter Token.isConditional) = t.passAll tokens := by
  induction tokens generalizing t with
  | nil => rfl
  | cons token tokens ih =>
    by_cases h : token.isConditional = true
    · rw [List.filter_cons_of_pos h, passAll_cons, passAll_cons]
      cases t.pass token with
      | error fault => rfl
      | ok behind => exact ih
    · have hpass : t.pass token = .ok t := pass_of_isConditional (by simpa using h)
      rw [List.filter_cons_of_neg h, passAll_cons, hpass, ih]
      rfl

end Tracker

namespace Outline

theorem Collected.Grows.conditionals {markers : Bool} {c c' : Collected} {t : Token} (h : Grows markers c t c')
    (hc : c.conditionals = c.met.filter Token.isConditional) : c'.conditionals = c'.met.filter Token.isConditional := by
  have hsignificant : t.isSignificant = true → (t :: c.met).filter Token.isConditional = c.conditionals := by
    intro ht
    rw [List.filter_cons_of_neg (by simp [isConditional_of_isSignificant ht]), hc]
  cases h with
  | passed kind =>
    show (if t.isConditional then t :: c.conditionals else c.conditionals) = (t :: c.met).filter Token.isConditional
    rw [List.filter_cons, hc]
  | added kind => exact (hsignificant kind).symm
  | opened bracket kind => exact (hsignificant (by simp [Token.isSignificant, kind])).symm
  | closed bracket kind => exact (hsignificant (by simp [Token.isSignificant, kind])).symm
  | divided kind => exact (hsignificant (by simp [Token.isSignificant, kind])).symm

/-- The conditionals of a construct are those before its end, or before the body of the function. The head is there,
too. -/
theorem conditionals_of_collect {markers : Bool} {first : Token} {ts run rest : List Token} {construct : Construct}
    (hstart : first.kind.canStartDeclaration = true)
    (h : collect markers first (.start first) ts = (.construct run construct, rest)) :
    ∃ met behind, run = met ++ behind ∧ construct.head.Sublist met ∧
      construct.conditionals = met.filter Token.isConditional := by
  have hwithin := Collected.within_start hstart
  have hsignificant : first.isSignificant = true := isSignificant_of_canStartDeclaration hstart
  obtain ⟨c, ending, behind, ⟨hc, hconditionals⟩, rfl, rfl, -⟩ :=
    exists_finish_of_collect (P := fun c => c.Within ∧ c.conditionals = c.met.filter Token.isConditional)
      (fun hgrows hc => ⟨hgrows.within hc.1, hgrows.conditionals hc.2⟩)
      ⟨hwithin, by simp [Collected.start, isConditional_of_isSignificant hsignificant]⟩ h
  refine ⟨c.met.reverse, behind, rfl, (hc.finish ending).1, ?_⟩
  show c.conditionals.reverse = _
  rw [hconditionals, List.filter_reverse]

end Outline

/-! ### What is spelled -/

namespace Construct

/-- The tokens that a declarator is spelled from. -/
def spelled (c : Construct) (specs : Specifiers) (piece : Nesting.Piece) : List Token :=
  if piece.declarator.isFunction then shared specs ++ c.prototypeTokens piece
  else (shared specs).filter (!isLinkage ·) ++ piece.declaring

/-- What is written around the tokens of a declarator. -/
def spelling (c : Construct) (specs : Specifiers) (piece : Nesting.Piece) : String :=
  if piece.declarator.isFunction then spell (c.spelled specs piece) ++ if c.parameters.isEmpty then ";" else ");"
  else "extern " ++ spell (c.spelled specs piece) ++ ";"

variable {c : Construct} {markers : Bool} {piece : Nesting.Piece}

/-- What is spelled are some of the specifiers and of the tokens behind them. -/
theorem sublist_spelled_shared (hpiece : piece ∈ c.pieces (.ofTokens markers c.head)) :
    (c.spelled (.ofTokens markers c.head) piece).Sublist
      (shared (.ofTokens markers c.head) ++ Shape.behindSpecifiers (.ofTokens markers c.head) c.head) := by
  have hdeclaring := sublist_declaring hpiece
  unfold spelled
  split_ifs
  · exact (List.Sublist.refl _).append ((sublist_prototypeTokens c piece).trans hdeclaring)
  · exact List.filter_sublist.append hdeclaring

/-- What is spelled stands in the head, in order, before or behind the body that is omitted. -/
theorem exists_omitted (hpiece : piece ∈ c.pieces (.ofTokens markers c.head)) :
    ∃ before behind, c.head = before ++ omitted (.ofTokens markers c.head) ++ behind ∧
      (c.spelled (.ofTokens markers c.head) piece).Sublist (before ++ behind) := by
  have hsplit := Specifiers.tokens_append_behind markers c.head
  have hspelled := sublist_spelled_shared hpiece
  cases htagged : tagged? (.ofTokens markers c.head) with
  | none =>
    refine ⟨[], c.head, by simp [omitted, htagged], hspelled.trans ?_⟩
    rw [shared, htagged, List.nil_append]
    have hkept := (Specifiers.sublist_kept (.ofTokens markers c.head)).append
      (List.Sublist.refl (Shape.behindSpecifiers (.ofTokens markers c.head) c.head))
    rwa [hsplit] at hkept
  | some found =>
    obtain ⟨a, tag⟩ := found
    obtain ⟨before, s, behind, -, -, htokens, -, hkept⟩ := Specifiers.exists_keptWithoutBody (aggregate?_of_tagged? htagged).1
    set others := Shape.behindSpecifiers (.ofTokens markers c.head) c.head
    refine ⟨before.tokens ++ a.head, Specifiers.tokens behind ++ others, ?_, hspelled.trans ?_⟩
    · rw [omitted, htagged]
      show c.head = _ ++ a.body ++ _
      rw [← hsplit, htokens]
      simp
    · rw [shared, htagged, if_pos (by simp), hkept]
      have hfront := (Specifiers.sublist_kept before).append (List.Sublist.refl a.head)
      have hbehind := (Specifiers.sublist_kept behind).append (List.Sublist.refl others)
      simpa using hfront.append hbehind

theorem sublist_spelled (hpiece : piece ∈ c.pieces (.ofTokens markers c.head)) :
    (c.spelled (.ofTokens markers c.head) piece).Sublist c.head := by
  obtain ⟨before, behind, hsplit, hspelled⟩ := exists_omitted hpiece
  refine hspelled.trans ?_
  have hsub : (before ++ behind).Sublist (before ++ (omitted (.ofTokens markers c.head) ++ behind)) :=
    (List.Sublist.refl _).append (List.sublist_append_right _ _)
  rwa [← List.append_assoc, ← hsplit] at hsub

/-- Whether a token stands between the ends of a body. -/
def isInside (body : List Token) (t : Token) : Bool :=
  body.head?.any fun opening => body.getLast?.any fun closing => t.isBetween opening closing

/-- A declarator for which no conditional is lost unseen. Those before the first token that is spelled are closed there,
and so are those in the body that is left out. -/
structure KeepsConditionals (c : Construct) (markers : Bool) (piece : Nesting.Piece) : Prop where
  leading : ∀ first ∈ (c.spelled (.ofTokens markers c.head) piece).head?,
    Tracker.passAll { recognizeBlocks := markers } (c.conditionals.filter (·.span.start < first.span.start)) =
      .ok { recognizeBlocks := markers }
  body : ∀ first ∈ (c.spelled (.ofTokens markers c.head) piece).head?,
    Tracker.passAll { recognizeBlocks := markers } ((c.conditionals.filter (first.span.start ≤ ·.span.start)).filter
      (isInside (omitted (.ofTokens markers c.head)))) = .ok { recognizeBlocks := markers }

instance (c : Construct) (markers : Bool) (piece : Nesting.Piece) : Decidable (c.KeepsConditionals markers piece) :=
  decidable_of_iff
    ((∀ first ∈ (c.spelled (.ofTokens markers c.head) piece).head?,
      Tracker.passAll { recognizeBlocks := markers } (c.conditionals.filter (·.span.start < first.span.start)) =
        .ok { recognizeBlocks := markers }) ∧
      ∀ first ∈ (c.spelled (.ofTokens markers c.head) piece).head?,
        Tracker.passAll { recognizeBlocks := markers } ((c.conditionals.filter (first.span.start ≤ ·.span.start)).filter
          (isInside (omitted (.ofTokens markers c.head)))) = .ok { recognizeBlocks := markers })
    ⟨fun ⟨leading, body⟩ => ⟨leading, body⟩, fun h => ⟨h.leading, h.body⟩⟩

end Construct

namespace Construct

variable {c : Construct} {markers : Bool} {piece : Nesting.Piece}

/-- Conditionals between the ends of a spelling are in the omitted body, if none is lost. -/
theorem isInside_of_lostConditional? {omitted spelled : List Token} (h : c.lostConditional? omitted spelled = none)
    {first last : Token} (hfirst : spelled.head? = some first) (hlast : spelled.getLast? = some last) {q : Token}
    (hq : q ∈ c.conditionals) (hbetween : q.isBetween first last = true) : isInside omitted q = true := by
  simp only [lostConditional?, hfirst, hlast, bind, Option.bind_some, List.find?_eq_none] at h
  simpa [hbetween, isInside] using h q hq

section Before

variable {front more : List Token} {t : Token} (hordered : Ordered (front ++ t :: more))
  (hhead : c.head.Sublist (front ++ t :: more))

include hordered hhead in
/-- A body that begins before a spelled token is closed before it. -/
theorem isInside_behind (hpiece : piece ∈ c.pieces (.ofTokens markers c.head))
    (ht : t ∈ c.spelled (.ofTokens markers c.head) piece) {q : Token} (hq : q ∈ front)
    (hinside : isInside (omitted (.ofTokens markers c.head)) q = true) :
    ∀ u ∈ t :: more, isInside (omitted (.ofTokens markers c.head)) u = false := by
  obtain ⟨before, behind, hsplit, hspelled⟩ := exists_omitted hpiece
  have hheadOrdered : Ordered (before ++ (omitted (.ofTokens markers c.head) ++ behind)) := by
    rw [← List.append_assoc, ← hsplit]
    exact hordered.sublist hhead
  have hqt := hordered.le_of_append hq List.mem_cons_self
  have hpositive := hordered.positive q (List.mem_append_left _ hq)
  obtain ⟨opening, hopening, hclose⟩ := (Option.any_eq_true _ _).1 hinside
  obtain ⟨closing, hclosing, hbetween⟩ := (Option.any_eq_true _ _).1 hclose
  simp only [Token.isBetween, Bool.and_eq_true, decide_eq_true_eq] at hbetween
  have hopening' := List.mem_of_head? hopening
  have hclosing' := List.mem_of_getLast? hclosing
  have hbehind : closing.span.stop ≤ t.span.start := by
    rcases List.mem_append.1 (hspelled.subset ht) with htbefore | htbehind
    · have := hheadOrdered.le_of_append htbefore (List.mem_append_left _ hopening')
      have := hheadOrdered.positive t (List.mem_append_left _ htbefore)
      omega
    · exact (hheadOrdered.sublist (List.sublist_append_right _ _)).le_of_append hclosing' htbehind
  intro u hu
  have hle := (hordered.sublist (List.sublist_append_right front (t :: more))).head_le u hu
  have := hheadOrdered.positive closing (List.mem_append_right _ (List.mem_append_left _ hclosing'))
  simp only [isInside, hopening, hclosing, Option.any_some, Token.isBetween, Bool.and_eq_false_iff, decide_eq_false_iff_not]
  omega

include hordered hhead in
/-- Conditionals from the first spelled token to a later one are in the omitted body, if none is lost. -/
theorem isInside_of_mem_front (hpiece : piece ∈ c.pieces (.ofTokens markers c.head))
    (hsignificant : ∀ u ∈ c.head, u.isSignificant = true)
    (hlost : c.lostConditional? (omitted (.ofTokens markers c.head)) (c.spelled (.ofTokens markers c.head) piece) = none)
    (hconditionals : c.conditionals = (front ++ t :: more).filter Token.isConditional)
    (ht : t ∈ c.spelled (.ofTokens markers c.head) piece) {first q : Token}
    (hfirst : (c.spelled (.ofTokens markers c.head) piece).head? = some first) (hq : q ∈ front)
    (hconditional : q.isConditional = true) (hplace : first.span.start ≤ q.span.start) :
    isInside (omitted (.ofTokens markers c.head)) q = true := by
  have hspelledHead := sublist_spelled hpiece
  obtain ⟨last, hlast⟩ : ∃ last, (c.spelled (.ofTokens markers c.head) piece).getLast? = some last :=
    ⟨_, List.getLast?_eq_some_getLast (List.ne_nil_of_mem ht)⟩
  have hfirstHead := hspelledHead.subset (List.mem_of_head? hfirst)
  have hmem : q ∈ c.conditionals := by
    rw [hconditionals]
    exact List.mem_filter.2 ⟨List.mem_append_left _ hq, hconditional⟩
  have hne : q ≠ first := by
    rintro rfl
    rw [isConditional_of_isSignificant (hsignificant q hfirstHead)] at hconditional
    cases hconditional
  have htlast := (hordered.sublist (hspelledHead.trans hhead)).le_getLast ht hlast
  have hapart := hordered.apart (List.mem_append_left _ hq) (hhead.subset hfirstHead) hne
  have hqt := hordered.le_of_append hq List.mem_cons_self
  have hpositive := hordered.positive q (List.mem_append_left _ hq)
  have hpositive' := hordered.positive first (hhead.subset hfirstHead)
  apply isInside_of_lostConditional? hlost hfirst hlast hmem
  simp only [Token.isBetween, Bool.and_eq_true, decide_eq_true_eq]
  omega

include hordered hhead in
/-- If all conditionals from the first spelled token to a later one are in the omitted body, they are closed there. -/
theorem KeepsConditionals.passAll_inside (h : c.KeepsConditionals markers piece)
    (hpiece : piece ∈ c.pieces (.ofTokens markers c.head))
    (hconditionals : c.conditionals = (front ++ t :: more).filter Token.isConditional)
    (ht : t ∈ c.spelled (.ofTokens markers c.head) piece) {first : Token}
    (hfirst : (c.spelled (.ofTokens markers c.head) piece).head? = some first)
    (hinside : ∀ q ∈ (front.filter Token.isConditional).filter (first.span.start ≤ ·.span.start),
      isInside (omitted (.ofTokens markers c.head)) q = true) {here : Tracker} (hblocks : here.recognizeBlocks = markers) :
    here.passAll ((front.filter Token.isConditional).filter (first.span.start ≤ ·.span.start)) = .ok here := by
  cases hrest : (front.filter Token.isConditional).filter (first.span.start ≤ ·.span.start) with
  | nil => rfl
  | cons q others =>
    rw [hrest] at hinside
    have hq : q ∈ front := by
      have hmem : q ∈ (front.filter Token.isConditional).filter (first.span.start ≤ ·.span.start) := by simp [hrest]
      exact (List.mem_filter.1 (List.mem_filter.1 hmem).1).1
    have hnone := isInside_behind hordered hhead hpiece ht hq (hinside q List.mem_cons_self)
    have hempty : (((t :: more).filter Token.isConditional).filter (first.span.start ≤ ·.span.start)).filter
        (isInside (omitted (.ofTokens markers c.head))) = [] := by
      apply List.filter_eq_nil_iff.2
      intro u hu
      rw [hnone u (List.mem_filter.1 (List.mem_filter.1 hu).1).1]
      exact Bool.false_ne_true
    have hall : (c.conditionals.filter (first.span.start ≤ ·.span.start)).filter
        (isInside (omitted (.ofTokens markers c.head))) = q :: others := by
      rw [hconditionals, List.filter_append, List.filter_append, List.filter_append, hempty, hrest,
        List.filter_eq_self.2 hinside, List.append_nil]
    rw [← hall]
    apply Tracker.passAll_of_closed rfl
    rw [hblocks]
    exact h.body first hfirst

include hordered hhead in
/-- What stands before a spelled token leaves the conditionals around the construct as they are. -/
theorem KeepsConditionals.passAll (h : c.KeepsConditionals markers piece)
    (hpiece : piece ∈ c.pieces (.ofTokens markers c.head)) (hsignificant : ∀ u ∈ c.head, u.isSignificant = true)
    (hlost : c.lostConditional? (omitted (.ofTokens markers c.head)) (c.spelled (.ofTokens markers c.head) piece) = none)
    (hconditionals : c.conditionals = (front ++ t :: more).filter Token.isConditional)
    (ht : t ∈ c.spelled (.ofTokens markers c.head) piece) {here : Tracker} (hblocks : here.recognizeBlocks = markers) :
    here.passAll front = .ok here := by
  obtain ⟨first, rest, hcons⟩ := List.exists_cons_of_ne_nil (List.ne_nil_of_mem ht)
  have hfirst : (c.spelled (.ofTokens markers c.head) piece).head? = some first := by rw [hcons]; rfl
  have hbehind : ∀ u ∈ t :: more, first.span.start ≤ u.span.start := by
    have hspelledOrdered := hordered.sublist ((sublist_spelled hpiece).trans hhead)
    have hfirstLe : first.span.start ≤ t.span.start := by
      rw [hcons] at hspelledOrdered ht
      exact hspelledOrdered.head_le t ht
    exact fun u hu => hfirstLe.trans ((hordered.sublist (List.sublist_append_right front (t :: more))).head_le u hu)
  have hleading : (front.filter Token.isConditional).filter (·.span.start < first.span.start) =
      c.conditionals.filter (·.span.start < first.span.start) := by
    have hnone : ((t :: more).filter Token.isConditional).filter (·.span.start < first.span.start) = [] := by
      apply List.filter_eq_nil_iff.2
      intro u hu
      have := hbehind u (List.mem_filter.1 hu).1
      simpa using this
    rw [hconditionals, List.filter_append, List.filter_append, hnone, List.append_nil]
  have hinside : ∀ q ∈ (front.filter Token.isConditional).filter (first.span.start ≤ ·.span.start),
      isInside (omitted (.ofTokens markers c.head)) q = true := by
    intro q hq
    obtain ⟨hq, hplace⟩ := List.mem_filter.1 hq
    obtain ⟨hfront, hconditional⟩ := List.mem_filter.1 hq
    exact isInside_of_mem_front hordered hhead hpiece hsignificant hlost hconditionals ht hfirst hfront hconditional
      (by simpa using hplace)
  have hpass : here.passAll (c.conditionals.filter (·.span.start < first.span.start)) = .ok here := by
    apply Tracker.passAll_of_closed rfl
    rw [hblocks]
    exact h.leading first hfirst
  -- the conditionals before the first spelled token come first, then those of the body
  have hfront : Ordered (front.filter Token.isConditional) :=
    hordered.sublist (List.filter_sublist.trans (List.sublist_append_left front (t :: more)))
  rw [← Tracker.passAll_filter_isConditional, ← hfront.filter_append_filter first.span.start, Tracker.passAll_append, hleading,
    hpass]
  exact h.passAll_inside hordered hhead hpiece hconditionals ht hfirst hinside hblocks

end Before

variable {site : Site} {specs : Specifiers} {start : Token}

theorem text_of_functionText {text : DeclText} (h : c.functionText site specs start piece = .ok text) :
    (specs.isInline = true ∧ text = .verbatim (site.between start c.last)) ∨
      (text = .synthesized (spell (shared specs ++ c.prototypeTokens piece) ++ if c.parameters.isEmpty then ";" else ");") ∧
        c.lostConditional? (omitted specs) (shared specs ++ c.prototypeTokens piece) = none) := by
  simp only [functionText] at h
  split at h
  · rename_i hinline
    cases h
    simp only [Bool.and_eq_true] at hinline
    exact .inl ⟨hinline.1.2, rfl⟩
  · split at h <;> cases h
    exact .inr ⟨rfl, ‹_›⟩

theorem text_of_variableText {text : DeclText} (h : c.variableText specs piece = .ok text) :
    text = .synthesized ("extern " ++ spell ((shared specs).filter (!isLinkage ·) ++ piece.declaring) ++ ";") ∧
      c.lostConditional? (omitted specs) ((shared specs).filter (!isLinkage ·) ++ piece.declaring) = none := by
  simp only [variableText] at h
  split at h <;> cases h
  exact ⟨rfl, ‹_›⟩

/-- An inline function is declared in the words of the source. Otherwise the text is spelled from the tokens of the
declarator, and loses no conditional that is looked for. -/
theorem text_of_declaratorEntry {names : List String} {draft : Draft}
    (h : c.declaratorEntry site specs start piece = .declare names draft) :
    (specs.isInline = true ∧ draft.text = .verbatim (site.between start c.last)) ∨
      (draft.text = .synthesized (c.spelling specs piece) ∧
        c.lostConditional? (omitted specs) (c.spelled specs piece) = none) := by
  unfold spelling spelled
  simp only [declaratorEntry] at h
  split at h
  · cases h
  · by_cases hfunction : piece.declarator.isFunction = true
    · rw [if_pos hfunction] at h
      rw [if_pos hfunction, if_pos hfunction]
      cases hresult : c.functionText site specs start piece <;> rw [hresult] at h <;> cases h
      exact text_of_functionText hresult
    · rw [if_neg hfunction] at h
      rw [if_neg hfunction, if_neg hfunction]
      split_ifs at h
      cases hresult : c.variableText specs piece <;> rw [hresult] at h <;> cases h
      exact .inr (text_of_variableText hresult)

end Construct

/-- What is spelled stays under its own guards: if the construct of a declaration keeps its conditionals, every token that
the text of the declaration is spelled from stands in the source under the guards that the declaration has. -/
theorem synthesized_under_guard {markers : Bool} {source : String} {tokens : List Token}
    (htokens : tokenize source = .ok tokens) {s : Survey} (hsurvey : surveySource markers source = .ok s)
    {d : Declaration} (hd : d ∈ s.declarations.items) {text : String} (htext : d.text = .synthesized text)
    (hkeeps : ∀ item ∈ outline markers 0 tokens, ∀ c ∈ item.construct?, d.span.stop = c.last.span.stop →
      ∀ piece ∈ c.pieces (.ofTokens markers c.head), c.KeepsConditionals markers piece) :
    ∃ run c piece, .construct run c ∈ outline markers 0 tokens ∧ d.span.stop = c.last.span.stop ∧
      piece ∈ c.pieces (.ofTokens markers c.head) ∧ text = c.spelling (.ofTokens markers c.head) piece ∧
      ∀ t ∈ c.spelled (.ofTokens markers c.head) piece, ∃ before behind there, tokens = before ++ t :: behind ∧
        Tracker.passAll { recognizeBlocks := markers } before = .ok there ∧ there.guardPath = d.guard := by
  obtain ⟨-, rfl⟩ := recorded_of_surveySource htokens hsurvey
  obtain ⟨earlier, item, later, here, first, names, houtline, -, hentry, -, hhere, hguard⟩ := exists_run_of_mem_recordAll hd
  obtain ⟨hbody, last, -, htokens'⟩ := tokenized_run htokens houtline
  have hitem : item ∈ outline markers 0 tokens := by simp [houtline]
  cases item with
  | skipped => cases hentry
  | malformed => simp [Item.entries] at hentry
  | directive token =>
    obtain ⟨directive, -, -, -, visibility, hdraft⟩ := macro_of_mem_entries hentry
    cases htext.symm.trans (congrArg (·.text) hdraft)
  | construct run c =>
    obtain ⟨hstop, otherwise, ⟨-, hcopy⟩ | ⟨-, _, _, -, -, hcopy⟩ | ⟨-, piece, hpiece, -, hdeclare⟩⟩ :=
      @Construct.declare_cases c _ (.ofTokens markers c.head) rfl _ _ hentry
    · rw [htext] at hcopy
      cases hcopy
    · rw [htext] at hcopy
      cases hcopy
    rcases Construct.text_of_declaratorEntry hdeclare with ⟨-, hcopy⟩ | ⟨hspelling, hlost⟩
    · rw [htext] at hcopy
      cases hcopy
    obtain rfl := DeclText.synthesized.inj (htext.symm.trans hspelling)
    refine ⟨run, c, piece, hitem, hstop, hpiece, rfl, fun t ht => ?_⟩
    obtain ⟨start, ts, rest, hstart, hcollect⟩ := collect_of_mem_outline hitem
    obtain ⟨met, behind, hrun, hhead, hconditionals⟩ := Outline.conditionals_of_collect hstart hcollect
    have hmet : t ∈ met := hhead.subset ((Construct.sublist_spelled hpiece).subset ht)
    obtain ⟨front, more, hfront⟩ := List.append_of_mem hmet
    rw [Item.tokens, hrun] at hbody htokens'
    have hordered : Ordered met := by
      refine hbody.ordered.sublist ?_
      rw [← List.append_assoc, List.append_assoc, List.append_assoc]
      exact (List.sublist_append_left _ _).trans (List.sublist_append_right _ _)
    have hkeep := hkeeps _ hitem c rfl hstop piece hpiece
    rw [hfront] at hordered hhead hconditionals
    have hblocks : here.recognizeBlocks = markers := Tracker.recognizeBlocks_passAll hhere
    have hpass : here.passAll front = .ok here :=
      hkeep.passAll hordered hhead hpiece (head_of_mem_outline hitem).2 hlost hconditionals ht hblocks
    refine ⟨earlier.flatMap Item.tokens ++ front, more ++ behind ++ later.flatMap Item.tokens ++ [last], here, ?_, ?_, hguard.symm⟩
    · rw [htokens', hfront]
      simp
    rw [Tracker.passAll_append, hhere]
    exact hpass

/-- A variable of a type that is defined with it, with a conditional in the body of the type. -/
theorem synthesized_under_guard_body :
    let source := "#ifdef X\nstruct s \x7b\n#ifdef Y\nint y;\n#endif\n\x7d v;\n#endif"
    ∃ tokens s, tokenize source = .ok tokens ∧ surveySource true source = .ok s ∧
      ∃ d ∈ s.declarations.items, d.text = .synthesized "extern struct s v;" ∧
        (∀ item ∈ outline true 0 tokens, ∀ c ∈ item.construct?, d.span.stop = c.last.span.stop →
          ∀ piece ∈ c.pieces (.ofTokens true c.head), c.KeepsConditionals true piece) ∧
        ∃ run c piece, .construct run c ∈ outline true 0 tokens ∧ d.span.stop = c.last.span.stop ∧
          piece ∈ c.pieces (.ofTokens true c.head) ∧ "extern struct s v;" = c.spelling (.ofTokens true c.head) piece ∧
          ∀ t ∈ c.spelled (.ofTokens true c.head) piece, ∃ before behind there, tokens = before ++ t :: behind ∧
            Tracker.passAll { recognizeBlocks := true } before = .ok there ∧ there.guardPath = d.guard := by
  intro source
  have htokens : tokenize source = .ok ((tokenize source).toOption.getD []) := by decide +kernel
  have hsurvey : surveySource true source = .ok ((surveySource true source).toOption.getD {}) := by decide +kernel
  have hdeclared : ∃ d ∈ ((surveySource true source).toOption.getD {}).declarations.items,
      d.text = .synthesized "extern struct s v;" ∧
        ∀ item ∈ outline true 0 ((tokenize source).toOption.getD []), ∀ c ∈ item.construct?,
          d.span.stop = c.last.span.stop → ∀ piece ∈ c.pieces (.ofTokens true c.head), c.KeepsConditionals true piece := by
    decide +kernel
  obtain ⟨d, hd, htext, hkeeps⟩ := hdeclared
  exact ⟨_, _, htokens, hsurvey, d, hd, htext, hkeeps, synthesized_under_guard htokens hsurvey hd htext hkeeps⟩

/-- Words that are left out may stand before a conditional that the spelled tokens stand in. -/
theorem synthesized_outside_guard :
    let source := "extern\n#ifdef X\nint a;\n#endif"
    ∃ tokens s, tokenize source = .ok tokens ∧ surveySource true source = .ok s ∧ s.errors = [] ∧
      ∃ d ∈ s.declarations.items, d.text = .synthesized "extern int a;" ∧ d.guard = [] ∧
        ∃ run c piece, .construct run c ∈ outline true 0 tokens ∧ piece ∈ c.pieces (.ofTokens true c.head) ∧
          "extern int a;" = c.spelling (.ofTokens true c.head) piece ∧
          ∃ t ∈ c.spelled (.ofTokens true c.head) piece, ∃ before behind there, tokens = before ++ t :: behind ∧
            Tracker.passAll {} before = .ok there ∧ there.guardPath = [⟨.defined, "X", [], false⟩] := by
  intro source
  let tokens := (tokenize source).toOption.getD []
  have htokens : tokenize source = .ok tokens := by decide +kernel
  have hsurvey : surveySource true source = .ok ((surveySource true source).toOption.getD {}) := by decide +kernel
  have herrors : ((surveySource true source).toOption.getD {}).errors = [] := by decide +kernel
  have hdeclared : ∃ d ∈ ((surveySource true source).toOption.getD {}).declarations.items,
      d.text = .synthesized "extern int a;" ∧ d.guard = [] := by decide +kernel
  have hspelled : ∃ item ∈ outline true 0 tokens, ∃ c ∈ item.construct?, ∃ piece ∈ c.pieces (.ofTokens true c.head),
      "extern int a;" = c.spelling (.ofTokens true c.head) piece ∧
        ∃ t ∈ c.spelled (.ofTokens true c.head) piece,
          tokens = tokens.takeWhile (· ≠ t) ++ t :: (tokens.dropWhile (· ≠ t)).tail ∧
            ∃ there ∈ (Tracker.passAll {} (tokens.takeWhile (· ≠ t))).toOption,
              there.guardPath = [⟨.defined, "X", [], false⟩] := by decide +kernel
  obtain ⟨d, hd, htext, hguard⟩ := hdeclared
  obtain ⟨item, hitem, c, hc, piece, hpiece, hspelling, t, ht, hsplit, there, hthere, hpath⟩ := hspelled
  have hpass : Tracker.passAll {} (tokens.takeWhile (· ≠ t)) = .ok there := by
    cases hresult : Tracker.passAll {} (tokens.takeWhile (· ≠ t)) <;> rw [hresult] at hthere <;> cases hthere
    rfl
  cases item with
  | construct run found =>
    obtain rfl : found = c := Option.some_inj.1 hc
    exact ⟨tokens, _, htokens, hsurvey, herrors, d, hd, htext, hguard, run, found, piece, hitem, hpiece, hspelling, t, ht,
      _, _, there, hsplit, hpass, hpath⟩
  | directive | skipped | malformed => cases hc

end CHeader
