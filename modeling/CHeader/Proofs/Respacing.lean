import CHeader.Proofs.SpelledGuards
import Mathlib.Data.List.Pairwise

/-!
# Other gaps between the tokens

Where the gaps of a text are written in another way, its tokens have other places, but nothing else: they have the
same kinds and texts, stand in the same order, and two of them stand apart as they did (`Respaces`). What is rebuilt from
tokens is spelled with a blank where they stand apart, and a conditional is lost by its order among them. So a construct
says the same (`Entry.saying`), but for places and for texts that are copied from the source
(`Construct.entries_respaced`).
-/

namespace CHeader

/-! ### What is said -/

/-- The text, if it is rebuilt from tokens. -/
def DeclText.rebuilt? : DeclText → Option String
  | verbatim _ => none
  | synthesized text => some text

/-- What an entry says, whatever its place and the text that is copied from there. -/
inductive Saying
  | mention (name : String)
  | declare (names : List String) (kind : DeclKind) (visibility : Visibility) (guard : GuardPath) (rebuilt : Option String)
  | issue
  deriving DecidableEq, Repr

/-- What the entry says. -/
def Entry.saying : Entry → Saying
  | mention name => .mention name
  | declare names draft => .declare names draft.kind draft.visibility draft.guard draft.text.rebuilt?
  | issue _ => .issue

/-! ### Tokens with other gaps -/

/-- Tokens and their images, which stand in the same order, and apart where they did. -/
structure Respaces (f : Token → Token) (ts : List Token) : Prop where
  keepsKinds : KeepsKinds f
  text : ∀ t, (f t).text = t.text
  ordered : Ordered ts
  ordered_map : Ordered (ts.map f)
  apart : ts.Pairwise fun t u => t.span.stop < u.span.start ↔ (f t).span.stop < (f u).span.start

namespace Respaces

variable {f : Token → Token} {ts us : List Token} {t u : Token}

theorem sublist (h : Respaces f ts) (hsub : us.Sublist ts) : Respaces f us :=
  ⟨h.keepsKinds, h.text, h.ordered.sublist hsub, h.ordered_map.sublist (hsub.map f),
    h.apart.sublist hsub⟩

/-- The order is kept. -/
theorem start_lt_iff (h : Respaces f ts) (ht : t ∈ ts) (hu : u ∈ ts) :
    (f t).span.start < (f u).span.start ↔ t.span.start < u.span.start := by
  let SameOrder (t u : Token) : Prop :=
    ((f t).span.start < (f u).span.start ↔ t.span.start < u.span.start) ∧
      ((f u).span.start < (f t).span.start ↔ u.span.start < t.span.start)
  have hpairwise : ts.Pairwise SameOrder := by
    have hmap := List.pairwise_map.1 h.ordered_map.pairwise
    refine (h.ordered.pairwise.and hmap).imp_of_mem ?_
    intro v w hv hw hle
    have hpositive := h.ordered.positive v hv
    have hpositive' := h.ordered_map.positive (f v) (List.mem_map_of_mem hv)
    simp only [SameOrder]
    omega
  have : Std.Symm SameOrder := ⟨fun _ _ hsame => ⟨hsame.2, hsame.1⟩⟩
  exact (hpairwise.forall_of_forall (fun _ _ => by simp [SameOrder]) ht hu).1

theorem injOn (h : Respaces f ts) (ht : t ∈ ts) (hu : u ∈ ts) : f t = f u ↔ t = u := by
  constructor
  · intro heq
    by_contra hne
    have hlt := h.start_lt_iff ht hu
    have hlt' := h.start_lt_iff hu ht
    have hpositive := h.ordered.positive t ht
    have hpositive' := h.ordered.positive u hu
    have hapart := h.ordered.apart ht hu hne
    rw [heq] at hlt hlt'
    omega
  · rintro rfl
    rfl

theorem isBetween (h : Respaces f ts) {first last : Token} (ht : t ∈ ts) (hfirst : first ∈ ts) (hlast : last ∈ ts) :
    (f t).isBetween (f first) (f last) = t.isBetween first last := by
  simp only [Token.isBetween, h.start_lt_iff hfirst ht, h.start_lt_iff ht hlast]

/-! ### Spelling -/

theorem spellBehind (h : Respaces f (t :: ts)) : spellBehind (f t) (ts.map f) = CHeader.spellBehind t ts := by
  induction ts generalizing t with
  | nil => rfl
  | cons u us ih =>
    have hblank : needsBlank (f t) (f u) = needsBlank t u := by
      have hapart := List.rel_of_pairwise_cons h.apart (List.mem_cons_self (a := u) (l := us))
      simp only [needsBlank, h.keepsKinds t, h.keepsKinds u, hapart]
    rw [List.map_cons, CHeader.spellBehind, CHeader.spellBehind, hblank, h.text,
      ih (h.sublist (List.sublist_cons_self t _))]

/-- Tokens are spelled as before. -/
theorem spell (h : Respaces f ts) : spell (ts.map f) = CHeader.spell ts := by
  cases ts with
  | nil => rfl
  | cons t ts => rw [List.map_cons, CHeader.spell, CHeader.spell, h.spellBehind, h.text]

theorem takeWhile_ne (h : Respaces f ts) (hu : u ∈ ts) :
    (ts.map f).takeWhile (· ≠ f u) = (ts.takeWhile (· ≠ u)).map f := by
  suffices hsame : ∀ us ⊆ ts, (us.map f).takeWhile (· ≠ f u) = (us.takeWhile (· ≠ u)).map f from
    hsame ts (List.Subset.refl ts)
  intro us hus
  induction us with
  | nil => rfl
  | cons v us ih =>
    have hinj := h.injOn (hus List.mem_cons_self) hu
    simp only [List.map_cons, List.takeWhile_cons, ne_eq, hinj, ih (List.subset_of_cons_subset hus)]
    split <;> rfl

end Respaces

/-! ### Constructs -/

namespace Construct

variable {f : Token → Token} {ts : List Token} {c : Construct} {site site' : Site} {specs : Specifiers}

theorem lostConditional?_respaced (h : Respaces f ts) (hconditionals : c.conditionals ⊆ ts) {omitted spelled : List Token}
    (homitted : omitted ⊆ ts) (hspelled : spelled ⊆ ts) :
    (c.map f).lostConditional? (omitted.map f) (spelled.map f) = (c.lostConditional? omitted spelled).map f := by
  unfold lostConditional?
  rw [List.head?_map, List.getLast?_map, List.head?_map, List.getLast?_map, map]
  cases hfirst : spelled.head? with
  | none => rfl
  | some first =>
    cases hlast : spelled.getLast? with
    | none => rfl
    | some last =>
      have hfirst' := hspelled (List.mem_of_head? hfirst)
      have hlast' := hspelled (List.mem_of_getLast? hlast)
      simp only [Option.map_some, bind, Option.bind_some, List.find?_map]
      congr 1
      apply List.find?_congr
      intro t ht
      have hmem := hconditionals ht
      have hinside : ((omitted.map f).head?.any fun opening => (omitted.map f).getLast?.any fun closing =>
          (f t).isBetween opening closing) =
          omitted.head?.any fun opening => omitted.getLast?.any fun closing => t.isBetween opening closing := by
        rw [List.head?_map, List.getLast?_map]
        cases hopening : omitted.head? with
        | none => rfl
        | some opening =>
          cases hclosing : omitted.getLast? with
          | none => rfl
          | some closing =>
            exact h.isBetween hmem (homitted (List.mem_of_head? hopening)) (homitted (List.mem_of_getLast? hclosing))
      rw [List.head?_map, List.getLast?_map] at hinside
      simp only [Function.comp_apply, h.isBetween hmem hfirst' hlast', hinside]

/-- What the tokens of a construct are among. -/
structure Within (c : Construct) (ts : List Token) : Prop where
  head : c.head.Sublist ts
  conditionals : c.conditionals ⊆ ts

variable {markers : Bool} {piece : Nesting.Piece}

theorem sublist_head_of_parts {first second : List Token} (hfirst : first.Sublist (Specifiers.ofTokens markers c.head).tokens)
    (hsecond : second.Sublist (Shape.behindSpecifiers (.ofTokens markers c.head) c.head)) : (first ++ second).Sublist c.head := by
  have hparts := hfirst.append hsecond
  rwa [Specifiers.tokens_append_behind] at hparts

theorem sublist_behind_of_mem_pieces (hpiece : piece ∈ c.pieces (.ofTokens markers c.head)) :
    piece.declaring.Sublist (Shape.behindSpecifiers (.ofTokens markers c.head) c.head) := by
  obtain ⟨rest, hrest⟩ := piece.declaring_append
  exact (hrest ▸ List.sublist_append_left piece.declaring rest).trans (sublist_of_mem_pieces hpiece)

theorem omitted_subset (hpiece : piece ∈ c.pieces (.ofTokens markers c.head)) :
    omitted (.ofTokens markers c.head) ⊆ c.head := by
  obtain ⟨before, behind, hsplit, -⟩ := exists_omitted hpiece
  intro t ht
  rw [hsplit]
  simp [ht]

theorem prototypeTokens_respaced (h : Respaces f piece.declaring) :
    (c.map f).prototypeTokens (piece.map f) = (c.prototypeTokens piece).map f := by
  have hparameters : (c.map f).parameters.isEmpty = c.parameters.isEmpty := by simp [map]
  unfold prototypeTokens
  rw [Nesting.Piece.declarator_map h.keepsKinds, Declarator.map, hparameters, Nesting.Piece.declaring_map h.keepsKinds]
  cases hopening : piece.declarator.parameters with
  | none => rfl
  | some opening =>
    obtain ⟨front, rest, hsplit, -⟩ := Declarator.ofTokens_front hopening
    have hmem : opening ∈ piece.declaring := by simp [hsplit]
    simp only [Option.map_some]
    split_ifs
    · rfl
    · rw [h.takeWhile_ne hmem, List.map_append, List.map_singleton]

theorem rebuilt_functionText (h : Respaces f ts) (hc : c.Within ts) (hpiece : piece ∈ c.pieces (.ofTokens markers c.head))
    (start : Token) :
    ((c.map f).functionText site' ((Specifiers.ofTokens markers c.head).map f) (f start) (piece.map f)).map DeclText.rebuilt? =
      ((c.functionText site (.ofTokens markers c.head) start piece).map DeclText.rebuilt?).mapError f := by
  have hparameters : (c.map f).parameters.isEmpty = c.parameters.isEmpty := by simp [map]
  have hdeclaring := sublist_behind_of_mem_pieces hpiece
  have hhead := sublist_head_of_parts (sublist_shared markers c.head) ((sublist_prototypeTokens c piece).trans hdeclaring)
  have hprototype := @prototypeTokens_respaced f c piece
    (h.sublist (hdeclaring.trans ((List.drop_sublist _ _).trans hc.head)))
  have hlost := lostConditional?_respaced h hc.conditionals (fun t ht => hc.head.subset (omitted_subset hpiece ht))
    (hhead.trans hc.head).subset
  have hspell := (h.sublist (hhead.trans hc.head)).spell
  rw [List.map_append] at hlost hspell
  simp only [functionText, hasBody_map, Specifiers.isInline_map, Specifiers.isStatic_map, shared_map, hprototype, omitted_map,
    hlost, hparameters, hspell]
  split_ifs
  · rfl
  all_goals
    cases c.lostConditional? (omitted (.ofTokens markers c.head)) (shared (.ofTokens markers c.head) ++ c.prototypeTokens piece) <;>
      rfl

theorem rebuilt_variableText (h : Respaces f ts) (hc : c.Within ts) (hpiece : piece ∈ c.pieces (.ofTokens markers c.head)) :
    ((c.map f).variableText ((Specifiers.ofTokens markers c.head).map f) (piece.map f)).map DeclText.rebuilt? =
      ((c.variableText (.ofTokens markers c.head) piece).map DeclText.rebuilt?).mapError f := by
  let isStorage (t : Token) : Bool := t.kind = .keyword .externKw || t.kind = .keyword .staticKw
  have hdeclaring := sublist_behind_of_mem_pieces hpiece
  have hkept : ((shared (.ofTokens markers c.head)).filter (!isStorage ·)).Sublist (Specifiers.ofTokens markers c.head).tokens :=
    List.filter_sublist.trans (sublist_shared markers c.head)
  have hhead := sublist_head_of_parts hkept hdeclaring
  have hlost := lostConditional?_respaced h hc.conditionals (fun t ht => hc.head.subset (omitted_subset hpiece ht))
    (hhead.trans hc.head).subset
  have hspell := (h.sublist (hhead.trans hc.head)).spell
  have hstorage : ((shared (.ofTokens markers c.head)).map f).filter (!isStorage ·) =
      ((shared (.ofTokens markers c.head)).filter (!isStorage ·)).map f := by
    rw [List.filter_map]
    simp only [Function.comp_def, isStorage, h.keepsKinds _]
  rw [List.map_append] at hlost hspell
  simp only [variableText, shared_map, Nesting.Piece.declaring_map h.keepsKinds, omitted_map]
  simp only [isStorage] at hlost hspell hstorage
  rw [hstorage, hlost, hspell]
  generalize c.lostConditional? _ _ = lost
  cases lost <;> rfl

theorem saying_declaratorEntry (h : Respaces f ts) (hc : c.Within ts) (hguard : site'.guard = site.guard)
    (hblock : site'.block = site.block) (hpiece : piece ∈ c.pieces (.ofTokens markers c.head)) (start : Token) :
    ((c.map f).declaratorEntry site' ((Specifiers.ofTokens markers c.head).map f) (f start) (piece.map f)).saying =
      (c.declaratorEntry site (.ofTokens markers c.head) start piece).saying := by
  set specs := Specifiers.ofTokens markers c.head with hspecs
  have hvisibility : (specs.map f).visibility site'.block = specs.visibility site.block := by
    rw [Specifiers.visibility, typeVisibility_map hblock, Specifiers.isStatic_map, Specifiers.marker?_map,
      Specifiers.visibility]
  have hname : (Declarator.map f piece.declarator).name = piece.declarator.name.map f := rfl
  have hfunction := @rebuilt_functionText f ts c site site' markers piece h hc hpiece start
  have hvariable := rebuilt_variableText h hc hpiece
  rw [← hspecs] at hfunction hvariable
  simp only [declaratorEntry, Nesting.Piece.declarator_map h.keepsKinds, hname, Declarator.isFunction_map, hasBody_map,
    hvisibility]
  cases piece.declarator.name with
  | none => rfl
  | some name =>
    simp only [Option.map_some]
    split_ifs
    · revert hfunction
      cases c.functionText site specs start piece <;>
        cases (c.map f).functionText site' (specs.map f) (f start) (piece.map f) <;>
        simp +contextual [Except.map, Except.mapError, Entry.saying, draft, hguard, h.text]
    · rfl
    · revert hvariable
      cases c.variableText specs piece <;>
        cases (c.map f).variableText (specs.map f) (piece.map f) <;>
        simp +contextual [Except.map, Except.mapError, Entry.saying, draft, hguard, h.text]

/-! ### All entries -/

theorem saying_typedefEntries (h : Respaces f ts) (hguard : site'.guard = site.guard) (hblock : site'.block = site.block)
    (start start' : Token) :
    ((c.map f).typedefEntries site' (specs.map f) start').map Entry.saying =
      (c.typedefEntries site specs start).map Entry.saying := by
  have hnames : ((c.map f).pieces (specs.map f)).filterMap (fun piece => (Declarator.ofTokens piece.tokens).name) =
      ((c.pieces specs).filterMap fun piece => (Declarator.ofTokens piece.tokens).name).map f := by
    rw [pieces_map h.keepsKinds, List.filterMap_map, List.map_filterMap]
    congr 1
    funext piece
    simp [Nesting.Piece.map, Declarator.ofTokens_map h.keepsKinds, Declarator.map]
  unfold typedefEntries
  rw [hnames, typeVisibility_map hblock]
  cases (c.pieces specs).filterMap fun piece => (Declarator.ofTokens piece.tokens).name with
  | nil => rfl
  | cons name names => simp [Entry.saying, draft, hguard, h.text, DeclText.rebuilt?]

theorem saying_bareEntries (h : Respaces f ts) (hguard : site'.guard = site.guard) (hblock : site'.block = site.block)
    (start start' first first' : Token) :
    ((c.map f).bareEntries site' (specs.map f) start' first').map Entry.saying =
      (c.bareEntries site specs start first).map Entry.saying := by
  unfold bareEntries
  rw [Specifiers.aggregate?_map, typeVisibility_map hblock]
  cases specs.aggregate? with
  | none => rfl
  | some a =>
    have htag : ((a.map f).tag.map (·.text)).toList = (a.tag.map (·.text)).toList := by
      cases htag : a.tag <;> simp [Aggregate.map, htag, h.text]
    simp [Entry.saying, htag, draft, hguard, DeclText.rebuilt?]

theorem saying_taggedEntries (h : Respaces f ts) (hguard : site'.guard = site.guard) (hblock : site'.block = site.block)
    (start start' : Token) :
    ((c.map f).taggedEntries site' (specs.map f) start').map Entry.saying =
      (c.taggedEntries site specs start).map Entry.saying := by
  unfold taggedEntries
  rw [tagged?_map, typeVisibility_map hblock]
  cases tagged? specs with
  | none => rfl
  | some found => simp [Entry.saying, draft, hguard, h.text, DeclText.rebuilt?]

/-- A construct whose tokens stand apart as they did says the same. -/
theorem entries_respaced (h : Respaces f ts) (hc : c.Within ts) (hmarkers : site'.markers = site.markers)
    (hguard : site'.guard = site.guard) (hblock : site'.block = site.block) :
    ((c.map f).entries site').map Entry.saying = (c.entries site).map Entry.saying := by
  have hspecs : (c.map f).specifiers site' = (c.specifiers site).map f := by
    rw [specifiers, specifiers, hmarkers]
    exact Specifiers.ofTokens_map h.keepsKinds _ _
  have hmentions : (mentions ((c.specifiers site).map f)).map Entry.saying = (mentions (c.specifiers site)).map Entry.saying := by
    rw [mentions, Specifiers.kept_map, List.filter_map, mentions, List.map_map, List.map_map, List.map_map]
    simp only [Function.comp_def, h.keepsKinds.isName, h.text, Entry.saying]
  unfold entries
  rw [hspecs]
  cases hfirst : c.head with
  | nil => simp [map, hfirst]
  | cons first rest =>
    have hmapped : (c.map f).head = f first :: rest.map f := by simp [map, hfirst]
    have hdeclarators : ((c.map f).declaratorEntries site' ((c.specifiers site).map f)
        (f (start (c.specifiers site) first)) (f first)).map Entry.saying =
        (c.declaratorEntries site (c.specifiers site) (start (c.specifiers site) first) first).map Entry.saying := by
      simp only [declaratorEntries, pieces_map h.keepsKinds, hasBody_map, List.length_map]
      split_ifs
      · rfl
      · rw [List.map_map, List.map_map, List.map_map]
        apply List.map_congr_left
        intro piece hpiece
        exact saying_declaratorEntry h hc hguard hblock hpiece _
    simp only [hmapped, start_map, Specifiers.isTypedef_map, pieces_map h.keepsKinds, List.isEmpty_map, h.keepsKinds first]
    split_ifs
    · rfl
    · rw [List.map_append, List.map_append, hmentions, saying_typedefEntries h hguard hblock]
    · rw [List.map_append, List.map_append, hmentions, saying_bareEntries h hguard hblock]
    · rw [List.map_append, List.map_append, List.map_append, List.map_append, hmentions, hdeclarators,
        saying_taggedEntries h hguard hblock]

end Construct

end CHeader
