import CHeader.Proofs.Apart
import CHeader.Proofs.Following

/-!
# Every declaration is read back

A declaration of a text is a macro, a copy, an aggregate that is declared apart, or a spelling of tokens
(`restored_of_mem_entries`). Copies and macros are read back without any condition. What is asked of the others is
`Construct.Restorable`: a spelling has to be told apart into the specifiers and the declarator that it was made of,
and an inline function must not define a type on its way.
-/

namespace CHeader

/-- The text of a draft is one declaration wherever it stands. There are directives in copies only. -/
def Draft.Restored (draft : Draft) : Prop :=
  ∃ directives, ReadsAs draft.text.text.toList (Item.Declares directives draft.text.text) ∧
    (draft.text.isVerbatim = false → directives = [])

theorem Draft.Restored.of_verbatim {draft : Draft} {text : String} (htext : draft.text = .verbatim text)
    (h : ∃ directives, ReadsAs text.toList (Item.Declares directives text)) : draft.Restored := by
  obtain ⟨directives, hreads⟩ := h
  refine ⟨directives, ?_, ?_⟩
  · rw [htext]
    exact hreads
  · simp [htext, DeclText.isVerbatim]

/-! ### Macros -/

/-- The directive of a macro is a directive and a declaration wherever it stands. -/
theorem readsAs_macroDirective {source : List Char} {body : List Token} (hbody : Tokenized source body) {token : Token}
    (hmem : token ∈ body) {directive : Directive} (hkind : token.kind = .directive directive)
    (hdefines : directive.kind = .define ∨ directive.kind = .undef) {name : String} (hname : directive.macroName? = some name) :
    ReadsAs token.text.toList fun source item =>
      (∃ t, item = .directive t) ∧ item.Declares [directive] token.text source := by
  obtain ⟨front, behind, hread⟩ := hbody.readIn hmem
  have halone : Reads [⟨[], token.kind, token.text.toList⟩] [] := by
    refine @Reads.front _ [] behind ⟨?_, trivial⟩
    simpa using hread.read
  refine ⟨_, by simp, halone, fun before behind ts hts => ?_⟩
  obtain _ | ⟨hkind', htext, -, -, ⟨⟩⟩ := hts
  rename_i placed
  have htext' : placed.text = token.text := by rw [htext, String.ofList_toList]
  have hdirective : placed.directive? = some directive := by rw [Token.directive?, hkind', hkind]
  refine ⟨.directive placed, ⟨⟨placed, rfl⟩, ?_, fun t => ?_, fun t => ?_⟩, fun linkage => ⟨linkage, fun more => ?_⟩⟩
  · simp [Item.tokens, hdirective]
  · simp [Item.entries, hdirective, macroEntries, hdefines, hname, Entry.draft?, DeclText.text, htext']
  · simp [Item.entries, hdirective, macroEntries, hdefines, hname, Entry.issue?]
  · exact outline_cons_directive (by simp [hdirective])

theorem restored_of_mem_directive {source : List Char} {body : List Token} (hbody : Tokenized source body) {token : Token}
    (hmem : token ∈ body) {markers : Bool} {t : Tracker} {names : List String} {draft : Draft}
    (h : .declare names draft ∈ (Item.directive token).entries source markers t) : draft.Restored := by
  obtain ⟨directive, hdirective, hdefines, ⟨name, hname, -⟩, visibility, rfl⟩ := macro_of_mem_entries h
  have hreads := readsAs_macroDirective hbody hmem (Token.kind_of_directive? hdirective) hdefines hname
  exact .of_verbatim rfl ⟨_, hreads.imp fun _ _ h => h.2⟩

/-! ### Spellings -/

namespace Construct

/-- What is spelled of the specifiers are some of the tokens that are kept. -/
theorem sublist_shared_kept (markers : Bool) (ts : List Token) :
    (shared (.ofTokens markers ts)).Sublist (Specifiers.ofTokens markers ts).kept := by
  cases htagged : tagged? (.ofTokens markers ts) with
  | none =>
    rw [shared, htagged]
    exact List.Sublist.refl _
  | some found =>
    obtain ⟨before, s, behind, -, -, -, hkept, hwithout⟩ := Specifiers.exists_keptWithoutBody (aggregate?_of_tagged? htagged).1
    rw [shared, htagged, if_pos (by simp), hkept, hwithout]
    exact (List.Sublist.refl _).append ((List.sublist_append_left _ _).append (List.Sublist.refl _))

theorem sublist_shared (markers : Bool) (ts : List Token) :
    (shared (.ofTokens markers ts)).Sublist (Specifiers.ofTokens markers ts).tokens :=
  (sublist_shared_kept markers ts).trans (Specifiers.sublist_kept _)

variable {c : Construct} {piece : Nesting.Piece}

/-- What is spelled of a declarator are some of its tokens. -/
theorem sublist_declaring {markers : Bool} (hpiece : piece ∈ c.pieces (.ofTokens markers c.head)) :
    piece.declaring.Sublist (Shape.behindSpecifiers (.ofTokens markers c.head) c.head) := by
  obtain ⟨rest, hrest⟩ := piece.declaring_append
  refine List.Sublist.trans ?_ (sublist_of_mem_pieces hpiece)
  rw [hrest]
  exact List.sublist_append_left _ _

theorem prefix_takeWhile_concat {ts : List Token} {t : Token} (h : t ∈ ts) : ts.takeWhile (· ≠ t) ++ [t] <+: ts := by
  induction ts with
  | nil => cases h
  | cons u ts ih =>
    by_cases heq : u = t
    · subst heq
      simp
    · have hmem : t ∈ ts := (List.mem_cons.1 h).resolve_left fun h => heq h.symm
      simpa [List.takeWhile_cons, heq] using ih hmem

theorem sublist_prototypeTokens (c : Construct) (piece : Nesting.Piece) :
    (c.prototypeTokens piece).Sublist piece.declaring := by
  unfold prototypeTokens
  split
  · rename_i opening hopening
    split_ifs
    · exact List.Sublist.refl _
    · obtain ⟨front, rest, hsplit, -⟩ := Declarator.ofTokens_front hopening
      have hmem : opening ∈ piece.declaring := by simp [hsplit]
      exact (prefix_takeWhile_concat hmem).sublist
  · exact List.Sublist.refl _

/-- The parenthesis that is written behind the tokens of a prototype in the old style. -/
def closing (c : Construct) : List Token :=
  if c.parameters.isEmpty then [] else [writtenParenthesis]

/-- The specifiers that a variable is spelled with, `extern` aside. -/
def variableSpecifiers (c : Construct) : List Token :=
  (shared (.ofTokens true c.head)).filter (!isLinkage ·)

/-- What a declaration of a construct needs to be read back. -/
structure Restorable (c : Construct) (draft : Draft) : Prop where
  /-- An inline function defines no type, which would be declared a second time. -/
  inlined : draft.kind = .function → draft.text.isVerbatim = true → (Specifiers.ofTokens true c.head).isInline = true →
    tagged? (.ofTokens true c.head) = none
  prototype : ∀ piece ∈ c.pieces (.ofTokens true c.head), piece.declarator.isFunction = true →
    draft.text = .synthesized (spell (shared (.ofTokens true c.head) ++ c.prototypeTokens piece ++ c.closing) ++ ";") →
      Rebuildable (shared (.ofTokens true c.head) ++ c.prototypeTokens piece ++ c.closing) true
  external : ∀ piece ∈ c.pieces (.ofTokens true c.head), piece.declarator.isFunction = false →
    piece.declarator.name.isSome = true →
      draft.text = .synthesized ("extern " ++ spell (c.variableSpecifiers ++ piece.declaring) ++ ";") →
        Rebuildable (writtenExtern :: (c.variableSpecifiers ++ piece.declaring)) false

instance (c : Construct) (draft : Draft) : Decidable (c.Restorable draft) :=
  decidable_of_iff
    ((draft.kind = .function → draft.text.isVerbatim = true → (Specifiers.ofTokens true c.head).isInline = true →
        tagged? (.ofTokens true c.head) = none) ∧
      (∀ piece ∈ c.pieces (.ofTokens true c.head), piece.declarator.isFunction = true →
        draft.text = .synthesized (spell (shared (.ofTokens true c.head) ++ c.prototypeTokens piece ++ c.closing) ++ ";") →
          Rebuildable (shared (.ofTokens true c.head) ++ c.prototypeTokens piece ++ c.closing) true) ∧
      ∀ piece ∈ c.pieces (.ofTokens true c.head), piece.declarator.isFunction = false →
        piece.declarator.name.isSome = true →
          draft.text = .synthesized ("extern " ++ spell (c.variableSpecifiers ++ piece.declaring) ++ ";") →
            Rebuildable (writtenExtern :: (c.variableSpecifiers ++ piece.declaring)) false)
    ⟨fun ⟨inlined, prototype, external⟩ => ⟨inlined, prototype, external⟩, fun h => ⟨h.inlined, h.prototype, h.external⟩⟩

theorem comma_of_mem_pieces (hpiece : piece ∈ c.pieces (.ofTokens true c.head)) :
    (Nesting.breakAt (.punct .comma) 0 piece.declaring).2 = [] := by
  simp only [pieces, declarators] at hpiece
  split_ifs at hpiece
  · cases hpiece
  · exact Nesting.Piece.comma_declaring hpiece

/-- What declares a name is a declarator by itself. -/
theorem isDeclarator_declaring (hpiece : piece ∈ c.pieces (.ofTokens true c.head)) (hnamed : piece.declarator.name.isSome = true) :
    IsDeclarator piece.declaring piece.declarator.isFunction :=
  ⟨hnamed, rfl, comma_of_mem_pieces hpiece, piece.equals_declaring⟩

/-- The parameters of a prototype in the old style are cut off behind their parenthesis. -/
theorem prototypeTokens_front (hnodup : piece.declaring.Nodup) {opening : Token} {front rest : List Token}
    (hopening : piece.declarator.parameters = some opening) (hsplit : piece.declaring = front ++ opening :: rest)
    (hold : c.parameters ≠ []) : c.prototypeTokens piece = front ++ [opening] := by
  rw [prototypeTokens, hopening]
  simp only [List.isEmpty_iff, hold, if_false]
  rw [hsplit] at hnodup ⊢
  have hfront : ∀ t ∈ front, decide (t ≠ opening) = true := by
    rintro t ht
    have hne := (List.nodup_append.1 hnodup).2.2 t ht opening List.mem_cons_self
    simpa using hne
  rw [List.takeWhile_append_of_pos hfront, List.takeWhile_cons_of_neg (by simp), List.append_nil]

/-- The tokens of a prototype declare the function that the piece declares. -/
theorem isDeclarator_prototypeTokens (hpiece : piece ∈ c.pieces (.ofTokens true c.head)) (hnodup : piece.declaring.Nodup)
    (hfunction : piece.declarator.isFunction = true) : IsDeclarator (c.prototypeTokens piece ++ c.closing) true := by
  obtain ⟨hnamed, hparameters⟩ := Bool.and_eq_true_iff.1 hfunction
  have hdeclarator := isDeclarator_declaring hpiece hnamed
  obtain ⟨opening, hopening⟩ := Option.isSome_iff_exists.1 hparameters
  by_cases hold : c.parameters = []
  · have htokens : c.prototypeTokens piece = piece.declaring := by simp [prototypeTokens, hopening, hold]
    have hclosing : c.closing = [] := by simp [closing, hold]
    rw [htokens, hclosing, List.append_nil]
    rwa [hfunction] at hdeclarator
  · obtain ⟨front, rest, hsplit, hkind, hmore⟩ := Declarator.ofTokens_front hopening
    have hclosing : c.closing = [writtenParenthesis] := by simp [closing, hold]
    have hfront := prototypeTokens_front hnodup hopening hsplit hold
    have hread : Declarator.ofTokens (front ++ [opening] ++ [writtenParenthesis]) = piece.declarator := by
      rw [Nesting.Piece.declarator, ← hmore [writtenParenthesis]]
      simp
    have hcut : ∀ kind, (Nesting.breakAt kind 0 piece.declaring).2 = [] → writtenParenthesis.kind ≠ kind →
        (Nesting.breakAt kind 0 (front ++ [opening] ++ [writtenParenthesis])).2 = [] := by
      intro kind hnone hkind
      refine Nesting.breakAt_concat (@Nesting.breakAt_of_append kind 0 (front ++ [opening]) rest ?_) hkind
      rwa [List.append_assoc, List.singleton_append, ← hsplit]
    rw [hfront, hclosing]
    exact ⟨by rw [hread, hnamed], by rw [hread, hfunction], hcut _ hdeclarator.comma (by decide),
      hcut _ hdeclarator.equals (by decide)⟩

end Construct

/-! ### Copies -/

/-- A specifier that is no marker word is kept. -/
theorem Specifiers.kept_ne_nil {markers : Bool} {ts : List Token} {s : Specifier} (hs : s ∈ ofTokens markers ts)
    (hmarker : s.isMarker = false) : (ofTokens markers ts).kept ≠ [] := by
  obtain ⟨_, _, t, _, hfirst⟩ := first?_of_mem_take hs
  have hmem : t ∈ s.kept := by
    rw [Specifier.kept, hmarker, if_neg (by simp)]
    exact List.mem_of_head? (Specifier.prefix_of_first? hfirst).2
  exact List.ne_nil_of_mem (List.mem_flatMap.2 ⟨s, hs, hmem⟩)

theorem Construct.Copied.kept_ne_nil {c : Construct} {markers : Bool} (h : c.Copied (.ofTokens markers c.head)) :
    (Specifiers.ofTokens markers c.head).kept ≠ [] := by
  cases h with
  | typedef isTypedef =>
    obtain ⟨s, hs, hrole⟩ := List.any_eq_true.1 isTypedef
    exact Specifiers.kept_ne_nil hs (by simp [Specifier.isMarker, of_decide_eq_true hrole])
  | bare _ _ aggregate =>
    obtain ⟨a, ha⟩ := Option.isSome_iff_exists.1 aggregate
    obtain ⟨s, hs, hs'⟩ := List.mem_filterMap.1 (List.mem_of_getLast? ha)
    exact Specifiers.kept_ne_nil hs (Specifier.isMarker_of_aggregate? hs')
  | inlined _ _ _ isInline =>
    obtain ⟨s, hs, hrole⟩ := List.any_eq_true.1 isInline
    exact Specifiers.kept_ne_nil hs (by simp [Specifier.isMarker, of_decide_eq_true hrole])

section Runs

variable {source : List Char} {before behind run ts rest : List Token} {c : Construct} {first : Token} {site : Site}
  (hbody : Tokenized source (before ++ run ++ behind)) (hstart : first.kind.canStartDeclaration = true)
  (hcollect : Outline.collect true first (.start first) ts = (.construct run c, rest)) (hsource : site.source = source)

include hbody hstart hcollect hsource in
/-- A declaration in the words of the source is read back. -/
theorem readsAs_between (hcopied : c.Copied (.ofTokens true c.head)) (otherwise : Token) :
    ∃ directives, ReadsAs (site.between (Construct.start (.ofTokens true c.head) otherwise) c.last).toList
      (Item.Declares directives (site.between (Construct.start (.ofTokens true c.head) otherwise) c.last)) := by
  obtain ⟨start, others, hkept⟩ := List.exists_cons_of_ne_nil hcopied.kept_ne_nil
  have hfirst : Construct.start (.ofTokens true c.head) otherwise = start := by
    rw [Construct.start, hkept]
    rfl
  obtain ⟨marks, more, hhead, hmarks, hopens⟩ := @Specifiers.exists_marks c.head start (by rw [hkept]; rfl)
  rw [hfirst]
  have hbegins := (Outline.collect_first (Outline.Collected.begins_start first) hcollect).2
  cases marks with
  | nil =>
    obtain rfl : start = first := by simpa [hhead] using hbegins
    exact ⟨_, readsAs_copied hbody hopens hcollect hhead hcopied hsource⟩
  | cons mark marks =>
    obtain rfl : mark = first := by simpa [hhead] using hbegins
    obtain ⟨passed, ts', run', c', hcollect', rfl, hhead', -, hending⟩ := Outline.collect_unmarked hcollect
      (Outline.Collected.within_start hstart) rfl rfl (by simpa [Outline.Collected.start] using hhead)
      (by simpa [Outline.Collected.start] using hmarks) hopens
    have hlast : c'.last = c.last := by
      rw [Construct.last, ← hending]
      rfl
    have hcopied' := hcopied.unmarked hmarks (by rw [hhead, hhead']) hending
    have hsplit : before ++ (passed ++ run') ++ behind = (before ++ passed) ++ run' ++ behind := by simp
    rw [hsplit] at hbody
    rw [← hlast]
    exact ⟨_, readsAs_copied hbody hopens hcollect' hhead' hcopied' hsource⟩

include hbody hstart hcollect in
theorem takenFrom_head {us : List Token} (h : us.Sublist c.head) : TakenFrom source us := by
  obtain ⟨hhead, hsignificant⟩ := Outline.head_of_collect (Outline.Collected.within_start hstart) hcollect
  have hrun : run.Sublist (before ++ run ++ behind) :=
    (List.sublist_append_right before _).trans (List.sublist_append_left _ behind)
  exact hbody.takenFrom ((h.trans hhead).trans hrun) fun t ht => hsignificant t (h.subset ht)

/-- What is spelled of the specifiers and behind them are tokens of the head, in order. -/
theorem sublist_head {us vs : List Token} (hus : us.Sublist (Construct.shared (.ofTokens true c.head)))
    (hvs : vs.Sublist (Shape.behindSpecifiers (.ofTokens true c.head) c.head)) : (us ++ vs).Sublist c.head := by
  have hall := (hus.trans (Construct.sublist_shared true c.head)).append hvs
  rwa [Specifiers.tokens_append_behind] at hall

variable {piece : Nesting.Piece} (hpiece : piece ∈ c.pieces (.ofTokens true c.head))

include hbody hstart hcollect hpiece in
/-- A prototype is read back. -/
theorem readsAs_spelledPrototype
    (h : Rebuildable (Construct.shared (.ofTokens true c.head) ++ c.prototypeTokens piece ++ c.closing) true) {text : String}
    (htext : text = spell (Construct.shared (.ofTokens true c.head) ++ c.prototypeTokens piece ++ c.closing) ++ ";") :
    ReadsAs text.toList (Item.Declares [] text) := by
  have htokens := (Construct.sublist_prototypeTokens c piece).trans (Construct.sublist_declaring hpiece)
  have hus := takenFrom_head hbody hstart hcollect (sublist_head (List.Sublist.refl _) htokens)
  have hclosing : c.closing = [] ∨ c.closing = [writtenParenthesis] := by
    rw [Construct.closing]
    split_ifs
    · exact .inl rfl
    · exact .inr rfl
  rw [htext]
  exact readsAs_prototype hus hclosing h

include hbody hstart hcollect hpiece in
/-- A variable is read back. -/
theorem readsAs_spelledVariable (h : Rebuildable (writtenExtern :: (c.variableSpecifiers ++ piece.declaring)) false) :
    ReadsAs ("extern " ++ spell (c.variableSpecifiers ++ piece.declaring) ++ ";").toList
      (Item.Declares [] ("extern " ++ spell (c.variableSpecifiers ++ piece.declaring) ++ ";")) :=
  readsAs_variable (takenFrom_head hbody hstart hcollect
    (sublist_head (@List.filter_sublist _ (!isLinkage ·) _) (Construct.sublist_declaring hpiece))) h

end Runs

/-! ### Constructs -/

theorem spell_closing (c : Construct) (tokens : List Token) :
    spell (tokens ++ c.closing) ++ ";" = spell tokens ++ if c.parameters.isEmpty then ";" else ");" := by
  rw [Construct.closing]
  split_ifs
  · rw [List.append_nil]
  · rw [writtenParenthesis, spell_append_written rfl, String.append_assoc]
    rfl

/-- The text of a function is a copy, or a spelled prototype. -/
theorem Construct.functionText_cases {c : Construct} {site : Site} {start : Token} {piece : Nesting.Piece} {text : DeclText}
    (h : c.functionText site (.ofTokens true c.head) start piece = .ok text) :
    (c.hasBody = true ∧ (Specifiers.ofTokens true c.head).isInline = true ∧ (Specifiers.ofTokens true c.head).isStatic = false ∧
      text = .verbatim (site.between start c.last)) ∨
    text = .synthesized (spell (shared (.ofTokens true c.head) ++ c.prototypeTokens piece ++ c.closing) ++ ";") := by
  simp only [functionText, ← spell_closing] at h
  split_ifs at h with hinline
  · cases h
    simp only [Bool.and_eq_true, Bool.not_eq_true'] at hinline
    exact .inl ⟨hinline.1.1, hinline.1.2, hinline.2, rfl⟩
  · split at h <;> cases h
    exact .inr rfl

theorem Construct.variableText_eq {c : Construct} {piece : Nesting.Piece} {text : DeclText}
    (h : c.variableText (.ofTokens true c.head) piece = .ok text) :
    text = .synthesized ("extern " ++ spell (c.variableSpecifiers ++ piece.declaring) ++ ";") := by
  simp only [variableText] at h
  split at h <;> cases h
  rfl

/-- A declaration of a construct is a copy, an aggregate apart, or that of a declarator. It ends where the construct
does. -/
theorem Construct.declare_cases {c : Construct} {site : Site} {specs : Specifiers} (hspecs : c.specifiers site = specs)
    {names : List String} {draft : Draft} (h : .declare names draft ∈ c.entries site) :
    draft.span.stop = c.last.span.stop ∧ ∃ otherwise, (c.Copied specs ∧ draft.text = .verbatim (site.between (start specs otherwise) c.last)) ∨
      (specs.isTypedef = false ∧ ∃ a tag, tagged? specs = some (a, tag) ∧ c.pieces specs ≠ [] ∧ draft.text =
        .verbatim (site.between (a.head.head?.getD (start specs otherwise)) (a.body.getLast?.getD (start specs otherwise)) ++ ";")) ∨
      specs.isTypedef = false ∧ ∃ piece ∈ c.pieces specs, (c.hasBody = true → c.pieces specs = [piece]) ∧
        c.declaratorEntry site specs (start specs otherwise) piece = .declare names draft := by
  subst hspecs
  obtain ⟨first, rest, -, -, hyields⟩ := yields_of_mem_entries h
  cases hyields with
  | typedef isTypedef nonempty named =>
    exact ⟨rfl, first, .inl ⟨.typedef isTypedef (by rwa [Construct.names, named]), rfl⟩⟩
  | bare plain undeclared found =>
    exact ⟨rfl, first, .inl ⟨.bare plain undeclared (Option.isSome_of_eq_some found), rfl⟩⟩
  | apart plain declared found => exact ⟨rfl, first, .inr (.inl ⟨plain, _, _, found, declared, rfl⟩)⟩
  | ofFunction plain mem one named isFunction written =>
    refine ⟨rfl, first, .inr (.inr ⟨plain, _, mem, one, ?_⟩)⟩
    simp [declaratorEntry, named, isFunction, written]
  | ofVariable plain mem bodiless named isVariable written =>
    refine ⟨rfl, first, .inr (.inr ⟨plain, _, mem, by simp [bodiless], ?_⟩)⟩
    simp [declaratorEntry, named, isVariable, bodiless, written]

section Entries

variable {source : List Char} {before behind run ts rest : List Token} {c : Construct} {first : Token} {site : Site}
  (hbody : Tokenized source (before ++ run ++ behind)) (hstart : first.kind.canStartDeclaration = true)
  (hcollect : Outline.collect true first (.start first) ts = (.construct run c, rest)) (hsource : site.source = source)
  {names : List String} {draft : Draft}

include hbody hstart hcollect hsource in
/-- What a declarator declares is read back. -/
theorem restored_of_declaratorEntry (hrestorable : c.Restorable draft) (hplain : (Specifiers.ofTokens true c.head).isTypedef = false)
    {piece : Nesting.Piece} (hpiece : piece ∈ c.pieces (.ofTokens true c.head))
    (hone : c.hasBody = true → c.pieces (.ofTokens true c.head) = [piece]) {otherwise : Token}
    (hdraft : c.declaratorEntry site (.ofTokens true c.head) (Construct.start (.ofTokens true c.head) otherwise) piece =
      .declare names draft) : draft.Restored := by
  cases hname : piece.declarator.name with
  | none =>
    simp only [Construct.declaratorEntry, hname] at hdraft
    cases hdraft
  | some name =>
    simp only [Construct.declaratorEntry, hname] at hdraft
    split_ifs at hdraft with hfunction hhasBody
    · cases htext : c.functionText site (.ofTokens true c.head) (Construct.start (.ofTokens true c.head) otherwise) piece with
      | error directive =>
        rw [htext] at hdraft
        cases hdraft
      | ok text =>
        rw [htext] at hdraft
        cases hdraft
        rcases Construct.functionText_cases htext with ⟨hhasBody, hinline, hstatic, rfl⟩ | rfl
        · have hcopied : c.Copied (.ofTokens true c.head) :=
            .inlined hplain (hrestorable.inlined rfl rfl hinline) hhasBody hinline hstatic piece (hone hhasBody) hfunction
          exact .of_verbatim rfl (readsAs_between hbody hstart hcollect hsource hcopied otherwise)
        · exact ⟨[], readsAs_spelledPrototype hbody hstart hcollect hpiece (hrestorable.prototype piece hpiece hfunction rfl) rfl,
            fun _ => rfl⟩
    · cases htext : c.variableText (.ofTokens true c.head) piece with
      | error directive =>
        rw [htext] at hdraft
        cases hdraft
      | ok text =>
        rw [htext] at hdraft
        cases hdraft
        obtain rfl := Construct.variableText_eq htext
        exact ⟨[], readsAs_spelledVariable hbody hstart hcollect hpiece
          (hrestorable.external piece hpiece (by simpa using hfunction) (by simp [hname]) rfl), fun _ => rfl⟩

include hbody hstart hcollect hsource in
/-- What a construct declares is read back. -/
theorem restored_of_mem_entries (hmarkers : site.markers = true)
    (hrestorable : (Specifiers.ofTokens true c.head).isTypedef = false → c.Restorable draft)
    (hdraft : .declare names draft ∈ c.entries site) : draft.Restored := by
  have hspecs : c.specifiers site = .ofTokens true c.head := by rw [Construct.specifiers, hmarkers]
  obtain ⟨-, otherwise, ⟨hcopied, htext⟩ | ⟨-, a, tag, htagged, hpieces, htext⟩ | ⟨hplain, piece, hpiece, hone, hentry⟩⟩ :=
    Construct.declare_cases hspecs hdraft
  · exact .of_verbatim htext (readsAs_between hbody hstart hcollect hsource hcopied otherwise)
  · obtain ⟨last, hlast⟩ : ∃ last, a.body.getLast? = some last :=
      ⟨_, List.getLast?_eq_some_getLast (Construct.aggregate?_of_tagged? htagged).2⟩
    obtain ⟨front, keyword, us, -, -, -, -, -, -, rfl, -, -⟩ := exists_aggregate_of_tagged? htagged hpieces
    rw [hlast] at htext
    exact .of_verbatim htext (readsAs_tagged hbody hstart hcollect htagged hpieces rfl hlast hsource)
  · exact restored_of_declaratorEntry hbody hstart hcollect hsource (hrestorable hplain) hplain hpiece hone hentry

end Entries

end CHeader
