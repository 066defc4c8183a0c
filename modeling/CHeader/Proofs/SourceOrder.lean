import CHeader.Proofs.CopiedConditionals

/-!
# Declarations in the order of the source

The declarations of a run begin at one of its tokens and end at another (`Item.ends?`), the same for all of them, and
runs stand one behind the other. So declarations are in the order of the text, and each of them points at a slice of it.
What is declared in the words of the source is that slice, but for a type that is defined with its variables: that one is
a slice within, with a semicolon behind it (`declarations_in_source_order`).
-/

namespace CHeader

variable {source : List Char} {markers : Bool}

/-! ### Places of tokens -/

theorem Tokenized.stop_le {ts : List Token} (h : Tokenized source ts) {t : Token} (ht : t ∈ ts) :
    t.span.stop ≤ byteLength source := by
  obtain ⟨before, behind, hread⟩ := h.readIn ht
  rw [hread.span, hread.text]
  simp only [byteLength_append]
  omega

theorem Ordered.stop_le_getLast {ts : List Token} (h : Ordered ts) {t last : Token} (ht : t ∈ ts)
    (hlast : ts.getLast? = some last) : t.span.stop ≤ last.span.stop := by
  obtain ⟨front, rfl⟩ := List.getLast?_eq_some_iff.1 hlast
  rcases List.mem_append.1 ht with hfront | hself
  · have := h.le_of_append hfront List.mem_cons_self
    have := h.positive last (by simp)
    omega
  · rw [List.mem_singleton.1 hself]

/-! ### Places of runs -/

namespace Item

/-- The tokens at which the declarations of a run begin and end. -/
def ends? (markers : Bool) : Item → Option (Token × Token)
  | directive token => some (token, token)
  | construct _ c => c.head.head?.map fun first => (Construct.start (.ofTokens markers c.head) first, c.last)
  | skipped _ | malformed .. => none

variable {item : Item} {t : Tracker} {names : List String} {draft : Draft} {first last : Token}

/-- A declaration reaches over all that its run may declare, and is on the line of its first token. -/
theorem ends_of_mem_entries (h : .declare names draft ∈ item.entries source markers t) :
    ∃ first last, item.ends? markers = some (first, last) ∧ draft.span = ⟨first.span.start, last.span.stop⟩ ∧
      draft.line = first.line := by
  cases item with
  | skipped => cases h
  | malformed => simp [entries] at h
  | directive token =>
    obtain ⟨-, -, -, -, visibility, rfl⟩ := macro_of_mem_entries h
    exact ⟨token, token, rfl, rfl, rfl⟩
  | construct run c =>
    obtain ⟨first, rest, hhead, _, _, _, rfl⟩ := Construct.madeBy_entries h
    refine ⟨Construct.start (.ofTokens markers c.head) first, c.last, ?_, rfl, rfl⟩
    rw [ends?, hhead]
    rfl

/-- They are tokens of the run, and the second is the last of it. -/
theorem tokens_of_ends? {linkage : Nat} {ts : List Token} (hitem : item ∈ outline markers linkage ts)
    (h : item.ends? markers = some (first, last)) :
    ∃ front more, item.tokens = front ++ first :: more ∧ (first :: more).getLast? = some last := by
  cases item with
  | skipped | malformed => cases h
  | directive token =>
    cases h
    exact ⟨[], [], rfl, rfl⟩
  | construct run c =>
    obtain ⟨start, hstart, heq⟩ := Option.map_eq_some_iff.1 h
    obtain ⟨rfl, rfl⟩ := Prod.mk.inj heq
    have hmem : Construct.start (.ofTokens markers c.head) start ∈ c.head := by
      cases hkept : (Specifiers.ofTokens markers c.head).kept with
      | nil =>
        rw [Construct.start, hkept]
        exact List.mem_of_head? hstart
      | cons kept others =>
        rw [Construct.start, hkept]
        refine (Specifiers.prefix_ofTokens markers c.head).subset ((Specifiers.sublist_kept _).subset ?_)
        rw [hkept]
        exact List.mem_cons_self
    obtain ⟨front, more, hrun⟩ := List.append_of_mem ((head_of_mem_outline hitem).1.subset hmem)
    obtain ⟨_, _, _, -, hcollect⟩ := collect_of_mem_outline hitem
    refine ⟨front, more, hrun, ?_⟩
    rw [← Outline.last_of_collect hcollect, hrun, List.getLast?_append_of_ne_nil _ (List.cons_ne_nil _ _)]

theorem mem_of_ends? {linkage : Nat} {ts : List Token} (hitem : item ∈ outline markers linkage ts)
    (h : item.ends? markers = some (first, last)) : first ∈ item.tokens ∧ last ∈ item.tokens := by
  obtain ⟨front, more, hrun, hlast⟩ := tokens_of_ends? hitem h
  rw [hrun]
  exact ⟨by simp, List.mem_append_right _ (List.mem_of_getLast? hlast)⟩

/-- The place of the declarations of a run is a slice of the text, and not empty. -/
theorem slice_of_ends? {linkage : Nat} {ts before behind : List Token} (hitem : item ∈ outline markers linkage ts)
    (hbody : Tokenized source (before ++ item.tokens ++ behind)) (h : item.ends? markers = some (first, last)) :
    first.span.start < last.span.stop ∧ ∃ slice, Span.slice? ⟨first.span.start, last.span.stop⟩ source = some slice := by
  obtain ⟨front, more, hrun, hlast⟩ := tokens_of_ends? hitem h
  have hcut : Tokenized source ((before ++ front) ++ first :: more ++ behind) := by simpa [hrun] using hbody
  have hordered : Ordered (first :: more) := hcut.ordered.middle
  obtain ⟨l, row, -, -, -, hslice⟩ := hcut.cut hlast
  have hle := hordered.le_getLast List.mem_cons_self hlast
  have hpositive := hordered.positive last (List.mem_of_getLast? hlast)
  exact ⟨by omega, _, hslice⟩

end Item

/-! ### Order -/

/-- One run declares both, at the same place. -/
def DeclaredTogether (source : List Char) (markers : Bool) (items : List Item) (draft other : Draft) : Prop :=
  draft.span = other.span ∧ ∃ item ∈ items, ∃ here names names',
    .declare names draft ∈ item.entries source markers here ∧ .declare names' other ∈ item.entries source markers here

theorem DeclaredTogether.mono {items items' : List Item} {draft other : Draft} (h : DeclaredTogether source markers items draft other)
    (hsub : items ⊆ items') : DeclaredTogether source markers items' draft other := by
  obtain ⟨hspan, item, hitem, hboth⟩ := h
  exact ⟨hspan, item, hsub hitem, hboth⟩

theorem declaredTogether_of_mem_entries {item : Item} {t : Tracker} {names names' : List String} {draft other : Draft}
    (h : .declare names draft ∈ item.entries source markers t) (h' : .declare names' other ∈ item.entries source markers t) :
    DeclaredTogether source markers [item] draft other := by
  obtain ⟨first, last, hends, hspan, -⟩ := Item.ends_of_mem_entries h
  obtain ⟨first', last', hends', hspan', -⟩ := Item.ends_of_mem_entries h'
  rw [hends] at hends'
  cases hends'
  exact ⟨hspan.trans hspan'.symm, item, List.mem_singleton_self item, t, names, names', h, h'⟩

/-- What runs declare, one behind the other, is in the order of the text. -/
theorem pairwise_entriesFrom {linkage : Nat} {ts : List Token} {items : List Item} {t : Tracker}
    (hitems : items ⊆ outline markers linkage ts) (hordered : Ordered (items.flatMap Item.tokens)) :
    ((entriesFrom source markers t items).filterMap Entry.draft?).Pairwise fun draft other =>
      DeclaredTogether source markers items draft other ∨ draft.span.stop ≤ other.span.start := by
  induction items generalizing t with
  | nil => exact .nil
  | cons item items ih =>
    obtain ⟨hitem, hitems⟩ := List.cons_subset.1 hitems
    rw [List.flatMap_cons] at hordered
    rw [entriesFrom, List.filterMap_append]
    refine List.pairwise_append.2 ⟨?_, ?_, ?_⟩
    · refine List.pairwise_of_forall_mem_list fun draft hdraft other hother => ?_
      obtain ⟨names, h⟩ := Entry.mem_of_mem_drafts hdraft
      obtain ⟨names', h'⟩ := Entry.mem_of_mem_drafts hother
      exact .inl ((declaredTogether_of_mem_entries h h').mono (by simp))
    · cases hpass : t.passAll item.tokens with
      | error fault => exact .nil
      | ok behind =>
        refine (ih hitems (hordered.sublist (List.sublist_append_right _ _))).imp ?_
        exact fun h => h.imp_left fun h => h.mono (List.subset_cons_self item items)
    · intro draft hdraft other hother
      cases hpass : t.passAll item.tokens with
      | error fault => simp [hpass] at hother
      | ok behind =>
        simp only [hpass] at hother
        obtain ⟨names, h⟩ := Entry.mem_of_mem_drafts hdraft
        obtain ⟨names', h'⟩ := Entry.mem_of_mem_drafts hother
        obtain ⟨earlier, item', later, here, hsplit, -, h'⟩ := mem_entriesFrom h'
        have hmem : item' ∈ items := by simp [hsplit]
        obtain ⟨first, last, hends, hspan, -⟩ := Item.ends_of_mem_entries h
        obtain ⟨first', last', hends', hspan', -⟩ := Item.ends_of_mem_entries h'
        have hlast := (Item.mem_of_ends? hitem hends).2
        have hfirst := (Item.mem_of_ends? (hitems hmem) hends').1
        right
        rw [hspan, hspan']
        exact hordered.le_of_append hlast (List.mem_flatMap.2 ⟨item', hmem, hfirst⟩)

/-! ### Copies -/

/-- A text is a slice of the source from the head of an aggregate to the end of its body, with a semicolon behind it. The
aggregate is defined by the construct `c`, together with declarators, and the slice lies within `span`. -/
def IsDefinitionWithin (source : List Char) (markers : Bool) (c : Construct) (span : Span) (text : String) : Prop :=
  ∃ a tag first last slice, Construct.tagged? (.ofTokens markers c.head) = some (a, tag) ∧
    c.pieces (.ofTokens markers c.head) ≠ [] ∧ a.head.head? = some first ∧ a.body.getLast? = some last ∧
    span.start ≤ first.span.start ∧ first.span.start < last.span.stop ∧ last.span.stop ≤ span.stop ∧
    Span.slice? ⟨first.span.start, last.span.stop⟩ source = some slice ∧ text = String.ofList slice ++ ";"

section Construct

variable {linkage : Nat} {ts before behind run : List Token} {c : Construct} {t : Tracker} {names : List String} {draft : Draft}
  (hitem : .construct run c ∈ outline markers linkage ts) (hbody : Tokenized source (before ++ run ++ behind))
  (h : .declare names draft ∈ (Item.construct run c).entries source markers t)

include hitem hbody h in
/-- A copy of the construct behind its marker words is the slice that the declaration points at. -/
theorem slice_of_kept (hkept : (Specifiers.ofTokens markers c.head).kept ≠ []) {site : Site} (hsource : site.source = source)
    {otherwise : Token} {text : String} 
    (htext : text = site.between (Construct.start (.ofTokens markers c.head) otherwise) c.last) :
    draft.span.slice? source = some text.toList := by
  obtain ⟨first, last, hends, hspan, -⟩ := Item.ends_of_mem_entries h
  obtain ⟨-, slice, hslice⟩ := Item.slice_of_ends? hitem hbody hends
  obtain ⟨start, hstart, heq⟩ := Option.map_eq_some_iff.1 hends
  obtain ⟨hfirst, rfl⟩ := Prod.mk.inj heq
  obtain ⟨kept, others, hothers⟩ := List.exists_cons_of_ne_nil hkept
  have hsame : Construct.start (.ofTokens markers c.head) otherwise = first := by
    rw [← hfirst, Construct.start, Construct.start, hothers]
    rfl
  rw [htext, hsame, hspan, Site.between, hsource, hslice, Option.getD_some, String.toList_ofList]

include hitem hbody h in
/-- An aggregate that is declared apart is defined within the place of the declaration. -/
theorem isDefinitionWithin_of_tagged {a : Aggregate} {tag : Token}
    (htagged : Construct.tagged? (.ofTokens markers c.head) = some (a, tag)) (hpieces : c.pieces (.ofTokens markers c.head) ≠ [])
    {site : Site} (hmarkers : site.markers = markers) (hsource : site.source = source) (otherwise : Token) :
    IsDefinitionWithin source markers c draft.span
      (site.between (a.head.head?.getD otherwise) (a.body.getLast?.getD otherwise) ++ ";") := by
  obtain ⟨start, us, rest, hstart, hcollect⟩ := collect_of_mem_outline hitem
  rw [← hmarkers] at hcollect htagged hpieces
  obtain ⟨keyword, last, front, mid, later, hkeyword, hlast, hrun, -⟩ := exists_ends_of_tagged hstart hcollect htagged hpieces
  rw [hmarkers] at htagged hpieces hcollect
  have hcut : Tokenized source ((before ++ front) ++ keyword :: (mid ++ [last]) ++ (later ++ behind)) := by
    simpa [hrun] using hbody
  have hend : (keyword :: (mid ++ [last])).getLast? = some last := by rw [← List.cons_append, List.getLast?_concat]
  obtain ⟨l, row, -, -, -, hslice⟩ := hcut.cut hend
  have hordered : Ordered run := hbody.ordered.middle
  have hdefinition : Ordered (keyword :: (mid ++ [last])) := hcut.ordered.middle
  -- the declaration begins at the first token that is kept, and the keyword is kept
  have hmem : keyword ∈ (Specifiers.ofTokens markers c.head).kept :=
    Construct.subset_kept_of_tagged? htagged (List.mem_append_left _ (List.mem_of_head? hkeyword))
  obtain ⟨first, stop, hends, hspan, -⟩ := Item.ends_of_mem_entries h
  obtain ⟨begins, hbegins, heq⟩ := Option.map_eq_some_iff.1 hends
  obtain ⟨rfl, rfl⟩ := Prod.mk.inj heq
  have hle : (Construct.start (.ofTokens markers c.head) begins).span.start ≤ keyword.span.start := by
    obtain ⟨kept, others, hothers⟩ := List.exists_cons_of_ne_nil (List.ne_nil_of_mem hmem)
    have hkept : Ordered (Specifiers.ofTokens markers c.head).kept := by
      refine hordered.sublist (((Specifiers.sublist_kept _).trans ?_).trans (head_of_mem_outline hitem).1)
      exact (Specifiers.prefix_ofTokens markers c.head).sublist
    rw [hothers] at hkept hmem
    rw [Construct.start, hothers]
    exact hkept.head_le keyword hmem
  have hstop := hordered.stop_le_getLast (show last ∈ run by simp [hrun]) (Outline.last_of_collect hcollect)
  have hbetween := hdefinition.le_getLast List.mem_cons_self hend
  have hpositive := hdefinition.positive last (by simp)
  refine ⟨a, tag, keyword, last, _, htagged, hpieces, hkeyword, hlast, ?_, by omega, ?_, hslice, ?_⟩
  · rwa [hspan]
  · rwa [hspan]
  · rw [hkeyword, hlast, Option.getD_some, Option.getD_some, Site.between, hsource, hslice, Option.getD_some]

include hitem hbody h in
/-- What a construct declares in the words of the source is what the declaration points at, or a definition within. -/
theorem slice_of_mem_entries {text : String} (htext : draft.text = .verbatim text) :
    draft.span.slice? source = some text.toList ∨ IsDefinitionWithin source markers c draft.span text := by
  obtain ⟨-, otherwise, ⟨hcopied, hcopy⟩ | ⟨-, a, tag, htagged, hpieces, hcopy⟩ | ⟨-, piece, -, -, hdeclare⟩⟩ :=
    Construct.declare_cases rfl h
  · exact .inl (slice_of_kept hitem hbody h hcopied.kept_ne_nil rfl (DeclText.verbatim.inj (htext.symm.trans hcopy)))
  · obtain rfl := DeclText.verbatim.inj (htext.symm.trans hcopy)
    exact .inr (isDefinitionWithin_of_tagged hitem hbody h htagged hpieces rfl rfl _)
  · rcases Construct.text_of_declaratorEntry hdeclare with ⟨hinline, hcopy⟩ | ⟨hspelling, -⟩
    · obtain ⟨s, hs, hrole⟩ := List.any_eq_true.1 hinline
      have hkept := Specifiers.kept_ne_nil hs (by simp [Specifier.isMarker, of_decide_eq_true hrole])
      exact .inl (slice_of_kept hitem hbody h hkept rfl (DeclText.verbatim.inj (htext.symm.trans hcopy)))
    · rw [htext] at hspelling
      cases hspelling

end Construct

/-! ### Numbers -/

/-- The declarations of a survey are numbered in order. -/
theorem id_of_getElem?_recordAll {entries : List Entry} {i : Nat} {d : Declaration}
    (h : (Survey.recordAll {} entries).declarations.items[i]? = some d) : d.id = i := by
  have hshown := congrArg (·[i]?) (Survey.shown_recordAll entries)
  simp only [DeclarationList.shown, List.getElem?_map, h, Option.map_some, List.getElem?_zipIdx] at hshown
  obtain ⟨named, -, heq⟩ := Option.map_eq_some_iff.1 hshown.symm
  simpa [DeclarationList.shownOf] using (congrArg Prod.snd heq).symm

/-- Declarations are in the order of the source and point at their texts. They are numbered by their places in the list. A
declaration points at a slice of the source that is not empty, and its line is that of the start of the slice. Two of
them are made by one construct and point at the same slice, or the first of them ends before the second starts. What is
declared in the words of the source is the slice; only a type that is defined together with declarators is a slice
within, with a semicolon behind it. -/
theorem declarations_in_source_order {markers : Bool} {source : String} {s : Survey}
    (hsurvey : surveySource markers source = .ok s) :
    ∃ tokens, tokenize source = .ok tokens ∧
      (∀ (i : Nat) (d : Declaration), s.declarations.items[i]? = some d → d.id = i) ∧
      (∀ d ∈ s.declarations.items, d.span.start < d.span.stop ∧ d.span.stop ≤ byteLength source.toList ∧
        (∃ slice, d.span.slice? source.toList = some slice) ∧ d.line = 1 + newlinesBefore d.span.start source.toList) ∧
      (s.declarations.items.Pairwise fun d e =>
        DeclaredTogether source.toList markers (outline markers 0 tokens) d.toDraft e.toDraft ∨ d.span.stop ≤ e.span.start) ∧
      ∀ d ∈ s.declarations.items, ∀ text, d.text = .verbatim text →
        d.span.slice? source.toList = some text.toList ∨
          ∃ run c here names, .construct run c ∈ outline markers 0 tokens ∧
            .declare names d.toDraft ∈ (Item.construct run c).entries source.toList markers here ∧
            IsDefinitionWithin source.toList markers c d.span text := by
  obtain ⟨tokens, htokens⟩ : ∃ tokens, tokenize source = .ok tokens := by
    cases htokens : tokenize source with
    | ok tokens => exact ⟨tokens, rfl⟩
    | error errors => simp [surveySource, htokens, bind, Except.bind] at hsurvey
  obtain ⟨-, rfl⟩ := recorded_of_surveySource htokens hsurvey
  obtain ⟨hbody, -⟩ := tokenized_outline htokens markers
  refine ⟨tokens, htokens, fun i d => id_of_getElem?_recordAll, fun d hd => ?_, ?_, fun d hd text htext => ?_⟩
  · obtain ⟨earlier, item, later, here, -, names, houtline, -, hentry, -⟩ := exists_run_of_mem_recordAll hd
    obtain ⟨hrun, last, -, hall⟩ := tokenized_run htokens houtline
    have hitem : item ∈ outline markers 0 tokens := by simp [houtline]
    obtain ⟨first, stop, hends, hspan, hline⟩ := Item.ends_of_mem_entries hentry
    obtain ⟨hlt, hslice⟩ := Item.slice_of_ends? hitem hrun hends
    obtain ⟨hfirst, hstop⟩ := Item.mem_of_ends? hitem hends
    have hmem : ∀ t ∈ item.tokens, t ∈ earlier.flatMap Item.tokens ++ item.tokens ++ later.flatMap Item.tokens :=
      fun t ht => List.mem_append_left _ (List.mem_append_right _ ht)
    rw [hspan, hline]
    refine ⟨hlt, hrun.stop_le (hmem stop hstop), hslice, line_of_mem_tokenize htokens ?_⟩
    rw [hall]
    exact List.mem_append_left _ (hmem first hfirst)
  · have hdrafts := Survey.drafts_recordAll {} (entriesFrom source.toList markers { recognizeBlocks := markers } (outline markers 0 tokens))
    have hpairwise := @pairwise_entriesFrom source.toList markers 0 tokens _ { recognizeBlocks := markers }
      (List.Subset.refl _) hbody.ordered
    rw [DeclarationList.drafts, DeclarationList.drafts, List.map_nil, List.nil_append] at hdrafts
    rw [← hdrafts] at hpairwise
    exact List.pairwise_map.1 hpairwise
  · obtain ⟨earlier, item, later, here, -, names, houtline, -, hentry, -⟩ := exists_run_of_mem_recordAll hd
    obtain ⟨hrun, -⟩ := tokenized_run htokens houtline
    have hitem : item ∈ outline markers 0 tokens := by simp [houtline]
    cases item with
    | skipped => cases hentry
    | malformed => simp [Item.entries] at hentry
    | directive token =>
      obtain ⟨-, -, -, -, visibility, hdraft⟩ := macro_of_mem_entries hentry
      obtain ⟨before, behind, hread⟩ := hrun.readIn
        (show token ∈ earlier.flatMap Item.tokens ++ (Item.directive token).tokens ++ later.flatMap Item.tokens by simp [Item.tokens])
      rw [hdraft] at htext
      obtain rfl := DeclText.verbatim.inj htext
      rw [hdraft]
      exact .inl hread.slice
    | construct run c =>
      rcases slice_of_mem_entries hitem hrun hentry htext with hslice | hwithin
      · exact .inl hslice
      · exact .inr ⟨run, c, here, names, hitem, hentry, hwithin⟩

/-- Two variables and the type that is defined with them, behind a marker word and before a macro. -/
theorem declarations_in_source_order_tagged :
    let source := "EXPORT struct s \x7b int x; \x7d v, *w;\n#define N 1"
    ∃ s tokens, surveySource true source = .ok s ∧ s.declarations.items.length = 4 ∧ tokenize source = .ok tokens ∧
      (∀ (i : Nat) (d : Declaration), s.declarations.items[i]? = some d → d.id = i) ∧
      (∀ d ∈ s.declarations.items, d.span.start < d.span.stop ∧ d.span.stop ≤ byteLength source.toList ∧
        (∃ slice, d.span.slice? source.toList = some slice) ∧ d.line = 1 + newlinesBefore d.span.start source.toList) ∧
      (s.declarations.items.Pairwise fun d e =>
        DeclaredTogether source.toList true (outline true 0 tokens) d.toDraft e.toDraft ∨ d.span.stop ≤ e.span.start) ∧
      ∀ d ∈ s.declarations.items, ∀ text, d.text = .verbatim text →
        d.span.slice? source.toList = some text.toList ∨
          ∃ run c here names, .construct run c ∈ outline true 0 tokens ∧
            .declare names d.toDraft ∈ (Item.construct run c).entries source.toList true here ∧
            IsDefinitionWithin source.toList true c d.span text := by
  intro source
  have hsurvey : surveySource true source = .ok ((surveySource true source).toOption.getD {}) := by decide +kernel
  obtain ⟨tokens, htokens, horder⟩ := declarations_in_source_order hsurvey
  exact ⟨_, tokens, hsurvey, by decide +kernel, htokens, horder⟩

end CHeader
