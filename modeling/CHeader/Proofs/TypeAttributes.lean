import CHeader.Proofs.Definitions

/-!
# Attributes of types

A construct may define a type and declare functions or variables of it. Attributes of the type stand before its tag or
behind it, and behind its body. The type is declared apart, from its keyword to the end of its body, so those before the
body are in its text. Those behind the body are spelled with the functions and variables instead. Only a `typedef`
keeps them with the type, as its text is that of the whole construct (`attributes_of_type`).
-/

namespace CHeader

/-! ### Specifiers -/

/-- An attribute is a specifier wherever it stands, and no marker word. -/
theorem Specifier.first?_of_isAttribute {t : Token} (h : t.isAttribute = true) (markers typed behindExtern : Bool)
    (ts : List Token) : first? markers typed behindExtern t ts = some (withArgument .other t ts) := by
  have hword := h
  unfold Token.isAttribute TokenKind.identifier? at hword
  split at hword
  · rename_i word hkind
    have hwords : ∀ w ∈ attributeWords, w ∉ internalMarkers ∧ w ∉ exportMarkers := by decide
    have hne := hwords word (by simpa using hword)
    have hmarker : markerOf? markers t = none := by simp [markerOf?, hkind, hne]
    simp [first?, hkind, ofIdentifier?, hmarker, h]
  · cases hword

/-- The attributes that tokens start with are the first specifiers of them, and are kept. -/
theorem Specifiers.attributes_prefix_kept (markers typed behindExtern : Bool) (ts : List Token) :
    attributes ts <+: kept (take markers typed behindExtern ts) := by
  fun_induction attributes ts generalizing typed behindExtern with
  | case1 => exact List.nil_prefix
  | case2 t ts hattribute argument ih =>
    have hfirst := Specifier.first?_of_isAttribute hattribute markers typed behindExtern ts
    rw [take, hfirst]
    simp only [Specifier.withArgument, List.length_cons, Nat.add_sub_cancel]
    have hcons (specs : Specifiers) : kept (⟨.other, t :: argument⟩ :: specs) = t :: (argument ++ kept specs) :=
      List.flatMap_cons
    rw [hcons]
    exact (List.prefix_cons_inj t).2 ((List.prefix_append_right_inj argument).2 (ih ..))
  | case3 => exact List.nil_prefix

namespace Construct

/-- Behind a type that is declared apart stand attributes that are kept. -/
theorem exists_behind_of_tagged? {markers : Bool} {ts : List Token} {a : Aggregate} {tag : Token}
    (h : tagged? (.ofTokens markers ts) = some (a, tag)) :
    ∃ before behind, ts = before ++ (a.head ++ a.body) ++ behind ∧
      attributes behind ⊆ (Specifiers.ofTokens markers ts).keptWithoutBody := by
  obtain ⟨pre, s, post, hspecs, hs, -, -, hkept⟩ := Specifiers.exists_keptWithoutBody (aggregate?_of_tagged? h).1
  obtain ⟨typed, behindExtern, t, us, hts, hfirst, -, hpost⟩ := Specifiers.exists_of_take hspecs
  have htokens := Specifier.tokens_of_aggregate? hfirst hs
  obtain ⟨⟨behind, hbehind⟩, hstart⟩ := Specifier.prefix_of_first? hfirst
  obtain ⟨inner, hinner⟩ := List.head?_eq_some_iff.1 hstart
  have hdrop : us.drop (s.tokens.length - 1) = behind := by
    rw [hinner, List.cons_append] at hbehind
    rw [hinner, ← (List.cons.inj hbehind).2]
    simp
  refine ⟨pre.tokens, behind, ?_, ?_⟩
  · rw [hts, ← hbehind, htokens, ← List.append_assoc]
  · rw [hkept]
    intro u hu
    have hmem : u ∈ Specifiers.kept post := by
      rw [hpost, hdrop]
      exact (Specifiers.attributes_prefix_kept ..).subset hu
    simp [hmem]

/-! ### Declarations of types -/

variable {c : Construct} {site : Site} {specs : Specifiers} {a : Aggregate} {tag : Token}

/-- Where a construct defines a type before declarators, the type is declared with its names or apart. -/
theorem type_cases (hspecs : c.specifiers site = specs) (htagged : tagged? specs = some (a, tag))
    (hpieces : c.pieces specs ≠ []) {names : List String} {draft : Draft} (h : .declare names draft ∈ c.entries site)
    (hkind : draft.kind = .type) :
    ∃ otherwise, (specs.isTypedef = true ∧ draft.text = .verbatim (site.between (start specs otherwise) c.last)) ∨
      (specs.isTypedef = false ∧ draft.text = .verbatim (site.between (a.head.head?.getD (start specs otherwise))
        (a.body.getLast?.getD (start specs otherwise)) ++ ";")) := by
  subst hspecs
  obtain ⟨first, rest, -, -, hyields⟩ := yields_of_mem_entries h
  cases hyields with
  | typedef isTypedef => exact ⟨first, .inl ⟨isTypedef, rfl⟩⟩
  | bare _ undeclared => exact absurd undeclared hpieces
  | apart plain _ found =>
    obtain ⟨rfl, rfl⟩ := Prod.mk.inj (Option.some.inj (htagged.symm.trans found))
    exact ⟨first, .inr ⟨plain, rfl⟩⟩
  | ofFunction | ofVariable => cases hkind

/-- The type is declared, if only a name for it is given. -/
theorem exists_type_entry (hspecs : c.specifiers site = specs) (htagged : tagged? specs = some (a, tag))
    (hpieces : c.pieces specs ≠ []) (hnamed : specs.isTypedef = true → c.names specs ≠ []) :
    ∃ names draft, .declare names draft ∈ c.entries site ∧ draft.kind = .type ∧ draft.span.stop = c.last.span.stop := by
  have hne : specs ≠ [] := by
    rintro rfl
    cases htagged
  obtain ⟨first, hentries⟩ := entries_of_specifiers hspecs hne
  rw [hentries, if_neg (show ¬(c.pieces specs).isEmpty = true by simpa using hpieces)]
  cases htypedef : specs.isTypedef with
  | true =>
    obtain ⟨name, others, hnames⟩ := List.exists_cons_of_ne_nil (hnamed htypedef)
    have hdeclare : c.typedefEntries site specs (start specs first) = [.declare ((name :: others).map (·.text))
        (c.draft site (start specs first) .type (.verbatim (site.between (start specs first) c.last))
          (specs.typeVisibility site.block))] := by
      rw [names] at hnames
      rw [typedefEntries, hnames]
    exact ⟨_, _, List.mem_append_right _ (by rw [if_pos rfl, hdeclare]; exact List.mem_cons_self), rfl, rfl⟩
  | false =>
    rw [if_neg Bool.false_ne_true, taggedEntries, htagged]
    exact ⟨_, _, List.mem_append_right _ (List.mem_append_left _ List.mem_cons_self), rfl, rfl⟩

end Construct

section Construct

variable {source : List Char} {before behind run ts rest : List Token} {c : Construct} {first : Token} {site : Site}

/-- All specifiers that are kept stand in a copy that begins with the first of them. -/
theorem kept_subset_copied {markers : Bool} {front us : List Token} (hordered : Ordered run) (hhead : c.head.Sublist run)
    (hrun : run = front ++ us) (hkept : (Specifiers.ofTokens markers c.head).kept ≠ [])
    (hfirst : us.head? = (Specifiers.ofTokens markers c.head).kept.head?) : (Specifiers.ofTokens markers c.head).kept ⊆ us := by
  subst hrun
  intro t ht
  have hsub : (Specifiers.ofTokens markers c.head).kept.Sublist (front ++ us) :=
    ((Specifiers.sublist_kept _).trans (Specifiers.prefix_ofTokens markers c.head).sublist).trans hhead
  obtain ⟨start, others, hothers⟩ := List.exists_cons_of_ne_nil hkept
  rw [hothers] at hfirst hsub ht
  exact (hordered.mem_iff_start_le hfirst (hsub.subset ht)).2 ((hordered.sublist hsub).head_le t ht)

/-- The text of a type that is defined before declarators has the attributes in front of the body. It has those behind the
body exactly if it is that of a `typedef`. -/
theorem exists_textFrom_of_type (hbody : Tokenized source (before ++ run ++ behind))
    (hstart : first.kind.canStartDeclaration = true)
    (hcollect : Outline.collect site.markers first (.start first) ts = (.construct run c, rest)) (hsource : site.source = source)
    {a : Aggregate} {tag : Token} (htagged : Construct.tagged? (.ofTokens site.markers c.head) = some (a, tag))
    (hpieces : c.pieces (.ofTokens site.markers c.head) ≠ []) {names : List String} {draft : Draft}
    (h : .declare names draft ∈ c.entries site) (hkind : draft.kind = .type) {early late : List Token}
    (hsplit : c.head = early ++ (a.head ++ a.body) ++ late)
    (hlate : attributes late ⊆ (Specifiers.ofTokens site.markers c.head).kept) :
    ∃ us, c.TextFrom source site.markers run us draft.text ∧ a.head ⊆ us ∧
      ∀ t ∈ attributes late, t ∈ us ↔ (Specifiers.ofTokens site.markers c.head).isTypedef = true := by
  have hordered : Ordered run := hbody.ordered.middle
  have hhead : c.head.Sublist run := (Outline.head_of_collect (Outline.Collected.within_start hstart) hcollect).1
  have hspecs : c.specifiers site = .ofTokens site.markers c.head := rfl
  obtain ⟨otherwise, ⟨htypedef, htext⟩ | ⟨hplain, htext⟩⟩ := Construct.type_cases hspecs htagged hpieces h hkind
  · -- All that is kept is copied.
    have hkept : (Specifiers.ofTokens site.markers c.head).kept ≠ [] := fun hnil => by
      have hempty := Construct.subset_kept_of_tagged? htagged
      rw [hnil, List.subset_nil] at hempty
      exact (Construct.aggregate?_of_tagged? htagged).2 (List.append_eq_nil_iff.1 hempty).2
    obtain ⟨front, us, hrun, hfirst, hcopy⟩ := exists_copied_of_kept hbody hstart hcollect hsource hkept otherwise
    have hsub := kept_subset_copied hordered hhead hrun hkept hfirst
    refine ⟨us, htext ▸ .whole hkept hrun hfirst hcopy, fun t ht => ?_, fun t ht => iff_of_true (hsub (hlate ht)) htypedef⟩
    exact hsub (Construct.subset_kept_of_tagged? htagged (List.mem_append_left _ ht))
  · -- The copy ends with the body, and the attributes stand behind it.
    obtain ⟨front, us, rest', hrun, hfirst, hlast, hcopy⟩ :=
      exists_copied_of_tagged hbody hstart hcollect hsource htagged hpieces
        (Construct.start (.ofTokens site.markers c.head) otherwise)
    have hmem : ∀ t ∈ c.head, t ∈ us ↔ t ∈ a.head ++ a.body := fun t ht =>
      mem_iff_mem_aggregate htagged hpieces hhead hordered hrun hfirst hlast ht
    have hnodup := (hordered.sublist hhead).nodup
    rw [hsplit] at hnodup
    refine ⟨us, htext ▸ .apart htagged hpieces hrun hfirst hlast hcopy, fun t ht => ?_, fun t ht => ?_⟩
    · exact (hmem t (by simp [hsplit, ht])).2 (List.mem_append_left _ ht)
    · have ht' := (prefix_attributes late).subset ht
      rw [hmem t (by simp [hsplit, ht']), hplain]
      refine iff_of_false (fun hown => ?_) Bool.false_ne_true
      exact (List.nodup_append.1 hnodup).2.2 t (List.mem_append_right _ hown) t ht' rfl

end Construct

section Survey

variable {markers : Bool} {source : String} {tokens : List Token} (htokens : tokenize source = .ok tokens) {s : Survey}
  (hsurvey : surveySource markers source = .ok s)

include htokens hsurvey

/-- What a run declares is among the declarations. -/
theorem exists_mem_items_of_mem_outline {item : Item} (hitem : item ∈ outline markers 0 tokens) :
    ∃ here, ∀ names draft, .declare names draft ∈ item.entries source.toList markers here →
      ∃ d ∈ s.declarations.items, d.toDraft = draft := by
  obtain ⟨hfault, rfl⟩ := recorded_of_surveySource htokens hsurvey
  obtain ⟨earlier, later, houtline⟩ := List.append_of_mem hitem
  have hpass := Tracker.fault?_eq_none_iff.1 hfault
  rw [← flatMap_tokens_outline markers 0, houtline, List.flatMap_append] at hpass
  obtain ⟨here, hhere, -⟩ := Tracker.passAll_append_eq_ok_iff.1 hpass
  refine ⟨here, fun names draft h => ?_⟩
  have hentries : .declare names draft ∈
      entriesFrom source.toList markers { recognizeBlocks := markers } (outline markers 0 tokens) := by
    rw [houtline, entriesFrom_append hhere]
    exact List.mem_append_right _ (List.mem_append_left _ h)
  have hdrafts := Survey.drafts_recordAll {}
    (entriesFrom source.toList markers { recognizeBlocks := markers } (outline markers 0 tokens))
  refine List.mem_map.1 (?_ : draft ∈ DeclarationList.drafts _)
  rw [hdrafts]
  exact List.mem_append_right _ (List.mem_filterMap.2 ⟨_, hentries, rfl⟩)

/-- Where a construct defines a type before declarators, the type is declared, if only a name for it is given. Its text has
all that stands in front of the body. It has the attributes behind the body exactly if it is that of a `typedef`; else they
are spelled with each of the declarators. -/
theorem attributes_of_type {run : List Token} {c : Construct} (hitem : .construct run c ∈ outline markers 0 tokens)
    {a : Aggregate} {tag : Token} (htagged : Construct.tagged? (.ofTokens markers c.head) = some (a, tag))
    (hpieces : c.pieces (.ofTokens markers c.head) ≠ []) :
    ∃ before behind, c.head = before ++ (a.head ++ a.body) ++ behind ∧
      (((Specifiers.ofTokens markers c.head).isTypedef = true → c.names (.ofTokens markers c.head) ≠ []) →
        ∃ d ∈ s.declarations.items, d.kind = .type ∧ d.span.stop = c.last.span.stop) ∧
      (∀ d ∈ s.declarations.items, d.kind = .type → d.span.stop = c.last.span.stop →
        ∃ us, c.TextFrom source.toList markers run us d.text ∧ a.head ⊆ us ∧
          ∀ t ∈ attributes behind, t ∈ us ↔ (Specifiers.ofTokens markers c.head).isTypedef = true) ∧
      attributes behind ⊆ Construct.shared (.ofTokens markers c.head) := by
  obtain ⟨before, behind, hsplit, hattributes⟩ := Construct.exists_behind_of_tagged? htagged
  have hshared : Construct.shared (.ofTokens markers c.head) = (Specifiers.ofTokens markers c.head).keptWithoutBody := by
    rw [Construct.shared, htagged, if_pos (by simp)]
  rw [← hshared] at hattributes
  refine ⟨before, behind, hsplit, fun hnamed => ?_, fun d hd hkind hstop => ?_, hattributes⟩
  · obtain ⟨here, hdeclared⟩ := exists_mem_items_of_mem_outline htokens hsurvey hitem
    let site : Site := { source := source.toList, markers, guard := here.guardPath, block := here.interfaceBlock }
    have hspecs : c.specifiers site = .ofTokens markers c.head := rfl
    obtain ⟨names, draft, hentry, hkind, hstop⟩ := Construct.exists_type_entry hspecs htagged hpieces hnamed
    obtain ⟨d, hd, rfl⟩ := hdeclared names draft hentry
    exact ⟨d, hd, hkind, hstop⟩
  · obtain ⟨front, run', c', later, here, names, hitem', hbody, hentry⟩ :=
      exists_construct_of_mem_items htokens hsurvey hd (by rw [hkind]; decide)
    have hsame := construct_unique htokens hitem hitem' (hstop.symm.trans (Construct.declare_cases rfl hentry).1)
    cases hsame
    obtain ⟨start, ts, rest, hstart, hcollect⟩ := collect_of_mem_outline hitem
    let site : Site := { source := source.toList, markers, guard := here.guardPath, block := here.interfaceBlock }
    have hcollect : Outline.collect site.markers start (.start start) ts = (.construct run c, rest) := hcollect
    exact exists_textFrom_of_type hbody hstart hcollect rfl htagged hpieces hentry hkind hsplit fun t ht =>
      (Construct.sublist_shared_kept markers c.head).subset (hattributes ht)

end Survey

/-- An attribute of a type before its body, and one behind that goes with the variable. -/
theorem attributes_of_type_variable :
    let source := "struct __attribute__((packed)) s \x7b int n; \x7d __attribute__((used)) v;"
    ∃ tokens s run c a tag, tokenize source = .ok tokens ∧ surveySource true source = .ok s ∧
      .construct run c ∈ outline true 0 tokens ∧ Construct.tagged? (.ofTokens true c.head) = some (a, tag) ∧
      c.pieces (.ofTokens true c.head) ≠ [] ∧
      ∃ before behind, c.head = before ++ (a.head ++ a.body) ++ behind ∧
        (((Specifiers.ofTokens true c.head).isTypedef = true → c.names (.ofTokens true c.head) ≠ []) →
          ∃ d ∈ s.declarations.items, d.kind = .type ∧ d.span.stop = c.last.span.stop) ∧
        (∀ d ∈ s.declarations.items, d.kind = .type → d.span.stop = c.last.span.stop →
          ∃ us, c.TextFrom source.toList true run us d.text ∧ a.head ⊆ us ∧
            ∀ t ∈ attributes behind, t ∈ us ↔ (Specifiers.ofTokens true c.head).isTypedef = true) ∧
        attributes behind ⊆ Construct.shared (.ofTokens true c.head) := by
  intro source
  let tokens := (tokenize source).toOption.getD []
  let s := (surveySource true source).toOption.getD {}
  let head := tokens.take 20
  let semicolon := tokens.getD 20 default
  let c : Construct := { head, parameters := [], ending := .semicolon semicolon, conditionals := [] }
  have hread : tokenize source = .ok tokens ∧ surveySource true source = .ok s := by decide +kernel
  have hitem : .construct (head ++ [semicolon]) c ∈ outline true 0 tokens := by decide +kernel
  have htagged : (Construct.tagged? (.ofTokens true c.head)).isSome = true ∧ c.pieces (.ofTokens true c.head) ≠ [] := by
    decide +kernel
  obtain ⟨⟨a, tag⟩, hsome⟩ := Option.isSome_iff_exists.1 htagged.1
  exact ⟨tokens, s, _, c, a, tag, hread.1, hread.2, hitem, hsome, htagged.2,
    attributes_of_type hread.1 hread.2 hitem hsome htagged.2⟩

/-- An attribute behind the body goes with the variable, and the type loses it. -/
theorem attribute_with_variable :
    let source := "struct s \x7b char c; int n; \x7d __attribute__((packed)) v;"
    ∃ s, surveySource true source = .ok s ∧ s.errors = [] ∧
      s.declarations.items.map (fun d => (d.kind, d.text)) =
        [(.type, .verbatim "struct s \x7b char c; int n; \x7d;"),
          (.variable, .synthesized "extern struct s __attribute__((packed)) v;")] := by
  intro source
  exact ⟨(surveySource true source).toOption.getD {}, by decide +kernel⟩

end CHeader
