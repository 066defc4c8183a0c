import CHeader.Proofs.TextOrigins

/-!
# Marker words in texts

Marker words say who sees a declaration, and are no part of what is declared. A text that is spelled token by token has
none of them, for it has only tokens that are kept. A copy has none of those that stand before the first token that is
kept, for it begins there. But it has all that stand behind: it ends with the construct, and all in between is copied
(`mem_text_iff_of_marker`). Only the copy of a type that is declared apart from its variables begins and ends with an
aggregate, in which no marker word stands.
-/

namespace CHeader

namespace Specifiers

/-- The marker words among the specifiers. -/
def markerWords (specs : Specifiers) : List Token :=
  tokens (specs.filter (·.isMarker))

/-- The marker words that are not in front of all other specifiers. -/
def laterMarkerWords (specs : Specifiers) : List Token :=
  markerWords (specs.dropWhile (·.isMarker))

variable {specs : Specifiers} {t : Token}

theorem kept_eq_tokens_filter (specs : Specifiers) : specs.kept = tokens (specs.filter (!·.isMarker)) := by
  induction specs with
  | nil => rfl
  | cons s specs ih =>
    have hkept : kept (s :: specs) = s.kept ++ kept specs := List.flatMap_cons
    cases hs : s.isMarker <;> simp [hkept, ih, Specifier.kept, hs, tokens]

/-- Every token of the specifiers is a marker word or is kept, and none is both. -/
theorem perm_markerWords_kept (specs : Specifiers) : (specs.markerWords ++ specs.kept).Perm specs.tokens := by
  rw [kept_eq_tokens_filter, markerWords, tokens, tokens, ← List.flatMap_append]
  exact (List.filter_append_perm (·.isMarker) specs).flatMap_right _

theorem mem_tokens_of_mem_markerWords (h : t ∈ specs.markerWords) : t ∈ specs.tokens :=
  (perm_markerWords_kept specs).subset (List.mem_append_left _ h)

theorem not_mem_kept_of_mem_markerWords (hnodup : specs.tokens.Nodup) (h : t ∈ specs.markerWords) : t ∉ specs.kept :=
  fun hkept => (List.nodup_append.1 ((perm_markerWords_kept specs).nodup_iff.2 hnodup)).2.2 t h t hkept rfl

theorem mem_tokens_of_mem_laterMarkerWords (h : t ∈ specs.laterMarkerWords) : t ∈ specs.tokens := by
  obtain ⟨s, hs, ht⟩ := List.mem_flatMap.1 h
  exact List.mem_flatMap.2 ⟨s, (List.dropWhile_sublist _).subset (List.mem_filter.1 hs).1, ht⟩

/-- A marker word stands behind the first token that is kept exactly if it is not in front of all other specifiers. -/
theorem start_le_iff_mem_laterMarkerWords (hne : ∀ s ∈ specs, s.tokens ≠ []) (hordered : Ordered specs.tokens)
    {start : Token} (hstart : specs.kept.head? = some start) (h : t ∈ specs.markerWords) :
    start.span.start ≤ t.span.start ↔ t ∈ specs.laterMarkerWords := by
  induction specs with
  | nil => cases h
  | cons s specs ih =>
    have hkept : kept (s :: specs) = s.kept ++ kept specs := List.flatMap_cons
    have htokens : tokens (s :: specs) = s.tokens ++ tokens specs := List.flatMap_cons
    rw [hkept, Specifier.kept] at hstart
    rw [htokens] at hordered
    cases hs : s.isMarker with
    | true =>
      rw [hs, if_pos rfl, List.nil_append] at hstart
      have hlater : laterMarkerWords (s :: specs) = laterMarkerWords specs := by
        rw [laterMarkerWords, List.dropWhile_cons_of_pos hs, laterMarkerWords]
      have hwords : markerWords (s :: specs) = s.tokens ++ markerWords specs := by
        rw [markerWords, List.filter_cons_of_pos hs]
        exact List.flatMap_cons
      rw [hlater]
      rcases List.mem_append.1 (hwords ▸ h) with hfront | hrest
      · -- The word is in front of all that is kept, and of all later marker words.
        have hpositive := hordered.positive t (List.mem_append_left _ hfront)
        have hbehind : ∀ u ∈ tokens specs, t.span.stop ≤ u.span.start := fun u hu => hordered.le_of_append hfront hu
        have hstart' := hbehind start ((sublist_kept specs).subset (List.mem_of_head? hstart))
        refine ⟨fun hle => by omega, fun hmem => ?_⟩
        have := hbehind t (mem_tokens_of_mem_laterMarkerWords hmem)
        omega
      · exact ih (fun s' hs' => hne s' (List.mem_cons_of_mem s hs'))
          (hordered.sublist (List.sublist_append_right _ _)) hstart hrest
    | false =>
      obtain ⟨first, others, hfirst⟩ := List.exists_cons_of_ne_nil (hne s List.mem_cons_self)
      rw [hs, if_neg Bool.false_ne_true, hfirst] at hstart
      obtain rfl : first = start := Option.some_inj.1 hstart
      have hlater : laterMarkerWords (s :: specs) = markerWords (s :: specs) := by
        rw [laterMarkerWords, List.dropWhile_cons_of_neg (by simp [hs])]
      rw [hfirst, List.cons_append] at hordered
      refine iff_of_true (hordered.head_le t ?_) (hlater ▸ h)
      rw [← List.cons_append, ← hfirst, ← htokens]
      exact mem_tokens_of_mem_markerWords h

end Specifiers

namespace Construct.TextFrom

variable {source : List Char} {markers : Bool} {run ts rest us : List Token} {c : Construct} {first t : Token} {text : DeclText}

/-- A marker word of a construct is among the tokens of a text exactly if those are copied to the end of the construct and
the word is not in front of all other specifiers. -/
theorem mem_iff_of_mem_markerWords (h : c.TextFrom source markers run us text) (hordered : Ordered run)
    (hstart : first.kind.canStartDeclaration = true)
    (hcollect : Outline.collect markers first (.start first) ts = (.construct run c, rest))
    (ht : t ∈ (Specifiers.ofTokens markers c.head).markerWords) :
    t ∈ us ↔ text.isVerbatim = true ∧ us.getLast? = some c.last ∧
      t ∈ (Specifiers.ofTokens markers c.head).laterMarkerWords := by
  set specs := Specifiers.ofTokens markers c.head with hspecs
  have hhead : c.head.Sublist run := (Outline.head_of_collect (Outline.Collected.within_start hstart) hcollect).1
  have hlastRun : run.getLast? = some c.last := Outline.last_of_collect hcollect
  have hspecsHead : specs.tokens <+: c.head := Specifiers.prefix_ofTokens markers c.head
  have hspecsOrdered : Ordered specs.tokens := hordered.sublist (hspecsHead.sublist.trans hhead)
  have htSpecs : t ∈ specs.tokens := Specifiers.mem_tokens_of_mem_markerWords ht
  have htRun : t ∈ run := hhead.subset (hspecsHead.subset htSpecs)
  have htKept : t ∉ specs.kept := Specifiers.not_mem_kept_of_mem_markerWords hspecsOrdered.nodup ht
  have hne : ∀ s ∈ specs, s.tokens ≠ [] := fun s hs => by
    obtain ⟨_, _, _, _, hfirst⟩ := Specifiers.first?_of_mem_take hs
    exact List.ne_nil_of_mem (List.mem_of_head? (Specifier.prefix_of_first? hfirst).2)
  cases h with
  | @whole front _ _ hkept hrun hfirst hcopy =>
    obtain ⟨start, others, hothers⟩ := List.exists_cons_of_ne_nil hkept
    rw [hothers, List.head?_cons] at hfirst
    have hlast : us.getLast? = some c.last := by
      rw [← hlastRun, hrun, List.getLast?_append_of_ne_nil _ (List.ne_nil_of_mem (List.mem_of_head? hfirst))]
    rw [Ordered.mem_iff_start_le (hrun ▸ hordered) hfirst (hrun ▸ htRun),
      Specifiers.start_le_iff_mem_laterMarkerWords hne hspecsOrdered (by rw [hothers]; rfl) ht]
    simp [DeclText.isVerbatim, hlast]
  | @apart a tag front _ rest' _ htagged hpieces hrun hfirst hlast hcopy =>
    -- No marker word stands in the aggregate, and the construct does not end with it.
    refine iff_of_false (fun hmem => htKept (subset_kept_of_tagged? htagged ?_)) fun h => ?_
    · exact (mem_iff_mem_aggregate htagged hpieces hhead hordered hrun hfirst hlast (hspecsHead.subset htSpecs)).1 hmem
    · exact getLast?_ne_of_tagged? htagged hpieces hhead hordered hlastRun (hlast.symm.trans h.2.1)
  | spelled hpiece =>
    have hsplit := Specifiers.tokens_append_behind markers c.head
    have hnodup : (specs.tokens ++ Shape.behindSpecifiers specs c.head).Nodup := by
      rw [hsplit]
      exact (hordered.sublist hhead).nodup
    refine iff_of_false (fun hmem => ?_) fun h => Bool.false_ne_true h.1
    rcases List.mem_append.1 ((sublist_spelled_shared hpiece).subset hmem) with hshared | hbehind
    · exact htKept ((sublist_shared_kept markers c.head).subset hshared)
    · exact (List.nodup_append.1 hnodup).2.2 t htSpecs t hbehind rfl

end Construct.TextFrom

/-- Of the marker words of its construct, the text of a declaration has those that are not in front of all other specifiers
if it is copied to the end of the construct. Else it has none. -/
theorem marker_word_mem_text_iff {markers : Bool} {source : String} {tokens : List Token} (htokens : tokenize source = .ok tokens)
    {s : Survey} (hsurvey : surveySource markers source = .ok s) {d : Declaration} (hd : d ∈ s.declarations.items)
    (hkind : d.kind ≠ .macroDef) :
    ∃ run c us, .construct run c ∈ outline markers 0 tokens ∧ d.span.stop = c.last.span.stop ∧
      c.TextFrom source.toList markers run us d.text ∧
      ∀ t ∈ (Specifiers.ofTokens markers c.head).markerWords,
        (t ∈ us ↔ d.text.isVerbatim = true ∧ us.getLast? = some c.last ∧
          t ∈ (Specifiers.ofTokens markers c.head).laterMarkerWords) := by
  obtain ⟨run, c, hitem, hstop, us, horigin⟩ := exists_textFrom htokens hsurvey hd hkind
  obtain ⟨start, ts, rest, hstart, hcollect⟩ := collect_of_mem_outline hitem
  exact ⟨run, c, us, hitem, hstop, horigin, fun t ht =>
    horigin.mem_iff_of_mem_markerWords (ordered_of_mem_outline htokens hitem) hstart hcollect ht⟩

/-- A type with a marker word behind its body, which is declared apart from the variable. -/
theorem marker_word_mem_text_iff_variable :
    let source := "struct s \x7b int x; \x7d EXPORT v;"
    ∃ tokens s, tokenize source = .ok tokens ∧ surveySource true source = .ok s ∧ s.errors = [] ∧
      ∃ d ∈ s.declarations.items, d.kind ≠ .macroDef ∧
        ∃ run c us, .construct run c ∈ outline true 0 tokens ∧ d.span.stop = c.last.span.stop ∧
          c.TextFrom source.toList true run us d.text ∧
          ∀ t ∈ (Specifiers.ofTokens true c.head).markerWords,
            (t ∈ us ↔ d.text.isVerbatim = true ∧ us.getLast? = some c.last ∧
              t ∈ (Specifiers.ofTokens true c.head).laterMarkerWords) := by
  intro source
  have htokens : tokenize source = .ok ((tokenize source).toOption.getD []) := by decide +kernel
  have hsurvey : surveySource true source = .ok ((surveySource true source).toOption.getD {}) := by decide +kernel
  have hdeclared : ∃ d ∈ ((surveySource true source).toOption.getD {}).declarations.items, d.kind ≠ .macroDef := by
    decide +kernel
  obtain ⟨d, hd, hkind⟩ := hdeclared
  exact ⟨_, _, htokens, hsurvey, by decide +kernel, d, hd, hkind, marker_word_mem_text_iff htokens hsurvey hd hkind⟩

/-- A marker word behind `typedef` is copied. -/
theorem marker_word_in_copy :
    let source := "typedef EXPORT int t;"
    ∃ tokens s run c t, tokenize source = .ok tokens ∧ surveySource true source = .ok s ∧ s.errors = [] ∧
      outline true 0 tokens = [.construct run c] ∧ t ∈ (Specifiers.ofTokens true c.head).markerWords ∧
      t.kind = .identifier "EXPORT" ∧ s.declarations.items.map (·.text) = [.verbatim source] := by
  intro source
  let tokens := (tokenize source).toOption.getD []
  let t (i : Nat) : Token := tokens.getD i default
  let c : Construct := { head := [t 0, t 1, t 2, t 3], parameters := [], ending := .semicolon (t 4), conditionals := [] }
  let s := (surveySource true source).toOption.getD {}
  exact ⟨tokens, s, c.head ++ [c.last], c, t 1, by decide +kernel⟩

end CHeader
