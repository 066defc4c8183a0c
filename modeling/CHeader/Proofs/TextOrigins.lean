import CHeader.Proofs.RoundTrip
import CHeader.Proofs.SpelledGuards

/-!
# Where texts come from

The text of a declaration is written from some tokens of its construct (`Construct.TextFrom`). They are copied with all that
stands between them, from the first specifier that is kept to the end of the construct, or from the keyword of an aggregate
to the end of its body; or they are spelled one by one. A token of the construct is among those that are copied exactly if it
stands between the first and the last of them (`Ordered.mem_iff_between`).
-/

namespace CHeader

/-! ### Copies -/

/-- Of the tokens of a text, those in a row are the ones between the first and the last of the row. -/
theorem Ordered.mem_iff_between {front us rest : List Token} (h : Ordered (front ++ us ++ rest)) {first last t : Token}
    (hfirst : us.head? = some first) (hlast : us.getLast? = some last) (ht : t ∈ front ++ us ++ rest) :
    t ∈ us ↔ first.span.start ≤ t.span.start ∧ t.span.start ≤ last.span.start := by
  have hrow : Ordered us := h.middle
  constructor
  · intro hmem
    obtain ⟨others, rfl⟩ := List.head?_eq_some_iff.1 hfirst
    exact ⟨hrow.head_le t hmem, hrow.le_getLast hmem hlast⟩
  · rintro ⟨hfrom, hto⟩
    have hpositive := h.positive t ht
    rcases List.mem_append.1 ht with hfront | hrest
    · rcases List.mem_append.1 hfront with hfront | hmem
      · have hle := (h.sublist (List.sublist_append_left _ rest)).le_of_append hfront (List.mem_of_head? hfirst)
        omega
      · exact hmem
    · have hle := h.le_of_append (List.mem_append_right front (List.mem_of_getLast? hlast)) hrest
      have hpositive' := hrow.positive last (List.mem_of_getLast? hlast)
      omega

/-- Of the tokens of a text, those of the last ones are the ones from their first on. -/
theorem Ordered.mem_iff_start_le {front us : List Token} (h : Ordered (front ++ us)) {first t : Token}
    (hfirst : us.head? = some first) (ht : t ∈ front ++ us) : t ∈ us ↔ first.span.start ≤ t.span.start := by
  have hne := List.ne_nil_of_mem (List.mem_of_head? hfirst)
  have hlast := List.getLast?_eq_some_getLast hne
  have hle := h.le_getLast ht ((List.getLast?_append_of_ne_nil front hne).trans hlast)
  rw [← List.append_nil (front ++ us)] at h ht
  rw [h.mem_iff_between hfirst hlast ht]
  exact and_iff_left hle

/-- Where a row of a text and a row of some of its tokens begin and end alike, the one has of those tokens what the other has. -/
theorem Ordered.mem_iff_of_ends {front us rest before vs behind : List Token} (h : Ordered (front ++ us ++ rest))
    (hsub : (before ++ vs ++ behind).Sublist (front ++ us ++ rest)) {first last t : Token} (hfirst : vs.head? = some first)
    (hlast : vs.getLast? = some last) (hfirst' : us.head? = vs.head?) (hlast' : us.getLast? = vs.getLast?)
    (ht : t ∈ before ++ vs ++ behind) : t ∈ us ↔ t ∈ vs := by
  rw [h.mem_iff_between (hfirst'.trans hfirst) (hlast'.trans hlast) (hsub.subset ht),
    (h.sublist hsub).mem_iff_between hfirst hlast ht]

/-- A text is the source from the first of some tokens to the last. A semicolon may be written behind. -/
def IsCopy (source : List Char) (copied : List Token) (text : String) : Prop :=
  ∃ first last written, copied.head? = some first ∧ copied.getLast? = some last ∧
    Span.slice? ⟨first.span.start, last.span.stop⟩ source = some written ∧
    (text = String.ofList written ∨ last.isSignificant = true ∧ text = String.ofList written ++ ";")

theorem exists_between {ts : List Token} {first last : Token} (h : [first, last].Sublist ts) :
    ∃ front mid behind, ts = front ++ (first :: mid ++ [last]) ++ behind := by
  obtain ⟨early, late, rfl, hfirst, hlast⟩ := List.cons_sublist_iff.1 h
  obtain ⟨front, mid, rfl⟩ := List.append_of_mem hfirst
  obtain ⟨mid', behind, rfl⟩ := List.append_of_mem (List.singleton_sublist.1 hlast)
  exact ⟨front, mid ++ mid', behind, by simp⟩

/-- `c.TextFrom source markers run us text` says that a declaration of the construct `c` with the tokens `run` has a text that
is written from the tokens `us`. -/
inductive Construct.TextFrom (source : List Char) (markers : Bool) (run : List Token) (c : Construct) :
    List Token → DeclText → Prop
  | whole {front us : List Token} {text : String} (hkept : (Specifiers.ofTokens markers c.head).kept ≠ [])
    (hrun : run = front ++ us) (hfirst : us.head? = (Specifiers.ofTokens markers c.head).kept.head?)
    (hcopy : IsCopy source us text) : TextFrom source markers run c us (.verbatim text)
  | apart {a : Aggregate} {tag : Token} {front us rest : List Token} {text : String}
    (htagged : tagged? (.ofTokens markers c.head) = some (a, tag)) (hpieces : c.pieces (.ofTokens markers c.head) ≠ [])
    (hrun : run = front ++ us ++ rest) (hfirst : us.head? = a.head.head?) (hlast : us.getLast? = a.body.getLast?)
    (hcopy : IsCopy source us text) : TextFrom source markers run c us (.verbatim text)
  | spelled {piece : Nesting.Piece} (hpiece : piece ∈ c.pieces (.ofTokens markers c.head)) :
    TextFrom source markers run c (c.spelled (.ofTokens markers c.head) piece)
      (.synthesized (c.spelling (.ofTokens markers c.head) piece))

section Tagged

variable {markers : Bool} {c : Construct} {a : Aggregate} {tag : Token} {run : List Token}
  (htagged : Construct.tagged? (.ofTokens markers c.head) = some (a, tag)) (hpieces : c.pieces (.ofTokens markers c.head) ≠ [])
  (hhead : c.head.Sublist run)

include htagged hpieces hhead in
/-- The tokens from the first to the last of a type that is declared apart are, of those of the head, the ones of the type. -/
theorem mem_iff_mem_aggregate (hordered : Ordered run) {front us rest : List Token} (hrun : run = front ++ us ++ rest)
    (hfirst : us.head? = a.head.head?) (hlast : us.getLast? = a.body.getLast?) {t : Token} (ht : t ∈ c.head) :
    t ∈ us ↔ t ∈ a.head ++ a.body := by
  subst hrun
  obtain ⟨before, keyword, us', more, -, hsplit, -, -, -, ha, haggregate, -⟩ := exists_aggregate_of_tagged? htagged hpieces
  have hbody : a.body.getLast? = some (a.body.getLast (Construct.aggregate?_of_tagged? htagged).2) :=
    List.getLast?_eq_some_getLast _
  have hkeyword : a.head.head? = some keyword ∧ (a.head ++ a.body).head? = some keyword := by
    rw [ha]
    exact ⟨rfl, rfl⟩
  have hend : (a.head ++ a.body).getLast? = a.body.getLast? := by
    rw [List.getLast?_append, hbody, Option.some_or]
  rw [← haggregate, ← List.append_assoc] at hsplit
  rw [← hsplit] at hhead ht
  exact hordered.mem_iff_of_ends hhead hkeyword.2 (hend.trans hbody) (hfirst.trans (hkeyword.1.trans hkeyword.2.symm))
    (hlast.trans hend.symm) ht

include htagged hpieces hhead in
/-- A construct with declarators does not end with the aggregate. -/
theorem getLast?_ne_of_tagged? (hordered : Ordered run) {last : Token} (hlast : run.getLast? = some last) :
    a.body.getLast? ≠ some last := by
  intro hbody
  obtain ⟨before, keyword, us, more, -, hsplit, -, -, -, -, haggregate, hmore⟩ := exists_aggregate_of_tagged? htagged hpieces
  obtain ⟨u, others, rfl⟩ := List.exists_cons_of_ne_nil hmore
  rw [← haggregate, ← List.append_assoc] at hsplit
  rw [← hsplit] at hhead
  have hbehind : last.span.stop ≤ u.span.start :=
    (hordered.sublist hhead).le_of_append (by simp [List.mem_of_getLast? hbody]) List.mem_cons_self
  have hbefore := hordered.le_getLast (hhead.subset (by simp : u ∈ _)) hlast
  have hpositive := hordered.positive last (List.mem_of_getLast? hlast)
  omega

end Tagged

section Construct

variable {source : List Char} {before behind : List Token}

/-- The source between two tokens is a copy, also with a semicolon behind it. -/
theorem isCopy_between {first last : Token} {ts : List Token} (hbody : Tokenized source (before ++ first :: ts ++ behind))
    (hlast : (first :: ts).getLast? = some last) {site : Site} (hsource : site.source = source) :
    IsCopy source (first :: ts) (site.between first last) ∧
      (last.isSignificant = true → IsCopy source (first :: ts) (site.between first last ++ ";")) := by
  obtain ⟨l, row, -, -, -, hslice⟩ := hbody.cut hlast
  rw [Site.between, hsource, hslice, Option.getD_some]
  exact ⟨⟨first, last, _, rfl, hlast, hslice, .inl rfl⟩, fun h => ⟨first, last, _, rfl, hlast, hslice, .inr ⟨h, rfl⟩⟩⟩

variable {run ts rest : List Token} {c : Construct} {first : Token} {site : Site}
  (hbody : Tokenized source (before ++ run ++ behind)) (hstart : first.kind.canStartDeclaration = true)
  (hcollect : Outline.collect site.markers first (.start first) ts = (.construct run c, rest)) (hsource : site.source = source)

include hbody hstart hcollect hsource in
/-- The construct without marker words before it is copied. -/
theorem exists_copied_of_kept (hkept : (Specifiers.ofTokens site.markers c.head).kept ≠ []) (otherwise : Token) :
    ∃ front copied, run = front ++ copied ∧ copied.head? = (Specifiers.ofTokens site.markers c.head).kept.head? ∧
      IsCopy source copied (site.between (Construct.start (.ofTokens site.markers c.head) otherwise) c.last) := by
  obtain ⟨start, others, hothers⟩ := List.exists_cons_of_ne_nil hkept
  have hmem : start ∈ run := by
    refine (Outline.head_of_collect (Outline.Collected.within_start hstart) hcollect).1.subset ?_
    refine (Specifiers.prefix_ofTokens site.markers c.head).subset ((Specifiers.sublist_kept _).subset ?_)
    rw [hothers]
    exact List.mem_cons_self
  obtain ⟨front, more, rfl⟩ := List.append_of_mem hmem
  have hlast := Outline.last_of_collect hcollect
  rw [List.getLast?_append_of_ne_nil _ (List.cons_ne_nil _ _)] at hlast
  refine ⟨front, start :: more, rfl, by rw [hothers]; rfl, ?_⟩
  rw [Construct.start, hothers, List.head?_cons, Option.getD_some]
  have hcut : Tokenized source (before ++ front ++ start :: more ++ behind) := by simpa using hbody
  exact (isCopy_between hcut hlast hsource).1

include hstart hcollect in
/-- The definition of a type that is declared apart reaches from one token of the construct to another. -/
theorem exists_ends_of_tagged {a : Aggregate} {tag : Token}
    (htagged : Construct.tagged? (.ofTokens site.markers c.head) = some (a, tag))
    (hpieces : c.pieces (.ofTokens site.markers c.head) ≠ []) :
    ∃ keyword last front mid rest, a.head.head? = some keyword ∧ a.body.getLast? = some last ∧
      run = front ++ (keyword :: mid ++ [last]) ++ rest ∧ last.isSignificant = true := by
  obtain ⟨inner, last, hconcat⟩ := List.eq_nil_or_concat a.body |>.resolve_left (Construct.aggregate?_of_tagged? htagged).2
  obtain ⟨pre, keyword, us, more, -, hhead, -, -, -, rfl, hsplit, -⟩ := exists_aggregate_of_tagged? htagged hpieces
  obtain ⟨hsub, hsignificant⟩ := Outline.head_of_collect (Outline.Collected.within_start hstart) hcollect
  obtain ⟨tagged, htagged'⟩ : ∃ tagged, (Aggregate.ofTokens keyword us).head = keyword :: tagged := ⟨_, rfl⟩
  rw [htagged', hconcat] at hsplit
  have hends : [keyword, last].Sublist c.head := by
    rw [← hhead, ← hsplit, List.cons_append, List.cons_append]
    exact (List.cons_sublist_cons.2 (List.singleton_sublist.2 (by simp))).trans (List.sublist_append_right pre _)
  obtain ⟨front, mid, rest, hrun⟩ := exists_between (hends.trans hsub)
  refine ⟨keyword, last, front, mid, rest, by rw [htagged']; rfl, ?_, hrun, hsignificant last (hends.subset (by simp))⟩
  rw [hconcat, List.concat_eq_append, List.getLast?_concat]

include hbody hstart hcollect hsource in
/-- The definition of a type that is declared apart is copied. -/
theorem exists_copied_of_tagged {a : Aggregate} {tag : Token}
    (htagged : Construct.tagged? (.ofTokens site.markers c.head) = some (a, tag))
    (hpieces : c.pieces (.ofTokens site.markers c.head) ≠ []) (otherwise : Token) :
    ∃ front copied rest, run = front ++ copied ++ rest ∧ copied.head? = a.head.head? ∧ copied.getLast? = a.body.getLast? ∧
      IsCopy source copied (site.between (a.head.head?.getD otherwise) (a.body.getLast?.getD otherwise) ++ ";") := by
  obtain ⟨keyword, last, front, mid, rest, hkeyword, hlast, rfl, hsignificant⟩ :=
    exists_ends_of_tagged hstart hcollect htagged hpieces
  refine ⟨front, keyword :: mid ++ [last], rest, rfl, hkeyword.symm, by rw [hlast, List.getLast?_concat], ?_⟩
  rw [hkeyword, hlast]
  have hcut : Tokenized source (before ++ front ++ keyword :: (mid ++ [last]) ++ (rest ++ behind)) := by simpa using hbody
  have hend : (keyword :: (mid ++ [last])).getLast? = some last := by rw [← List.cons_append, List.getLast?_concat]
  exact (isCopy_between hcut hend hsource).2 hsignificant

/-! ### Texts -/

include hbody hstart hcollect hsource in
/-- What a construct declares has a text from its tokens. -/
theorem exists_textFrom_of_mem_entries {names : List String} {draft : Draft} (h : .declare names draft ∈ c.entries site) :
    ∃ us, c.TextFrom source site.markers run us draft.text := by
  have hwhole : ∀ {otherwise}, (Specifiers.ofTokens site.markers c.head).kept ≠ [] →
      draft.text = .verbatim (site.between (Construct.start (.ofTokens site.markers c.head) otherwise) c.last) →
      ∃ us, c.TextFrom source site.markers run us draft.text := by
    intro otherwise hkept htext
    obtain ⟨front, us, hrun, hfirst, hcopy⟩ := exists_copied_of_kept hbody hstart hcollect hsource hkept otherwise
    exact ⟨us, htext ▸ .whole hkept hrun hfirst hcopy⟩
  obtain ⟨-, otherwise, ⟨hcopied, htext⟩ | ⟨-, a, tag, htagged, hpieces, htext⟩ | ⟨-, piece, hpiece, -, hdeclare⟩⟩ :=
    Construct.declare_cases rfl h
  · exact hwhole hcopied.kept_ne_nil htext
  · obtain ⟨front, us, rest, hrun, hfirst, hlast, hcopy⟩ :=
      exists_copied_of_tagged hbody hstart hcollect hsource htagged hpieces _
    exact ⟨us, htext ▸ .apart htagged hpieces hrun hfirst hlast hcopy⟩
  · rcases Construct.text_of_declaratorEntry hdeclare with ⟨hinline, htext⟩ | ⟨htext, -⟩
    · obtain ⟨s, hs, hrole⟩ := List.any_eq_true.1 hinline
      exact hwhole (Specifiers.kept_ne_nil hs (by simp [Specifier.isMarker, of_decide_eq_true hrole])) htext
    · exact ⟨_, by rw [htext]; exact .spelled hpiece⟩

end Construct

section Survey

variable {markers : Bool} {source : String} {tokens : List Token} (htokens : tokenize source = .ok tokens)

include htokens

theorem ordered_of_mem_outline {item : Item} (hitem : item ∈ outline markers 0 tokens) : Ordered item.tokens := by
  obtain ⟨earlier, later, houtline⟩ := List.append_of_mem hitem
  obtain ⟨hbody, -⟩ := tokenized_run htokens houtline
  exact hbody.ordered.middle

/-- A construct is found again at its last token. -/
theorem construct_unique {run run' : List Token} {c c' : Construct} (h : .construct run c ∈ outline markers 0 tokens)
    (h' : .construct run' c' ∈ outline markers 0 tokens) (hstop : c.last.span.stop = c'.last.span.stop) :
    Item.construct run c = .construct run' c' := by
  have hends : ∀ {run c}, .construct run c ∈ outline markers 0 tokens → c.last ∈ (Item.construct run c).tokens := fun hmem => by
    obtain ⟨start, ts, rest, -, hcollect⟩ := collect_of_mem_outline hmem
    exact List.mem_of_getLast? (Outline.last_of_collect hcollect)
  obtain ⟨earlier, later, houtline⟩ := List.append_of_mem h
  have hordered := (tokenized_run htokens houtline).1.ordered
  have hlast := hends h
  have hlast' := hends h'
  have hpositive := (ordered_of_mem_outline htokens h).positive c.last hlast
  have hpositive' := (ordered_of_mem_outline htokens h').positive c'.last hlast'
  rw [houtline, List.mem_append, List.mem_cons] at h'
  rcases h' with hearlier | heq | hlater
  · have hle := (hordered.sublist (List.sublist_append_left _ _)).le_of_append (List.mem_flatMap.2 ⟨_, hearlier, hlast'⟩) hlast
    omega
  · exact heq.symm
  · have hle := hordered.le_of_append (List.mem_append_right _ hlast) (List.mem_flatMap.2 ⟨_, hlater, hlast'⟩)
    omega

/-- All declarations but those of macros are made by constructs. -/
theorem exists_construct_of_mem_items {s : Survey} (hsurvey : surveySource markers source = .ok s) {d : Declaration}
    (hd : d ∈ s.declarations.items) (hkind : d.kind ≠ .macroDef) :
    ∃ before run c behind here names, .construct run c ∈ outline markers 0 tokens ∧
      Tokenized source.toList (before ++ run ++ behind) ∧
      .declare names d.toDraft ∈ (Item.construct run c).entries source.toList markers here := by
  obtain ⟨-, rfl⟩ := recorded_of_surveySource htokens hsurvey
  obtain ⟨earlier, item, later, here, -, names, houtline, -, hentry, -⟩ := exists_run_of_mem_recordAll hd
  obtain ⟨hbody, -⟩ := tokenized_run htokens houtline
  have hitem : item ∈ outline markers 0 tokens := by simp [houtline]
  cases item with
  | skipped => cases hentry
  | malformed => simp [Item.entries] at hentry
  | directive token =>
    obtain ⟨directive, -, -, -, visibility, hdraft⟩ := macro_of_mem_entries hentry
    exact absurd (congrArg (·.kind) hdraft) hkind
  | construct run c => exact ⟨_, run, c, _, here, names, hitem, hbody, hentry⟩

/-- All declarations but those of macros have texts from the tokens of their constructs. -/
theorem exists_textFrom {s : Survey} (hsurvey : surveySource markers source = .ok s) {d : Declaration}
    (hd : d ∈ s.declarations.items) (hkind : d.kind ≠ .macroDef) :
    ∃ run c, .construct run c ∈ outline markers 0 tokens ∧ d.span.stop = c.last.span.stop ∧
      ∃ us, c.TextFrom source.toList markers run us d.text := by
  obtain ⟨before, run, c, behind, here, names, hitem, hbody, hentry⟩ := exists_construct_of_mem_items htokens hsurvey hd hkind
  obtain ⟨start, ts, rest, hstart, hcollect⟩ := collect_of_mem_outline hitem
  exact ⟨run, c, hitem, (Construct.declare_cases rfl hentry).1,
    exists_textFrom_of_mem_entries hbody hstart hcollect rfl hentry⟩

end Survey

end CHeader
