import CHeader.Proofs.ListedParts

/-!
# A list of declarators and declarations one by one

`int a, *b;` says what `int a; int *b;` says. In both texts the comments are left out (`told_of_commented_list`,
`Single.told_of_commented_singles`), and what is left is one construct of a list or a construct for each declarator,
whose entries say what each declarator says behind the specifiers. A declarator stands behind white space or a comma in
the one text and behind the specifiers in the other, so that it is spelled with the same blanks
(`FarApart.declared?_eq`).

That both are read without errors is needed (`surveySource_declarators`), and is not enough where the words of the
specifiers or the declarators can be read in two ways: `toldApart_examples` has such texts.
-/

namespace CHeader

open Nesting (Piece)

/-! ### Comments left out -/

/-- Whether the token is no comment. -/
def Token.stays (t : Token) : Bool := !t.kind.isComment

theorem leavesComments_stays : LeavesComments Token.stays := by
  intro t ht
  simpa [Token.stays] using ht

theorem filter_stays_map {f : Token → Token} (hf : KeepsKinds f) (ts : List Token) :
    (ts.map f).filter Token.stays = (ts.filter Token.stays).map f := by
  rw [List.filter_map]
  congr 1
  refine List.filter_congr fun t _ => ?_
  simp [Token.stays, hf t]

theorem isSignificant_of_stays {t : Token} (h : t.stays = true) (hplain : t.directive? = none) : t.isSignificant = true := by
  unfold Token.stays TokenKind.isComment at h
  unfold Token.directive? at hplain
  unfold Token.isSignificant
  split <;> simp_all

theorem directive?_eq_none_of_isSignificant {t : Token} (h : t.isSignificant = true) : t.directive? = none := by
  unfold Token.isSignificant at h
  unfold Token.directive?
  split <;> simp_all

/-- The piece without its comments. -/
def Nesting.Piece.uncommented (piece : Piece) : Piece :=
  ⟨piece.tokens.filter Token.stays, piece.stop⟩

theorem filter_listed {pieces : List Piece} (h : ∀ piece ∈ pieces, piece.stop.stays = true) :
    (listed pieces).filter Token.stays = listed (pieces.map Piece.uncommented) := by
  induction pieces with
  | nil => rfl
  | cons piece pieces ih =>
    obtain ⟨hstop, hpieces⟩ := List.forall_mem_cons.1 h
    have hrest := ih hpieces
    simp only [listed, List.flatMap_cons, List.map_cons, List.filter_append] at hrest ⊢
    simp [hrest, hstop, Piece.uncommented]

/-! ### Without directives -/

/-- Without directives, a survey without errors tells what the runs say, and none of them is a broken construct. -/
theorem told_of_survey {markers : Bool} {source : String} {tokens : List Token} (hplain : ∀ t ∈ tokens, t.directive? = none)
    {s : Survey} (hs : survey markers source tokens = .ok s) (hclean : s.errors = []) :
    (∀ item ∈ outline markers 0 tokens, item.Sound) ∧
      s.declarations.told = (outline markers 0 tokens).flatMap fun item =>
        (item.entries source.toList markers { recognizeBlocks := markers }).filterMap Entry.telling? := by
  rw [survey_of_noDirectives hplain] at hs
  cases hs
  rw [Survey.errors_recordAll, ← entriesFrom_of_noDirectives (directive?_of_mem_outline hplain)] at hclean
  refine ⟨sound_of_entriesFrom (Tracker.passAll_outline hplain _) hclean, ?_⟩
  rw [Survey.told_recordAll, List.filterMap_flatMap]

/-! ### Lists of declarators -/

/-- Specifiers and a declarator behind them, without comments and directives. -/
structure DeclarationRow (markers : Bool) (ss e : List Token) : Prop where
  specifiers : SpecifierRow markers ss
  declarator : DeclaratorRow markers ss.getLast? e
  significant : ∀ t ∈ ss ++ e, t.isSignificant = true

section List

variable {markers : Bool} {source : String} {s : Survey} {ss : List Token} {init : List Piece} {last : Piece} {stop : Token}

theorem DeclarationRow.directive?_eq_none {e : List Token} (h : DeclarationRow markers ss e) :
    ∀ t ∈ ss ++ e, t.directive? = none :=
  fun t ht => directive?_eq_none_of_isSignificant (h.significant t ht)

/-- Specifiers with a list of declarators say what its pieces say. -/
theorem told_of_list (hrows : ∀ piece ∈ init ++ [last], DeclarationRow markers ss piece.tokens)
    (hinit : ∀ piece ∈ init, piece.stop.kind = .punct .comma) (hsemi : last.stop.kind = .punct .semi)
    (hstop : stop.kind = .eof) (hs : survey markers source (ss ++ listed (init ++ [last]) ++ [stop]) = .ok s)
    (hclean : s.errors = []) :
    s.declarations.told = (init ++ [last]).filterMap fun piece =>
      (Specifiers.ofTokens markers ss).declared? [] none piece.tokens := by
  obtain ⟨hss, hlast, hplain⟩ := hrows last (List.mem_append_right _ (List.mem_singleton_self _))
  have hpieces : ∀ piece ∈ init, piece.stop.kind = .punct .comma ∧ DeclaratorRow markers ss.getLast? piece.tokens :=
    fun piece hpiece => ⟨hinit piece hpiece, (hrows piece (List.mem_append_left _ hpiece)).declarator⟩
  have hlist := DeclaratorList.of_listed hpieces hlast
  have htokens : ss ++ listed (init ++ [last]) ++ [stop] = ss ++ (listed init ++ last.tokens) ++ last.stop :: [stop] := by
    simp [listed]
  have hsignificant : ∀ t ∈ ss ++ (listed init ++ last.tokens), t.isSignificant = true := by
    intro t ht
    simp only [List.mem_append, listed, List.mem_flatMap, List.mem_singleton] at ht
    rcases ht with ht | ⟨piece, hpiece, ht | rfl⟩ | ht
    · exact hplain t (List.mem_append_left _ ht)
    · exact (hrows piece (List.mem_append_left _ hpiece)).significant t (List.mem_append_right _ ht)
    · simp [Token.isSignificant, hinit piece hpiece]
    · exact hplain t (List.mem_append_right _ ht)
  rw [htokens] at hs
  obtain ⟨hsound, htold⟩ := told_of_survey (fun t ht => by
    rcases List.mem_append.1 ht with ht | ht
    · exact directive?_eq_none_of_isSignificant (hsignificant t ht)
    · simp only [List.mem_cons, List.not_mem_nil, or_false] at ht
      rcases ht with rfl | rfl
      · rw [Token.directive?, hsemi]
      · rw [Token.directive?, hstop]) hs hclean
  have houtline := Outline.outline_row hss hlist hsemi hsignificant (.inr ⟨stop, hstop, rfl⟩) fun item hitem =>
    hsound item (List.mem_of_mem_head? hitem)
  have hend : outline markers 0 [stop] = [] := by
    rw [outline, hstop]
  have hsplit : Nesting.splitCommas last.stop 0 (listed init ++ last.tokens) = init ++ [last] :=
    Nesting.splitCommas_listed (fun piece hpiece =>
      ⟨hinit piece hpiece, (hpieces piece hpiece).2.level_eq, (hpieces piece hpiece).2.outside_comma⟩) hlast.outside_comma
  rw [htold, houtline, hend, List.flatMap_singleton, Item.entries, Construct.tellings_entries hss hlist rfl, hsplit]
  rfl

/-- With comments they say the same. -/
theorem told_of_commented_list
    (hrows : ∀ piece ∈ init ++ [last], DeclarationRow markers (ss.filter Token.stays) (piece.tokens.filter Token.stays))
    (hinit : ∀ piece ∈ init, piece.stop.kind = .punct .comma) (hsemi : last.stop.kind = .punct .semi)
    (hstop : stop.kind = .eof) (hs : survey markers source (ss ++ listed (init ++ [last]) ++ [stop]) = .ok s)
    (hclean : s.errors = []) :
    s.declarations.told = (init ++ [last]).filterMap fun piece =>
      (Specifiers.ofTokens markers (ss.filter Token.stays)).declared? [] none (piece.tokens.filter Token.stays) := by
  have hstays : ∀ piece ∈ init ++ [last], piece.stop.stays = true := by
    intro piece hpiece
    rcases List.mem_append.1 hpiece with hpiece | hpiece
    · simp [Token.stays, TokenKind.isComment, hinit piece hpiece]
    · obtain rfl := List.mem_singleton.1 hpiece
      simp [Token.stays, TokenKind.isComment, hsemi]
  have hkept : stop.stays = true := by simp [Token.stays, TokenKind.isComment, hstop]
  rw [← survey_filter leavesComments_stays, List.filter_append, List.filter_append, filter_listed hstays, List.map_append,
    List.map_singleton, List.filter_cons_of_pos hkept, List.filter_nil] at hs
  have hpieces : (init ++ [last]).map Piece.uncommented = init.map Piece.uncommented ++ [last.uncommented] := List.map_append
  have htold := @told_of_list markers source s (ss.filter Token.stays) (init.map Piece.uncommented) last.uncommented stop
    (by
      rw [← hpieces]
      exact List.forall_mem_map.2 hrows)
    (List.forall_mem_map.2 hinit) hsemi hstop hs hclean
  rw [htold, ← hpieces, List.filterMap_map]
  rfl

end List

/-! ### Declarations of one declarator -/

namespace Single

variable {markers : Bool} {source : String} {s : Survey} {stop : Token} {singles : List Single}

def construct (single : Single) : Construct :=
  ⟨single.specifiers ++ single.declarator.tokens, [], .semicolon single.declarator.stop, []⟩

/-- It is a declaration by itself. -/
structure IsDeclaration (markers : Bool) (single : Single) : Prop where
  row : DeclarationRow markers single.specifiers single.declarator.tokens
  semi : single.declarator.stop.kind = .punct .semi

/-- Where everything is sound, each of them is a construct. -/
theorem outline_singles (hstop : stop.kind = .eof) (h : ∀ single ∈ singles, single.IsDeclaration markers)
    (hsound : ∀ item ∈ outline markers 0 (singles.flatMap tokens ++ [stop]), item.Sound) :
    outline markers 0 (singles.flatMap tokens ++ [stop]) = singles.map fun single => .construct single.tokens single.construct := by
  induction singles with
  | nil => rw [List.flatMap_nil, List.nil_append, outline, hstop, List.map_nil]
  | cons single singles ih =>
    obtain ⟨⟨hrow, hsemi⟩, hsingles⟩ := List.forall_mem_cons.1 h
    have htokens : (single :: singles).flatMap tokens ++ [stop] =
        single.specifiers ++ single.declarator.tokens ++ single.declarator.stop :: (singles.flatMap tokens ++ [stop]) := by
      simp [tokens, listed]
    rw [htokens] at hsound ⊢
    have houtline := Outline.outline_row hrow.specifiers hrow.declarator.list hsemi hrow.significant
      (.inl (DeclaratorRow.parameterDeclarations?_eq_none hrow.specifiers hrow.declarator)) fun item hitem =>
        hsound item (List.mem_of_mem_head? hitem)
    rw [houtline] at hsound ⊢
    rw [ih hsingles fun item hitem => hsound item (List.mem_cons_of_mem _ hitem)]
    simp [tokens, construct, listed]

/-- They say what their declarators say. -/
theorem told_of_singles (h : ∀ single ∈ singles, single.IsDeclaration markers) (hstop : stop.kind = .eof)
    (hs : survey markers source (singles.flatMap tokens ++ [stop]) = .ok s) (hclean : s.errors = []) :
    s.declarations.told = singles.filterMap fun single =>
      (Specifiers.ofTokens markers single.specifiers).declared? [] none single.declarator.tokens := by
  have hplain : ∀ t ∈ singles.flatMap tokens ++ [stop], t.directive? = none := by
    intro t ht
    simp only [List.mem_append, List.mem_flatMap, tokens, listed, List.flatMap_singleton, List.mem_singleton] at ht
    rcases ht with ⟨single, hsingle, ht | ht | rfl⟩ | rfl
    · exact (h single hsingle).row.directive?_eq_none t (List.mem_append_left _ ht)
    · exact (h single hsingle).row.directive?_eq_none t (List.mem_append_right _ ht)
    · rw [Token.directive?, (h single hsingle).semi]
    · rw [Token.directive?, hstop]
  obtain ⟨hsound, htold⟩ := told_of_survey hplain hs hclean
  have hsays : ∀ single ∈ singles, (single.construct.entries ⟨source.toList, markers, [], none⟩).filterMap Entry.telling? =
      ((Specifiers.ofTokens markers single.specifiers).declared? [] none single.declarator.tokens).toList := by
    intro single hsingle
    obtain ⟨hss, hrow, -⟩ := (h single hsingle).row
    rw [construct, Construct.tellings_entries hss hrow.list rfl, Nesting.splitCommas_of_outside hrow.outside_comma,
      List.filterMap_eq_flatMap_toList]
    exact List.flatMap_singleton ..
  rw [htold, outline_singles hstop h hsound, List.flatMap_map, List.filterMap_eq_flatMap_toList]
  exact List.flatMap_congr hsays

/-- With comments they say the same. -/
theorem told_of_commented_singles
    (h : ∀ single ∈ singles,
      DeclarationRow markers (single.specifiers.filter Token.stays) (single.declarator.tokens.filter Token.stays) ∧
        single.declarator.stop.kind = .punct .semi)
    (hstop : stop.kind = .eof) (hs : survey markers source (singles.flatMap tokens ++ [stop]) = .ok s) (hclean : s.errors = []) :
    s.declarations.told = singles.filterMap fun single => (Specifiers.ofTokens markers (single.specifiers.filter Token.stays)).declared?
      [] none (single.declarator.tokens.filter Token.stays) := by
  let uncommented (single : Single) : Single := ⟨single.specifiers.filter Token.stays, single.declarator.uncommented⟩
  have hkept : stop.stays = true := by simp [Token.stays, TokenKind.isComment, hstop]
  have htokens : (singles.flatMap tokens ++ [stop]).filter Token.stays = (singles.map uncommented).flatMap tokens ++ [stop] := by
    rw [List.filter_append, List.filter_cons_of_pos hkept, List.filter_nil, List.filter_flatMap, List.flatMap_map]
    congr 1
    refine List.flatMap_congr fun single hsingle => ?_
    have hstays : single.declarator.stop.stays = true := by simp [Token.stays, TokenKind.isComment, (h single hsingle).2]
    rw [tokens, List.filter_append, filter_listed (by simpa using hstays)]
    rfl
  rw [← survey_filter leavesComments_stays, htokens] at hs
  have hrows : ∀ single ∈ singles.map uncommented, single.IsDeclaration markers :=
    List.forall_mem_map.2 fun single hsingle => ⟨(h single hsingle).1, (h single hsingle).2⟩
  rw [told_of_singles hrows hstop hs hclean, List.filterMap_map]
  rfl

end Single

/-! ### Texts of specifiers and of declarators -/

/-- The text has these tokens in front of a semicolon that stands behind it, and no directive is among them. -/
@[mk_iff]
structure StandsBefore (text : String) (ts : List Token) (semi last : Token) : Prop where
  tokens : tokenize (text ++ ";") = .ok (ts ++ [semi, last])
  semi : semi.kind = .punct .semi
  plain : ∀ t ∈ ts, t.directive? = none

instance (text : String) (ts : List Token) (semi last : Token) : Decidable (StandsBefore text ts semi last) :=
  decidable_of_iff' _ (standsBefore_iff text ts semi last)

/-- The text is specifiers and white space behind them. -/
structure SpecifierText (markers : Bool) (text : String) (ts : List Token) : Prop where
  apart : ∃ semi last, StandsBefore text ts semi last ∧ ∀ t ∈ ts, t.span.stop < semi.span.start
  row : SpecifierRow markers (ts.filter Token.stays)

/-- The text is a declarator with its initial value. -/
def DeclaratorText (markers : Bool) (before : Option Token) (text : String) : Prop :=
  ∃ ts semi last, StandsBefore text ts semi last ∧ DeclaratorRow markers before (ts.filter Token.stays)

theorem StandsBefore.exists_part {text : String} {ts : List Token} {semi last : Token} (h : StandsBefore text ts semi last)
    (hne : ts.filter Token.stays ≠ []) :
    ∃ part : Part, part.chars = text.toList ∧ part.Readable ∧ Stands 0 part.row ts ∧
      semi.span.start = byteLength text.toList := by
  obtain ⟨row, gap, hreads, hstands, hspan, -⟩ := readsUpTo_of_tokenize isMark_semicolon h.tokens h.semi h.plain
  refine ⟨⟨row, gap⟩, hreads.chars.symm, ⟨?_, ?_⟩, hstands, by rw [hspan]⟩
  · rintro rfl
    obtain _ | _ := hstands
    exact hne rfl
  · rw [Part.chars, ← hreads.chars]
    exact hreads

theorem SpecifierText.exists_part {markers : Bool} {text : String} {ts : List Token} (h : SpecifierText markers text ts) :
    ∃ part : Part, part.chars = text.toList ∧ part.Readable ∧ Stands 0 part.row ts ∧ part.gap ≠ [] := by
  obtain ⟨semi, last, hbefore, hapart⟩ := h.apart
  have hne : ts.filter Token.stays ≠ [] := by
    intro hnil
    obtain ⟨t, us, s, hcons, -⟩ := h.row.exists_first
    simp [hnil] at hcons
  obtain ⟨part, hchars, hreadable, hstands, hstart⟩ := hbefore.exists_part hne
  refine ⟨part, hchars, hreadable, hstands, fun hgap => ?_⟩
  -- without a gap the semicolon would stand at the last token
  have hts : ts ≠ [] := by
    rintro rfl
    exact hne rfl
  obtain ⟨last, hlast⟩ := Option.ne_none_iff_exists'.1 (mt List.getLast?_eq_none_iff.1 hts)
  have hstop := hstands.stop_getLast hlast
  have hlt := hapart last (List.mem_of_getLast? hlast)
  rw [Part.chars, hgap, List.append_nil] at hchars
  rw [hstop, hstart, hchars] at hlt
  omega

namespace Part

variable {markers : Bool} {before before' : Option Token} {part : Part} {place place' : Nat} {ts us : List Token}

/-- The part is read as a declarator. -/
structure Declares (markers : Bool) (before : Option Token) (part : Part) : Prop where
  readable : part.Readable
  row : ∃ ts, Stands 0 part.row ts ∧ DeclaratorRow markers before (ts.filter Token.stays)

theorem Readable.exists_map (h : part.Readable) (hts : Stands place part.row ts) (hus : Stands place' part.row us) :
    ∃ f, KeepsKinds f ∧ us = ts.map f := by
  obtain ⟨mark, rest, -, hreads⟩ := h.reads.reads
  exact exists_keepsKinds (hts.ordered hreads).nodup (hus.map_kind.trans hts.map_kind.symm)

theorem Readable.isSignificant (h : part.Readable) (hts : Stands place part.row ts) :
    ∀ t ∈ ts.filter Token.stays, t.isSignificant = true := by
  intro t ht
  obtain ⟨ht, hstays⟩ := List.mem_filter.1 ht
  obtain ⟨l, hl, hkind, -⟩ := hts.exists_of_mem ht
  have hplain := h.reads.plain l hl
  refine isSignificant_of_stays hstays ?_
  rw [Token.directive?, hkind]
  split
  case h_1 directive heq => exact absurd heq (hplain directive)
  case h_2 => rfl

/-- It is the same declarator wherever it stands. -/
theorem Declares.row_of_stands (h : part.Declares markers before) (hus : Stands place part.row us)
    (hbefore : before'.any Token.isName = before.any Token.isName) : DeclaratorRow markers before' (us.filter Token.stays) := by
  obtain ⟨ts, hts, hrow⟩ := h.row
  obtain ⟨f, hf, rfl⟩ := h.readable.exists_map hts hus
  rw [filter_stays_map hf]
  exact hrow.map hf hbefore

end Part

theorem exists_parts {markers : Bool} {before : Option Token} {texts : List String}
    (h : ∀ text ∈ texts, DeclaratorText markers before text) :
    ∃ parts : List Part, parts.map Part.chars = texts.map String.toList ∧ ∀ part ∈ parts, part.Declares markers before := by
  induction texts with
  | nil => exact ⟨[], rfl, by simp⟩
  | cons text texts ih =>
    obtain ⟨⟨ts, semi, last, hbefore, hrow⟩, htexts⟩ := List.forall_mem_cons.1 h
    obtain ⟨parts, hchars, hparts⟩ := ih htexts
    have hne : ts.filter Token.stays ≠ [] := hrow.list.ne_nil
    obtain ⟨part, hpart, hreadable, hstands, -⟩ := hbefore.exists_part hne
    exact ⟨part :: parts, by simp [hpart, hchars], List.forall_mem_cons.2 ⟨⟨hreadable, ts, hstands, hrow⟩, hparts⟩⟩

/-- Without their comments, specifiers and a declarator say the same at two places. -/
theorem FarApart.declared?_eq {ls ms : List Lexed} {rest rest' : List Char} {here there here' there' : Nat}
    {ss es ss' es' : List Token} (h : FarApart ls ms here there ss es) (h' : FarApart ls ms here' there' ss' es')
    (hls : Reads ls rest) (hms : Reads ms rest') (markers : Bool) (guard : GuardPath) (block : Option InterfaceBlock) :
    (Specifiers.ofTokens markers (ss'.filter Token.stays)).declared? guard block (es'.filter Token.stays) =
      (Specifiers.ofTokens markers (ss.filter Token.stays)).declared? guard block (es.filter Token.stays) := by
  obtain ⟨f, hf, rfl, rfl⟩ := h.exists_respaces h' hls hms
  rw [filter_stays_map hf.keepsKinds, filter_stays_map hf.keepsKinds]
  refine Specifiers.declared?_respaced (hf.sublist ?_) guard block
  exact List.filter_sublist.append List.filter_sublist

theorem forall₂_of_common {α β γ : Type} {R : α → β → Prop} {S : α → γ → Prop} {as : List α} {bs : List β} {cs : List γ}
    (h : List.Forall₂ R as bs) (h' : List.Forall₂ S as cs) : List.Forall₂ (fun b c => ∃ a, R a b ∧ S a c) bs cs := by
  induction h generalizing cs with
  | nil =>
    obtain _ | _ := h'
    exact .nil
  | cons hab _ ih =>
    obtain _ | ⟨hac, hrest⟩ := h'
    exact .cons ⟨_, hab, hac⟩ (ih hrest)

theorem filterMap_eq_of_forall₂ {α β γ : Type} {R : α → β → Prop} {as : List α} {bs : List β} (h : List.Forall₂ R as bs)
    {g : α → Option γ} {g' : β → Option γ} (hsame : ∀ a b, R a b → g' b = g a) : bs.filterMap g' = as.filterMap g := by
  have hmap := congrArg (List.filterMap id) (map_eq_of_forall₂ h hsame)
  simpa [List.filterMap_map] using hmap

/-- Specifiers with a declarator behind them, wherever they stand. -/
theorem FarApart.row {markers : Bool} {front part : Part} {here there : Nat} {ts ss es : List Token} (hfront : front.Readable)
    (hts : Stands 0 front.row ts) (hrow : SpecifierRow markers (ts.filter Token.stays))
    (hpart : part.Declares markers (ts.filter Token.stays).getLast?) (h : FarApart front.row part.row here there ss es) :
    DeclarationRow markers (ss.filter Token.stays) (es.filter Token.stays) := by
  obtain ⟨f, hf, hmap⟩ := hfront.exists_map hts h.specifiers
  have hname : (ss.filter Token.stays).getLast?.any Token.isName = (ts.filter Token.stays).getLast?.any Token.isName := by
    rw [hmap, filter_stays_map hf, List.getLast?_map]
    cases (ts.filter Token.stays).getLast? <;> simp [hf.isName]
  refine ⟨?_, hpart.row_of_stands h.declarator hname, fun t ht => ?_⟩
  · rw [hmap, filter_stays_map hf]
    exact hrow.map hf
  · rcases List.mem_append.1 ht with ht | ht
    · exact hfront.isSignificant h.specifiers t ht
    · exact hpart.readable.isSignificant h.declarator t ht

/-! ### One declaration and many -/

/-- One declaration of all the declarators. -/
def declaredTogether (specifiers : String) (declarators : List String) : String :=
  specifiers ++ ", ".intercalate declarators ++ ";"

/-- A declaration of each of them. -/
def declaredOneByOne (specifiers : String) (declarators : List String) : String :=
  " ".intercalate (declarators.map fun text => specifiers ++ text ++ ";")

/-- Where a list of declarators and declarations one by one are read without errors, they say the same. -/
theorem surveySource_declarators {markers : Bool} {specifiers : String} {ts : List Token}
    (hspecifiers : SpecifierText markers specifiers ts) {declarators : List String} (hne : declarators ≠ [])
    (hdeclarators : ∀ text ∈ declarators, DeclaratorText markers (ts.filter Token.stays).getLast? text) {s s' : Survey}
    (hs : surveySource markers (declaredTogether specifiers declarators) = .ok s) (hclean : s.errors = [])
    (hs' : surveySource markers (declaredOneByOne specifiers declarators) = .ok s') (hclean' : s'.errors = []) :
    s'.declarations.told = s.declarations.told := by
  obtain ⟨front, hfront, hreadable, hstands, hgap⟩ := hspecifiers.exists_part
  obtain ⟨parts, hchars, hparts⟩ := exists_parts hdeclarators
  have hreadables : ∀ part ∈ parts, part.Readable := fun part hpart => (hparts part hpart).readable
  have hparts' : parts ≠ [] := by
    rintro rfl
    exact hne (by simpa using hchars.symm)
  have hlist : (declaredTogether specifiers declarators).toList =
      front.chars ++ [',', ' '].intercalate (parts.map Part.chars) ++ [';'] := by
    rw [hchars, hfront, declaredTogether, String.toList_append, String.toList_append, String.toList_intercalate]
    rfl
  have heach : (declaredOneByOne specifiers declarators).toList =
      [' '].intercalate (parts.map fun part => front.chars ++ part.chars ++ [';']) := by
    have hmap : (parts.map Part.chars).map (fun chars => front.chars ++ chars ++ [';']) =
        parts.map fun part => front.chars ++ part.chars ++ [';'] := List.map_map ..
    rw [← hmap, hchars, hfront, declaredOneByOne, String.toList_intercalate, List.map_map, List.map_map]
    simp [Function.comp_def]
  obtain ⟨ss, init, last, stop, htokens, hinit, hlast, hstop, hss, hpieces⟩ :=
    exists_tokens_of_list hreadable hgap hreadables hparts' hlist
  obtain ⟨singles, stop', htokens', hstop', hsingles⟩ := exists_tokens_of_singles hreadable hgap hreadables hparts' heach
  rw [surveySource, htokens] at hs
  rw [surveySource, htokens'] at hs'
  -- both say what the declarators say at their places
  have hpieces' := (List.forall₂_and_left ..).2 ⟨hparts, hpieces⟩
  have hsingles' := (List.forall₂_and_left ..).2 ⟨hparts, hsingles⟩
  have htold := told_of_commented_list (fun piece hpiece => by
    obtain ⟨part, ⟨hpart, there, hfar⟩, -⟩ := List.forall₂_same.1 (forall₂_of_common hpieces' hpieces') piece hpiece
    exact hfar.row hreadable hstands hspecifiers.row hpart) hinit hlast hstop hs hclean
  have htold' := Single.told_of_commented_singles (fun single hsingle => by
    obtain ⟨part, ⟨hpart, hsemi, here, there, hfar⟩, -⟩ := List.forall₂_same.1 (forall₂_of_common hsingles' hsingles') single hsingle
    exact ⟨hfar.row hreadable hstands hspecifiers.row hpart, hsemi⟩) hstop' hs' hclean'
  rw [htold, htold']
  refine filterMap_eq_of_forall₂ (forall₂_of_common hpieces' hsingles') ?_
  rintro piece single ⟨part, ⟨hpart, there, hfar⟩, -, -, here', there', hfar'⟩
  obtain ⟨mark, behind, -, hreads⟩ := hreadable.reads.reads
  obtain ⟨mark', behind', -, hreads'⟩ := hpart.readable.reads.reads
  exact hfar.declared?_eq hfar' hreads hreads' markers [] none

/-- A pointer, a function and an array with an initial value. -/
theorem surveySource_declarators_static :
    let specifiers := "static const int "
    let declarators := ["*a", "f(int x, int y)", "b[2] = \x7b1, 2\x7d"]
    ∃ s s', surveySource true (declaredTogether specifiers declarators) = .ok s ∧ s.errors = [] ∧
      s.declarations.items.map (·.kind) = [.variable, .function, .variable] ∧
      surveySource true (declaredOneByOne specifiers declarators) = .ok s' ∧ s'.errors = [] ∧
      s'.declarations.told = s.declarations.told := by
  intro specifiers declarators
  let tokens (text : String) : List Token := (tokenize (text ++ ";")).toOption.getD []
  let s := (surveySource true (declaredTogether specifiers declarators)).toOption.getD {}
  let s' := (surveySource true (declaredOneByOne specifiers declarators)).toOption.getD {}
  have hs : surveySource true (declaredTogether specifiers declarators) = .ok s := by decide +kernel
  have hs' : surveySource true (declaredOneByOne specifiers declarators) = .ok s' := by decide +kernel
  have hspecifiers : SpecifierText true specifiers ((tokens specifiers).take 3) := by
    refine ⟨⟨⟨.punct .semi, ";", ⟨17, 18⟩, 1, true⟩, .endOfText 18 1, by decide +kernel, by decide +kernel⟩, by decide +kernel⟩
  have hdeclarators : ∀ text ∈ declarators, ∃ semi ∈ (tokens text).dropLast.getLast?, ∃ last ∈ (tokens text).getLast?,
      StandsBefore text (tokens text).dropLast.dropLast semi last ∧
        DeclaratorRow true (((tokens specifiers).take 3).filter Token.stays).getLast?
          ((tokens text).dropLast.dropLast.filter Token.stays) := by
    decide +kernel
  refine ⟨s, s', hs, by decide +kernel, by decide +kernel, hs', by decide +kernel, ?_⟩
  refine surveySource_declarators hspecifiers (by decide) (fun text htext => ?_) hs (by decide +kernel) hs' (by decide +kernel)
  obtain ⟨semi, -, last, -, hbefore, hrow⟩ := hdeclarators text htext
  exact ⟨_, semi, last, hbefore, hrow⟩

/-- The list and the declarations one by one are read without errors, and do not say the same. -/
def ToldApart (markers : Bool) (specifiers : String) (declarators : List String) : Prop :=
  ∃ s ∈ (surveySource markers (declaredTogether specifiers declarators)).toOption,
    ∃ s' ∈ (surveySource markers (declaredOneByOne specifiers declarators)).toOption,
      s.errors = [] ∧ s'.errors = [] ∧ s'.declarations.told ≠ s.declarations.told

/-- A declarator that begins with a specifier is one only behind a comma. An aggregate takes a group or a word behind it as its
own if it has no tag, and is declared as often as it stands there with a body. A definition in the old style begins
where its parameters do, and an open quote takes a directive to the next line if a quote stands there. -/
theorem toldApart_examples :
    ToldApart true "int " ["a", "LOCAL(x)"] ∧ ToldApart true "int " ["a", "typeof(x)(y)"] ∧
      ToldApart true "int struct " ["(a)", "b"] ∧ ToldApart true "int struct s \x7b int n; \x7d " ["a", "b"] ∧
      ToldApart true "int " ["a(int)", "(f(int)) = g(b) c", "y = \x7b1\x7d"] ∧
      ToldApart true "_Alignas('a') int\n" ["x\n#error ' // \\\n", "y"] := by
  unfold ToldApart
  decide +kernel

end CHeader
