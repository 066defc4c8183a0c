import CHeader.Proofs.Declaring
import CHeader.Proofs.Parts
import CHeader.Proofs.Placing

/-!
# A construct at another place

What a construct declares depends on its place only by the guards, the lines and the spans that its declarations get.
If its tokens are moved by some bytes and lines (`Moves`), and the characters between them are the same at the new
place (`Site.Carries`), it says the same there: the same names, and the same declarations and issues further on in the
text (`Construct.entries_moved`).
-/

namespace CHeader

/-! ### Places further on -/

/-- The span `offset` bytes further on. -/
def Span.moved (offset : Nat) (span : Span) : Span :=
  ⟨span.start + offset, span.stop + offset⟩

/-- The diagnostic `offset` bytes and `lines` lines further on. -/
def Diagnostic.moved (offset lines : Nat) (d : Diagnostic) : Diagnostic :=
  { d with span := d.span.moved offset, line := d.line + lines }

/-- The declaration further on. -/
def Draft.moved (offset lines : Nat) (d : Draft) : Draft :=
  { d with span := d.span.moved offset, line := d.line + lines }

/-- The entry further on. -/
def Entry.moved (offset lines : Nat) : Entry → Entry
  | mention name => mention name
  | declare names draft => declare names (draft.moved offset lines)
  | issue fault => issue (fault.moved offset lines)

theorem Entry.moved_zero (entry : Entry) : entry.moved 0 0 = entry := by
  cases entry <;> rfl

/-- A map that puts tokens `offset` bytes and `lines` lines further on. Whether white space stands before them there
is left open. -/
structure Moves (offset lines : Nat) (f : Token → Token) : Prop where
  kind : ∀ t, (f t).kind = t.kind
  text : ∀ t, (f t).text = t.text
  span : ∀ t, (f t).span = t.span.moved offset
  line : ∀ t, (f t).line = t.line + lines

variable {offset lines : Nat} {f : Token → Token}

theorem Moves.keepsKinds (hf : Moves offset lines f) : KeepsKinds f :=
  hf.kind

theorem Moves.ofIssue (hf : Moves offset lines f) (issue : Issue) (t : Token) :
    Diagnostic.ofIssue issue (f t) = (Diagnostic.ofIssue issue t).moved offset lines := by
  simp [Diagnostic.ofIssue, Diagnostic.moved, hf.span, hf.line]

/-- Tokens of a text are told apart by their places. -/
theorem Ordered.moves_inj {ts : List Token} (h : Ordered ts) (hf : Moves offset lines f) {t u : Token} (ht : t ∈ ts)
    (hu : u ∈ ts) : f t = f u ↔ t = u := by
  constructor
  · intro hmoved
    have hspan : t.span.start = u.span.start ∧ t.span.stop = u.span.stop := by
      have hspans : t.span.moved offset = u.span.moved offset := by rw [← hf.span, hmoved, hf.span]
      simpa [Span.moved] using hspans
    by_contra hne
    have hpos := h.positive t ht
    have hpos' := h.positive u hu
    have hapart := h.apart ht hu hne
    omega
  · rintro rfl
    rfl

/-! ### Spelling -/

theorem Moves.needsBlank (hf : Moves offset lines f) (before behind : Token) :
    needsBlank (f before) (f behind) = CHeader.needsBlank before behind := by
  simp [CHeader.needsBlank, hf.span, hf.kind, Span.moved]

theorem Moves.spellBehind (hf : Moves offset lines f) (before : Token) (ts : List Token) :
    spellBehind (f before) (ts.map f) = CHeader.spellBehind before ts := by
  induction ts generalizing before with
  | nil => rfl
  | cons t ts ih => rw [List.map_cons, CHeader.spellBehind, hf.needsBlank, hf.text, ih, CHeader.spellBehind]

theorem Moves.spell (hf : Moves offset lines f) (ts : List Token) : spell (ts.map f) = CHeader.spell ts := by
  cases ts with
  | nil => rfl
  | cons t ts => rw [List.map_cons, CHeader.spell, hf.spellBehind, hf.text, CHeader.spell]

theorem Moves.isBetween (hf : Moves offset lines f) (t first last : Token) :
    (f t).isBetween (f first) (f last) = t.isBetween first last := by
  simp [Token.isBetween, hf.span, Span.moved]

/-- The second place is like the first: the characters up to the tokens of `tokens`, as `f` moves them, are there the
same. -/
structure Site.Carries (f : Token → Token) (site site' : Site) (tokens : List Token) : Prop where
  markers : site'.markers = site.markers
  guard : site'.guard = site.guard
  block : site'.block = site.block
  between : ∀ first, ∀ last ∈ tokens, site'.between (f first) (f last) = site.between first last

namespace Construct

variable {c : Construct} {site site' : Site} {specs : Specifiers} {tokens : List Token}

/-! ### Types -/

theorem draft_moved (hf : Moves offset lines f) (h : site'.guard = site.guard) (c : Construct) (start : Token)
    (kind : DeclKind) (text : DeclText) (visibility : Visibility) :
    (c.map f).draft site' (f start) kind text visibility =
      (c.draft site start kind text visibility).moved offset lines := by
  simp only [draft, last_map, h, hf.span, hf.line]
  rfl

theorem typeVisibility_map (h : site'.block = site.block) (specs : Specifiers) :
    (specs.map f).typeVisibility site'.block = specs.typeVisibility site.block := by
  rw [Specifiers.typeVisibility, h, Specifiers.marker?_map, Specifiers.typeVisibility]

theorem typedefEntries_moved (hf : Moves offset lines f) (h : site.Carries f site' tokens) (hlast : c.last ∈ tokens)
    (start : Token) :
    (c.map f).typedefEntries site' (specs.map f) (f start) =
      (c.typedefEntries site specs start).map (Entry.moved offset lines) := by
  have hnames : ((c.map f).pieces (specs.map f)).filterMap (fun piece => (Declarator.ofTokens piece.tokens).name) =
      ((c.pieces specs).filterMap fun piece => (Declarator.ofTokens piece.tokens).name).map f := by
    rw [pieces_map hf.keepsKinds, List.filterMap_map, List.map_filterMap]
    congr 1
    funext piece
    simp [Nesting.Piece.map, Declarator.ofTokens_map hf.keepsKinds, Declarator.map]
  unfold typedefEntries
  rw [hnames, last_map, h.between start c.last hlast, typeVisibility_map h.block, draft_moved hf h.guard]
  cases (c.pieces specs).filterMap fun piece => (Declarator.ofTokens piece.tokens).name with
  | nil => simp [Entry.moved, hf.ofIssue]
  | cons name names => simp [Entry.moved, hf.text]

theorem bareEntries_moved (hf : Moves offset lines f) (h : site.Carries f site' tokens) (hlast : c.last ∈ tokens)
    (start first : Token) :
    (c.map f).bareEntries site' (specs.map f) (f start) (f first) =
      (c.bareEntries site specs start first).map (Entry.moved offset lines) := by
  unfold bareEntries
  rw [Specifiers.aggregate?_map, last_map, h.between start c.last hlast, typeVisibility_map h.block, draft_moved hf h.guard]
  cases specs.aggregate? with
  | none => simp [Entry.moved, hf.ofIssue]
  | some a =>
    have htag : ((a.map f).tag.map (·.text)).toList = (a.tag.map (·.text)).toList := by
      cases htag : a.tag <;> simp [Aggregate.map, htag, hf.text]
    simp [Entry.moved, htag]

theorem taggedEntries_moved (hf : Moves offset lines f) (h : site.Carries f site' tokens)
    (hbody : ∀ a tag, tagged? specs = some (a, tag) → a.body ⊆ tokens) (start : Token) :
    (c.map f).taggedEntries site' (specs.map f) (f start) =
      (c.taggedEntries site specs start).map (Entry.moved offset lines) := by
  unfold taggedEntries
  rw [tagged?_map, typeVisibility_map h.block]
  cases htagged : tagged? specs with
  | none => rfl
  | some found =>
    obtain ⟨a, tag⟩ := found
    have hne := (aggregate?_of_tagged? htagged).2
    have hfirst : (a.map f).head.head?.getD (f start) = f (a.head.head?.getD start) := by
      cases hhead : a.head <;> simp [Aggregate.map, hhead]
    have hlast : (a.map f).body.getLast?.getD (f start) = f (a.body.getLast?.getD start) := by
      simp only [Aggregate.map, List.getLast?_map]
      cases a.body.getLast? <;> rfl
    have hmem : a.body.getLast?.getD start ∈ tokens := by
      rw [List.getLast?_eq_some_getLast hne]
      exact hbody a tag htagged (List.getLast_mem hne)
    simp [hfirst, hlast, h.between _ _ hmem, draft_moved hf h.guard, Entry.moved, hf.text]

theorem omitted_map (specs : Specifiers) : omitted (specs.map f) = (omitted specs).map f := by
  unfold omitted
  rw [tagged?_map]
  cases tagged? specs <;> rfl

/-! ### Functions and variables -/

theorem lostConditional?_moved (hf : Moves offset lines f) (c : Construct) (omitted spelled : List Token) :
    (c.map f).lostConditional? (omitted.map f) (spelled.map f) = (c.lostConditional? omitted spelled).map f := by
  unfold lostConditional?
  rw [List.head?_map, List.getLast?_map, List.head?_map, List.getLast?_map, map]
  cases spelled.head? with
  | none => rfl
  | some first =>
    cases spelled.getLast? with
    | none => rfl
    | some last =>
      simp only [Option.map_some, bind, Option.bind_some, List.find?_map, Function.comp_def, hf.isBetween,
        Option.any_map]

theorem takeWhile_moved (hf : Moves offset lines f) {ts : List Token} (hordered : Ordered ts) {opening : Token}
    (hopening : opening ∈ ts) : (ts.map f).takeWhile (· ≠ f opening) = (ts.takeWhile (· ≠ opening)).map f := by
  have hsame : ∀ us ⊆ ts, (us.map f).takeWhile (· ≠ f opening) = (us.takeWhile (· ≠ opening)).map f := by
    intro us hus
    induction us with
    | nil => rfl
    | cons u us ih =>
      have hu := hordered.moves_inj hf (hus List.mem_cons_self) hopening
      simp only [List.map_cons, List.takeWhile_cons, ne_eq, hu, ih (List.subset_of_cons_subset hus)]
      split <;> rfl
  exact hsame ts (List.Subset.refl ts)

theorem prototypeTokens_moved (hf : Moves offset lines f) {piece : Nesting.Piece} (hordered : Ordered piece.declaring) :
    (c.map f).prototypeTokens (piece.map f) = (c.prototypeTokens piece).map f := by
  have hparameters : (c.map f).parameters.isEmpty = c.parameters.isEmpty := by simp [map]
  unfold prototypeTokens
  rw [Nesting.Piece.declarator_map hf.keepsKinds, Declarator.map, hparameters, Nesting.Piece.declaring_map hf.keepsKinds]
  cases hopening : piece.declarator.parameters with
  | none => rfl
  | some opening =>
    obtain ⟨front, rest, hsplit, -⟩ := Declarator.ofTokens_front hopening
    have hmem : opening ∈ piece.declaring := by simp [hsplit]
    simp only [Option.map_some]
    split_ifs
    · rfl
    · rw [takeWhile_moved hf hordered hmem, List.map_append, List.map_singleton]

theorem functionText_moved (hf : Moves offset lines f) (h : site.Carries f site' tokens) (hlast : c.last ∈ tokens)
    (start : Token) {piece : Nesting.Piece} (hordered : Ordered piece.declaring) :
    (c.map f).functionText site' (specs.map f) (f start) (piece.map f) =
      (c.functionText site specs start piece).mapError f := by
  have hparameters : (c.map f).parameters.isEmpty = c.parameters.isEmpty := by simp [map]
  simp only [functionText, hasBody_map, Specifiers.isInline_map, Specifiers.isStatic_map, last_map,
    h.between start c.last hlast, shared_map, prototypeTokens_moved hf hordered, omitted_map, ← List.map_append,
    lostConditional?_moved hf, hparameters, hf.spell]
  split_ifs
  · rfl
  all_goals cases c.lostConditional? (omitted specs) (shared specs ++ c.prototypeTokens piece) <;> rfl

theorem variableText_moved (hf : Moves offset lines f) (c : Construct) (specs : Specifiers) (piece : Nesting.Piece) :
    (c.map f).variableText (specs.map f) (piece.map f) = (c.variableText specs piece).mapError f := by
  simp only [variableText, shared_map, List.filter_map, Nesting.Piece.declaring_map hf.keepsKinds, omitted_map,
    ← List.map_append, Function.comp_def, hf.kind, lostConditional?_moved hf, hf.spell]
  generalize c.lostConditional? _ _ = lost
  cases lost <;> rfl

theorem declaratorEntry_moved (hf : Moves offset lines f) (h : site.Carries f site' tokens) (hlast : c.last ∈ tokens)
    (start : Token) {piece : Nesting.Piece} (hordered : Ordered piece.declaring) :
    (c.map f).declaratorEntry site' (specs.map f) (f start) (piece.map f) =
      (c.declaratorEntry site specs start piece).moved offset lines := by
  have hvisibility : (specs.map f).visibility site'.block = specs.visibility site.block := by
    rw [Specifiers.visibility, typeVisibility_map h.block, Specifiers.isStatic_map, Specifiers.marker?_map,
      Specifiers.visibility]
  have hname : (Declarator.map f piece.declarator).name = piece.declarator.name.map f := rfl
  simp only [declaratorEntry, Nesting.Piece.declarator_map hf.keepsKinds, hname, Declarator.isFunction_map, hasBody_map,
    functionText_moved hf h hlast start hordered, variableText_moved hf, Nesting.Piece.start_map, hvisibility]
  cases piece.declarator.name with
  | none => simp [Entry.moved, hf.ofIssue]
  | some name =>
    simp only [Option.map_some, draft_moved hf h.guard]
    split_ifs
    · cases c.functionText site specs start piece <;> simp [Except.mapError, Entry.moved, hf.ofIssue, hf.text]
    · simp [Entry.moved, hf.ofIssue]
    · cases c.variableText specs piece <;> simp [Except.mapError, Entry.moved, hf.ofIssue, hf.text]

/-! ### All entries -/

/-- A construct whose tokens are in order, and are moved together with the text around them, says the same further
on. -/
theorem entries_moved (hf : Moves offset lines f) (h : site.Carries f site' tokens) (hlast : c.last ∈ tokens)
    (hhead : c.head ⊆ tokens) (hordered : Ordered c.head) :
    (c.map f).entries site' = (c.entries site).map (Entry.moved offset lines) := by
  have hspecs : (c.map f).specifiers site' = (c.specifiers site).map f := by
    rw [specifiers, specifiers, h.markers]
    exact Specifiers.ofTokens_map hf.keepsKinds _ _
  have hpieces : ∀ piece ∈ c.pieces (c.specifiers site), Ordered piece.declaring := by
    intro piece hpiece
    have hsub := (sublist_of_mem_pieces hpiece).trans (List.drop_sublist _ _)
    obtain ⟨rest, hrest⟩ := piece.declaring_append
    exact (hordered.sublist hsub).sublist (hrest ▸ List.sublist_append_left piece.declaring rest)
  have hmentions : mentions ((c.specifiers site).map f) =
      (mentions (c.specifiers site)).map (Entry.moved offset lines) := by
    rw [mentions, Specifiers.kept_map, List.filter_map, mentions, List.map_map, List.map_map]
    simp only [Function.comp_def, hf.keepsKinds.isName, hf.text, Entry.moved]
  unfold entries
  rw [hspecs]
  cases hfirst : c.head with
  | nil => simp [map, hfirst]
  | cons first rest =>
    have hmapped : (c.map f).head = f first :: rest.map f := by simp [map, hfirst]
    have hbody : ∀ a tag, tagged? (c.specifiers site) = some (a, tag) → a.body ⊆ tokens := by
      intro a tag htagged t ht
      exact hhead (subset_of_tagged? htagged (List.mem_append_right _ ht))
    have hdeclarators : (c.map f).declaratorEntries site' ((c.specifiers site).map f)
        (f (start (c.specifiers site) first)) (f first) =
        (c.declaratorEntries site (c.specifiers site) (start (c.specifiers site) first) first).map
          (Entry.moved offset lines) := by
      simp only [declaratorEntries, pieces_map hf.keepsKinds, hasBody_map, List.length_map]
      split_ifs
      · simp [Entry.moved, hf.ofIssue]
      · rw [List.map_map, List.map_map]
        apply List.map_congr_left
        intro piece hpiece
        exact declaratorEntry_moved hf h hlast _ (hpieces piece hpiece)
    simp only [hmapped, hmentions, start_map, Specifiers.isTypedef_map, pieces_map hf.keepsKinds, List.isEmpty_map,
      typedefEntries_moved hf h hlast, bareEntries_moved hf h hlast, taggedEntries_moved hf h hbody, hdeclarators, hf.kind]
    split_ifs <;> simp

end Construct

end CHeader
