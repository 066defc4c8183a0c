import CHeader.Proofs.Checked.Kept

/-!
# Declarations by position

What a construct declares, found by position with checked look-ups and checked slices (`PlacedConstruct.entries?`). Where
the tokens are read from the source, nothing fails and the entries are those of the construct (`entries?_eq`).
-/

namespace CHeader.Checked

/-! ### Names and issues -/

/-- The name at a position, if an identifier stands there. -/
def nameAt? (view : View) (i : Nat) : Option (Option String) := do
  let t ← view i
  some t.kind.identifier?

/-- The name at a position, if there is one. -/
def nameOf? (view : View) : Option Nat → Option (Option String)
  | some i => nameAt? view i
  | none => some none

/-- An issue with the token at a position. -/
def issueAt? (tokens : List Token) (issue : Issue) (i : Nat) : Option Entry := do
  let t ← token? tokens i
  some (.issue (.ofIssue issue t))

/-- The names at some positions that are no attribute words. -/
def mentions? (view : View) : List Nat → Option (List Entry)
  | [] => some []
  | i :: places => do
    let t ← view i
    let behind ← mentions? view places
    match t.kind.identifier? with
    | some word => some (if attributeWords.contains word then behind else .mention word :: behind)
    | none => some behind

/-- The names that the declarators of a `typedef` declare. -/
def declaredNames? (view : View) : List Stretch → Option (List String)
  | [] => some []
  | stretch :: stretches => do
    let declarator ← PlacedDeclarator.ofStretch? view stretch
    let name ← nameOf? view declarator.name
    let behind ← declaredNames? view stretches
    some (name.toList ++ behind)

/-- The positions that show neither `extern` nor `static`. -/
def withoutStorage? (view : View) : List Nat → Option (List Nat)
  | [] => some []
  | i :: places => do
    let t ← view i
    let behind ← withoutStorage? view places
    some (if t.kind = .keyword .externKw || t.kind = .keyword .staticKw then behind else i :: behind)

/-! ### One construct -/

/-- A construct with its specifiers, and the positions in the text of its first token and of those that its declarations
begin and end with. -/
structure Frame where
  construct : PlacedConstruct
  specs : PlacedSpecifiers
  first : Nat
  start : Nat
  last : Nat

namespace Frame

variable (site : Site) (tokens : List Token) (f : Frame)

/-- The tokens of the construct by their positions in it. -/
def view : View :=
  f.construct.view tokens

/-- A declaration of the construct. -/
def declare? (names : List String) (kind : DeclKind) (text : DeclText) (visibility : Visibility) : Option Entry := do
  let t ← token? tokens f.start
  let u ← token? tokens f.last
  some (.declare names
    { kind, text, visibility, guard := site.guard, span := ⟨t.span.start, u.span.stop⟩, line := t.line })

/-- A type that is copied from the source. -/
def copy? (names : List String) : Option (List Entry) := do
  let text ← sourceText? site.source tokens f.start f.last
  let entry ← f.declare? site tokens names .type (.verbatim text) (f.specs.typeVisibility site.block)
  some [entry]

/-- A `typedef` declares all its names at once. -/
def typedef? (stretches : List Stretch) : Option (List Entry) := do
  match ← declaredNames? (f.view tokens) stretches with
  | [] => do
    let entry ← issueAt? tokens .typedefWithoutName f.start
    some [entry]
  | names => f.copy? site tokens names

/-- Specifiers without a declarator declare the aggregate among them. -/
def bare? : Option (List Entry) :=
  match f.specs.aggregate with
  | some aggregate => do
    let name ← nameOf? (f.view tokens) aggregate.tag
    f.copy? site tokens name.toList
  | none => do
    let entry ← issueAt? tokens .declaresNothing f.first
    some [entry]

/-- The aggregate that is declared apart, and the positions in the text of the braces that are left out of the
declarators. -/
def apart? : Option (List Entry × Option (Nat × Nat)) :=
  match f.specs.definition? with
  | some d => do
    let first ← f.construct.indices[d.keyword]?
    let last ← f.construct.indices[d.close]?
    let text ← sourceText? site.source tokens first last
    let name ← nameAt? (f.view tokens) d.tag
    let entry ← f.declare? site tokens name.toList .type (.verbatim (text ++ ";")) (f.specs.typeVisibility site.block)
    let opening ← f.construct.indices[d.opening]?
    some ([entry], some (opening, last))
  | none => some ([], none)

/-- The tokens at some positions of the construct in one line, or the position of a conditional directive that would be
lost. -/
def spelled? (omitted : Option (Nat × Nat)) (places : List Nat) : Option (Except Nat String) := do
  let indices ← places.mapM (f.construct.indices[·]?)
  match lostConditional f.construct.conditionals omitted indices with
  | some i => some (.error i)
  | none => do
    let text ← join? site.source tokens indices
    some (.ok text)

/-- The text of a function. In the old style the parameter names are left out. -/
def functionText? (omitted : Option (Nat × Nat)) (stretch : Stretch) (declarator : PlacedDeclarator) :
    Option (Except Nat DeclText) :=
  if f.construct.body.isSome && f.specs.isInline && !f.specs.isStatic then do
    let text ← sourceText? site.source tokens f.start f.last
    some (.ok (.verbatim text))
  else
    match f.construct.parameters, declarator.parameters with
    | some _, some (opening, _) => do
      let text ← f.spelled? site tokens omitted (f.specs.shared ++ places stretch.start (opening + 1))
      some (text.map fun text => .synthesized (text ++ ");"))
    | _, _ => do
      let text ← f.spelled? site tokens omitted (f.specs.shared ++ places stretch.start stretch.stop)
      some (text.map fun text => .synthesized (text ++ ";"))

/-- The text of a variable. -/
def variableText? (omitted : Option (Nat × Nat)) (stretch : Stretch) : Option (Except Nat DeclText) := do
  let kept ← withoutStorage? (f.view tokens) f.specs.shared
  let text ← f.spelled? site tokens omitted (kept ++ places stretch.start stretch.stop)
  some (text.map fun text => .synthesized ("extern " ++ text ++ ";"))

/-- The declaration of a function or variable, if no directive would be lost in its text. -/
def entry? (name : Option String) (kind : DeclKind) : Except Nat DeclText → Option Entry
  | .ok text => f.declare? site tokens name.toList kind text (f.specs.visibility site.block)
  | .error i => issueAt? tokens (.splitByConditional (name.getD "<anonymous>")) i

/-- The declaration of one declarator. -/
def declarator? (omitted : Option (Nat × Nat)) (stretch : Stretch) : Option Entry := do
  let initializer ← initializer? (f.view tokens) stretch
  let declaring : Stretch := ⟨stretch.start, initializer.getD stretch.stop⟩
  let declarator ← PlacedDeclarator.ofStretch? (f.view tokens) declaring
  match declarator.name with
  | none => do
    let last ← sub? f.construct.indices.length 1
    let i ← f.construct.indices[min stretch.start last]?
    issueAt? tokens .missingName i
  | some place => do
    let name ← nameAt? (f.view tokens) place
    if declarator.isFunction then do
      let text ← f.functionText? site tokens omitted declaring declarator
      f.entry? site tokens name .function text
    else if f.construct.body.isSome then do
      let i ← f.construct.indices[place]?
      issueAt? tokens .bodyOfNonFunction i
    else do
      let text ← f.variableText? site tokens omitted declaring
      f.entry? site tokens name .variable text

/-- The declarations of all declarators; a body goes with one. -/
def declarators? (omitted : Option (Nat × Nat)) (stretches : List Stretch) : Option (List Entry) :=
  if f.construct.body.isSome && decide (1 < stretches.length) then do
    let entry ← issueAt? tokens .severalNamesWithBody f.first
    some [entry]
  else stretches.mapM (f.declarator? site tokens omitted)

/-- What the construct says besides the names that it mentions. -/
def entries? (stretches : List Stretch) : Option (List Entry) :=
  if f.specs.isTypedef then f.typedef? site tokens stretches
  else if stretches.isEmpty then f.bare? site tokens
  else do
    let (apart, omitted) ← f.apart? site tokens
    let declared ← f.declarators? site tokens omitted stretches
    some (apart ++ declared)

end Frame

/-- The position in the text that the declarations of a construct begin at: marker words before it are not part of
them. -/
def start? (c : PlacedConstruct) (specs : PlacedSpecifiers) (first : Nat) : Option Nat :=
  match specs.positions.head? with
  | some place => c.indices[place]?
  | none => some first

/-- The position of the last token of a construct, whose first is at `first`. -/
def PlacedConstruct.last (c : PlacedConstruct) (first : Nat) : Nat :=
  match c.body with
  | some (_, close) => close
  | none => c.indices.getLast?.getD first

/-- What the construct says. -/
def PlacedConstruct.entries? (site : Site) (tokens : List Token) (c : PlacedConstruct) : Option (List Entry) :=
  match c.indices with
  | [] => some []
  | first :: _ => do
    let t ← token? tokens first
    if t.kind = .keyword .staticAssertKw then some []
    else do
      let specs ← c.specifiers? site.markers tokens
      let start ← start? c specs first
      let mentions ← mentions? (c.view tokens) specs.positions
      let stop ← c.declaratorsEnd? (c.view tokens) specs
      let stretches ← splitDeclarators? (c.view tokens) ⟨specs.stop, stop⟩
      let entries ← Frame.entries? site tokens ⟨c, specs, first, start, c.last first⟩ stretches
      some (mentions ++ entries)

/-! ### Names -/

section Names

variable {view : View} {ps : List Nat} {ts : List Token} {i : Nat} {t : Token}

/-- Identifiers are called as they are spelled. -/
def Named (view : View) : Prop :=
  ∀ i t name, view i = some t → t.kind.identifier? = some name → name = t.text

theorem nameAt?_eq (hnamed : Named view) (hi : view i = some t) (ht : t.isName = true) : nameAt? view i = some (some t.text) := by
  obtain ⟨name, hname⟩ := Option.isSome_iff_exists.1 (Option.isSome_of_any ht)
  rw [nameAt?, hi, ← hnamed i t name hi hname]
  simp [hname]

theorem mentions?_eq (hnamed : Named view) (h : ps.map view = ts.map some) :
    mentions? view ps = some ((ts.filter Token.isName).map fun t => .mention t.text) := by
  induction ps generalizing ts with
  | nil =>
    obtain rfl : ts = [] := by simpa using h.symm
    rfl
  | cons i ps ih =>
    obtain ⟨t, ts, rfl, ht, hts⟩ := List.map_eq_cons_iff.1 h.symm
    rw [mentions?, ← ht, ih hts.symm]
    simp only [Option.bind_eq_bind, Option.bind_some, List.filter_cons]
    cases hname : t.kind.identifier? with
    | none => simp [show t.isName = false by simp [Token.isName, hname]]
    | some word =>
      obtain rfl := hnamed i t word ht.symm hname
      have hword : t.isName = !attributeWords.contains t.text := by simp [Token.isName, hname]
      by_cases hattribute : t.text ∈ attributeWords <;> simp [hword, hattribute]

theorem withoutStorage?_lists (h : view.Lists ps ts) :
    ∃ kept, withoutStorage? view ps = some kept ∧ kept.Sublist ps ∧
      view.Lists kept (ts.filter fun t => !(t.kind = .keyword .externKw || t.kind = .keyword .staticKw)) := by
  induction ps generalizing ts with
  | nil =>
    obtain rfl : ts = [] := by simpa using h.shows
    exact ⟨[], rfl, .slnil, rfl, .nil⟩
  | cons i ps ih =>
    obtain ⟨hshows, hincreasing⟩ := h
    obtain ⟨t, ts, rfl, ht, hts⟩ := List.map_eq_cons_iff.1 hshows.symm
    obtain ⟨hless, hps⟩ := List.pairwise_cons.1 hincreasing
    obtain ⟨kept, hkept, hsub, hlists⟩ := ih ⟨hts.symm, hps⟩
    rw [withoutStorage?, ← ht, hkept]
    simp only [Option.bind_eq_bind, Option.bind_some]
    cases hstorage : decide (t.kind = .keyword .externKw) || decide (t.kind = .keyword .staticKw) with
    | true =>
      rw [List.filter_cons_of_neg (by simp [hstorage])]
      exact ⟨kept, rfl, hsub.cons i, hlists⟩
    | false =>
      rw [List.filter_cons_of_pos (by simp [hstorage])]
      refine ⟨i :: kept, rfl, hsub.cons_cons i, ?_, List.pairwise_cons.2 ⟨fun j hj => hless j (hsub.subset hj), hlists.increasing⟩⟩
      rw [List.map_cons, List.map_cons, hlists.shows, ht]

/-- A declarator names no attribute word. -/
theorem isName_of_read {context : Declarator.Context} {found : Declarator} {ts : List Token}
    (hfound : ∀ t ∈ found.name, t.isName = true) : ∀ t ∈ (Declarator.read context found ts).name, t.isName = true := by
  fun_induction Declarator.read context found ts with
  | case1 => exact hfound
  | case3 context found t ts name hkind hattribute hnone ih =>
    refine ih ?_
    rintro _ ⟨⟩
    simpa [Token.isName, Token.isAttribute, hkind, TokenKind.identifier?] using hattribute
  | _ =>
    rename_i ih
    exact ih hfound

theorem isName_of_ofTokens {ts : List Token} {name : Token} (h : (Declarator.ofTokens ts).name = some name) : name.isName = true :=
  isName_of_read (by simp) name h

end Names

/-- There is a piece, and one alone holds a token if there are any. -/
theorem splitCommas_alone (stop : Token) (depth : Nat) (ts : List Token) :
    Nesting.splitCommas stop depth ts ≠ [] ∧
      ∀ piece, Nesting.splitCommas stop depth ts = [piece] → ts ≠ [] → piece.tokens ≠ [] := by
  fun_induction Nesting.splitCommas stop depth ts with
  | case1 => simp
  | case2 depth t ts hcomma ih => simp [ih.1]
  | case3 depth t ts hcomma piece pieces hsplit ih =>
    refine ⟨by simp, ?_⟩
    rintro _ hsingle -
    obtain ⟨rfl, -⟩ := List.cons.inj hsingle
    simp
  | case4 depth t ts hcomma hsplit ih => exact absurd hsplit ih.1

/-- A declarator that stands alone holds a token. -/
theorem ne_nil_of_mem_declarators {stop : Token} {ts : List Token} {piece : Nesting.Piece} (hpiece : piece ∈ declarators stop ts)
    (hsingle : (declarators stop ts).length ≤ 1) : piece.tokens ≠ [] := by
  rw [declarators] at hpiece hsingle
  split_ifs at hpiece hsingle with hnone
  · cases hpiece
  · obtain ⟨alone, halone⟩ := List.length_eq_one_iff.1 (Nat.le_antisymm hsingle (List.length_pos_of_mem hpiece))
    rw [halone, List.mem_singleton] at hpiece
    subst hpiece
    exact (splitCommas_alone stop 0 ts).2 piece halone (by simpa using hnone)

/-! ### Places in a construct -/

/-- A piece stands at a stretch behind the position `floor`. Where `ended` holds, the token that ends it stands behind it. -/
structure Stretch.Holds (view : View) (ended : Prop) (floor : Nat) (stretch : Stretch) (piece : Nesting.Piece) : Prop where
  stop : stretch.stop = stretch.start + piece.tokens.length
  floor : floor ≤ stretch.start
  shows : view.Shows stretch.start piece.tokens
  fits : Nesting.Fits piece.tokens
  ends : ended → view stretch.stop = some piece.stop

section Places

variable {view : View} {ended : Prop} {floor i p q k l : Nat} {pieces : List Nesting.Piece} {ps indices : List Nat}
  {tokens ts : List Token} {t : Token}

/-- The pieces stand at their stretches. -/
theorem holds_stretches (h : view.ShowsPieces ended i pieces) (hfits : ∀ piece ∈ pieces, Nesting.Fits piece.tokens)
    (hfloor : floor ≤ i) : List.Forall₂ (Stretch.Holds view ended floor) (stretches i pieces) pieces := by
  induction pieces generalizing i with
  | nil => exact .nil
  | cons piece pieces ih =>
    obtain ⟨hpiece, hend, hpieces⟩ := h
    obtain ⟨hfit, hfits⟩ := List.forall_mem_cons.1 hfits
    exact .cons ⟨rfl, hfloor, hpiece, hfit, fun hended => hend (.inl hended)⟩ (ih hpieces hfits (by omega))

namespace Stretch.Holds

variable {stretch : Stretch} {piece : Nesting.Piece} (h : stretch.Holds view ended floor piece)

include h

/-- Before the initializer stands the declarator. -/
theorem declaring : view.Shows stretch.start piece.declaring ∧ Nesting.Fits piece.declaring := by
  have hsplit := Nesting.breakAt_append (.punct .eq) 0 piece.tokens
  have hshows := h.shows
  have hfits := h.fits
  rw [← hsplit] at hshows hfits
  exact ⟨(View.shows_append.1 hshows).1, hfits.of_infix (List.prefix_append _ _).isInfix⟩

theorem initializer?_eq :
    ∃ initializer, initializer? view stretch = some initializer ∧
      initializer.getD stretch.stop = stretch.start + piece.declaring.length := by
  refine ⟨_, h.stop ▸ Checked.initializer?_eq h.shows, ?_⟩
  split_ifs with hnone
  · rw [Nesting.Piece.declaring, Nesting.fst_breakAt hnone]
    exact h.stop
  · rfl

/-- The token that a piece starts with, or the one behind an empty piece. -/
theorem view_start (hstarts : ended ∨ piece.tokens ≠ []) : view stretch.start = some piece.start := by
  have hshows := h.shows
  rw [Nesting.Piece.start]
  cases htokens : piece.tokens with
  | nil =>
    have hend := h.ends (hstarts.resolve_right fun hne => hne htokens)
    rwa [h.stop, htokens] at hend
  | cons t ts =>
    rw [htokens] at hshows
    exact hshows.1

end Stretch.Holds

theorem lt_of_getElem? (h : indices.Pairwise (· < ·)) (hp : indices[p]? = some k) (hq : indices[q]? = some l) (hlt : p < q) : k < l := by
  obtain ⟨hplt, rfl⟩ := List.getElem?_eq_some_iff.1 hp
  obtain ⟨hqlt, rfl⟩ := List.getElem?_eq_some_iff.1 hq
  exact List.pairwise_iff_getElem.1 h p q hplt hqlt hlt

namespace PlacedConstruct.Stands

variable {placed : PlacedConstruct} {c : Construct} (h : placed.Stands tokens c)

include h

theorem exists_of_view (hp : placed.view tokens p = some t) :
    ∃ k, placed.indices[p]? = some k ∧ token? tokens k = some t ∧ k + 1 < tokens.length := by
  obtain ⟨k, hk, ht⟩ := Option.bind_eq_some_iff.1 hp
  exact ⟨k, hk, ht, h.within k (List.mem_append_left _ (List.mem_of_getElem? hk))⟩

/-- Positions in a construct are those of tokens of the text. -/
theorem select (hps : (placed.view tokens).Lists ps ts) :
    ∃ ks, ps.mapM (placed.indices[·]?) = some ks ∧ Picks tokens ks ts ∧ ∀ k ∈ ks, ∃ p ∈ ps, placed.indices[p]? = some k := by
  induction ps generalizing ts with
  | nil =>
    obtain rfl : ts = [] := by simpa using hps.shows
    exact ⟨[], rfl, ⟨⟨rfl, .nil⟩, by simp⟩, by simp⟩
  | cons p ps ih =>
    obtain ⟨hshows, hincreasing⟩ := hps
    obtain ⟨t, ts, rfl, ht, hts⟩ := List.map_eq_cons_iff.1 hshows.symm
    obtain ⟨hless, hincreasing⟩ := List.pairwise_cons.1 hincreasing
    obtain ⟨k, hk, htoken, hwithin⟩ := h.exists_of_view ht.symm
    obtain ⟨ks, hks, hpicks, hplaces⟩ := ih ⟨hts.symm, hincreasing⟩
    refine ⟨k :: ks, ?_, ⟨⟨?_, ?_⟩, ?_⟩, ?_⟩
    · rw [List.mapM_cons, hk, hks]
      rfl
    · rw [List.map_cons, List.map_cons, htoken, hpicks.shows]
    · refine List.pairwise_cons.2 ⟨fun l hl => ?_, hpicks.increasing⟩
      obtain ⟨q, hq, hl⟩ := hplaces l hl
      exact lt_of_getElem? h.increasing hk hl (hless q hq)
    · exact List.forall_mem_cons.2 ⟨hwithin, hpicks.within⟩
    · refine List.forall_mem_cons.2 ⟨⟨p, List.mem_cons_self, hk⟩, fun l hl => ?_⟩
      obtain ⟨q, hq, hl⟩ := hplaces l hl
      exact ⟨q, List.mem_cons_of_mem p hq, hl⟩

/-- The stretches between the commas hold the pieces of the construct. -/
theorem holds_pieces {markers : Bool} {specs : PlacedSpecifiers}
    (hspecs : specs.Describes (placed.view tokens) (.ofTokens markers c.head)) :
    splitDeclarators? (placed.view tokens) ⟨specs.stop, c.head.length⟩ =
        some (stretches specs.stop (c.pieces (.ofTokens markers c.head))) ∧
      List.Forall₂ (Stretch.Holds (placed.view tokens) (c.hasBody = false) specs.stop)
        (stretches specs.stop (c.pieces (.ofTokens markers c.head))) (c.pieces (.ofTokens markers c.head)) := by
  have hshows := h.shows
  rw [List.append_assoc, View.shows_append, ← Specifiers.tokens_append_behind markers c.head, View.shows_append, Nat.zero_add,
    ← hspecs.stop, Specifiers.tokens_append_behind] at hshows
  obtain ⟨⟨-, hbehind⟩, hrest⟩ := hshows
  have hlength : c.head.length = specs.stop + (Shape.behindSpecifiers (.ofTokens markers c.head) c.head).length := by
    rw [hspecs.stop, ← List.length_append, Specifiers.tokens_append_behind]
  have hstop : c.hasBody = false →
      placed.view tokens (specs.stop + (Shape.behindSpecifiers (.ofTokens markers c.head) c.head).length) = some c.stop := by
    intro hbody
    rw [h.plain.resolve_right (by simp [hbody]), List.nil_append, Nat.zero_add] at hrest
    rw [← hlength]
    unfold Construct.hasBody at hbody
    split at hbody
    · rename_i t hending
      rw [semicolon, hending] at hrest
      rw [Construct.stop, hending]
      exact hrest.1
    · cases hbody
  constructor
  · rw [hlength]
    exact splitDeclarators?_eq c.stop hbehind
  · refine holds_stretches (hbehind.declarators hstop) (fun piece hpiece => ?_) (Nat.le_refl _)
    exact Fits.of_mem_declarators (h.fits.of_infix (List.drop_suffix _ _).isInfix) hpiece

end PlacedConstruct.Stands

end Places

end CHeader.Checked
