import CHeader.Proofs.Separators
import CHeader.Proofs.SourceOrder

/-!
# Prototypes and definitions

A prototype ends at its semicolon, a definition at the brace that closes its body: two ways through the collection of a
construct. Up to that place both have the same head. Where a text without directives ends with the prototype of a function
(`EndsInPrototype`), braces in the place of the semicolon close the same construct: it is a function head by then
(`IsPrototype.isFunctionHead`), so that its body is skipped, whatever stands in it (`EndsInPrototype.outline_definition`). The
parts of the construct are those of the prototype but for its end, so it declares the same (`IsPrototype.entries_defined`).
-/

namespace CHeader

open Lexed (allChars)
open Nesting (braces openBehind? Outside Piece)

/-! ### One declarator -/

namespace Nesting

theorem splitCommas_ne_nil (stop : Token) (depth : Nat) (ts : List Token) : splitCommas stop depth ts ≠ [] := by
  fun_induction splitCommas stop depth ts with
  | case1 | case2 | case3 => simp
  | case4 depth t ts _ hnil ih => exact absurd hnil ih

/-- A single piece is all there is, and no comma stands in it. -/
theorem of_splitCommas_eq_singleton {stop : Token} {depth : Nat} {ts : List Token} {piece : Piece}
    (h : splitCommas stop depth ts = [piece]) : piece = ⟨ts, stop⟩ ∧ (breakAt (.punct .comma) depth ts).2 = [] := by
  induction ts generalizing depth piece with
  | nil =>
    obtain rfl := List.singleton_inj.1 h
    exact ⟨rfl, rfl⟩
  | cons t ts ih =>
    rw [splitCommas] at h
    split_ifs at h with hcomma
    · exact absurd (List.cons.inj h).2 (splitCommas_ne_nil stop 0 ts)
    · cases hsplit : splitCommas stop (depthBehind depth t.kind) ts with
      | nil => exact absurd hsplit (splitCommas_ne_nil stop _ ts)
      | cons first rest =>
        rw [hsplit] at h
        obtain ⟨rfl, rfl⟩ := List.cons.inj h
        obtain ⟨rfl, hnone⟩ := ih hsplit
        exact ⟨rfl, by rw [breakAt, if_neg hcomma]; exact hnone⟩

end Nesting

/-- One declarator is one whatever ends it. -/
theorem declarators_of_singleton {stop : Token} {ts : List Token} {piece : Piece} (h : declarators stop ts = [piece])
    (other : Token) : declarators other ts = [⟨piece.tokens, other⟩] := by
  unfold declarators at h ⊢
  split_ifs at h ⊢ with hempty
  obtain ⟨rfl, hcomma⟩ := Nesting.of_splitCommas_eq_singleton h
  exact Nesting.splitCommas_of_breakAt hcomma

/-! ### Another end -/

/-- The declaration, ending elsewhere. -/
def Draft.endingAt (stop : Nat) (draft : Draft) : Draft :=
  { draft with span := ⟨draft.span.start, stop⟩ }

/-- What the entry says, with declarations that end elsewhere. -/
def Entry.endingAt (stop : Nat) : Entry → Entry
  | mention name => mention name
  | declare names draft => declare names (draft.endingAt stop)
  | issue fault => issue fault

@[simp] theorem Entry.telling?_endingAt (stop : Nat) (entry : Entry) : (entry.endingAt stop).telling? = entry.telling? := by
  cases entry <;> rfl

@[simp] theorem Entry.issue?_endingAt (stop : Nat) (entry : Entry) : (entry.endingAt stop).issue? = entry.issue? := by
  cases entry <;> rfl

namespace Construct

/-- The construct, with a body in the place of its semicolon. -/
def defined (c : Construct) (brace close : Token) : Construct :=
  { c with ending := .body brace close }

/-- A construct that declares one function, and nothing else but the aggregate before it. It has no body, and may have
one: it is `static` if it is `inline`. -/
structure IsPrototype (c : Construct) (markers : Bool) (piece : Piece) : Prop where
  prototype : c.hasBody = false
  parameters : c.parameters = []
  plain : (Specifiers.ofTokens markers c.head).isTypedef = false
  static : (Specifiers.ofTokens markers c.head).isInline = true → (Specifiers.ofTokens markers c.head).isStatic = true
  pieces : c.pieces (.ofTokens markers c.head) = [piece]
  function : piece.declarator.isFunction = true

namespace IsPrototype

variable {c : Construct} {markers : Bool} {piece : Piece} {site site' : Site} {brace close : Token}

theorem pieces_defined (h : c.IsPrototype markers piece) (brace close : Token) :
    (c.defined brace close).pieces (.ofTokens markers c.head) = [⟨piece.tokens, brace⟩] :=
  declarators_of_singleton h.pieces brace

theorem map {f : Token → Token} (hf : KeepsKinds f) (h : c.IsPrototype markers piece) :
    (c.map f).IsPrototype markers (piece.map f) := by
  have hspecs : Specifiers.ofTokens markers (c.map f).head = (Specifiers.ofTokens markers c.head).map f :=
    Specifiers.ofTokens_map hf markers c.head
  refine ⟨by simpa using h.prototype, by simp [Construct.map, h.parameters], ?_, ?_, ?_, ?_⟩
  · rw [hspecs, Specifiers.isTypedef_map, h.plain]
  · rw [hspecs, Specifiers.isInline_map, Specifiers.isStatic_map]
    exact h.static
  · rw [hspecs, pieces_map hf, h.pieces, List.map_singleton]
  · rw [Piece.declarator_map hf, Declarator.isFunction_map, h.function]

/-- At a brace behind it, it is the head of a function. -/
theorem isFunctionHead (h : c.IsPrototype markers piece) (hinitializer : piece.hasInitializer = false) (brace : Token) :
    Shape.isFunctionHead markers brace c.head = true := by
  have hlast : Shape.lastDeclarator? (.ofTokens markers c.head) brace c.head = some ⟨piece.tokens, brace⟩ := by
    rw [Shape.lastDeclarator?, declarators_of_singleton h.pieces brace]
    rfl
  have hsame : Piece.hasInitializer ⟨piece.tokens, brace⟩ = false := hinitializer
  have hfunction : (Piece.declarator ⟨piece.tokens, brace⟩).isFunction = true := h.function
  simp [Shape.isFunctionHead, hlast, h.plain, hsame, hfunction]

/-- The text of the function does not depend on its body. -/
theorem functionText_defined (h : c.IsPrototype markers piece) (start : Token) :
    (c.defined brace close).functionText site' (.ofTokens markers c.head) start ⟨piece.tokens, brace⟩ =
      c.functionText site (.ofTokens markers c.head) start piece := by
  have hplain : ((c.defined brace close).hasBody && (Specifiers.ofTokens markers c.head).isInline &&
      !(Specifiers.ofTokens markers c.head).isStatic) = false := by
    cases hinline : (Specifiers.ofTokens markers c.head).isInline with
    | false => simp
    | true => simp [h.static hinline]
  have htokens : (c.defined brace close).prototypeTokens ⟨piece.tokens, brace⟩ = c.prototypeTokens piece := rfl
  have hlost : (c.defined brace close).lostConditional? = c.lostConditional? := rfl
  rw [functionText, functionText, hplain, h.prototype, htokens, hlost]
  rfl

theorem declaratorEntry_defined (h : c.IsPrototype markers piece) (hguard : site'.guard = site.guard)
    (hblock : site'.block = site.block) (start : Token) :
    (c.defined brace close).declaratorEntry site' (.ofTokens markers c.head) start ⟨piece.tokens, brace⟩ =
      (c.declaratorEntry site (.ofTokens markers c.head) start piece).endingAt close.span.stop := by
  have hdeclarator : Piece.declarator ⟨piece.tokens, brace⟩ = piece.declarator := rfl
  obtain ⟨hname, -⟩ : piece.declarator.name.isSome = true ∧ _ := Bool.and_eq_true_iff.1 h.function
  obtain ⟨name, hname⟩ := Option.isSome_iff_exists.1 hname
  have hvisibility : (Specifiers.ofTokens markers c.head).visibility site'.block =
      (Specifiers.ofTokens markers c.head).visibility site.block := by rw [hblock]
  have htext : (c.defined brace close).functionText site' (.ofTokens markers c.head) start ⟨piece.tokens, brace⟩ =
      c.functionText site (.ofTokens markers c.head) start piece := h.functionText_defined start
  rw [declaratorEntry, declaratorEntry, hdeclarator, hname, htext, hvisibility]
  simp only [h.function, if_true]
  cases c.functionText site (.ofTokens markers c.head) start piece with
  | error directive => rfl
  | ok text => simp [Entry.endingAt, draft, Draft.endingAt, hguard, last, defined]

/-- So it says the same with a body, but that it ends behind it. -/
theorem entries_defined (h : c.IsPrototype site.markers piece) (hmarkers : site'.markers = site.markers)
    (hguard : site'.guard = site.guard) (hblock : site'.block = site.block)
    (hbetween : ∀ first ∈ c.head, ∀ last ∈ c.head, site'.between first last = site.between first last) :
    (c.defined brace close).entries site' = (c.entries site).map (Entry.endingAt close.span.stop) := by
  set specs := Specifiers.ofTokens site.markers c.head with hspecs
  have hspecs' : (c.defined brace close).specifiers site' = specs := by
    rw [specifiers, hmarkers]
    rfl
  have hmentions : (mentions specs).map (Entry.endingAt close.span.stop) = mentions specs := by
    rw [mentions, List.map_map]
    rfl
  have htagged : ∀ start, (c.defined brace close).taggedEntries site' specs start =
      (c.taggedEntries site specs start).map (Entry.endingAt close.span.stop) := by
    intro start
    unfold taggedEntries
    cases htagged : tagged? specs with
    | none => rfl
    | some found =>
      obtain ⟨a, tag⟩ := found
      have hsub := subset_of_tagged? htagged
      obtain ⟨-, hbody⟩ := aggregate?_of_tagged? htagged
      obtain ⟨first, hfirst⟩ : ∃ first, a.head.head? = some first := by
        obtain ⟨s, hs, ha⟩ := List.mem_filterMap.1 (List.mem_of_getLast? (aggregate?_of_tagged? htagged).1)
        obtain ⟨_, _, t, ts, hread⟩ := Specifiers.first?_of_mem_take hs
        obtain ⟨-, rfl⟩ := Specifier.keyword_of_aggregate? hread ha
        exact ⟨t, rfl⟩
      obtain ⟨last, hlast⟩ : ∃ last, a.body.getLast? = some last := ⟨_, List.getLast?_eq_some_getLast hbody⟩
      have hfirst' := hsub (List.mem_append_left _ (List.mem_of_head? hfirst))
      have hlast' := hsub (List.mem_append_right _ (List.mem_of_getLast? hlast))
      have hvisibility : specs.typeVisibility site'.block = specs.typeVisibility site.block := by rw [hblock]
      simp only [hfirst, hlast, Option.getD_some, hbetween first hfirst' last hlast', hvisibility]
      simp [Entry.endingAt, draft, Draft.endingAt, hguard, Construct.last, defined]
  unfold entries
  rw [hspecs']
  have hhead : (c.defined brace close).head = c.head := rfl
  have hspecs'' : c.specifiers site = specs := rfl
  rw [hhead, hspecs'']
  cases c.head with
  | nil => rfl
  | cons first rest =>
    have hpieces : (c.defined brace close).pieces specs = [⟨piece.tokens, brace⟩] := h.pieces_defined brace close
    have hpieces' : c.pieces specs = [piece] := h.pieces
    have hentry : ∀ start, (c.defined brace close).declaratorEntry site' specs start ⟨piece.tokens, brace⟩ =
        (c.declaratorEntry site specs start piece).endingAt close.span.stop :=
      fun start => h.declaratorEntry_defined hguard hblock start
    have hplain : specs.isTypedef = false := h.plain
    simp only [declaratorEntries, hpieces, hpieces', hplain, htagged, List.isEmpty_cons, List.length_singleton]
    split_ifs <;> simp_all

end IsPrototype

end Construct

/-! ### Runs with a body -/

namespace Outline

/-- A construct whose last token is a semicolon ends with it. No parameter declarations stand in it: behind those only a body
ends a construct. -/
theorem semicolon_of_collect {markers : Bool} {first : Token} {c : Collected} {ts run rest : List Token} {k : Construct}
    (h : collect markers first c ts = (.construct run k, rest)) (hlast : k.last.kind = .punct .semi) :
    k.ending = .semicolon k.last ∧ k.parameters = [] := by
  obtain ⟨_, c', ending, behind, -, -, -, rfl, -, hends, hclose, -⟩ := exists_ends_of_collect h
  cases hends with
  | semicolon verdict =>
    obtain ⟨-, -, hwhole, -⟩ := Collected.of_verdict_eq_ends verdict
    exact ⟨rfl, by simp [Collected.finish, hwhole]⟩
  | @body brace inside close =>
    have hbrace : (c'.finish (.body brace close)).last.kind = .closing .brace := hclose brace close rfl
    simp [hbrace] at hlast

end Outline

/-- The run of a prototype is one of a definition with a body in the place of the semicolon. -/
theorem outline_defined {markers : Bool} {linkage : Nat} {run inside : List Token} {c : Construct}
    {semi last brace close : Token} (h : outline markers linkage (run ++ [last]) = [.construct run c])
    (hending : c.ending = .semicolon semi) (hparen : ∃ t ∈ c.head, t.kind.isPunctuation = true)
    (hbrace : brace.kind = .opening .brace) (hhead : Shape.isFunctionHead markers brace c.head = true)
    (hbody : Outline.body? 0 (inside ++ [close]) = some (inside, close)) (more : List Token) :
    ∃ front, run = front ++ [semi] ∧ c.head ⊆ front ∧
      outline markers linkage (front ++ brace :: (inside ++ close :: more)) =
        .construct (front ++ brace :: (inside ++ [close])) (c.defined brace close) :: outline markers linkage more := by
  obtain ⟨first, hstart, hfirst, -⟩ := first_of_mem_outline (h ▸ List.mem_singleton_self _)
  obtain ⟨tail, rfl⟩ := List.head?_eq_some_iff.1 hfirst
  have heof : first.kind ≠ .eof := by
    intro heof
    simp [heof, TokenKind.canStartDeclaration] at hstart
  have hdirective : first.directive? = none := by
    have hsignificant := Outline.isSignificant_of_canStartDeclaration hstart
    cases hkind : first.kind <;> simp_all [Token.directive?, Token.isSignificant]
  cases hskipped : Outline.skipped? linkage first (tail ++ [last]) with
  | some found =>
    rw [List.cons_append, outline_cons_skipped heof hdirective hskipped] at h
    cases h
  | none =>
    rw [List.cons_append, outline_cons_external heof hdirective hskipped] at h
    obtain ⟨hitem, -⟩ := List.cons.inj h
    obtain ⟨run, k, rest, hexternal, -, hcollect⟩ := external_of_sound (by rw [hitem]; trivial)
    rw [hexternal] at hitem
    obtain ⟨rfl, rfl⟩ : run = first :: tail ∧ k = c := by simpa using hitem
    obtain ⟨taken, c', ending, behind, -, hmet, hwithin, rfl, hrun, hends, -, hreach⟩ :=
      Outline.exists_ends_of_collect hcollect
    obtain rfl : ending = .semicolon semi := hending
    obtain _ | _ := hends
    rename_i hverdict
    obtain ⟨-, hopened, hwhole, -⟩ := Outline.Collected.of_verdict_eq_ends hverdict
    have hfront : first :: tail = first :: taken ++ [semi] := by
      rw [hrun, hmet]
      rfl
    have hsplit : tail = taken ++ [semi] := (List.cons.inj hfront).2
    have hhead' : (c'.finish (.semicolon semi)).head = c'.tokens.reverse := by
      rw [Outline.Collected.finish, hwhole]
      rfl
    have hwithin' : c'.tokens.reverse ⊆ first :: taken := by
      have hmet' := (hwithin (Outline.Collected.within_start hstart)).tokens.reverse.subset
      rwa [hmet] at hmet'
    refine ⟨first :: taken, hfront, hhead' ▸ hwithin', ?_⟩
    have hbody' : c'.verdict markers brace = .body := by
      simp only [Outline.Collected.verdict, hbrace, hopened]
      rw [hhead'] at hhead
      simp [hhead]
    have hskipped' : Outline.skipped? linkage first (taken ++ brace :: (inside ++ close :: more)) = none := by
      rw [hsplit, List.append_assoc] at hskipped
      refine Outline.skipped?_append_eq_none ?_ hskipped _
      obtain ⟨t, ht, hpunct⟩ := hparen
      rcases List.mem_cons.1 (hwithin' (hhead' ▸ ht)) with rfl | hmem
      · cases hkind : t.kind <;> simp_all [TokenKind.canStartDeclaration, TokenKind.isPunctuation]
      · exact ⟨t, hmem, hpunct⟩
    rw [List.cons_append, outline_cons_external heof hdirective hskipped']
    have hcollect' : Outline.collect markers first (.start first) (taken ++ brace :: (inside ++ close :: more)) =
        (.construct (first :: taken ++ brace :: (inside ++ [close])) ((c'.finish (.semicolon semi)).defined brace close), more) := by
      have hdrop : (inside ++ close :: more).drop (inside.length + 1) = more := by
        rw [List.append_cons, List.drop_append_of_le_length (by simp)]
        simp
      rw [hreach, Outline.collect_cons, hbody']
      simp only [Outline.Collected.stop, Outline.function, Outline.body?_taken hbody more, hmet, hdrop]
      rfl
    rw [Outline.external, if_pos hstart, hcollect']

/-- Runs without a broken one are cut off mapped tokens as they were, and what follows them is found as before. -/
theorem outline_split {f : Token → Token} (hf : KeepsKinds f) {markers : Bool} {linkage : Nat} {ts : List Token}
    {items later : List Item} (h : outline markers linkage ts = items ++ later) (hlater : later ≠ [])
    (hsound : ∀ item ∈ outline markers linkage ts, item.Sound) :
    ∃ linkage' rest, ts = items.flatMap Item.tokens ++ rest ∧ outline markers linkage' (rest.map f) = later.map (Item.map f) ∧
      ∀ more, outline markers linkage ((items.flatMap Item.tokens).map f ++ more) =
        items.map (Item.map f) ++ outline markers linkage' more := by
  obtain ⟨items', linkage', hcut, hforall⟩ := outline_cut hf h hlater 0
  have htokens := flatMap_tokens_outline markers linkage ts
  obtain ⟨tail, htail⟩ := Outline.untilEnd_prefix ts
  rw [h, List.flatMap_append] at htokens
  have hsplit : ts = items.flatMap Item.tokens ++ (later.flatMap Item.tokens ++ tail) := by
    rw [← List.append_assoc, htokens, htail]
  have hmapped := outline_map hf hsound
  rw [h, List.map_append] at hmapped
  have hwhole := hcut ((later.flatMap Item.tokens ++ tail).map f)
  rw [← List.map_append, ← hsplit, Nat.add_zero, hmapped] at hwhole
  obtain ⟨rfl, hrest⟩ := List.append_inj hwhole (by rw [List.length_map, hforall.length_eq])
  exact ⟨linkage', _, hsplit, hrest.symm, fun more => hcut more⟩

/-- No run stands behind the one that the last token of the text is in. -/
theorem eq_nil_of_last_mem {markers : Bool} {linkage : Nat} {ts : List Token} {t last : Token} {item : Item}
    {earlier later : List Item} (h : outline markers linkage (ts ++ [t] ++ [last]) = earlier ++ item :: later)
    (hsound : ∀ item ∈ outline markers linkage (ts ++ [t] ++ [last]), item.Sound) (hnodup : (ts ++ [t]).Nodup)
    (hinner : ∀ u ∈ ts ++ [t], u.kind ≠ .eof) (hlast : last.kind = .eof) (hmem : t ∈ item.tokens) : later = [] := by
  have hall := flatMap_tokens_outline markers linkage (ts ++ [t] ++ [last])
  rw [Outline.untilEnd_concat_eof hlast hinner, h, List.flatMap_append, List.flatMap_cons] at hall
  have hnone : later.flatMap Item.tokens = [] := by
    rw [← hall, List.nodup_append, List.nodup_append] at hnodup
    by_contra hne
    have hbehind : (later.flatMap Item.tokens).getLast? = some t := by
      have hend := congrArg List.getLast? hall
      rw [← List.append_assoc, List.getLast?_append_of_ne_nil _ hne] at hend
      simpa using hend
    exact hnodup.2.1.2.2 t hmem t (List.mem_of_getLast? hbehind) rfl
  by_contra hne
  -- with no token before the end of the text, nothing is left to make a run of
  obtain ⟨linkage', rest, hts, hrest, -⟩ := outline_split (fun t => rfl : KeepsKinds id)
    (h.trans (List.append_cons earlier item later)) hne hsound
  rw [List.flatMap_append, List.flatMap_cons, List.flatMap_nil] at hts
  rw [hnone] at hall
  rw [hall] at hts
  obtain rfl : rest = [last] := List.append_cancel_left hts.symm
  simp [outline, hlast] at hrest
  exact hne hrest

/-! ### Texts that end with a prototype -/

namespace Construct

variable {c : Construct} {site : Site} {specs : Specifiers} {start first : Token} {names : List String} {draft : Draft}

/-- A declarator is an issue, or it declares a function or a variable. -/
theorem declaratorEntry_cases (c : Construct) (site : Site) (specs : Specifiers) (start : Token) (piece : Piece) :
    (∃ fault, c.declaratorEntry site specs start piece = .issue fault) ∨
      ∃ names draft, c.declaratorEntry site specs start piece = .declare names draft ∧ draft.kind ≠ .type := by
  simp only [declaratorEntry]
  split
  · exact .inl ⟨_, rfl⟩
  · split_ifs
    · cases c.functionText site specs start piece with
      | error directive => exact .inl ⟨_, rfl⟩
      | ok text => exact .inr ⟨_, _, rfl, DeclKind.noConfusion⟩
    · exact .inl ⟨_, rfl⟩
    · cases c.variableText specs piece with
      | error directive => exact .inl ⟨_, rfl⟩
      | ok text => exact .inr ⟨_, _, rfl, DeclKind.noConfusion⟩

/-- Declarators without an issue make one declaration each, none of them a type. -/
theorem length_drafts {ps : List Piece} (hissues : (ps.map (c.declaratorEntry site specs start)).filterMap Entry.issue? = []) :
    (((ps.map (c.declaratorEntry site specs start)).filterMap Entry.draft?).filter (·.kind ≠ .type)).length = ps.length := by
  induction ps with
  | nil => rfl
  | cons piece ps ih =>
    rw [List.map_cons] at hissues ⊢
    rcases declaratorEntry_cases c site specs start piece with ⟨fault, hfault⟩ | ⟨names, draft, hdeclare, htype⟩
    · rw [hfault, List.filterMap_cons_some (rfl : Entry.issue? _ = some fault)] at hissues
      cases hissues
    · rw [hdeclare, List.filterMap_cons_none rfl] at hissues
      rw [hdeclare, List.filterMap_cons_some (rfl : Entry.draft? _ = some draft), List.filter_cons_of_pos (by simpa using htype),
        List.length_cons, ih hissues, List.length_cons]

/-- A construct without a body that declares a function, no other function and no variable, has one declarator. -/
theorem exists_piece_of_entries (hbody : c.hasBody = false) (hissues : (c.entries site).filterMap Entry.issue? = [])
    (hone : (((c.entries site).filterMap Entry.draft?).filter (·.kind ≠ .type)).length ≤ 1)
    (hmem : .declare names draft ∈ c.entries site) (hfunction : draft.kind = .function) :
    (c.specifiers site).isTypedef = false ∧
      ∃ piece, c.pieces (c.specifiers site) = [piece] ∧ piece.declarator.isFunction = true := by
  obtain ⟨first, rest, hhead, hassert, hyields⟩ := yields_of_mem_entries hmem
  cases hyields with
  | typedef | bare | apart | ofVariable => cases hfunction
  | @ofFunction plain piece mem _ _ _ isFunction _ =>
    refine ⟨plain, piece, ?_, isFunction⟩
    have hempty : (c.pieces (c.specifiers site)).isEmpty = false :=
      List.isEmpty_eq_false_iff_exists_mem.2 ⟨piece, mem⟩
    simp only [entries, hhead, hassert, plain, hempty, declaratorEntries, hbody, Bool.false_and, Bool.false_eq_true, if_false,
      List.filterMap_append] at hissues hone
    have hpieces := (List.append_eq_nil_iff.1 (List.append_eq_nil_iff.1 hissues).2).2
    have hle : (c.pieces (c.specifiers site)).length ≤ 1 := by
      rw [List.filter_append, List.filter_append, List.length_append, List.length_append, length_drafts hpieces] at hone
      omega
    obtain ⟨other, hother⟩ := List.length_eq_one_iff.1 (le_antisymm hle (List.length_pos_of_mem mem))
    rw [hother] at mem ⊢
    rw [List.mem_singleton.1 mem]

end Construct

theorem entriesFrom_singleton (source : List Char) (markers : Bool) (t : Tracker) (item : Item) :
    entriesFrom source markers t [item] = item.entries source markers t := by
  rw [entriesFrom]
  cases t.passAll item.tokens <;> simp [entriesFrom]

section Last

variable {markers : Bool} {source : String} {ts : List Token} {semi last : Token}

/-- If the last declaration of a text is a function, all others are types, and it ends with the semicolon at the end, then
the text ends with a prototype. -/
theorem Faultless.exists_prototype (h : Faultless markers source (ts ++ [semi]) last) (hsemi : semi.kind = .punct .semi)
    (hplain : ∀ t ∈ ts, t.directive? = none) {types : List Draft} {function : Draft}
    (hdrafts : (entriesFrom source.toList markers { recognizeBlocks := markers }
      (outline markers 0 (ts ++ [semi] ++ [last]))).filterMap Entry.draft? = types ++ [function])
    (htypes : ∀ draft ∈ types, draft.kind = .type) (hfunction : function.kind = .function)
    (hend : function.span.stop = semi.span.stop) :
    ∃ earlier run c piece, outline markers 0 (ts ++ [semi] ++ [last]) = earlier ++ [.construct run c] ∧
      c.ending = .semicolon semi ∧ c.parameters = [] ∧ (Specifiers.ofTokens markers c.head).isTypedef = false ∧
      c.pieces (.ofTokens markers c.head) = [piece] ∧ piece.declarator.isFunction = true := by
  have hordered : Ordered (ts ++ [semi]) := by
    have hbody := (tokenized_outline h.tokens markers).1.ordered
    rwa [flatMap_tokens_outline, Outline.untilEnd_concat_eof h.isEnd h.inner] at hbody
  have hall := flatMap_tokens_outline markers 0 (ts ++ [semi] ++ [last])
  rw [Outline.untilEnd_concat_eof h.isEnd h.inner] at hall
  have hissues := h.issues
  have hsound := h.sound
  generalize houtline : outline markers 0 (ts ++ [semi] ++ [last]) = items at *
  obtain ⟨names, hentry⟩ := Entry.mem_of_mem_drafts (hdrafts ▸ List.mem_append_right types (List.mem_singleton_self function))
  obtain ⟨earlier, item, later, here, rfl, hearlier, hitem⟩ := mem_entriesFrom hentry
  have hinOutline : item ∈ outline markers 0 (ts ++ [semi] ++ [last]) :=
    houtline ▸ List.mem_append_right earlier List.mem_cons_self
  rw [List.flatMap_append, List.flatMap_cons] at hall
  -- the run that declares the function is the one with the last token of the text
  obtain ⟨first, semi', hends, hspan, -⟩ := Item.ends_of_mem_entries hitem
  have hinItem := (Item.mem_of_ends? hinOutline hends).2
  obtain rfl : semi' = semi := by
    have hmem : semi' ∈ ts ++ [semi] := by
      rw [← hall]
      exact List.mem_append_right _ (List.mem_append_left _ hinItem)
    exact hordered.eq_of_stop_eq hmem (by simp) (by rw [← hend, hspan])
  obtain rfl : later = [] :=
    eq_nil_of_last_mem houtline (houtline ▸ hsound) hordered.nodup h.inner h.isEnd hinItem
  cases item with
  | skipped | malformed => cases hends
  | directive token =>
    obtain rfl : token = semi' := by
      simp [Item.ends?] at hends
      exact hends.2
    simp [Item.entries, Token.directive?, hsemi] at hitem
  | construct run c =>
    obtain rfl : c.last = semi' := by
      obtain ⟨start, -, heq⟩ := Option.map_eq_some_iff.1 hends
      exact (Prod.mk.inj heq).2
    obtain ⟨start, behind, rest, -, hcollect⟩ := collect_of_mem_outline hinOutline
    obtain ⟨hending, hparameters⟩ := Outline.semicolon_of_collect hcollect hsemi
    have hbody : c.hasBody = false := by rw [Construct.hasBody, hending]
    have hearlier' : here = { recognizeBlocks := markers } := by
      have hnone : ∀ t ∈ earlier.flatMap Item.tokens, t.directive? = none := by
        intro t ht
        have hmem : t ∈ ts ++ [c.last] := hall ▸ List.mem_append_left _ ht
        rcases List.mem_append.1 hmem with hmem | hmem
        · exact hplain t hmem
        · rw [List.mem_singleton.1 hmem, Token.directive?, hsemi]
      rw [Tracker.passAll_of_noDirectives hnone] at hearlier
      exact (Except.ok.inj hearlier).symm
    have hsplit := @entriesFrom_append source.toList markers _ _ _ hearlier [.construct run c]
    rw [entriesFrom_singleton] at hsplit
    rw [hsplit, List.filterMap_append] at hissues hdrafts
    have hone : ((((Item.construct run c).entries source.toList markers here).filterMap Entry.draft?).filter
        (·.kind ≠ .type)).length ≤ 1 := by
      have hfilter := congrArg (fun drafts : List Draft => (drafts.filter (·.kind ≠ .type)).length) hdrafts
      have htypes' : types.filter (·.kind ≠ .type) = [] := by simpa using htypes
      simp only [List.filter_append, htypes', List.length_append, List.nil_append] at hfilter
      have hsingle : ([function].filter (·.kind ≠ .type)).length = 1 := by simp [hfunction]
      omega
    obtain ⟨htypedef, piece, hpieces, hisFunction⟩ :=
      Construct.exists_piece_of_entries hbody (List.append_eq_nil_iff.1 hissues).2 hone hitem hfunction
    exact ⟨earlier, run, c, piece, rfl, hending, hparameters, htypedef, hpieces, hisFunction⟩

end Last

/-! ### The definition of a prototype -/

/-- What stands before the last token of specifiers is properly nested, if anything stands behind them. -/
theorem Specifiers.level_tokens {markers : Bool} {ts rest : List Token} (h : (ofTokens markers ts).tokens ++ rest = ts)
    (hrest : rest ≠ []) : Nesting.level 0 (ofTokens markers ts).tokens = 0 := by
  rcases List.eq_nil_or_concat (ofTokens markers ts) with hnil | ⟨before, s, hsplit⟩
  · rw [hnil]
    rfl
  · rw [List.concat_eq_append] at hsplit
    obtain ⟨typed, behindExtern, t, us, hts, hfirst, hlevel, -⟩ := exists_of_take hsplit
    have htokens : (ofTokens markers ts).tokens = tokens before ++ s.tokens := by
      rw [hsplit]
      simp [tokens]
    rw [htokens, List.append_assoc] at h
    have hs : s.tokens ++ rest = t :: us := List.append_cancel_left (h.trans hts)
    rw [htokens, Nesting.level_append, hlevel, Specifier.level_of_first? hfirst hs hrest]

/-- A declarator has no initial value, if no `=` stands outside the brackets of the construct. -/
theorem Construct.hasInitializer_eq_false {c : Construct} {markers : Bool} {piece : Piece}
    (hpieces : c.pieces (.ofTokens markers c.head) = [piece]) (h : Outside (·.kind ≠ .punct .eq) 0 c.head) :
    piece.hasInitializer = false := by
  have hsplit := Specifiers.tokens_append_behind markers c.head
  have hne : Shape.behindSpecifiers (.ofTokens markers c.head) c.head ≠ [] := by
    intro hnil
    simp [Construct.pieces, declarators, hnil] at hpieces
  have hlevel := Specifiers.level_tokens hsplit hne
  rw [← hsplit, Nesting.outside_append, hlevel] at h
  rw [Construct.pieces, declarators, if_neg (by simpa using hne)] at hpieces
  obtain ⟨rfl, -⟩ := Nesting.of_splitCommas_eq_singleton hpieces
  simp [Piece.hasInitializer, Nesting.breakAt_of_outside_all h.2]

/-- With a body in the place of the semicolon, a text has the tokens that it had before it, with the same places. -/
theorem exists_tokens_of_definition {head body : String} {ls ms : List Lexed} {gap gap' : List Char} {ts : List Token}
    (hhead : ReadsUpTo head.toList ls gap) (hts : Stands 0 ls ts)
    (hlines : ∀ t ∈ ts, t.line = 1 + newlinesBefore t.span.start (head ++ ";").toList)
    (hbody : ReadsUpTo body.toList ms gap') :
    ∃ f us brace close last, tokenize (head ++ "\x7b" ++ body ++ "\x7d") =
        .ok (ts.map f ++ brace :: (us ++ [close]) ++ [last]) ∧ Moves 0 0 f ∧ brace.kind = .opening .brace ∧
      close.kind = .closing .brace ∧ last.kind = .eof ∧ us.map (·.kind) = ms.map (·.kind) := by
  let row := ls ++ ⟨gap, .opening .brace, ['\x7b']⟩ :: (ms ++ [⟨gap', .closing .brace, ['\x7d']⟩])
  have hchars : (head ++ "\x7b" ++ body ++ "\x7d").toList = allChars row ++ [] := by
    simp [row, hhead.chars, hbody.chars]
  have hreads : Reads row [] := by
    refine reads_append.2 ⟨?_, (isMark_opening.alone _).of_gap hhead.isGap, reads_append.2 ⟨?_, ?_, trivial⟩⟩
    · have hfront := hhead.before isMark_opening.separator isMark_opening.ne_newline (allChars ms ++ gap' ++ ['\x7d'])
      simpa using hfront
    · simpa using hbody.before isMark_closing.separator isMark_closing.ne_newline []
    · exact (isMark_closing.alone _).of_gap hbody.isGap
  obtain ⟨all, last, htokens, hstands, hlast⟩ := tokenize_of_reads hchars hreads rfl
  obtain ⟨ts', behind, rfl, hts', hbehind⟩ := hstands.split
  obtain _ | ⟨hbrace, -, -, -, hbehind⟩ := hbehind
  obtain ⟨us, closing, rfl, hus, hclosing⟩ := hbehind.split
  obtain _ | ⟨hclose, -, -, -, hnone⟩ := hclosing
  obtain _ | _ := hnone
  have hrow := (reads_append.1 hreads).1
  have hsame : ∀ t ∈ ts, 1 + newlinesBefore (t.span.start + 0) (head ++ "\x7b" ++ body ++ "\x7d").toList =
      1 + newlinesBefore t.span.start (head ++ ";").toList + 0 := by
    intro t ht
    have hpositive := (hts.ordered hrow).positive t ht
    have hstop := hts.stop_le t ht
    have hle : t.span.start ≤ byteLength head.toList := by
      rw [hhead.chars, byteLength_append]
      omega
    simp only [String.toList_append, List.append_assoc, newlinesBefore_append_of_le hle, Nat.add_zero]
  have hlines' : ∀ t ∈ ts', t.line = 1 + newlinesBefore t.span.start (head ++ "\x7b" ++ body ++ "\x7d").toList :=
    fun t ht => line_of_mem_tokenize htokens (List.mem_append_left _ (List.mem_append_left _ ht))
  obtain ⟨f, hf, rfl⟩ := exists_moves hrow hts hts' (fun place => 1 + newlinesBefore place (head ++ ";").toList)
    (fun place => 1 + newlinesBefore place (head ++ "\x7b" ++ body ++ "\x7d").toList) hlines hlines' hsame
  exact ⟨f, us, _, _, last, htokens, hf, hbrace, hclose, hlast, hus.map_kind⟩

/-- The braces of a body are balanced whatever its tokens are called. -/
theorem Outline.body?_of_kinds {inside us : List Token} {close close' : Token} (hkinds : us.map (·.kind) = inside.map (·.kind))
    (hinner : ∀ t ∈ inside, t.kind ≠ .eof) (hbalanced : openBehind? [] (braces inside) = some [])
    (hclose : close.kind = .closing .brace) (hclose' : close'.kind = .closing .brace) (hnodup : (inside ++ [close]).Nodup) :
    body? 0 (us ++ [close']) = some (us, close') := by
  obtain ⟨g, hg, hmap⟩ := @exists_keepsKinds (inside ++ [close]) (us ++ [close']) hnodup (by simp [hkinds, hclose, hclose'])
  have hbody : body? 0 (inside ++ [close]) = some (inside, close) :=
    @body?_of_braces [] inside (by simp) hinner hbalanced close hclose []
  rw [List.map_append, List.map_singleton] at hmap
  obtain ⟨rfl, hcloses⟩ := List.append_inj' hmap rfl
  obtain rfl := List.singleton_inj.1 hcloses
  rw [← List.map_singleton, ← List.map_append, body?_map hg, hbody]
  rfl

/-- So they are in the tokens of a body, wherever these stand. -/
theorem Outline.body?_of_tokenize {body : String} {inside us : List Token} {close close' stop : Token}
    (hbody : tokenize (body ++ "\x7d") = .ok (inside ++ [close, stop])) (hclose : close.kind = .closing .brace)
    (hbalanced : openBehind? [] (braces inside) = some []) (hkinds : us.map (·.kind) = inside.map (·.kind))
    (hclose' : close'.kind = .closing .brace) : body? 0 (us ++ [close']) = some (us, close') := by
  obtain ⟨inner, end', hsplit, -, hinner, hordered⟩ := tokenized_of_tokenize hbody
  obtain ⟨rfl, -⟩ := List.append_inj' ((List.append_cons inside close [stop]).symm.trans hsplit) rfl
  exact body?_of_kinds hkinds (fun t ht => hinner t (List.mem_append_left _ ht)) hbalanced hclose hclose' hordered.ordered.nodup

/-- Tokens that stay where they are cut the same out of every text that goes on behind them. -/
theorem Moves.slice?_append {f : Token → Token} (hf : Moves 0 0 f) {front : List Char} {first last : Token}
    (hstop : last.span.stop ≤ byteLength front) (rest rest' : List Char) :
    Span.slice? ⟨(f first).span.start, (f last).span.stop⟩ (front ++ rest') =
      Span.slice? ⟨first.span.start, last.span.stop⟩ (front ++ rest) := by
  have hgiven := @Span.slice?_moved ⟨first.span.start, last.span.stop⟩ front hstop [] rest
  have hwritten := @Span.slice?_moved ⟨first.span.start, last.span.stop⟩ front hstop [] rest'
  rw [hf.span, hf.span]
  simpa [Span.moved] using hwritten.trans hgiven.symm

theorem Item.PlacedIn.mono {tokens ts : List Token} {item : Item} (h : item.PlacedIn tokens) (hsub : tokens ⊆ ts) :
    item.PlacedIn ts := by
  cases item with
  | directive | skipped => trivial
  | malformed => cases h
  | construct run c => exact ⟨hsub h.1, List.Subset.trans h.2.1 hsub, h.2.2⟩

/-- A text without issues that ends with a prototype. -/
structure EndsInPrototype (markers : Bool) (source : String) (ts : List Token) (semi last : Token) (earlier : List Item)
    (run : List Token) (c : Construct) (piece : Piece) : Prop extends Faultless markers source (ts ++ [semi]) last where
  runs : outline markers 0 (ts ++ [semi] ++ [last]) = earlier ++ [.construct run c]
  ending : c.ending = .semicolon semi
  prototype : c.IsPrototype markers piece
  initializer : piece.hasInitializer = false

/-- So does a text whose last declaration is a function, and ends with it. -/
theorem exists_endsInPrototype {markers : Bool} {source : String} {ts : List Token} {semi last : Token}
    (htokens : tokenize source = .ok (ts ++ [semi, last])) (hsemi : semi.kind = .punct .semi)
    (hplain : ∀ t ∈ ts, t.directive? = none) {s : Survey} (hs : surveySource markers source = .ok s) (hclean : s.errors = [])
    {types : List Declaration} {function : Declaration} (hitems : s.declarations.items = types ++ [function])
    (htypes : ∀ d ∈ types, d.kind = .type) (hfunction : function.kind = .function)
    (hend : function.span.stop = semi.span.stop)
    (hlast : ∀ run c, (outline markers 0 (ts ++ [semi, last])).getLast? = some (.construct run c) →
      Outside (·.kind ≠ .punct .eq) 0 c.head ∧
        ((Specifiers.ofTokens markers c.head).isInline = true → (Specifiers.ofTokens markers c.head).isStatic = true)) :
    ∃ earlier run c piece, EndsInPrototype markers source ts semi last earlier run c piece := by
  obtain ⟨all, stop, hfaultless, rfl⟩ := Faultless.of_survey hs hclean
  obtain ⟨rfl, hsame⟩ := List.append_inj' ((Except.ok.inj (hfaultless.tokens.symm.trans htokens)).trans
    (List.append_cons ts semi [last])) rfl
  obtain rfl := List.singleton_inj.1 hsame
  have hdrafts : (entriesFrom source.toList markers { recognizeBlocks := markers }
      (outline markers 0 (ts ++ [semi] ++ [stop]))).filterMap Entry.draft? = types.map (·.toDraft) ++ [function.toDraft] := by
    have hrecorded := Survey.drafts_recordAll {} (entriesFrom source.toList markers { recognizeBlocks := markers }
      (outline markers 0 (ts ++ [semi] ++ [stop])))
    rw [DeclarationList.drafts, hitems] at hrecorded
    simpa [DeclarationList.drafts] using hrecorded.symm
  obtain ⟨earlier, run, c, piece, houtline, hending, hparameters, htypedef, hpieces, hisFunction⟩ :=
    hfaultless.exists_prototype hsemi hplain hdrafts (by simpa using htypes) hfunction hend
  obtain ⟨hequals, hstatic⟩ := hlast run c (by
    rw [List.append_cons, houtline]
    exact List.getLast?_concat ..)
  have hprototype : c.IsPrototype markers piece :=
    ⟨by rw [Construct.hasBody, hending], hparameters, htypedef, hstatic, hpieces, hisFunction⟩
  exact ⟨earlier, run, c, piece, hfaultless, houtline, hending, hprototype, Construct.hasInitializer_eq_false hpieces hequals⟩

namespace EndsInPrototype

variable {f : Token → Token} {markers : Bool} {source : String} {ts run inside : List Token} {semi stop brace close last : Token}
  {earlier : List Item} {c : Construct} {piece : Piece} (h : EndsInPrototype markers source ts semi stop earlier run c piece)

include h

theorem ordered : Ordered (Outline.untilEnd (ts ++ [semi] ++ [stop])) := by
  have hbody := (tokenized_outline h.tokens markers).1.ordered
  rwa [flatMap_tokens_outline] at hbody

/-- Its runs are placed in their tokens. -/
theorem placedIn : ∀ item ∈ earlier ++ [.construct run c], item.PlacedIn item.tokens := by
  intro item hitem
  rw [← h.runs] at hitem
  have hsound := h.sound item hitem
  cases item with
  | directive | skipped => trivial
  | malformed => cases hsound
  | construct run c =>
    have hplaced := placedIn_of_mem_outline h.ordered hitem trivial
    obtain ⟨first, rest, left, -, hcollect⟩ := collect_of_mem_outline hitem
    exact ⟨List.mem_of_getLast? (Outline.last_of_collect hcollect), (head_of_mem_outline hitem).1.subset, hplaced.2.2⟩

/-- A text that ends with a prototype has the same runs with a body in the place of its semicolon, but for the last one. -/
theorem outline_definition (hf : KeepsKinds f) (hbrace : brace.kind = .opening .brace)
    (hbody : Outline.body? 0 (inside ++ [close]) = some (inside, close)) (hlast : last.kind = .eof) :
    ∃ front, ts = earlier.flatMap Item.tokens ++ front ∧ (c.map f).head ⊆ front.map f ∧
      outline markers 0 (ts.map f ++ brace :: (inside ++ [close]) ++ [last]) = earlier.map (Item.map f) ++
        [.construct (front.map f ++ brace :: (inside ++ [close])) ((c.map f).defined brace close)] := by
  have hall : earlier.flatMap Item.tokens ++ run = ts ++ [semi] := by
    have htokens := flatMap_tokens_outline markers 0 (ts ++ [semi] ++ [stop])
    rwa [Outline.untilEnd_concat_eof h.isEnd h.inner, h.runs, List.flatMap_append, List.flatMap_singleton] at htokens
  obtain ⟨linkage, rest, hrest, hlastRun, hcut⟩ := outline_split hf h.runs (by simp) h.sound
  rw [← hall, List.append_assoc] at hrest
  obtain rfl := List.append_cancel_left hrest
  rw [List.map_append, List.map_singleton] at hlastRun
  have hprototype := h.prototype.map hf
  have hisHead := hprototype.isFunctionHead ((Piece.hasInitializer_map hf piece).trans h.initializer) brace
  have hparen : ∃ t ∈ (c.map f).head, t.kind.isPunctuation = true := by
    obtain ⟨-, hparameters⟩ := Bool.and_eq_true_iff.1 hprototype.function
    obtain ⟨opening, hopening⟩ := Option.isSome_iff_exists.1 hparameters
    obtain ⟨before, behind, hsplit, hkind, -⟩ := Declarator.ofTokens_front hopening
    have hmem : opening ∈ (piece.map f).declaring := by simp [hsplit]
    have hsub := (Construct.sublist_behind_of_mem_pieces (hprototype.pieces ▸ List.mem_singleton_self _)).trans
      (List.drop_sublist _ _)
    exact ⟨opening, hsub.subset hmem, by rw [hkind]; rfl⟩
  have hending : (c.map f).ending = .semicolon (f semi) := by
    rw [Construct.map, h.ending]
    rfl
  obtain ⟨front, hfront, hsub, hdefined⟩ := outline_defined hlastRun hending hparen hbrace hisHead hbody [last]
  obtain ⟨front, closing, rfl, rfl, hclosing⟩ := List.map_eq_append_iff.1 hfront
  obtain ⟨semi', rfl, -⟩ := List.map_eq_singleton_iff.1 hclosing
  rw [← List.append_assoc] at hall
  obtain ⟨rfl, -⟩ := List.append_inj' hall rfl
  have hend : outline markers linkage [last] = [] := by simp [outline, hlast]
  refine ⟨front, rfl, hsub, ?_⟩
  rw [hend] at hdefined
  rw [← hdefined, ← hcut]
  simp

/-- Without directives, its runs are surveyed one after another. -/
theorem entriesFrom_runs (hplain : ∀ t ∈ ts, t.directive? = none) (hearlier : earlier.flatMap Item.tokens ⊆ ts) :
    entriesFrom source.toList markers { recognizeBlocks := markers } (outline markers 0 (ts ++ [semi] ++ [stop])) =
      entriesFrom source.toList markers { recognizeBlocks := markers } earlier ++
        (Item.construct run c).entries source.toList markers { recognizeBlocks := markers } := by
  rw [h.runs, entriesFrom_append (Tracker.passAll_of_noDirectives fun t ht => hplain t (hearlier ht)), entriesFrom_singleton]

/-- What the runs say with the body is what they say without it, but that the last declarations end elsewhere. -/
theorem entriesFrom_definition (hf : Moves 0 0 f) (hplain : ∀ t ∈ ts, t.directive? = none)
    (hearlier : earlier.flatMap Item.tokens ⊆ ts) (hhead : (c.map f).head ⊆ ts.map f) {source' : String}
    (hslice : ∀ first last : Token, last ∈ ts → Span.slice? ⟨(f first).span.start, (f last).span.stop⟩ source'.toList =
      Span.slice? ⟨first.span.start, last.span.stop⟩ source.toList) (run' : List Token) (brace close : Token) :
    entriesFrom source'.toList markers { recognizeBlocks := markers }
        (earlier.map (Item.map f) ++ [.construct run' ((c.map f).defined brace close)]) =
      entriesFrom source.toList markers { recognizeBlocks := markers } earlier ++
        ((Item.construct run c).entries source.toList markers { recognizeBlocks := markers }).map
          (Entry.endingAt close.span.stop) := by
  have hunmoved : ∀ entries : List Entry, entries.map (Entry.moved 0 0) = entries :=
    fun entries => (List.map_congr_left fun entry _ => Entry.moved_zero entry).trans (List.map_id _)
  have hpass := @Tracker.passAll_of_noDirectives { recognizeBlocks := markers } _ fun t ht => hplain t (hearlier ht)
  have hpass' : Tracker.passAll { recognizeBlocks := markers } ((earlier.map (Item.map f)).flatMap Item.tokens) =
      .ok { recognizeBlocks := markers } := by
    rw [flatMap_tokens_map]
    exact Tracker.passAll_of_closed (hf.keepsKinds.filterMap_directive? _) hpass
  have hplaced : ∀ item ∈ earlier, item.PlacedIn ts := by
    intro item hitem
    have hhere : item.PlacedIn item.tokens := h.placedIn item (List.mem_append_left _ hitem)
    exact hhere.mono fun t ht => hearlier (List.mem_flatMap.2 ⟨item, hitem, ht⟩)
  have hfront := entriesFrom_moved hf hslice (Tracker.inside_refl _) hplaced hpass markers
  let site (text : List Char) : Site := ⟨text, markers, Tracker.guardPath { recognizeBlocks := markers },
    Tracker.interfaceBlock { recognizeBlocks := markers }⟩
  have hlast : (c.map f).entries (site source.toList) = (c.entries (site source.toList)).map (Entry.moved 0 0) := by
    have hcarries : (site source.toList).Carries f (site source.toList) (c.last :: c.head) := by
      refine ⟨rfl, rfl, rfl, fun first last _ => ?_⟩
      simp [Site.between, hf.span, Span.moved]
    have hplaced : Item.PlacedIn run (.construct run c) := h.placedIn _ (List.mem_append_right _ (List.mem_singleton_self _))
    exact Construct.entries_moved hf hcarries List.mem_cons_self (List.subset_cons_self _ _) hplaced.2.2
  have hdefined : ((c.map f).defined brace close).entries (site source'.toList) =
      ((c.map f).entries (site source.toList)).map (Entry.endingAt close.span.stop) := by
    refine (h.prototype.map hf.keepsKinds).entries_defined rfl rfl rfl fun first hfirst last hlast => ?_
    obtain ⟨first, -, rfl⟩ := List.mem_map.1 hfirst
    obtain ⟨last, hmem, rfl⟩ := List.mem_map.1 (hhead hlast)
    have hsame := hslice first last hmem
    simp only [Site.between, site, hsame]
    simp [hf.span, Span.moved]
  rw [entriesFrom_append hpass', hfront, hunmoved, entriesFrom_singleton]
  exact congrArg _ (hdefined.trans (congrArg _ (hlast.trans (hunmoved _))))

end EndsInPrototype

/-- With a body in the place of the semicolon, no token is a directive. -/
theorem directive?_definition {f : Token → Token} {ts inside us : List Token} {brace close last : Token} (hf : KeepsKinds f)
    (hplain : ∀ t ∈ ts, t.directive? = none) (hbrace : brace.kind = .opening .brace)
    (hkinds : us.map (·.kind) = inside.map (·.kind)) (hplain' : ∀ t ∈ inside, t.directive? = none)
    (hclose : close.kind = .closing .brace) (hlast : last.kind = .eof) :
    ∀ t ∈ ts.map f ++ brace :: (us ++ [close]) ++ [last], t.directive? = none := by
  have hus : ∀ t ∈ us, t.directive? = none := by
    rw [← List.filterMap_eq_nil_iff, filterMap_directive?_of_map_kind hkinds, List.filterMap_eq_nil_iff]
    exact hplain'
  intro t ht
  simp only [List.mem_append, List.mem_cons, List.not_mem_nil, or_false] at ht
  rcases ht with (hfront | rfl | hinner | rfl) | rfl
  · obtain ⟨t, ht, rfl⟩ := List.mem_map.1 hfront
    rw [hf.directive? t]
    exact hplain t ht
  · rw [Token.directive?, hbrace]
  · exact hus t hinner
  · rw [Token.directive?, hclose]
  · rw [Token.directive?, hlast]

/-- A function is declared by its definition as by its prototype, and so is what stands before it, whatever the body. -/
theorem surveySource_definition {markers : Bool} {head body : String} {ts inside : List Token}
    {semi last close stop : Token} (hhead : tokenize (head ++ ";") = .ok (ts ++ [semi, last]))
    (hsemi : semi.kind = .punct .semi) (hplain : ∀ t ∈ ts, t.directive? = none) {s : Survey}
    (hs : surveySource markers (head ++ ";") = .ok s) (hclean : s.errors = []) {types : List Declaration}
    {function : Declaration} (hitems : s.declarations.items = types ++ [function]) (htypes : ∀ d ∈ types, d.kind = .type)
    (hfunction : function.kind = .function) (hend : function.span.stop = semi.span.stop)
    (hlast : ∀ run c, (outline markers 0 (ts ++ [semi, last])).getLast? = some (.construct run c) →
      Outside (·.kind ≠ .punct .eq) 0 c.head ∧
        ((Specifiers.ofTokens markers c.head).isInline = true → (Specifiers.ofTokens markers c.head).isStatic = true))
    (hbody : tokenize (body ++ "\x7d") = .ok (inside ++ [close, stop])) (hclose : close.kind = .closing .brace)
    (hplain' : ∀ t ∈ inside, t.directive? = none) (hbalanced : openBehind? [] (braces inside) = some []) :
    ∃ s', surveySource markers (head ++ "\x7b" ++ body ++ "\x7d") = .ok s' ∧ s'.errors = [] ∧
      s'.declarations.told = s.declarations.told := by
  obtain ⟨ls, gap, hreadsHead, hstandsHead, -, -⟩ := readsUpTo_of_tokenize isMark_semicolon hhead hsemi hplain
  obtain ⟨ms, gap', hreadsBody, hstandsBody, -, -⟩ := readsUpTo_of_tokenize isMark_closing hbody hclose hplain'
  obtain ⟨f, us, brace, close', last', htokens, hf, hbrace, hclose', hlast', hkinds⟩ :=
    exists_tokens_of_definition hreadsHead hstandsHead
      (fun t ht => line_of_mem_tokenize hhead (List.mem_append_left _ ht)) hreadsBody
  have hkinds' : us.map (·.kind) = inside.map (·.kind) := hkinds.trans hstandsBody.map_kind.symm
  obtain ⟨earlier, run, c, piece, hends⟩ :=
    exists_endsInPrototype hhead hsemi hplain hs hclean hitems htypes hfunction hend hlast
  -- with the braces, the last run goes on to the end of the body
  have hinside := Outline.body?_of_tokenize hbody hclose hbalanced hkinds' hclose'
  obtain ⟨front, hfront, hsub, hnew⟩ := hends.outline_definition hf.keepsKinds hbrace hinside hlast'
  have hearlier : earlier.flatMap Item.tokens ⊆ ts := hfront ▸ List.subset_append_left _ _
  have hhead' : (c.map f).head ⊆ ts.map f := by
    rw [hfront, List.map_append]
    exact fun t ht => List.mem_append_right _ (hsub ht)
  have hslice : ∀ first last : Token, last ∈ ts →
      Span.slice? ⟨(f first).span.start, (f last).span.stop⟩ (head ++ "\x7b" ++ body ++ "\x7d").toList =
        Span.slice? ⟨first.span.start, last.span.stop⟩ (head ++ ";").toList := by
    intro first last hmem
    simpa using hf.slice?_append (hstandsHead.stop_le_of_eq hreadsHead.chars last hmem) ";".toList
      ("\x7b" ++ body ++ "\x7d").toList
  have hold := hends.entriesFrom_runs hplain hearlier
  have hwritten := hends.entriesFrom_definition hf hplain hearlier hhead' hslice (front.map f ++ brace :: (us ++ [close'])) brace
    close'
  rw [← hnew] at hwritten
  have hplainAll := directive?_definition hf.keepsKinds hplain hbrace hkinds' hplain' hclose' hlast'
  obtain rfl := Except.ok.inj (hs.symm.trans hends.survey_eq)
  refine ⟨_, surveySource_of_passAll htokens (Tracker.passAll_outline hplainAll _), ?_, ?_⟩
  · have hissues := hends.issues
    rw [hold, List.filterMap_append] at hissues
    rw [Survey.errors_recordAll, hwritten, List.filterMap_append, List.filterMap_map]
    exact (congrArg _ (List.filterMap_congr fun entry _ => Entry.issue?_endingAt _ entry)).trans hissues
  · rw [Survey.told_recordAll, Survey.told_recordAll, hwritten, hold, List.filterMap_append, List.filterMap_append,
      List.filterMap_map]
    exact congrArg _ (List.filterMap_congr fun entry _ => Entry.telling?_endingAt _ entry)

/-- A struct with a function behind it, with and without a body that has braces of its own. -/
theorem surveySource_definition_struct :
    let head := "struct s \x7b int n; \x7d f(int a)"
    let body := "if (a) \x7b a = 0; \x7d "
    ∃ s s', surveySource true (head ++ ";") = .ok s ∧ s.errors = [] ∧
      s.declarations.items.map (·.kind) = [.type, .function] ∧
      surveySource true (head ++ "\x7b" ++ body ++ "\x7d") = .ok s' ∧ s'.errors = [] ∧
      s'.declarations.told = s.declarations.told := by
  intro head body
  let tokens := (tokenize (head ++ ";")).toOption.getD []
  let inside := (tokenize (body ++ "\x7d")).toOption.getD []
  let s := (surveySource true (head ++ ";")).toOption.getD {}
  have hs : surveySource true (head ++ ";") = .ok s := by decide +kernel
  have hitems : s.declarations.items ≠ [] := by decide +kernel
  let semi : Token := ⟨.punct .semi, ";", ⟨28, 29⟩, 1, false⟩
  have hlast : ∀ c ∈ (outline true 0 (tokens.take 12 ++ [semi, .endOfText 29 1])).getLast?.bind Item.construct?,
      Outside (·.kind ≠ .punct .eq) 0 c.head ∧
        ((Specifiers.ofTokens true c.head).isInline = true → (Specifiers.ofTokens true c.head).isStatic = true) := by
    decide +kernel
  obtain ⟨s', hs', herrors, htold⟩ := @surveySource_definition true head body (tokens.take 12) (inside.take 10)
    semi (.endOfText 29 1) ⟨.closing .brace, "\x7d", ⟨18, 19⟩, 1, true⟩ (.endOfText 19 1)
    (by decide +kernel) rfl (by decide +kernel) s hs (by decide +kernel) s.declarations.items.dropLast
    (s.declarations.items.getLast hitems) (List.dropLast_append_getLast hitems).symm (by decide +kernel)
    (by decide +kernel +revert) (by decide +kernel +revert)
    (fun run c h => hlast c (by rw [h]; rfl)) (by decide +kernel) rfl (by decide +kernel)
    (by decide +kernel)
  exact ⟨s, s', hs, by decide +kernel, by decide +kernel, hs', herrors, htold⟩

/-- Behind a semicolon of its own a prototype may have another one, which ends nothing, but no body. -/
theorem body_behind_semicolon :
    let head := "int f(void);"
    ∃ tokens s f s', tokenize (head ++ ";") = .ok tokens ∧
      (∀ t ∈ tokens, t.directive? = none ∧ t.kind ≠ .punct .eq ∧ t.kind ≠ .keyword .inlineKw) ∧
      surveySource true (head ++ ";") = .ok s ∧ s.errors = [] ∧ s.declarations.items = [f] ∧ f.kind = .function ∧
      surveySource true (head ++ "\x7b" ++ "" ++ "\x7d") = .ok s' ∧ s'.errors ≠ [] := by
  intro head
  let s := (surveySource true (head ++ ";")).toOption.getD {}
  have hitems : s.declarations.items ≠ [] := by decide +kernel
  exact ⟨(tokenize (head ++ ";")).toOption.getD [], s, s.declarations.items.head hitems,
    (surveySource true (head ++ "\x7b" ++ "" ++ "\x7d")).toOption.getD {}, by decide +kernel, by decide +kernel,
    by decide +kernel, by decide +kernel, by decide +kernel +revert, by decide +kernel +revert, by decide +kernel,
    by decide +kernel⟩

end CHeader
