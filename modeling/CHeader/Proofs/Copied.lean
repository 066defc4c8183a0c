import CHeader.Proofs.LoneConstruct
import CHeader.Proofs.Respelling
import CHeader.Proofs.Unmarked

/-!
# Declarations that are copied

A type or an inline function is copied from the source, from the token behind its marker words to its last. The
tokens between them are the same construct when they stand by themselves (`isConstruct_of_collect`), and the
construct says nothing else (`Construct.Copied`), so that the copy is that declaration wherever it is put
(`readsAs_copied`).
-/

namespace CHeader

open Lexed (allChars)

/-! ### A construct by itself -/

namespace Outline

/-- Pass over comments and directives. -/
def Collected.passAll (c : Collected) (passed : List Token) : Collected :=
  passed.foldl pass c

namespace Collected

variable (c : Collected) (passed : List Token)

@[simp] theorem tokens_passAll : (c.passAll passed).tokens = c.tokens := by
  induction passed generalizing c with
  | nil => rfl
  | cons t passed ih => exact ih (c.pass t)

@[simp] theorem opened_passAll : (c.passAll passed).opened = c.opened := by
  induction passed generalizing c with
  | nil => rfl
  | cons t passed ih => exact ih (c.pass t)

@[simp] theorem head_passAll : (c.passAll passed).head = c.head := by
  induction passed generalizing c with
  | nil => rfl
  | cons t passed ih => exact ih (c.pass t)

@[simp] theorem reverse_met_passAll : (c.passAll passed).met.reverse = c.met.reverse ++ passed := by
  induction passed generalizing c with
  | nil => simp [passAll]
  | cons t passed ih =>
    rw [passAll, List.foldl_cons]
    exact (ih (c.pass t)).trans (by simp [pass])

end Collected

theorem collect_passAll (markers : Bool) (first : Token) {passed : List Token}
    (h : ∀ t ∈ passed, t.isSignificant = false) (c : Collected) (ts : List Token) :
    collect markers first c (passed ++ ts) = collect markers first (c.passAll passed) ts := by
  induction passed generalizing c with
  | nil => rfl
  | cons t passed ih =>
    obtain ⟨ht, hpassed⟩ := List.forall_mem_cons.1 h
    have heof : t.kind ≠ .eof := by
      intro heof
      simp [Token.isSignificant, heof] at ht
    have hverdict := Collected.verdict_of_grows (Collected.Grows.passed ht : Collected.Grows markers c t _) heof
    rw [List.cons_append, collect_cons, hverdict]
    exact ih hpassed (c.pass t)

/-- A construct does not begin like a block. -/
theorem linkageLength?_of_collect {first : Token} {ts run rest : List Token} {k : Construct}
    (hkind : first.kind = .keyword .externKw) (h : collect true first (.start first) ts = (.construct run k, rest)) :
    linkageLength? ts = none := by
  by_contra hne
  obtain ⟨n, hn⟩ := Option.ne_none_iff_exists'.1 hne
  obtain ⟨opening, ⟨behind, rfl⟩, hblock, -⟩ := linkageLength?_iff_blockOpening.1 hn
  obtain ⟨before, string, between, brace, rfl, hpassed, ⟨spelling, hstring⟩, hbrace⟩ := hblock
  have hspecs : Specifiers.ofTokens true [first, string] = [⟨.other, [first]⟩, ⟨.other, [string]⟩] := by
    rw [Specifiers.ofTokens, Specifiers.take]
    simp [Specifier.first?, hkind, hstring, Specifier.ofKeyword?, Keyword.isAggregate, Keyword.isTypeSpecifier,
      Keyword.isTypeQualifier, Keyword.isStorageClass, Specifiers.take]
  have hbefore : ∀ t ∈ before, t.isSignificant = false := fun t ht => hpassed t (List.mem_append_left _ ht)
  have hbetween : ∀ t ∈ between, t.isSignificant = false := fun t ht => hpassed t (List.mem_append_right _ ht)
  have hadd : ∀ c : Collected, c.verdict true string = .goOn (c.add string) := fun c => by
    simp [Collected.verdict, hstring]
  -- The brace behind the string is none that the specifiers ask for.
  have hunexpected : ((((Collected.start first).passAll before).add string).passAll between).verdict true brace = .unexpected := by
    simp [Collected.verdict, hbrace, Collected.add, Collected.start, Shape.isFunctionHead, Shape.expectsBrace,
      Shape.lastDeclarator?, Shape.behindSpecifiers, hspecs, Specifiers.tokens, declarators, Specifiers.aggregate?,
      Specifier.aggregate?]
  rw [List.append_assoc, collect_passAll true first hbefore, List.cons_append, collect_cons, hadd] at h
  simp only [List.append_assoc, collect_passAll true first hbetween, List.singleton_append, collect_cons, hunexpected] at h
  cases h

end Outline

/-- What begins a specifier begins a construct. -/
theorem Specifier.canStartDeclaration_of_first? {markers typed : Bool} {t : Token} {ts : List Token} {s : Specifier}
    (h : first? markers typed false t ts = some s) : t.kind.canStartDeclaration = true := by
  unfold first? at h
  unfold TokenKind.canStartDeclaration
  split at h
  · simp_all
  · rename_i k hkind
    rw [hkind]
    cases k <;> simp_all [ofKeyword?, Keyword.canStart, Keyword.isAggregate, Keyword.isTypeSpecifier,
      Keyword.isTypeQualifier, Keyword.isStorageClass, Keyword.isFunctionSpecifier]
  · simp at h
  · cases h

theorem Token.Opens.canStartDeclaration {t : Token} (h : t.Opens) : t.kind.canStartDeclaration = true := by
  obtain ⟨s, hs, -⟩ := h []
  exact Specifier.canStartDeclaration_of_first? hs

/-- A token that a construct may begin with begins no other run. -/
theorem outline_cons_collect {markers : Bool} {linkage : Nat} {t : Token} {ts : List Token}
    (hstart : t.kind.canStartDeclaration = true) (hlinked : t.kind = .keyword .externKw → Outline.linkageLength? ts = none) :
    outline markers linkage (t :: ts) =
      (Outline.collect markers t (.start t) ts).1 :: outline markers linkage (Outline.collect markers t (.start t) ts).2 := by
  have hkind : t.kind ≠ .eof ∧ t.directive? = none := by
    refine ⟨?_, directive?_eq_none ?_⟩
    · intro heof
      rw [heof] at hstart
      cases hstart
    · intro directive hdirective
      rw [hdirective] at hstart
      cases hstart
  have hskipped : Outline.skipped? linkage t ts = none := by
    unfold Outline.skipped?
    split
    case h_1 hkind | h_2 hkind | h_3 hkind | h_4 hkind =>
      rw [hkind] at hstart
      cases hstart
    case h_5 hkind => rw [hlinked hkind, Option.map_none]
    case h_6 => rfl
  rw [outline_cons_external hkind.1 hkind.2 hskipped, Outline.external, if_pos hstart]

/-- What is collected from a token that begins a specifier is one construct by itself. -/
theorem isConstruct_of_collect {first : Token} {ts run rest : List Token} {k : Construct} (hopens : first.Opens)
    (h : Outline.collect true first (.start first) ts = (.construct run k, rest)) : IsConstruct run k := by
  obtain ⟨taken, rfl, rfl, -, hmore⟩ := Outline.collect_taken h
  have houtline := @outline_cons_collect true 0 first (taken ++ [.endOfText 0 0]) hopens.canStartDeclaration
    fun hlinked => Outline.linkageLength?_of_collect hlinked (hmore _)
  have hend : outline true 0 [.endOfText 0 0] = [] := by
    rw [outline]
    rfl
  rw [IsConstruct, Outline.Collected.start, List.append_assoc]
  simp only [List.reverse_singleton, List.singleton_append]
  rw [houtline, hmore, hend]
  rfl

/-! ### What is copied -/

namespace Construct

/-- The names of a `typedef`. -/
def names (c : Construct) (specs : Specifiers) : List Token :=
  (c.pieces specs).filterMap fun piece => (Declarator.ofTokens piece.tokens).name

/-- A construct that declares one thing, in the words of the source. -/
inductive Copied (c : Construct) (specs : Specifiers) : Prop
  | typedef (isTypedef : specs.isTypedef = true) (named : c.names specs ≠ [])
  | bare (plain : specs.isTypedef = false) (undeclared : c.pieces specs = []) (aggregate : specs.aggregate?.isSome = true)
  | inlined (plain : specs.isTypedef = false) (alone : tagged? specs = none) (body : c.hasBody = true)
      (isInline : specs.isInline = true) (external : specs.isStatic = false) (piece : Nesting.Piece)
      (one : c.pieces specs = [piece]) (function : piece.declarator.isFunction = true)

theorem Copied.map {c : Construct} {specs : Specifiers} (h : c.Copied specs) {f : Token → Token} (hf : KeepsKinds f) :
    (c.map f).Copied (specs.map f) := by
  cases h with
  | typedef isTypedef named =>
    refine .typedef (by simpa using isTypedef) ?_
    have hnames : (c.map f).names (specs.map f) = (c.names specs).map f := by
      rw [names, pieces_map hf, List.filterMap_map, names, List.map_filterMap]
      congr 1
      funext piece
      simp [Nesting.Piece.map, Declarator.ofTokens_map hf, Declarator.map]
    simpa [hnames] using named
  | bare plain undeclared aggregate =>
    exact .bare (by simpa using plain) (by rw [pieces_map hf, undeclared]; rfl) (by simpa using aggregate)
  | inlined plain alone body isInline external piece one function =>
    refine .inlined (by simpa using plain) ?_ (by simpa using body) (by simpa using isInline) (by simpa using external)
      (piece.map f) ?_ ?_
    · rw [tagged?_map, alone]
      rfl
    · rw [pieces_map hf, one]
      rfl
    · rw [Nesting.Piece.declarator_map hf]
      simpa using function

/-- Marker words before the construct make no difference. -/
theorem Copied.unmarked {c c' : Construct} (h : c.Copied (.ofTokens true c.head)) {marks : List Token}
    (hmarks : ∀ t ∈ marks, t.IsMark) (hhead : c.head = marks ++ c'.head) (hending : c.ending = c'.ending) :
    c'.Copied (.ofTokens true c'.head) := by
  obtain ⟨specs, hspecs, -, hmarker⟩ := Specifiers.ofTokens_marks hmarks c'.head
  have hpieces : c.pieces (.ofTokens true c.head) = c'.pieces (.ofTokens true c'.head) := by
    rw [pieces, pieces, hhead, Shape.behindSpecifiers_marks hmarks, stop, hending]
    rfl
  have hbody : c.hasBody = c'.hasBody := by
    rw [hasBody, hending]
    rfl
  have hall : Specifiers.ofTokens true c.head = specs ++ .ofTokens true c'.head := by rw [hhead, hspecs]
  cases h with
  | typedef isTypedef named =>
    rw [hall, Specifiers.isTypedef_append_marks hmarker] at isTypedef
    rw [names, hpieces] at named
    exact .typedef isTypedef named
  | bare plain undeclared aggregate =>
    rw [hall, Specifiers.isTypedef_append_marks hmarker] at plain
    rw [hall, Specifiers.aggregate?_append_marks hmarker] at aggregate
    exact .bare plain (hpieces ▸ undeclared) aggregate
  | inlined plain alone body isInline external piece one function =>
    rw [hall, Specifiers.isTypedef_append_marks hmarker] at plain
    rw [hall, Specifiers.isInline_append_marks hmarker] at isInline
    rw [hall, Specifiers.isStatic_append_marks hmarker] at external
    rw [hall, tagged?, Specifiers.aggregate?_append_marks hmarker] at alone
    exact .inlined plain alone (hbody ▸ body) isInline external piece (hpieces ▸ one) function

/-- Such a construct says what is copied of it. -/
theorem Copied.says_copied {c : Construct} {specs : Specifiers} (h : c.Copied specs) {site : Site}
    (hspecs : c.specifiers site = specs) {first : Token} (hfirst : c.head.head? = some first)
    (hassert : first.kind ≠ .keyword .staticAssertKw) :
    Says (site.between (start specs first) c.last) site.guard (c.entries site) := by
  obtain ⟨rest, hhead⟩ := List.head?_eq_some_iff.1 hfirst
  unfold entries
  simp only [hhead, hassert, if_false, hspecs]
  cases h with
  | typedef isTypedef named =>
    simp only [isTypedef, if_true]
    obtain ⟨name, others, hnames⟩ := List.exists_cons_of_ne_nil named
    rw [names] at hnames
    simp only [typedefEntries, hnames]
    exact ⟨_, _, _, rfl, rfl, rfl⟩
  | bare plain undeclared aggregate =>
    obtain ⟨a, ha⟩ := Option.isSome_iff_exists.1 aggregate
    simp only [plain, undeclared, bareEntries, ha, List.isEmpty_nil, Bool.false_eq_true, if_false, if_true]
    exact ⟨_, _, _, rfl, rfl, rfl⟩
  | inlined plain alone body isInline external piece one function =>
    have hname : piece.declarator.name.isSome = true := by
      unfold Declarator.isFunction at function
      exact (Bool.and_eq_true_iff.1 function).1
    obtain ⟨name, hname⟩ := Option.isSome_iff_exists.1 hname
    simp only [plain, one, List.isEmpty_cons, Bool.false_eq_true, if_false, taggedEntries, alone, declaratorEntries,
      List.length_singleton, lt_irrefl, decide_false, Bool.and_false, List.nil_append, List.map_cons, List.map_nil,
      declaratorEntry, hname, function, if_true, functionText, body, isInline, external, Bool.not_false, Bool.and_self]
    exact ⟨_, _, _, rfl, rfl, rfl⟩

end Construct

/-! ### Texts -/

/-- An assertion begins no specifier. -/
theorem Token.Opens.kind_ne_staticAssert {t : Token} (h : t.Opens) : t.kind ≠ .keyword .staticAssertKw := by
  intro hkind
  obtain ⟨s, hs, -⟩ := h []
  simp [Specifier.first?, hkind, Specifier.ofKeyword?, Keyword.isAggregate, Keyword.isTypeSpecifier, Keyword.isTypeQualifier,
    Keyword.isStorageClass, Keyword.isFunctionSpecifier] at hs

/-- The declarations of a construct without marker words start at its first token. -/
theorem Construct.start_of_opens {first : Token} (h : first.Opens) (rest : List Token) (otherwise : Token) :
    start (.ofTokens true (first :: rest)) otherwise = first := by
  obtain ⟨s, specs, hspecs, hmarker, hhead⟩ := Specifiers.ofTokens_opens h rest
  obtain ⟨inner, hinner⟩ := List.head?_eq_some_iff.1 hhead
  rw [start, hspecs, Specifiers.kept, List.flatMap_cons, Specifier.kept, hmarker, if_neg (by simp), hinner]
  rfl

/-- A text of lexemes of the kinds of such a construct is one declaration wherever it stands. -/
theorem Construct.Copied.readsAs {k : Construct} {first : Token} {taken more : List Token} {l : Lexed} {row : List Lexed}
    (hcopied : k.Copied (.ofTokens true k.head)) (hconstruct : IsConstruct (first :: taken) k) (hopens : first.Opens)
    (hhead : k.head = first :: more) (hlast : (first :: taken).getLast? = some k.last) (hnodup : (first :: taken).Nodup)
    (hgap : l.gap = []) (hreads : Reads (l :: row) []) (hkinds : (first :: taken).map (·.kind) = (l :: row).map (·.kind))
    {text : String} (htext : text.toList = allChars (l :: row)) :
    ReadsAs text.toList (Item.Declares ((first :: taken).filterMap Token.directive?) text) := by
  obtain rfl : text = String.ofList (allChars (l :: row)) := by rw [← htext, String.ofList_toList]
  rw [String.toList_ofList]
  refine readsAs_construct hreads hkinds hnodup hconstruct fun before' behind' f hf hstands => ?_
  rw [← hf.filterMap_directive?]
  refine Item.declares_construct fun site hsource hmarkers => ?_
  have hspecs : (k.map f).specifiers site = (Specifiers.ofTokens true k.head).map f := by
    rw [Construct.specifiers, hmarkers, Construct.map, Specifiers.ofTokens_map hf]
  have hfirst : (k.map f).head.head? = some (f first) := by simp [Construct.map, hhead]
  have hassert : (f first).kind ≠ .keyword .staticAssertKw := by
    rw [hf]
    exact hopens.kind_ne_staticAssert
  have hsays := (hcopied.map hf).says_copied hspecs hfirst hassert
  rw [Construct.start_map, hhead, Construct.start_of_opens hopens, Construct.last_map] at hsays
  have hplaced : ((first :: taken).map f).getLast? = some (f k.last) := by rw [List.getLast?_map, hlast, Option.map_some]
  have hcopy := @Stands.slice before' behind' l row (f first) (f k.last) (taken.map f) hstands hplaced
  rw [Site.between, hsource, hcopy, Option.getD_some] at hsays
  rw [Lexed.allChars_cons, hgap, List.nil_append]
  exact hsays

/-- A copy is one declaration wherever it stands. -/
theorem readsAs_copied {source : List Char} {before behind run ts rest more : List Token} {k : Construct} {first : Token}
    (hbody : Tokenized source (before ++ run ++ behind)) (hopens : first.Opens)
    (hcollect : Outline.collect true first (.start first) ts = (.construct run k, rest)) (hhead : k.head = first :: more)
    (hcopied : k.Copied (.ofTokens true k.head)) {site : Site} (hsource : site.source = source) :
    ReadsAs (site.between first k.last).toList
      (Item.Declares (run.filterMap Token.directive?) (site.between first k.last)) := by
  have hlast := Outline.last_of_collect hcollect
  obtain ⟨taken, -, hrun, -, -⟩ := Outline.collect_taken hcollect
  obtain rfl : run = first :: taken := hrun
  obtain ⟨l, row, hgap, hreads, hkinds, hslice⟩ := hbody.cut hlast
  have htext : (site.between first k.last).toList = allChars (l :: row) := by
    rw [Site.between, hsource, hslice, Option.getD_some, String.toList_ofList]
  have hnodup : (first :: taken).Nodup := by
    refine (hbody.ordered.sublist ?_).nodup
    exact (List.sublist_append_right before _).trans (List.sublist_append_left _ behind)
  exact hcopied.readsAs (isConstruct_of_collect hopens hcollect) hopens hhead hlast hnodup hgap hreads hkinds.symm htext

end CHeader
