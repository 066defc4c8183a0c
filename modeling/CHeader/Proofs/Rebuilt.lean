import CHeader.Proofs.Declaring
import CHeader.Proofs.LoneConstruct
import CHeader.Proofs.Parts
import CHeader.Proofs.Respelling

/-!
# Declarations that are rebuilt

A prototype or an `extern` variable is written as specifiers, one declarator and a semicolon. The condition
under which that is read back is `Rebuildable`: the tokens make one construct, of specifiers that are written as
they are and one declarator. Where the specifiers end may be another place than before. Then the text is one
declaration in the same words, wherever it stands (`readsAs_prototype`, `readsAs_variable`).
-/

namespace CHeader

open Lexed (allChars)
open Lexeme (gapLength)

/-! ### The specifiers of a construct -/

namespace Construct

/-- Specifiers that are all spelled before a declarator have no marker word and no definition among them. -/
theorem kept_of_shared {markers : Bool} {ts : List Token} (h : shared (.ofTokens markers ts) = (Specifiers.ofTokens markers ts).tokens) :
    tagged? (.ofTokens markers ts) = none ∧
      (Specifiers.ofTokens markers ts).kept = (Specifiers.ofTokens markers ts).tokens := by
  cases htagged : tagged? (.ofTokens markers ts) with
  | none =>
    rw [shared, htagged] at h
    exact ⟨rfl, h⟩
  | some found =>
    exfalso
    obtain ⟨a, tag⟩ := found
    obtain ⟨ha, hbody⟩ := aggregate?_of_tagged? htagged
    obtain ⟨before, s, behind, -, -, -, hkept, hwithout⟩ := Specifiers.exists_keptWithoutBody ha
    have hlength := (Specifiers.sublist_kept (.ofTokens markers ts)).length_le
    have hpositive := List.length_pos_iff.2 hbody
    rw [shared, htagged, if_pos (by simp)] at h
    rw [← h, hkept, hwithout] at hlength
    simp only [List.length_append] at hlength
    omega

end Construct

/-! ### Rebuilding -/

/-- The semicolon of a spelling. -/
def writtenSemicolon : Token :=
  .written (.punct .semi) ";"

/-- The parenthesis that closes an empty list of parameters. -/
def writtenParenthesis : Token :=
  .written (.closing .paren) ")"

/-- The word that a variable begins with. -/
def writtenExtern : Token :=
  .written (.keyword .externKw) "extern"

/-- The construct of some tokens before a semicolon. -/
def rebuilt (ts : List Token) : Construct :=
  ⟨ts, [], .semicolon writtenSemicolon, []⟩

/-- The words that a variable is not spelled with: `extern` is written anew, and `static` is of no variable of a header. -/
def isLinkage (t : Token) : Bool :=
  t.kind = .keyword .externKw || t.kind = .keyword .staticKw

/-- A declarator that is one, with a name and no initializer, of a function or not. -/
structure IsDeclarator (declarator : List Token) (isFunction : Bool) : Prop where
  named : (Declarator.ofTokens declarator).name.isSome = true
  sort : (Declarator.ofTokens declarator).isFunction = isFunction
  comma : (Nesting.breakAt (.punct .comma) 0 declarator).2 = []
  equals : (Nesting.breakAt (.punct .eq) 0 declarator).2 = []

instance (declarator : List Token) (isFunction : Bool) : Decidable (IsDeclarator declarator isFunction) :=
  decidable_of_iff
    ((Declarator.ofTokens declarator).name.isSome = true ∧ (Declarator.ofTokens declarator).isFunction = isFunction ∧
      (Nesting.breakAt (.punct .comma) 0 declarator).2 = [] ∧ (Nesting.breakAt (.punct .eq) 0 declarator).2 = [])
    ⟨fun ⟨named, sort, comma, equals⟩ => ⟨named, sort, comma, equals⟩, fun h => ⟨h.named, h.sort, h.comma, h.equals⟩⟩

/-- Tokens that are one construct before a semicolon, of specifiers and one declarator. The specifiers are all written
again, those of a variable behind the word of linkage that it begins with. -/
structure Rebuildable (ts : List Token) (isFunction : Bool) : Prop where
  construct : IsConstruct (ts ++ [writtenSemicolon]) (rebuilt ts)
  nonempty : (Specifiers.ofTokens true ts).tokens ≠ []
  shared : Construct.shared (.ofTokens true ts) = (Specifiers.ofTokens true ts).tokens
  linkage : isFunction = false →
    (Specifiers.ofTokens true ts).tokens.filter (!isLinkage ·) = (Specifiers.ofTokens true ts).tokens.tail
  declarator : IsDeclarator (Shape.behindSpecifiers (.ofTokens true ts) ts) isFunction

instance (ts : List Token) (isFunction : Bool) : Decidable (Rebuildable ts isFunction) :=
  decidable_of_iff
    (IsConstruct (ts ++ [writtenSemicolon]) (rebuilt ts) ∧ (Specifiers.ofTokens true ts).tokens ≠ [] ∧
      Construct.shared (.ofTokens true ts) = (Specifiers.ofTokens true ts).tokens ∧
      (isFunction = false →
        (Specifiers.ofTokens true ts).tokens.filter (!isLinkage ·) = (Specifiers.ofTokens true ts).tokens.tail) ∧
      IsDeclarator (Shape.behindSpecifiers (.ofTokens true ts) ts) isFunction)
    ⟨fun ⟨construct, nonempty, shared, linkage, declarator⟩ => ⟨construct, nonempty, shared, linkage, declarator⟩,
      fun h => ⟨h.construct, h.nonempty, h.shared, h.linkage, h.declarator⟩⟩

/-- An assertion begins with no specifier. -/
theorem ofTokens_staticAssert {markers : Bool} {first : Token} (h : first.kind = .keyword .staticAssertKw)
    (rest : List Token) : Specifiers.ofTokens markers (first :: rest) = [] := by
  rw [Specifiers.ofTokens, Specifiers.take]
  simp [Specifier.first?, h, Specifier.ofKeyword?, Keyword.isAggregate, Keyword.isTypeSpecifier, Keyword.isTypeQualifier,
    Keyword.isStorageClass, Keyword.isFunctionSpecifier]

/-- A construct with specifiers is no assertion, and declares what they and its declarators say. -/
theorem Construct.entries_of_specifiers {c : Construct} {site : Site} {specs : Specifiers} (hspecs : c.specifiers site = specs)
    (hne : specs ≠ []) :
    ∃ first, c.entries site = mentions specs ++
      if specs.isTypedef then c.typedefEntries site specs (start specs first)
      else if (c.pieces specs).isEmpty then c.bareEntries site specs (start specs first) first
      else c.taggedEntries site specs (start specs first) ++ c.declaratorEntries site specs (start specs first) first := by
  subst hspecs
  obtain ⟨first, rest, hhead⟩ : ∃ first rest, c.head = first :: rest := List.exists_cons_of_ne_nil fun hnil => hne (by
    rw [specifiers, hnil, Specifiers.ofTokens, Specifiers.take])
  have hassert : first.kind ≠ .keyword .staticAssertKw := fun hkind => hne (by
    rw [specifiers, hhead, ofTokens_staticAssert hkind])
  refine ⟨first, ?_⟩
  rw [entries, hhead]
  simp only [hassert, if_false]

namespace Rebuildable

variable {ts : List Token} {isFunction : Bool} {f : Token → Token}

theorem ne_nil (h : Rebuildable ts isFunction) : ts ≠ [] := by
  rintro rfl
  exact h.nonempty (by simp [Specifiers.ofTokens, Specifiers.take, Specifiers.tokens])

/-- The construct has one piece, which is the declarator. -/
theorem pieces_rebuilt (h : Rebuildable ts isFunction) :
    (rebuilt ts).pieces (.ofTokens true ts) = [⟨Shape.behindSpecifiers (.ofTokens true ts) ts, writtenSemicolon⟩] := by
  have hne : Shape.behindSpecifiers (.ofTokens true ts) ts ≠ [] := by
    intro hnil
    have hnamed := h.declarator.named
    simp [hnil, Declarator.ofTokens, Declarator.read] at hnamed
  rw [Construct.pieces, rebuilt, declarators, if_neg (by simpa using hne)]
  exact Nesting.splitCommas_of_breakAt h.declarator.comma

/-- What its declarator declares is written as the tokens are. -/
theorem entry_rebuilt (h : Rebuildable ts isFunction) (hf : KeepsKinds f) {site : Site} {start : Token} {text : String}
    (hfunction : isFunction = true → spell (ts.map f) ++ ";" = text)
    (hvariable : isFunction = false → "extern " ++ spell (ts.tail.map f) ++ ";" = text) :
    ∃ names draft, ((rebuilt ts).map f).declaratorEntry site ((Specifiers.ofTokens true ts).map f) start
        (Nesting.Piece.map f ⟨Shape.behindSpecifiers (.ofTokens true ts) ts, writtenSemicolon⟩) =
        .declare names draft ∧ draft.guard = site.guard ∧ draft.text.text = text := by
  obtain ⟨specifiers, hspecifiers⟩ : ∃ specifiers, (Specifiers.ofTokens true ts).tokens = specifiers := ⟨_, rfl⟩
  obtain ⟨declarator, hbehind⟩ : ∃ declarator, Shape.behindSpecifiers (.ofTokens true ts) ts = declarator := ⟨_, rfl⟩
  have hdeclarator := h.declarator
  have hall := Specifiers.tokens_append_behind true ts
  rw [hbehind] at hdeclarator ⊢
  rw [hspecifiers, hbehind] at hall
  obtain ⟨name, hname⟩ := Option.isSome_iff_exists.1 hdeclarator.named
  have hdeclaring : (Nesting.Piece.map f ⟨declarator, writtenSemicolon⟩).declaring = declarator.map f := by
    rw [Nesting.Piece.declaring_map hf, Nesting.Piece.declaring, Nesting.fst_breakAt hdeclarator.equals]
  have hread : (Nesting.Piece.map f ⟨declarator, writtenSemicolon⟩).declarator = (Declarator.ofTokens declarator).map f := by
    rw [Nesting.Piece.declarator, hdeclaring, Declarator.ofTokens_map hf]
  have hname' : ((Declarator.ofTokens declarator).map f).name = some (f name) := by simp [Declarator.map, hname]
  have hshared : Construct.shared ((Specifiers.ofTokens true ts).map f) = specifiers.map f := by
    rw [Construct.shared_map, h.shared, hspecifiers]
  have hlost : ∀ omitted spelled, ((rebuilt ts).map f).lostConditional? omitted spelled = none := by
    intro omitted spelled
    unfold Construct.lostConditional?
    cases spelled.head? <;> cases spelled.getLast? <;> rfl
  have hbody : ((rebuilt ts).map f).hasBody = false := rfl
  unfold Construct.declaratorEntry
  simp only [hread, hname', Declarator.isFunction_map, hdeclarator.sort, hbody, Bool.false_eq_true, if_false]
  cases isFunction with
  | true =>
    have hprototype : ((rebuilt ts).map f).prototypeTokens (Nesting.Piece.map f ⟨declarator, writtenSemicolon⟩) =
        declarator.map f := by
      unfold Construct.prototypeTokens
      rw [hdeclaring]
      cases Nesting.Piece.declarator (Nesting.Piece.map f ⟨declarator, writtenSemicolon⟩) with
      | mk name parameters => cases parameters <;> rfl
    have hnone : ((rebuilt ts).map f).parameters.isEmpty = true := rfl
    simp only [Construct.functionText, hbody, Bool.false_and, Bool.false_eq_true, if_false, hshared, hprototype, hlost,
      hnone, if_true]
    refine ⟨_, _, rfl, rfl, ?_⟩
    rw [← hfunction rfl, ← hall, List.map_append]
    rfl
  | false =>
    have htail : ts.tail = specifiers.tail ++ declarator := by
      rw [← hall, List.tail_append_of_ne_nil (hspecifiers ▸ h.nonempty)]
    have hfilter : (specifiers.map f).filter (!isLinkage ·) = specifiers.tail.map f := by
      have hlinkage := h.linkage rfl
      rw [hspecifiers] at hlinkage
      rw [← hlinkage, List.filter_map]
      congr 2
      funext t
      simp [isLinkage, hf t]
    have hvariable' := hvariable rfl
    rw [htail, List.map_append, ← hfilter] at hvariable'
    simp only [Construct.variableText, hshared, hdeclaring, hlost, Bool.false_eq_true, if_false]
    exact ⟨_, _, rfl, rfl, hvariable'⟩

/-- What is rebuilt says one thing: what its declarator declares, or a type if a `typedef` is among the specifiers. -/
theorem says_rebuilt (h : Rebuildable ts isFunction) (hf : KeepsKinds f) {site : Site} (hmarkers : site.markers = true)
    {text : String} (hwhole : ∀ first ∈ ts.head?, site.between (f first) (f writtenSemicolon) = text)
    (hfunction : isFunction = true → spell (ts.map f) ++ ";" = text)
    (hvariable : isFunction = false → "extern " ++ spell (ts.tail.map f) ++ ";" = text) :
    Construct.Says text site.guard (((rebuilt ts).map f).entries site) := by
  obtain ⟨htagged, hkept⟩ := Construct.kept_of_shared h.shared
  obtain ⟨first, rest, hfirst⟩ := List.exists_cons_of_ne_nil h.nonempty
  have hhead : ts.head? = some first := by
    rw [← Specifiers.tokens_append_behind true ts, hfirst]
    rfl
  have hspecs : ((rebuilt ts).map f).specifiers site = (Specifiers.ofTokens true ts).map f := by
    rw [Construct.specifiers, hmarkers, Construct.map, rebuilt, Specifiers.ofTokens_map hf]
  have hne : (Specifiers.ofTokens true ts).map f ≠ [] := by
    intro hnil
    have hnone : Specifiers.ofTokens true ts = [] := List.map_eq_nil_iff.1 hnil
    simp [hnone, Specifiers.tokens] at hfirst
  have hpieces : ((rebuilt ts).map f).pieces ((Specifiers.ofTokens true ts).map f) =
      [Nesting.Piece.map f ⟨Shape.behindSpecifiers (.ofTokens true ts) ts, writtenSemicolon⟩] := by
    rw [Construct.pieces_map hf, h.pieces_rebuilt]
    rfl
  have hstart : ∀ otherwise, Construct.start ((Specifiers.ofTokens true ts).map f) otherwise = f first := by
    intro otherwise
    rw [Construct.start, Specifiers.kept_map, hkept, hfirst]
    rfl
  obtain ⟨otherwise, hentries⟩ := Construct.entries_of_specifiers hspecs hne
  rw [hentries, hstart, Specifiers.isTypedef_map]
  cases htypedef : (Specifiers.ofTokens true ts).isTypedef with
  | true =>
    obtain ⟨name, hname⟩ := Option.isSome_iff_exists.1 h.declarator.named
    have hnames : ((((rebuilt ts).map f).pieces ((Specifiers.ofTokens true ts).map f)).filterMap fun piece =>
        (Declarator.ofTokens piece.tokens).name) = [f name] := by
      rw [hpieces]
      simp [Nesting.Piece.map, Declarator.ofTokens_map hf, Declarator.map, hname]
    simp only [if_true, Construct.typedefEntries, hnames, Construct.last_map]
    exact ⟨_, _, _, rfl, rfl, hwhole first hhead⟩
  | false =>
    have htaggedEntries : ((rebuilt ts).map f).taggedEntries site ((Specifiers.ofTokens true ts).map f) (f first) = [] := by
      simp [Construct.taggedEntries, Construct.tagged?_map, htagged]
    obtain ⟨names, draft, hentry, hguard, htext⟩ := h.entry_rebuilt hf hfunction hvariable
    have hbody : ((rebuilt ts).map f).hasBody = false := rfl
    simp only [hpieces, htaggedEntries, Construct.declaratorEntries, hbody, List.isEmpty_cons, Bool.false_and,
      Bool.false_eq_true, if_false, List.nil_append, List.map_cons, List.map_nil]
    exact ⟨_, names, draft, congrArg (_ ++ [·]) hentry, hguard, htext⟩

/-- A text of lexemes that are such tokens is one declaration wherever it stands. -/
theorem readsAs (h : Rebuildable ts isFunction) {ls : List Lexed} (hreads : Reads ls []) (hgap : ∀ l ∈ ls.head?, l.gap = [])
    (hkinds : (ts ++ [writtenSemicolon]).map (·.kind) = ls.map (·.kind)) (hnodup : (ts ++ [writtenSemicolon]).Nodup)
    (hdirectives : ts.filterMap Token.directive? = []) {text : String} (htext : text.toList = allChars ls)
    (hfunction : isFunction = true → ∀ offset f, KeepsKinds f → Stands offset ls ((ts ++ [writtenSemicolon]).map f) →
      spell (ts.map f) ++ ";" = text)
    (hvariable : isFunction = false → ∀ offset f, KeepsKinds f → Stands offset ls ((ts ++ [writtenSemicolon]).map f) →
      "extern " ++ spell (ts.tail.map f) ++ ";" = text) :
    ReadsAs text.toList (Item.Declares [] text) := by
  rw [htext]
  refine readsAs_construct hreads hkinds hnodup h.construct fun before behind f hf hstands => ?_
  have hnone : ((ts ++ [writtenSemicolon]).map f).filterMap Token.directive? = [] := by
    rw [hf.filterMap_directive?, List.filterMap_append, hdirectives]
    rfl
  rw [← hnone]
  refine Item.declares_construct fun site hsource hmarkers => ?_
  refine h.says_rebuilt hf hmarkers ?_ (fun hkind => hfunction hkind _ f hf hstands)
    fun hkind => hvariable hkind _ f hf hstands
  intro first hfirst
  obtain ⟨rest, rfl⟩ := List.head?_eq_some_iff.1 hfirst
  cases ls with
  | nil => cases hstands
  | cons l ls =>
    have hlast : ((first :: rest ++ [writtenSemicolon]).map f).getLast? = some (f writtenSemicolon) := by
      rw [List.map_append, List.map_singleton, List.getLast?_concat]
    have hslice := @Stands.slice before behind l ls (f first) (f writtenSemicolon) _ hstands hlast
    rw [Site.between, hsource, hslice, Option.getD_some, ← String.toList_inj, String.toList_ofList, htext, Lexed.allChars_cons,
      hgap l rfl, List.nil_append]

end Rebuildable

/-! ### Texts -/

section Texts

variable {source : List Char} {us : List Token}

theorem reads_written {kind : TokenKind} {c : Char} {rest : List Char} (hc : gapLength (c :: rest) = 0)
    (h : Lexeme.lexeme c rest = ⟨.ok kind, 0⟩) : Lexed.ReadBefore ⟨[], kind, [c]⟩ rest :=
  ⟨hc, c, [], rfl, h⟩

/-- A semicolon at the end of a text is read. -/
theorem reads_semicolon : Reads [⟨[], .punct .semi, [';']⟩] [] :=
  ⟨reads_written rfl rfl, trivial⟩

/-- Behind the last of some lexemes, a semicolon is read. -/
theorem Reads.concat_semicolon {ls : List Lexed} (h : Reads ls []) {ts : List Token}
    (hkinds : ls.map (·.kind) = ts.map (·.kind)) (hlast : ∀ t ∈ ts.getLast?, t.isSignificant = true) :
    Reads (ls ++ [⟨[], .punct .semi, [';']⟩]) [] := by
  rw [reads_append]
  refine ⟨h.concat separator_semicolon (by decide) fun l hl => ?_, reads_semicolon⟩
  have hmap := congrArg List.getLast? hkinds
  rw [List.getLast?_map, List.getLast?_map, hl, Option.map_some] at hmap
  obtain ⟨t, ht, hkind⟩ := Option.map_eq_some_iff.1 hmap.symm
  rw [← hkind]
  exact kind_of_isSignificant (hlast t ht)

theorem reads_parenthesis : Reads [⟨[], .closing .paren, [')']⟩, ⟨[], .punct .semi, [';']⟩] [] :=
  ⟨reads_written rfl rfl, reads_semicolon⟩

/-- The text of a prototype is one declaration. Its parameters may be left out. -/
theorem readsAs_prototype (hus : TakenFrom source us) {closing : List Token}
    (hclosing : closing = [] ∨ closing = [writtenParenthesis]) (h : Rebuildable (us ++ closing) true) :
    ReadsAs (spell (us ++ closing) ++ ";").toList (Item.Declares [] (spell (us ++ closing) ++ ";")) := by
  have hall : spelled (us ++ closing ++ [writtenSemicolon]) = spelled (us ++ closing) ++ [⟨[], .punct .semi, [';']⟩] :=
    spelled_append_written rfl _ _
  refine @Rebuildable.readsAs _ _ h (spelled (us ++ closing ++ [writtenSemicolon])) ?_ ?_ (map_kind_spelled _).symm ?_ ?_ _ ?_
    ?_ (by simp)
  · rw [hall, reads_append]
    refine ⟨?_, reads_semicolon⟩
    rcases hclosing with rfl | rfl
    · rw [List.append_nil]
      exact reads_spelled hus separator_semicolon []
    · have hparen : spelled (us ++ [writtenParenthesis]) = spelled us ++ [⟨[], .closing .paren, [')']⟩] :=
        spelled_append_written rfl _ _
      rw [hparen, reads_append]
      exact ⟨reads_spelled hus separator_parenthesis [';'], reads_parenthesis.1, trivial⟩
  · obtain ⟨t, ts, hts⟩ := List.exists_cons_of_ne_nil h.ne_nil
    rw [hts, List.cons_append, spelled]
    simp
  · rw [List.append_assoc]
    refine hus.ordered.nodup_append ?_ ?_
    · rcases hclosing with rfl | rfl <;> decide
    · rcases hclosing with rfl | rfl <;> decide
  · rw [List.filterMap_append, hus.filterMap_directive?]
    rcases hclosing with rfl | rfl <;> rfl
  · rw [hall, Lexed.allChars_append, allChars_spelled, String.toList_append]
    rfl
  · intro _ offset f hf hstands
    rw [hall, List.map_append] at hstands
    obtain ⟨first, rest, heq, hfirst, hrest⟩ := hstands.split
    obtain _ | ⟨-, -, -, -, ⟨⟩⟩ := hrest
    obtain ⟨rfl, -⟩ := List.append_inj' heq rfl
    rw [spell_of_stands hfirst]

/-- The word that a variable begins with is read, with a blank behind it. -/
theorem reads_extern (rest : List Char) :
    Lexed.ReadBefore ⟨[], .keyword .externKw, "extern".toList⟩ (' ' :: rest) := by
  refine ⟨?_, 'e', "xtern".toList, rfl, ?_⟩
  · exact (Lexeme.gapLength_cons (by decide) _).trans (if_neg (by decide))
  · have hword : Lexeme.lexeme 'e' "xtern".toList = ⟨.ok (.keyword .externKw), 5⟩ := by rfl
    exact Lexeme.lexeme_append_separator separator_blank hword (by simp) (by simp)

/-- The text of a variable is one declaration. -/
theorem readsAs_variable (hus : TakenFrom source us) (h : Rebuildable (writtenExtern :: us) false) :
    ReadsAs ("extern " ++ spell us ++ ";").toList (Item.Declares [] ("extern " ++ spell us ++ ";")) := by
  have hrow : spelled (us ++ [writtenSemicolon]) = spelled us ++ [⟨[], .punct .semi, [';']⟩] := spelled_append_written rfl _ _
  have hreads : Reads (spelled (us ++ [writtenSemicolon])) [] := by
    rw [hrow, reads_append]
    exact ⟨reads_spelled hus separator_semicolon [], reads_semicolon⟩
  have hchars : allChars (Lexed.widen [' '] (spelled (us ++ [writtenSemicolon]))) =
      ' ' :: allChars (spelled (us ++ [writtenSemicolon])) := by
    cases hall : us ++ [writtenSemicolon] with
    | nil => simp at hall
    | cons t ts => simp [spelled, Lexed.widen]
  refine @Rebuildable.readsAs _ _ h (⟨[], .keyword .externKw, "extern".toList⟩ ::
    Lexed.widen [' '] (spelled (us ++ [writtenSemicolon]))) ?_ ?_ ?_ ?_ ?_ _ ?_ (by simp) ?_
  · refine ⟨?_, ?_⟩
    · rw [hchars]
      exact reads_extern _
    · cases hall : us ++ [writtenSemicolon] with
      | nil => trivial
      | cons t ts =>
        rw [hall] at hreads
        exact ⟨hreads.1.blank rfl true, hreads.2⟩
  · simp
  · have hkinds := map_kind_spelled (us ++ [writtenSemicolon])
    cases hall : us ++ [writtenSemicolon] with
    | nil => simp at hall
    | cons t ts =>
      rw [hall] at hkinds
      rw [List.cons_append, hall]
      exact congrArg (writtenExtern.kind :: ·) hkinds.symm
  · have hperm : (us ++ [writtenExtern, writtenSemicolon]).Nodup := hus.ordered.nodup_append (by decide) (by decide)
    refine (List.Perm.nodup_iff ?_).1 hperm
    rw [List.cons_append]
    exact List.perm_middle
  · rw [List.filterMap_cons, hus.filterMap_directive?]
    rfl
  · rw [Lexed.allChars_cons, hchars, hrow, Lexed.allChars_append, allChars_spelled]
    simp
  · intro _ offset f hf hstands
    rw [List.cons_append, List.map_cons] at hstands
    obtain _ | ⟨-, -, -, -, hstands⟩ := hstands
    rw [stands_widen, hrow, List.map_append] at hstands
    obtain ⟨first, rest, heq, hfirst, hrest⟩ := hstands.split
    obtain _ | ⟨-, -, -, -, ⟨⟩⟩ := hrest
    obtain ⟨rfl, -⟩ := List.append_inj' heq rfl
    rw [List.tail_cons, spell_of_stands hfirst]

end Texts

end CHeader
