import CHeader.Construct.Entry
import CHeader.Proofs.Collecting

/-!
# Parsing looks at kinds only

Groups, specifiers, declarators and constructs are found by the kinds of the tokens. Where a token stands
and how it is spelled does not matter: if a map of tokens keeps kinds (`KeepsKinds`), what is found in the
mapped tokens is what is found in the tokens, mapped. So the tokens of a text are parsed in the same way
wherever the text stands.
-/

namespace CHeader

/-- A map of tokens that leaves their kinds as they are. -/
def KeepsKinds (f : Token → Token) : Prop :=
  ∀ t, (f t).kind = t.kind

variable {f : Token → Token}

namespace KeepsKinds

theorem isAttribute (hf : KeepsKinds f) (t : Token) : (f t).isAttribute = t.isAttribute := by
  simp [Token.isAttribute, hf t]

theorem isTypeof (hf : KeepsKinds f) (t : Token) : (f t).isTypeof = t.isTypeof := by
  simp [Token.isTypeof, hf t]

theorem isName (hf : KeepsKinds f) (t : Token) : (f t).isName = t.isName := by
  simp [Token.isName, hf t]

theorem isSignificant (hf : KeepsKinds f) (t : Token) : (f t).isSignificant = t.isSignificant := by
  simp [Token.isSignificant, hf t]

theorem directive? (hf : KeepsKinds f) (t : Token) : (f t).directive? = t.directive? := by
  simp [Token.directive?, hf t]

/-- Directives are among the tokens wherever they stand. -/
theorem filterMap_directive? (hf : KeepsKinds f) (tokens : List Token) :
    (tokens.map f).filterMap Token.directive? = tokens.filterMap Token.directive? := by
  rw [List.filterMap_map]
  congr 1
  funext t
  exact hf.directive? t

end KeepsKinds

/-! ### Groups -/

namespace Nesting

theorem closing_map (hf : KeepsKinds f) (depth : Nat) (ts : List Token) :
    closing depth (ts.map f) = (closing depth ts).map f := by
  fun_induction closing depth ts with
  | case1 => simp [closing]
  | case2 => simp [closing]
  | case3 depth t ts ih => simp [closing, hf t, ih]

theorem parenthesized_map (hf : KeepsKinds f) (ts : List Token) :
    parenthesized (ts.map f) = (parenthesized ts).map f := by
  cases ts with
  | nil => rfl
  | cons t ts =>
    simp only [List.map_cons, parenthesized, hf t, closing_map hf]
    split_ifs <;> rfl

theorem breakAt_map (hf : KeepsKinds f) (kind : TokenKind) (depth : Nat) (ts : List Token) :
    breakAt kind depth (ts.map f) = ((breakAt kind depth ts).1.map f, (breakAt kind depth ts).2.map f) := by
  fun_induction breakAt kind depth ts with
  | case1 => rfl
  | case2 depth t ts h => simp [breakAt, hf t, h]
  | case3 depth t ts h before behind heq ih =>
    rw [List.map_cons, breakAt, hf t, if_neg h, ih, heq]
    rfl

/-- A piece with its tokens mapped. -/
def Piece.map (f : Token → Token) (piece : Piece) : Piece :=
  ⟨piece.tokens.map f, f piece.stop⟩

theorem splitCommas_map (hf : KeepsKinds f) (stop : Token) (depth : Nat) (ts : List Token) :
    splitCommas (f stop) depth (ts.map f) = (splitCommas stop depth ts).map (Piece.map f) := by
  fun_induction splitCommas stop depth ts with
  | case1 => rfl
  | case2 depth t ts h ih => simp [splitCommas, hf t, h, ih, Piece.map]
  | case3 depth t ts h piece pieces heq ih =>
    rw [List.map_cons, splitCommas, hf t, if_neg h, ih, heq]
    rfl
  | case4 depth t ts h heq ih =>
    rw [List.map_cons, splitCommas, hf t, if_neg h, ih, heq]
    rfl

end Nesting

theorem attributes_map (hf : KeepsKinds f) (ts : List Token) : attributes (ts.map f) = (attributes ts).map f := by
  fun_induction attributes ts with
  | case1 => simp [attributes]
  | case2 t ts h argument ih =>
    rw [List.map_cons, attributes, hf.isAttribute, if_pos h, Nesting.parenthesized_map hf]
    simp only [List.length_map, ← List.map_drop, List.map_cons, List.map_append]
    rw [ih]
  | case3 t ts h =>
    rw [List.map_cons, attributes, hf.isAttribute, if_neg h]
    rfl

/-! ### Specifiers -/

/-- An aggregate with its tokens mapped. -/
def Aggregate.map (f : Token → Token) (a : Aggregate) : Aggregate :=
  ⟨a.head.map f, a.tag.map f, a.body.map f⟩

theorem Aggregate.tagged_map (hf : KeepsKinds f) (ts : List Token) : tagged (ts.map f) = (tagged ts).map f := by
  cases ts with
  | nil => rfl
  | cons t ts =>
    simp only [List.map_cons, tagged, hf.isName, attributes_map hf]
    split_ifs <;> rfl

theorem Aggregate.bodyOf_map (hf : KeepsKinds f) (ts : List Token) : bodyOf (ts.map f) = (bodyOf ts).map f := by
  cases ts with
  | nil => rfl
  | cons t ts =>
    simp only [List.map_cons, bodyOf, hf t, Nesting.closing_map hf]
    split_ifs <;> rfl

theorem Aggregate.ofTokens_map (hf : KeepsKinds f) (keyword : Token) (ts : List Token) :
    ofTokens (f keyword) (ts.map f) = (ofTokens keyword ts).map f := by
  simp [ofTokens, Aggregate.map, attributes_map hf, tagged_map hf, bodyOf_map hf, ← List.map_drop, ← List.map_append]

/-- What a specifier says, with the tokens of an aggregate mapped. -/
def SpecifierRole.map (f : Token → Token) : SpecifierRole → SpecifierRole
  | aggregate a => aggregate (a.map f)
  | role => role

namespace Specifier

/-- A specifier with its tokens mapped. -/
def map (f : Token → Token) (s : Specifier) : Specifier :=
  ⟨s.role.map f, s.tokens.map f⟩

@[simp] theorem isMarker_map (s : Specifier) : (s.map f).isMarker = s.isMarker := by
  cases s with
  | mk role tokens => cases role <;> rfl

@[simp] theorem isType_map (s : Specifier) : (s.map f).isType = s.isType := by
  cases s with
  | mk role tokens => cases role <;> rfl

@[simp] theorem aggregate?_map (s : Specifier) : (s.map f).aggregate? = s.aggregate?.map (Aggregate.map f) := by
  cases s with
  | mk role tokens => cases role <;> rfl

@[simp] theorem kept_map (s : Specifier) : (s.map f).kept = s.kept.map f := by
  rw [kept, isMarker_map, kept]
  split_ifs <;> rfl

theorem withArgument_map (hf : KeepsKinds f) {role : SpecifierRole} (hrole : role.map f = role) (t : Token)
    (ts : List Token) : withArgument role (f t) (ts.map f) = (withArgument role t ts).map f := by
  simp [withArgument, map, hrole, Nesting.parenthesized_map hf]

theorem hasArgument_map (hf : KeepsKinds f) (ts : List Token) : hasArgument (ts.map f) = hasArgument ts := by
  simp [hasArgument, Nesting.parenthesized_map hf]

theorem ofIdentifier?_map (hf : KeepsKinds f) (markers typed : Bool) (t : Token) (ts : List Token) :
    ofIdentifier? markers typed (f t) (ts.map f) = (ofIdentifier? markers typed t ts).map (map f) := by
  have hmarker : markerOf? markers (f t) = markerOf? markers t := by simp [markerOf?, hf t]
  simp only [ofIdentifier?, hmarker, hf.isAttribute, hf.isTypeof]
  split
  · rfl
  · split_ifs
    · simp [@withArgument_map _ hf .other rfl]
    · simp [@withArgument_map _ hf .type rfl]
    · rfl
    · rfl

theorem ofKeyword?_map (hf : KeepsKinds f) (k : Keyword) (t : Token) (ts : List Token) :
    ofKeyword? k (f t) (ts.map f) = (ofKeyword? k t ts).map (map f) := by
  unfold ofKeyword?
  by_cases haggregate : k.isAggregate
  · simp [haggregate, Aggregate.ofTokens_map hf, Specifier.map, SpecifierRole.map, Aggregate.map]
  · rw [if_neg haggregate, if_neg haggregate, hasArgument_map hf]
    split
    · rfl
    · rfl
    · rfl
    · simp [@withArgument_map _ hf .other rfl]
    · cases hasArgument ts
      · simp [@withArgument_map _ hf .other rfl]
      · simp [@withArgument_map _ hf .type rfl]
    · split_ifs <;> rfl

theorem first?_map (hf : KeepsKinds f) (markers typed behindExtern : Bool) (t : Token) (ts : List Token) :
    first? markers typed behindExtern (f t) (ts.map f) = (first? markers typed behindExtern t ts).map (map f) := by
  simp only [first?, hf t]
  split
  · exact ofIdentifier?_map hf markers typed t ts
  · exact ofKeyword?_map hf _ t ts
  · split_ifs <;> rfl
  · rfl

end Specifier

namespace Specifiers

/-- Specifiers with their tokens mapped. -/
def map (f : Token → Token) (specs : Specifiers) : Specifiers :=
  List.map (Specifier.map f) specs

theorem take_map (hf : KeepsKinds f) (markers typed behindExtern : Bool) (ts : List Token) :
    take markers typed behindExtern (ts.map f) = (take markers typed behindExtern ts).map f := by
  fun_induction take markers typed behindExtern ts with
  | case1 => simp [take, map]
  | case2 typed behindExtern t ts s hs ih =>
    rw [List.map_cons, take, Specifier.first?_map hf, hs]
    simp only [Option.map_some, Specifier.isType_map, hf t, ← List.map_drop]
    have hlength : (s.map f).tokens.length = s.tokens.length := by simp [Specifier.map]
    rw [hlength, ih]
    rfl
  | case3 typed behindExtern t ts hnone =>
    rw [List.map_cons, take, Specifier.first?_map hf, hnone]
    rfl

theorem ofTokens_map (hf : KeepsKinds f) (markers : Bool) (ts : List Token) :
    ofTokens markers (ts.map f) = (ofTokens markers ts).map f :=
  take_map hf ..

@[simp] theorem tokens_map (specs : Specifiers) : (specs.map f).tokens = specs.tokens.map f := by
  simp [tokens, map, List.flatMap_map, List.map_flatMap, Specifier.map]

@[simp] theorem kept_map (specs : Specifiers) : (specs.map f).kept = specs.kept.map f := by
  simp [kept, map, List.flatMap_map, List.map_flatMap]

theorem any_role_map (specs : Specifiers) {role : SpecifierRole} (h : ∀ a, role ≠ .aggregate a) :
    (specs.map f).any (·.role = role) = specs.any (·.role = role) := by
  have hrole : ∀ given : SpecifierRole, given.map f = role ↔ given = role := by
    intro given
    cases given <;> cases role <;> simp_all [SpecifierRole.map]
  simp [map, List.any_map, Function.comp_def, Specifier.map, hrole]

@[simp] theorem isTypedef_map (specs : Specifiers) : (specs.map f).isTypedef = specs.isTypedef :=
  any_role_map specs (by simp)

@[simp] theorem isStatic_map (specs : Specifiers) : (specs.map f).isStatic = specs.isStatic :=
  any_role_map specs (by simp)

@[simp] theorem isInline_map (specs : Specifiers) : (specs.map f).isInline = specs.isInline :=
  any_role_map specs (by simp)

@[simp] theorem marker?_map (specs : Specifiers) : (specs.map f).marker? = specs.marker? := by
  rw [marker?, any_role_map specs (by simp), any_role_map specs (by simp), marker?]

@[simp] theorem aggregate?_map (specs : Specifiers) :
    (specs.map f).aggregate? = specs.aggregate?.map (Aggregate.map f) := by
  simp [aggregate?, map, List.filterMap_map, Function.comp_def, List.getLast?_map, ← List.map_filterMap]

theorem keptWithoutBody_map (specs : Specifiers) : (specs.map f).keptWithoutBody = specs.keptWithoutBody.map f := by
  have hany : ∀ specs : Specifiers,
      List.any (List.map (Specifier.map f) specs) (·.aggregate?.isSome) = specs.any (·.aggregate?.isSome) := by
    intro specs
    simp [List.any_map, Function.comp_def]
  induction specs with
  | nil => rfl
  | cons s specs ih =>
    simp only [map] at ih
    simp only [map, List.map_cons, keptWithoutBody, Specifier.aggregate?_map]
    cases s.aggregate? with
    | none => simp [ih]
    | some a =>
      simp only [Option.map_some, hany, Aggregate.map]
      split_ifs
      · simp [ih]
      · have hkept := @kept_map f specs
        rw [map] at hkept
        simp [hkept]

end Specifiers

/-! ### Declarators -/

/-- A declarator with its tokens mapped. -/
def Declarator.map (f : Token → Token) (d : Declarator) : Declarator :=
  ⟨d.name.map f, d.parameters.map f⟩

namespace Declarator

theorem read_map (hf : KeepsKinds f) (context : Context) (found : Declarator) (ts : List Token) :
    read context (found.map f) (ts.map f) = (read context found ts).map f := by
  have hisNone : (found.map f).parameters.isNone = found.parameters.isNone := by simp [map]
  fun_induction read context found ts
  case case1 => simp [read]
  case case2 | case5 | case6 | case7 =>
    rename_i ih
    rw [List.map_cons, read, hf]
    simp_all [hf.isAttribute, Nesting.parenthesized_map hf, Nesting.closing_map hf, ← List.map_drop, map]
    exact ih
  all_goals
    rw [List.map_cons, read, hf]
    simp_all [hf.isAttribute, Nesting.closing_map hf, ← List.map_drop, map]

theorem ofTokens_map (hf : KeepsKinds f) (ts : List Token) : ofTokens (ts.map f) = (ofTokens ts).map f :=
  read_map hf .other {} ts

@[simp] theorem isFunction_map (d : Declarator) : (d.map f).isFunction = d.isFunction := by
  simp [isFunction, map]

end Declarator

/-! ### Shapes -/

theorem declarators_map (hf : KeepsKinds f) (stop : Token) (ts : List Token) :
    declarators (f stop) (ts.map f) = (declarators stop ts).map (Nesting.Piece.map f) := by
  simp only [declarators, List.isEmpty_map]
  split_ifs
  · rfl
  · exact Nesting.splitCommas_map hf stop 0 ts

namespace Nesting.Piece

theorem declaring_map (hf : KeepsKinds f) (piece : Piece) : (piece.map f).declaring = piece.declaring.map f := by
  simp [declaring, map, breakAt_map hf]

theorem hasInitializer_map (hf : KeepsKinds f) (piece : Piece) : (piece.map f).hasInitializer = piece.hasInitializer := by
  simp [hasInitializer, map, breakAt_map hf]

theorem declarator_map (hf : KeepsKinds f) (piece : Piece) : (piece.map f).declarator = piece.declarator.map f := by
  rw [declarator, declaring_map hf, Declarator.ofTokens_map hf, declarator]

theorem start_map (piece : Piece) : (piece.map f).start = f piece.start := by
  cases h : piece.tokens <;> simp [start, map, h]

end Nesting.Piece

namespace Shape

theorem behindSpecifiers_map (specs : Specifiers) (ts : List Token) :
    behindSpecifiers (specs.map f) (ts.map f) = (behindSpecifiers specs ts).map f := by
  simp [behindSpecifiers]

theorem lastDeclarator?_map (hf : KeepsKinds f) (specs : Specifiers) (brace : Token) (ts : List Token) :
    lastDeclarator? (specs.map f) (f brace) (ts.map f) =
      (lastDeclarator? specs brace ts).map (Nesting.Piece.map f) := by
  rw [lastDeclarator?, behindSpecifiers_map, declarators_map hf, List.getLast?_map, lastDeclarator?]

theorem isFunctionHead_map (hf : KeepsKinds f) (markers : Bool) (brace : Token) (ts : List Token) :
    isFunctionHead markers (f brace) (ts.map f) = isFunctionHead markers brace ts := by
  simp only [isFunctionHead, Specifiers.ofTokens_map hf, Specifiers.isTypedef_map, lastDeclarator?_map hf,
    Option.any_map, Nesting.Piece.hasInitializer_map hf, Nesting.Piece.declarator_map hf, Declarator.isFunction_map]

theorem expectsBrace_map (hf : KeepsKinds f) (markers : Bool) (brace : Token) (ts : List Token) :
    expectsBrace markers (f brace) (ts.map f) = expectsBrace markers brace ts := by
  simp only [expectsBrace, Specifiers.ofTokens_map hf, behindSpecifiers_map, List.isEmpty_map,
    Specifiers.aggregate?_map, Option.any_map, lastDeclarator?_map hf, Nesting.Piece.hasInitializer_map hf,
    Aggregate.map]

theorem behindNamedParen?_map (hf : KeepsKinds f) (depth : Nat) (before : Option Token) (ts : List Token) :
    behindNamedParen? depth (before.map f) (ts.map f) = (behindNamedParen? depth before ts).map (List.map f) := by
  have hbefore : ∀ before : Option Token, (before.map f).any Token.isName = before.any Token.isName := by
    intro before
    cases before <;> simp [hf.isName]
  fun_induction behindNamedParen? depth before ts with
  | case1 => rfl
  | case2 depth before t ts h =>
    rw [List.map_cons, behindNamedParen?, hf t, hbefore, if_pos h]
    rfl
  | case3 depth before t ts h ih =>
    rw [List.map_cons, behindNamedParen?, hf t, hbefore, if_neg h, ← ih]
    rfl

theorem isIdentifierList_map (hf : KeepsKinds f) (group : List Token) :
    isIdentifierList (group.map f) = isIdentifierList group := by
  simp [isIdentifierList, ← List.map_dropLast, List.all_map, Function.comp_def, hf _]

theorem startsParameter_map (hf : KeepsKinds f) (t : Token) : startsParameter (f t) = startsParameter t := by
  simp [startsParameter, hf.isName, hf t]

theorem parameterDeclarations?_map (hf : KeepsKinds f) (markers : Bool) (ts : List Token) :
    parameterDeclarations? markers (ts.map f) = (parameterDeclarations? markers ts).map (List.map f) := by
  have hhead : ∀ group : List Token, (group.map f).head?.any startsParameter = group.head?.any startsParameter := by
    intro group
    cases group <;> simp [startsParameter_map hf]
  simp only [parameterDeclarations?, Specifiers.ofTokens_map hf, Specifiers.isTypedef_map, Specifiers.tokens_map,
    List.getLast?_map, behindSpecifiers_map, behindNamedParen?_map hf]
  split_ifs
  · rfl
  · cases behindNamedParen? 0 (Specifiers.ofTokens markers ts).tokens.getLast?
        (behindSpecifiers (Specifiers.ofTokens markers ts) ts) with
    | none => rfl
    | some group =>
      simp only [Option.map_some, bind, Option.bind_some, Nesting.closing_map hf, List.length_map, ← List.map_drop,
        isIdentifierList_map hf, hhead]
      split_ifs <;> rfl

end Shape

/-! ### Constructs -/

/-- The end of a construct with its tokens mapped. -/
def Ending.map (f : Token → Token) : Ending → Ending
  | semicolon token => semicolon (f token)
  | body opening closing => body (f opening) (f closing)

/-- A construct with its tokens mapped. -/
def Construct.map (f : Token → Token) (c : Construct) : Construct :=
  ⟨c.head.map f, c.parameters.map f, c.ending.map f, c.conditionals.map f⟩

namespace Outline

/-- What is collected, with its tokens mapped. -/
def Collected.map (f : Token → Token) (c : Collected) : Collected :=
  ⟨c.met.map f, c.tokens.map f, c.conditionals.map f, c.opened.map f, c.head.map (List.map f)⟩

/-- A verdict with the tokens of what goes on mapped. -/
def Verdict.map (f : Token → Token) : Verdict → Verdict
  | goOn c => goOn (c.map f)
  | verdict => verdict

namespace Collected

theorem pass_map (hf : KeepsKinds f) (c : Collected) (t : Token) : (c.map f).pass (f t) = (c.pass t).map f := by
  simp only [pass, hf.directive?]
  split_ifs <;> rfl

theorem verdict_map (hf : KeepsKinds f) (markers : Bool) (c : Collected) (t : Token) :
    (c.map f).verdict markers (f t) = (c.verdict markers t).map f := by
  have htokens : (c.map f).tokens.reverse = c.tokens.reverse.map f := by simp [map]
  have hopened : (c.map f).opened.isEmpty = c.opened.isEmpty := by simp [map]
  have hhead : (c.map f).head.isSome = c.head.isSome := by simp [map]
  have hheadNone : (c.map f).head.isNone = c.head.isNone := by simp [map]
  have hcloses : (c.map f).opened.head?.any (t.kind.closes ·.kind) = c.opened.head?.any (t.kind.closes ·.kind) := by
    cases h : c.opened <;> simp [map, h, hf _]
  simp only [verdict, hf t, htokens, hopened, hhead, hheadNone, hcloses, Shape.isFunctionHead_map hf,
    Shape.expectsBrace_map hf, Shape.parameterDeclarations?_map hf, pass_map hf]
  split
  case h_1 => rfl
  case h_2 | h_3 | h_4 => rfl
  case h_5 => split_ifs <;> rfl
  case h_6 =>
    split_ifs
    · simp [Verdict.map, map, add]
    · rfl
  case h_7 =>
    split_ifs
    · cases Shape.parameterDeclarations? markers c.tokens.reverse with
      | none => rfl
      | some parameters => simp [Verdict.map, map, add, List.map_take]
    · rfl
  case h_8 => rfl

theorem finish_map (c : Collected) (ending : Ending) :
    (c.map f).finish (ending.map f) = (c.finish ending).map f := by
  cases hhead : c.head <;> simp [finish, map, hhead, Construct.map, List.map_drop]

end Collected

theorem body?_map (hf : KeepsKinds f) (depth : Nat) (ts : List Token) :
    body? depth (ts.map f) = (body? depth ts).map fun (inside, close) => (inside.map f, f close) := by
  induction ts generalizing depth with
  | nil => rfl
  | cons t ts ih =>
    rw [List.map_cons, body?, body?, hf t]
    simp only [ih]
    split
    · rfl
    · cases body? (depth + 1) ts <;> rfl
    · split_ifs
      · rfl
      · cases body? (depth - 1) ts <;> rfl
    · cases body? depth ts <;> rfl

/-- A construct is found in mapped tokens where it is found in the tokens. -/
theorem collect_map (hf : KeepsKinds f) {markers : Bool} {first : Token} {c : Collected} {ts tokens rest : List Token}
    {construct : Construct} (h : collect markers first c ts = (.construct tokens construct, rest)) :
    collect markers (f first) (c.map f) (ts.map f) = (.construct (tokens.map f) (construct.map f), rest.map f) := by
  induction ts generalizing c with
  | nil => cases h
  | cons t ts ih =>
    rw [collect_cons] at h
    rw [List.map_cons, collect_cons, Collected.verdict_map hf]
    cases hverdict : c.verdict markers t with
    | goOn c' =>
      simp only [hverdict] at h
      exact ih h
    | ends =>
      simp only [hverdict, Collected.stop] at h
      cases h
      have hfinish := @Collected.finish_map f c (.semicolon t)
      rw [Ending.map] at hfinish
      simp [Verdict.map, Collected.stop, Collected.map, ← hfinish]
    | body =>
      simp only [hverdict, Collected.stop, function] at h
      simp only [Verdict.map, Collected.stop, function, body?_map hf]
      cases hbody : body? 0 ts with
      | none =>
        rw [hbody] at h
        cases h
      | some found =>
        obtain ⟨inside, close⟩ := found
        rw [hbody] at h
        cases h
        have hfinish := @Collected.finish_map f c (.body t close)
        rw [Ending.map] at hfinish
        simp only [Option.map_some, hfinish, List.length_map, ← List.map_drop]
        simp [Collected.map]
    | unexpected | unbalanced | endOfText =>
      simp only [hverdict, Collected.stop] at h
      cases h

end Outline

/-! ### What a construct consists of -/

namespace Construct

@[simp] theorem last_map (c : Construct) : (c.map f).last = f c.last := by
  obtain ⟨_, _, ending, _⟩ := c
  cases ending <;> rfl

@[simp] theorem stop_map (c : Construct) : (c.map f).stop = f c.stop := by
  obtain ⟨_, _, ending, _⟩ := c
  cases ending <;> rfl

@[simp] theorem hasBody_map (c : Construct) : (c.map f).hasBody = c.hasBody := by
  obtain ⟨_, _, ending, _⟩ := c
  cases ending <;> rfl

theorem pieces_map (hf : KeepsKinds f) (c : Construct) (specs : Specifiers) :
    (c.map f).pieces (specs.map f) = (c.pieces specs).map (Nesting.Piece.map f) := by
  rw [pieces, stop_map, map, Shape.behindSpecifiers_map, declarators_map hf, pieces]

theorem start_map (specs : Specifiers) (first : Token) : start (specs.map f) (f first) = f (start specs first) := by
  rw [start, Specifiers.kept_map, List.head?_map, start]
  cases specs.kept.head? <;> rfl

theorem tagged?_map (specs : Specifiers) :
    tagged? (specs.map f) = (tagged? specs).map fun (a, tag) => (a.map f, f tag) := by
  unfold tagged?
  rw [Specifiers.aggregate?_map]
  cases specs.aggregate? with
  | none => rfl
  | some a =>
    cases htag : a.tag with
    | none => simp [Aggregate.map, htag, bind]
    | some tag =>
      cases hbody : a.body <;> simp [Aggregate.map, htag, hbody, bind]

theorem shared_map (specs : Specifiers) : shared (specs.map f) = (shared specs).map f := by
  unfold shared
  rw [tagged?_map, Option.isSome_map]
  split_ifs
  · exact Specifiers.keptWithoutBody_map specs
  · exact Specifiers.kept_map specs

end Construct

end CHeader
