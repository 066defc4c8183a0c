import CHeader.Generator
import CHeader.Proofs.Brackets
import CHeader.Proofs.Locality
import Mathlib.Data.List.DropRight

/-!
# Definitions in the old style

A semicolon outside all brackets ends a construct, unless what stands before it looks like the head of a
definition in the old style with the first of its parameter declarations behind it: a name, a list of
identifiers in parentheses, and a word. From there on everything up to the brace of the next body is taken in,
whatever it declares. So exactly the text before the body says what the parameters of a construct are, and
whether they declare only what the list names (`parameters_of_mem_outline`); a prototype with one name in its
list and a word behind it loses all that follows it up to the next function (`prototype_swallows`).
-/

namespace CHeader

namespace Nesting

theorem outside_concat {P : Token → Prop} {depth : Nat} {ts : List Token} {t : Token} :
    Outside P depth (ts ++ [t]) ↔ Outside P depth ts ∧ (level depth ts = 0 → P t) := by
  rw [outside_append]
  exact and_congr_right fun _ => and_iff_left trivial

/-- Behind closed text without one, the first token of a kind outside the groups is this one. -/
theorem breakAt_of_outside {kind : TokenKind} {depth : Nat} {before : List Token}
    (hbefore : Outside (·.kind ≠ kind) depth before) (hlevel : level depth before = 0) {t : Token} (ht : t.kind = kind)
    (behind : List Token) : breakAt kind depth (before ++ t :: behind) = (before, t :: behind) := by
  induction before generalizing depth with
  | nil => simp_all [breakAt]
  | cons u before ih =>
    obtain ⟨hu, hbefore⟩ := hbefore
    have hnot : ¬(depth = 0 ∧ u.kind = kind) := fun h => hu h.1 h.2
    rw [List.cons_append, breakAt, if_neg hnot, ih hbefore hlevel]

theorem breakAt_of_outside_all {kind : TokenKind} {depth : Nat} {ts : List Token}
    (h : Outside (·.kind ≠ kind) depth ts) : breakAt kind depth ts = (ts, []) := by
  induction ts generalizing depth with
  | nil => rfl
  | cons t ts ih =>
    obtain ⟨ht, hts⟩ := h
    have hnot : ¬(depth = 0 ∧ t.kind = kind) := fun h => ht h.1 h.2
    rw [breakAt, if_neg hnot, ih hts]

end Nesting

open Nesting (level Outside openBehind?)

/-! ### Names -/

/-- The names that an entry declares. -/
def Entry.names : Entry → List String
  | .declare names _ => names
  | _ => []

/-- The declarations that end at the semicolons outside all groups; `stop` ends the last. -/
def declarationsIn (stop : Token) (depth : Nat) : List Token → List Construct
  | [] => [⟨[], [], .semicolon stop, []⟩]
  | t :: ts =>
    if depth = 0 ∧ t.kind = .punct .semi then ⟨[], [], .semicolon t, []⟩ :: declarationsIn stop 0 ts
    else
      match declarationsIn stop (Nesting.depthBehind depth t.kind) ts with
      | c :: cs => { c with head := t :: c.head } :: cs
      | [] => []

/-- The names that some tokens declare, taken as declarations at top level. -/
def declaredNames (markers : Bool) (stop : Token) (tokens : List Token) : List String :=
  (declarationsIn stop 0 tokens).flatMap fun c => (c.entries ⟨[], markers, [], none⟩).flatMap Entry.names

/-- The identifiers behind the last opening parenthesis. -/
def listedNames (head : List Token) : List String :=
  (head.rtakeWhile (·.kind ≠ .opening .paren)).filterMap (·.kind.identifier?)

/-! ### Heads in the old style -/

/-- A head that ends with a name and a list of identifiers in parentheses. -/
structure EndsInList (head : List Token) (name : Token) (listed : List Token) : Prop where
  split : ∃ front opening closing, head = front ++ name :: opening :: (listed ++ [closing]) ∧
    opening.kind = .opening .paren ∧ closing.kind = .closing .paren
  isName : name.isName = true
  nonempty : listed ≠ []
  identifiers : ∀ t ∈ listed, t.kind.identifier?.isSome = true ∨ t.kind = .punct .comma

theorem EndsInList.listedNames {head listed : List Token} {name : Token} (h : EndsInList head name listed) :
    CHeader.listedNames head = listed.filterMap (·.kind.identifier?) := by
  obtain ⟨front, opening, closing, rfl, hopening, hclosing⟩ := h.split
  have hlisted : ∀ t ∈ listed ++ [closing], decide (t.kind ≠ .opening .paren) = true := by
    intro t ht
    rcases List.mem_append.1 ht with ht | ht
    · rcases h.identifiers t ht with hkind | hkind
      · simpa using fun hparen => by simp [hparen, TokenKind.identifier?] at hkind
      · simp [hkind]
    · simp [List.mem_singleton.1 ht, hclosing]
  have htaken : (front ++ name :: opening :: (listed ++ [closing])).rtakeWhile (·.kind ≠ .opening .paren) =
      listed ++ [closing] := by
    have hreverse : (front ++ name :: opening :: (listed ++ [closing])).reverse =
        (listed ++ [closing]).reverse ++ opening :: name :: front.reverse := by simp
    rw [List.rtakeWhile, hreverse, List.takeWhile_append_of_pos (fun t ht => hlisted t (List.mem_reverse.1 ht)),
      List.takeWhile_cons_of_neg (by simp [hopening]), List.append_nil, List.reverse_reverse]
  rw [CHeader.listedNames, htaken]
  simp [hclosing, TokenKind.identifier?]

theorem noBracket_of_identifier {t : Token} (h : t.kind.identifier?.isSome = true ∨ t.kind = .punct .comma) :
    t.kind.isOpening = false ∧ t.kind.isClosing = false := by
  rcases h with h | h
  · unfold TokenKind.identifier? at h
    split at h
    · rename_i hkind
      simp [hkind, TokenKind.isOpening, TokenKind.isClosing]
    · cases h
  · simp [h, TokenKind.isOpening, TokenKind.isClosing]

namespace Shape

/-- Identifiers in brackets that something follows. -/
theorem exists_of_isIdentifierList {group rest : List Token} (h : isIdentifierList (Nesting.closing 1 group) = true)
    (hsplit : Nesting.closing 1 group ++ rest = group) (hrest : rest ≠ []) :
    ∃ listed closing, Nesting.closing 1 group = listed ++ [closing] ∧ listed ≠ [] ∧
      (∀ t ∈ listed, t.kind.identifier?.isSome = true ∨ t.kind = .punct .comma) ∧ closing.kind.isClosing = true := by
  obtain ⟨hlength, hlisted⟩ : 2 ≤ (Nesting.closing 1 group).length ∧
      ∀ t ∈ (Nesting.closing 1 group).dropLast, t.kind.identifier?.isSome = true ∨ t.kind = .punct .comma := by
    simpa [isIdentifierList] using h
  have hlevel := Nesting.level_closing hsplit hrest
  obtain hnil | ⟨listed, closing, hconcat⟩ := List.eq_nil_or_concat (Nesting.closing 1 group)
  · simp [hnil] at hlength
  rw [List.concat_eq_append] at hconcat
  rw [hconcat, List.dropLast_concat] at hlisted
  refine ⟨listed, closing, hconcat, ?_, hlisted, ?_⟩
  · rintro rfl
    simp [hconcat] at hlength
  · have hflat : level 1 listed = 1 :=
      Nesting.level_of_openBehind? (Nesting.openBehind?_of_noBrackets (fun t ht => noBracket_of_identifier (hlisted t ht)) [closing])
    rw [hconcat, Nesting.level_append, hflat, Nesting.level_cons, Nesting.level_nil] at hlevel
    unfold Nesting.depthBehind at hlevel
    split_ifs at hlevel with _ hclosing
    exact hclosing

/-- Parameter declarations begin behind a name and a list of identifiers in brackets. -/
theorem exists_of_parameterDeclarations? {markers : Bool} {tokens parameters : List Token}
    (h : parameterDeclarations? markers tokens = some parameters) :
    ∃ front name opening listed closing, tokens = front ++ name :: opening :: (listed ++ closing :: parameters) ∧
      name.isName = true ∧ opening.kind = .opening .paren ∧ listed ≠ [] ∧
      (∀ t ∈ listed, t.kind.identifier?.isSome = true ∨ t.kind = .punct .comma) ∧ closing.kind.isClosing = true ∧
      parameters.head?.any startsParameter = true := by
  simp only [parameterDeclarations?] at h
  split_ifs at h
  obtain ⟨group, hgroup, h⟩ := Option.bind_eq_some_iff.1 h
  obtain ⟨taken, opening, name, htaken, hopening, hname, hisName⟩ := exists_of_behindNamedParen? hgroup
  split_ifs at h with hlist
  cases h
  obtain ⟨hidentifiers, hstarts⟩ := Bool.and_eq_true_iff.1 hlist
  have hgroup' := List.prefix_iff_eq_append.1 (Nesting.prefix_closing 1 group)
  obtain ⟨listed, closing, hlisted, hne, hkinds, hclosing⟩ := exists_of_isIdentifierList hidentifiers hgroup' (by
    rintro hnil
    simp [hnil] at hstarts)
  obtain ⟨front, hfront⟩ : ∃ front, (Specifiers.ofTokens markers tokens).tokens ++ taken = front ++ [name] := by
    rw [← List.getLast?_eq_some_iff, List.getLast?_append, hname]
  refine ⟨front, name, opening, listed, closing, ?_, hisName, hopening, hne, hkinds, hclosing, hstarts⟩
  calc tokens = (Specifiers.ofTokens markers tokens).tokens ++ taken ++ opening :: group := by
        rw [List.append_assoc, ← htaken, Specifiers.tokens_append_behind]
    _ = front ++ name :: opening :: (listed ++ closing :: group.drop (Nesting.closing 1 group).length) := by
        rw [hfront, List.append_assoc, List.singleton_append]
        conv_lhs => rw [← hgroup', hlisted]
        simp [hlisted]

end Shape

/-! ### Where a construct is divided -/

/-- Some tokens `head` and, behind them, parameter declarations: the rest `begun` of the text before the first
semicolon, and the text `between` that semicolon and the body. -/
structure Division (markers : Bool) (head begun between : List Token) : Prop where
  found : Shape.parameterDeclarations? markers (head ++ begun) = some begun
  whole : Outside (·.kind ≠ .punct .semi) 0 (head ++ begun)
  closed : openBehind? [] (head ++ begun) = some []
  unbroken : Outside (·.kind ≠ .opening .brace) 0 between

namespace Division

variable {markers : Bool} {head begun between : List Token}

/-- The head of a division ends in a list of identifiers, and a word follows it. -/
theorem endsInList (h : Division markers head begun between) :
    (∃ name listed, EndsInList head name listed) ∧ begun.head?.any Shape.startsParameter = true := by
  obtain ⟨front, name, opening, listed, closing, hsplit, hname, hopening, hne, hlisted, hclosing, hstarts⟩ :=
    Shape.exists_of_parameterDeclarations? h.found
  have hclosed := h.closed
  rw [hsplit] at hclosed
  have hhead : head = front ++ name :: opening :: (listed ++ [closing]) := by
    refine (List.append_left_inj begun).1 ?_
    rw [hsplit]
    simp
  refine ⟨⟨name, listed, ⟨⟨front, opening, closing, hhead, hopening, ?_⟩, hname, hne, hlisted⟩⟩, hstarts⟩
  -- The group is closed by the bracket that fits, because all brackets before the semicolon do.
  rw [Nesting.openBehind?_append] at hclosed
  obtain ⟨opened, -, hclosed⟩ := Option.bind_eq_some_iff.1 hclosed
  rw [Nesting.openBehind?_cons, Nesting.openStep_of_noBracket (noBracket_of_word (isPunctuation_of_isName hname)), Option.bind_some, Nesting.openBehind?_cons,
    Nesting.openStep_opening hopening, Option.bind_some, Nesting.openBehind?_append,
    Nesting.openBehind?_of_noBrackets fun t ht => noBracket_of_identifier (hlisted t ht), Option.bind_some,
    Nesting.openBehind?_cons] at hclosed
  obtain ⟨outer, hstep, -⟩ := Option.bind_eq_some_iff.1 hclosed
  exact ((Nesting.openStep_closing_iff hclosing hopening).1 hstep).1

/-- The first semicolon outside the groups is where the text is divided. -/
theorem breakAt (h : Division markers head begun between) {semi : Token} (hsemi : semi.kind = .punct .semi) :
    Nesting.breakAt (.punct .semi) 0 (head ++ begun ++ semi :: between) = (head ++ begun, semi :: between) :=
  Nesting.breakAt_of_outside h.whole (Nesting.level_of_openBehind? h.closed) hsemi between

end Division

namespace Outline.Collected

/-- How what is collected of a construct is divided. -/
structure Divided (markers : Bool) (c : Collected) : Prop where
  met : c.met.reverse.filter (·.isSignificant) = c.tokens.reverse
  opened : openBehind? [] c.tokens.reverse = some c.opened
  /-- Before parameter declarations are found, no semicolon stands outside the groups. -/
  whole : c.head = none → Outside (·.kind ≠ .punct .semi) 0 c.tokens.reverse
  parts : ∀ head ∈ c.head, ∃ begun semi between, c.tokens.reverse = head ++ begun ++ semi :: between ∧
    semi.kind = .punct .semi ∧ Division markers head begun between

theorem divided_start {first : Token} (h : first.kind.canStartDeclaration = true) (markers : Bool) :
    (start first).Divided markers := by
  have hword : first.kind.isPunctuation = false := by
    unfold TokenKind.canStartDeclaration at h
    split at h <;> simp_all [TokenKind.isPunctuation]
  have hsemi : first.kind ≠ .punct .semi := by
    rintro hsemi
    simp [hsemi, TokenKind.isPunctuation] at hword
  refine ⟨?_, ?_, fun _ => ⟨fun _ => hsemi, trivial⟩, by simp [start]⟩
  · simp [start, isSignificant_of_canStartDeclaration h]
  · exact Nesting.openBehind?_of_noBrackets (by simpa [start] using noBracket_of_word hword) []

section

variable {markers : Bool} {c c' : Collected} {t : Token}

theorem Grows.openStep (h : Grows markers c t c') (ht : t.isSignificant = true) :
    Nesting.openStep c.opened t = some c'.opened := by
  cases h with
  | passed kind =>
    rw [ht] at kind
    cases kind
  | added _ noBracket => exact Nesting.openStep_of_noBracket noBracket c.opened
  | opened _ kind => exact Nesting.openStep_opening kind c.opened
  | closed _ kind opening outer partner innermost =>
    rw [innermost, Nesting.openStep_closing_iff (TokenKind.isClosing_iff.2 ⟨_, kind⟩) partner]
    exact ⟨kind, rfl⟩
  | divided kind => exact Nesting.openStep_of_noBracket (by simp [kind, TokenKind.isOpening, TokenKind.isClosing]) c.opened

/-- A token that closes no other bracket than the last one opened goes on with a construct. Only a semicolon or a brace outside
all brackets has to be expected there. -/
theorem grows_of_openStep {opened : List Token} (hstep : Nesting.openStep c.opened t = some opened)
    (ht : t.isSignificant = true)
    (hbrace : t.kind = .opening .brace → c.opened ≠ [] ∨ c.head = none ∧
      Shape.isFunctionHead markers t c.tokens.reverse = false ∧ Shape.expectsBrace markers t c.tokens.reverse = true)
    (hsemi : t.kind = .punct .semi → c.opened ≠ [] ∨ c.head.isSome) : Grows markers c t { c.add t with opened } := by
  unfold Nesting.openStep at hstep
  split_ifs at hstep with hopening hclosing
  · cases hstep
    obtain ⟨bracket, hkind⟩ := TokenKind.isOpening_iff.1 hopening
    exact .opened bracket hkind fun hbracket => hbrace (by rw [hkind, hbracket])
  · obtain ⟨bracket, hkind⟩ := TokenKind.isClosing_iff.1 hclosing
    cases hc : c.opened with
    | nil => simp [hc] at hstep
    | cons opening outer =>
      simp only [hc, hkind] at hstep
      split_ifs at hstep with hcloses
      cases hstep
      exact .closed bracket hkind opening opened (TokenKind.closes_closing_iff.1 hcloses) hc
  · cases hstep
    exact .added ht ⟨by simpa using hopening, by simpa using hclosing⟩ hsemi

/-- Before parameter declarations are found, a semicolon that goes on with the construct is inside brackets. -/
theorem Grows.kind_ne_semi (h : Grows markers c t c') (hwhole : c'.head = none) (hopened : c.opened = []) :
    t.kind ≠ .punct .semi := by
  rintro hsemi
  cases h with
  | passed kind => simp [Token.isSignificant, hsemi] at kind
  | added _ _ inside =>
    have hhead : c.head = none := hwhole
    rcases inside hsemi with hinside | hdivided
    · exact hinside hopened
    · simp [hhead] at hdivided
  | opened _ kind | closed _ kind => simp [hsemi] at kind
  | divided => cases hwhole

/-- Once they are found, a brace that goes on with the construct is inside brackets. -/
theorem Grows.kind_ne_brace (h : Grows markers c t c') (hdivided : c.head.isSome = true) (hopened : c.opened = []) :
    t.kind ≠ .opening .brace := by
  rintro hbrace
  cases h with
  | passed kind => simp [Token.isSignificant, hbrace] at kind
  | added _ noBracket => simp [hbrace, TokenKind.isOpening] at noBracket
  | opened bracket kind expected =>
    obtain rfl : bracket = .brace := by simpa [hbrace, eq_comm] using kind
    rcases expected rfl with hinside | ⟨hundivided, -⟩
    · exact hinside hopened
    · simp [hundivided] at hdivided
  | closed _ kind | divided kind => simp [hbrace] at kind

/-- Parameter declarations are found once. -/
theorem Grows.head_eq_or (h : Grows markers c t c') : c'.head = c.head ∨ t.kind = .punct .semi ∧ c.opened = [] ∧
    c.head = none ∧ ∃ parameters, Shape.parameterDeclarations? markers c.tokens.reverse = some parameters ∧
      c'.head = some (c.tokens.reverse.take (c.tokens.reverse.length - parameters.length)) := by
  cases h with
  | divided kind outside undivided parameters begun => exact .inr ⟨kind, outside, undivided, parameters, begun, rfl⟩
  | _ => exact .inl rfl

/-- The level of what is collected is the number of brackets that are open. -/
theorem Divided.level (h : c.Divided markers) : level 0 c.tokens.reverse = c.opened.length :=
  Nesting.level_of_openBehind? h.opened

/-- What is found at the first semicolon outside the groups. -/
theorem Divided.division (h : c.Divided markers) (hopened : c.opened = []) (hwhole : c.head = none)
    {parameters : List Token} (begun : Shape.parameterDeclarations? markers c.tokens.reverse = some parameters) :
    c.tokens.reverse = c.tokens.reverse.take (c.tokens.reverse.length - parameters.length) ++ parameters ∧
      Division markers (c.tokens.reverse.take (c.tokens.reverse.length - parameters.length)) parameters [] := by
  have hsplit : c.tokens.reverse.take (c.tokens.reverse.length - parameters.length) ++ parameters = c.tokens.reverse := by
    obtain ⟨head, -, hhead⟩ := Shape.parameterDeclarations?_suffix begun
    simp [hhead]
  refine ⟨hsplit.symm, ?_, ?_, ?_, trivial⟩
  · rwa [hsplit]
  · rw [hsplit]
    exact h.whole hwhole
  · rw [hsplit, h.opened, hopened]

theorem Divided.grows (h : c.Divided markers) (hgrows : Grows markers c t c') : c'.Divided markers := by
  have hmet : c'.met.reverse.filter (·.isSignificant) = c'.tokens.reverse := by
    rw [hgrows.met, hgrows.tokens, List.reverse_cons, List.filter_append, h.met]
    by_cases ht : t.isSignificant <;> simp [ht]
  by_cases ht : t.isSignificant = true
  case neg =>
    cases hgrows with
    | passed => exact ⟨hmet, h.opened, h.whole, h.parts⟩
    | added kind => exact absurd kind ht
    | opened _ kind | closed _ kind | divided kind => simp [Token.isSignificant, kind] at ht
  have htokens : c'.tokens.reverse = c.tokens.reverse ++ [t] := by rw [hgrows.tokens, if_pos ht, List.reverse_cons]
  have hopened : openBehind? [] c'.tokens.reverse = some c'.opened := by
    rw [htokens, Nesting.openBehind?_append, h.opened, Option.bind_some, Nesting.openBehind?_cons, hgrows.openStep ht]
    rfl
  rcases hgrows.head_eq_or with hhead | ⟨hsemi, houtside, hundivided, parameters, begun, hhead⟩
  · refine ⟨hmet, hopened, fun hwhole => ?_, fun head hmem => ?_⟩
    · rw [htokens, Nesting.outside_concat, h.level]
      exact ⟨h.whole (hhead ▸ hwhole), fun hlevel => hgrows.kind_ne_semi hwhole (List.length_eq_zero_iff.1 hlevel)⟩
    · rw [hhead] at hmem
      obtain ⟨begun, semi, between, hsplit, hsemi, hdivision⟩ := h.parts head hmem
      have hlevel : Nesting.level 0 between = c.opened.length := by
        have hclosed : Nesting.level 0 (head ++ begun) = 0 := Nesting.level_of_openBehind? hdivision.closed
        rw [← h.level, hsplit, Nesting.level_append, hclosed, Nesting.level_cons, hsemi]
        rfl
      refine ⟨begun, semi, between ++ [t], by simp [htokens, hsplit], hsemi, { hdivision with unbroken := ?_ }⟩
      rw [Nesting.outside_concat, hlevel]
      refine ⟨hdivision.unbroken, fun hzero => hgrows.kind_ne_brace ?_ (List.length_eq_zero_iff.1 hzero)⟩
      exact Option.isSome_iff_exists.2 ⟨head, hmem⟩
  · obtain ⟨hsplit, hdivision⟩ := h.division houtside hundivided begun
    refine ⟨hmet, hopened, fun hwhole => ?_, fun head hmem => ?_⟩
    · rw [hhead] at hwhole
      cases hwhole
    · rw [hhead] at hmem
      cases hmem
      exact ⟨parameters, t, [], by rw [htokens, ← hsplit], hsemi, hdivision⟩

end

end Outline.Collected

/-! ### The parameters of a construct -/

/-- The parameters of a construct declare only what the list in its head names. -/
def Construct.DeclaresListed (markers : Bool) (c : Construct) : Prop :=
  ∀ name ∈ declaredNames markers c.stop c.parameters, name ∈ listedNames c.head

instance (markers : Bool) (c : Construct) : Decidable (c.DeclaresListed markers) :=
  inferInstanceAs (Decidable (∀ name ∈ declaredNames markers c.stop c.parameters, name ∈ listedNames c.head))

/-- What the text before the end of a construct has to say so that its parameters declare only what its list
names: if it has a semicolon outside the groups, then the parameter declarations that begin before the first one
and all that is behind it declare only names of the list. -/
def ParametersListed (markers : Bool) (stop : Token) (text : List Token) : Prop :=
  let cut := Nesting.breakAt (.punct .semi) 0 text
  cut.2 = [] ∨ ∀ begun ∈ Shape.parameterDeclarations? markers cut.1,
    ∀ name ∈ declaredNames markers stop (begun ++ cut.2), name ∈ listedNames (cut.1.take (cut.1.length - begun.length))

instance (markers : Bool) (stop : Token) (text : List Token) : Decidable (ParametersListed markers stop text) :=
  inferInstanceAs (Decidable (_ ∨ ∀ begun ∈ Shape.parameterDeclarations? markers _, ∀ name ∈ declaredNames markers stop _, _))

/-- A construct without parameter declarations: no semicolon stands in it outside the groups, and it ends with one
only where no parameter declarations begin. -/
structure Construct.Undivided (markers : Bool) (c : Construct) : Prop where
  parameters : c.parameters = []
  whole : Outside (·.kind ≠ .punct .semi) 0 c.head
  unlike : c.hasBody = false → Shape.parameterDeclarations? markers c.head = none

/-- A definition in the old style: a head that ends with a list of identifiers, the parameter declarations that were
found, and all tokens from there up to the brace of a body. -/
structure Construct.OldStyle (markers : Bool) (c : Construct) : Prop where
  hasBody : c.hasBody = true
  listed : ∃ name listed, EndsInList c.head name listed ∧ listedNames c.head = listed.filterMap (·.kind.identifier?)
  parts : ∃ begun semi between, c.parameters = begun ++ semi :: between ∧ semi.kind = .punct .semi ∧
    begun.head?.any Shape.startsParameter = true ∧ Division markers c.head begun between

namespace Construct

variable {markers : Bool} {c : Construct}

theorem Undivided.declaresListed_iff (h : c.Undivided markers) :
    c.DeclaresListed markers ↔ ParametersListed markers c.stop (c.head ++ c.parameters) := by
  have hnone : c.DeclaresListed markers := by
    rw [DeclaresListed, h.parameters]
    simp [declaredNames, declarationsIn, entries]
  refine iff_of_true hnone ?_
  simp [ParametersListed, h.parameters, Nesting.breakAt_of_outside_all h.whole]

theorem OldStyle.declaresListed_iff (h : c.OldStyle markers) :
    c.DeclaresListed markers ↔ ParametersListed markers c.stop (c.head ++ c.parameters) := by
  obtain ⟨begun, semi, between, hparameters, hsemi, -, hdivision⟩ := h.parts
  have htext : c.head ++ c.parameters = c.head ++ begun ++ semi :: between := by rw [hparameters, List.append_assoc]
  have hhead : (c.head ++ begun).take ((c.head ++ begun).length - begun.length) = c.head := by simp
  rw [ParametersListed, htext, hdivision.breakAt hsemi]
  simp only [hdivision.found, Option.mem_some_iff, forall_eq', hhead, reduceCtorEq, false_or]
  rw [DeclaresListed, hparameters]

end Construct

theorem Outline.Collected.Divided.finish {markers : Bool} {c : Collected} (h : c.Divided markers) {ending : Ending}
    {behind : List Token} (hends : c.Ends markers ending behind) :
    (c.finish ending).head ++ (c.finish ending).parameters = c.tokens.reverse ∧
      ((c.finish ending).Undivided markers ∨ (c.finish ending).OldStyle markers) := by
  cases hhead : c.head with
  | none =>
    have hfinish : (c.finish ending).head = c.tokens.reverse ∧ (c.finish ending).parameters = [] := by
      simp [Collected.finish, hhead]
    refine ⟨by rw [hfinish.1, hfinish.2, List.append_nil], .inl ⟨hfinish.2, ?_, fun hsemicolon => ?_⟩⟩
    · rw [hfinish.1]
      exact h.whole hhead
    · rw [hfinish.1]
      cases hends with
      | semicolon verdict => exact (of_verdict_eq_ends verdict).2.2.2
      | body => cases hsemicolon
  | some head =>
    obtain ⟨begun, semi, between, hsplit, hsemi, hdivision⟩ := h.parts head hhead
    have hfinish : (c.finish ending).head = head ∧ (c.finish ending).parameters = begun ++ semi :: between := by
      simp [Collected.finish, hhead, hsplit]
    obtain ⟨⟨name, listed, hlisted⟩, hstarts⟩ := hdivision.endsInList
    refine ⟨by rw [hfinish.1, hfinish.2, hsplit, List.append_assoc], .inr ⟨?_, ?_, ?_⟩⟩
    · cases hends with
      | semicolon verdict =>
        have hnone := (of_verdict_eq_ends verdict).2.2.1
        simp [hhead] at hnone
      | body => rfl
    · rw [hfinish.1]
      exact ⟨name, listed, hlisted, hlisted.listedNames⟩
    · rw [hfinish.1, hfinish.2]
      exact ⟨begun, semi, between, rfl, hsemi, hstarts, hdivision⟩

/-- A construct has parameter declarations only if it is a definition in the old style: its head ends with a list of
identifiers, and what is taken in behind it, up to the brace of a body, is settled by the first semicolon outside the
groups. Which names the parameters declare does not matter for that, so they declare only what the list names
exactly if the text before the body does. -/
theorem parameters_of_mem_outline {markers : Bool} {linkage : Nat} {ts run : List Token} {c : Construct}
    (h : .construct run c ∈ outline markers linkage ts) :
    ∃ before behind, run = before ++ c.stop :: behind ∧
      before.filter (·.isSignificant) = c.head ++ c.parameters ∧
      (c.Undivided markers ∨ c.OldStyle markers) ∧
      (c.DeclaresListed markers ↔ ParametersListed markers c.stop (before.filter (·.isSignificant))) := by
  obtain ⟨first, more, rest, hstart, hcollect⟩ := collect_of_mem_outline h
  obtain ⟨collected, ending, behind, hdivided, rfl, rfl, hends⟩ :=
    Outline.exists_finish_of_collect (fun hgrows hdivided => hdivided.grows hgrows)
      (Outline.Collected.divided_start hstart markers) hcollect
  obtain ⟨htext, hshape⟩ := hdivided.finish hends
  obtain ⟨behind, rfl⟩ : ∃ rest, behind = (collected.finish ending).stop :: rest := by
    cases hends with
    | semicolon => exact ⟨[], rfl⟩
    | body inside close => exact ⟨inside ++ [close], rfl⟩
  refine ⟨collected.met.reverse, behind, rfl, by rw [hdivided.met, htext], hshape, ?_⟩
  rw [hdivided.met, ← htext]
  exact hshape.elim (·.declaresListed_iff) (·.declaresListed_iff)

theorem parameters_of_mem_outline_add :
    let tokens := (tokenize "int add(a, b) int a, *b; \x7b return a + *b; \x7d").toOption.getD []
    ∃ run c, .construct run c ∈ outline true 0 tokens ∧ c.OldStyle true ∧ c.DeclaresListed true ∧
      declaredNames true c.stop c.parameters = ["a", "b"] := by
  intro tokens
  obtain ⟨item, hmem, c, hc, hparameters, hnames, hlisted⟩ : ∃ item ∈ outline true 0 tokens, ∃ c ∈ item.construct?,
      c.parameters ≠ [] ∧ declaredNames true c.stop c.parameters = ["a", "b"] ∧
        ParametersListed true c.stop (c.head ++ c.parameters) := by
    decide +kernel
  cases item with
  | construct run found =>
    obtain rfl : found = c := Option.some_inj.1 hc
    obtain ⟨before, behind, -, htext, hshape, hiff⟩ := parameters_of_mem_outline hmem
    rw [htext] at hiff
    exact ⟨run, found, hmem, hshape.resolve_left fun h => hparameters h.parameters, hiff.2 hlisted, hnames⟩
  | directive | skipped | malformed => cases hc

/-- A prototype with a name in its list and a word behind it takes in the declarations that follow, up to the next
body. The text is read without an issue, and only one of its three functions is declared. -/
theorem prototype_swallows :
    let source := "int f(T) NOTHROW;\nint g(void);\nint h(void) \x7b return 0; \x7d"
    generateHeader source = .ok "int f();" ∧
      ∃ tokens run c, tokenize source = .ok tokens ∧ .construct run c ∈ outline true 0 tokens ∧
        declaredNames true c.stop c.parameters = ["g", "h"] ∧ listedNames c.head = ["T"] ∧ ¬c.DeclaresListed true := by
  intro source
  have htokens : tokenize source = .ok ((tokenize source).toOption.getD []) := by decide +kernel
  obtain ⟨item, hmem, c, hc, hnames⟩ : ∃ item ∈ outline true 0 ((tokenize source).toOption.getD []), ∃ c ∈ item.construct?,
      declaredNames true c.stop c.parameters = ["g", "h"] ∧ listedNames c.head = ["T"] ∧ ¬c.DeclaresListed true := by
    decide +kernel
  cases item with
  | construct run found =>
    obtain rfl : found = c := Option.some_inj.1 hc
    exact ⟨by decide +kernel, _, run, found, htokens, hmem, hnames⟩
  | directive | skipped | malformed => cases hc

end CHeader
