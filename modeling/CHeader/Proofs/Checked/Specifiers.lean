import CHeader.Proofs.Checked.Groups

/-!
# Specifiers by position

`PlacedSpecifiers.ofView?` takes the specifiers off the front of the positions below a limit, with checked look-ups,
and keeps the positions of those that belong to the declaration. Where the tokens of a construct are shown, it finds
the specifiers of these tokens (`ofView?_eq`).
-/

namespace CHeader.Checked

open Nesting (closing parenthesized)

/-- The positions from `i` to before `j`. -/
def places (i j : Nat) : List Nat :=
  List.range' i (j - i)

/-- Where an aggregate has its keyword, its tag and the braces of its body. -/
structure PlacedAggregate where
  keyword : Nat
  tag : Option Nat
  body : Option (Nat × Nat)
  deriving DecidableEq, Repr

/-- What a specifier says of the declaration, with the place of an aggregate. -/
inductive PlacedRole
  | marker (visibility : Visibility)
  | typedef
  | static
  | inline
  | type
  | aggregate (aggregate : PlacedAggregate)
  | other
  deriving DecidableEq, Repr

/-- A specifier: the positions that are kept of it, and the one behind it. -/
structure PlacedSpecifier where
  role : PlacedRole
  positions : List Nat
  next : Nat
  deriving DecidableEq, Repr

/-! ### One specifier -/

/-- The positions of the attributes at `i`, and the one behind them. -/
def attributes? (view : View) (limit i : Nat) : Option (List Nat × Nat) :=
  if _ : i < limit then do
    let t ← view i
    if t.isAttribute then do
      let stop ← groupEnd? view limit (i + 1)
      if _ : i < stop then do
        let (behind, next) ← attributes? view limit stop
        some (places i stop ++ behind, next)
      else none
    else some ([], i)
  else some ([], i)
termination_by limit - i

/-- The tag at position `i`, the positions of it and of the attributes behind it, and the one behind these. -/
def tag? (view : View) (limit i : Nat) : Option (Option Nat × List Nat × Nat) :=
  if i < limit then do
    let t ← view i
    if t.isName then do
      let (behind, next) ← attributes? view limit (i + 1)
      some (some i, i :: behind, next)
    else some (none, [], i)
  else some (none, [], i)

/-- The braces of the body at position `i`, its positions, and the one behind them. -/
def body? (view : View) (limit i : Nat) : Option (Option (Nat × Nat) × List Nat × Nat) :=
  if i < limit then do
    let t ← view i
    if t.kind = .opening .brace then do
      let close ← matching? view limit i
      some (some (i, close), places i (close + 1), close + 1)
    else some (none, [], i)
  else some (none, [], i)

/-- The aggregate whose keyword is at position `i`. -/
def aggregate? (view : View) (limit i : Nat) : Option PlacedSpecifier := do
  let (before, next) ← attributes? view limit (i + 1)
  let (tag, tagged, next) ← tag? view limit next
  let (body, inside, next) ← body? view limit next
  some ⟨.aggregate ⟨i, tag, body⟩, i :: (before ++ tagged ++ inside), next⟩

/-- A specifier of one token. -/
def word (role : PlacedRole) (i : Nat) : PlacedSpecifier :=
  ⟨role, [i], i + 1⟩

/-- A word and the group behind it. -/
def withArgument? (view : View) (limit : Nat) (role : PlacedRole) (i : Nat) : Option PlacedSpecifier := do
  let stop ← groupEnd? view limit (i + 1)
  some ⟨role, places i stop, stop⟩

/-- Whether a group in parentheses begins at position `i`. -/
def opensGroup? (view : View) (limit i : Nat) : Option Bool :=
  if i < limit then do
    let t ← view i
    some (t.kind = .opening .paren)
  else some false

/-- The specifier that the identifier `t` at position `i` is. -/
def identifier? (markers : Bool) (view : View) (limit : Nat) (typed : Bool) (i : Nat) (t : Token) :
    Option (Option PlacedSpecifier) :=
  match Specifier.markerOf? markers t with
  | some visibility => some (some ⟨.marker visibility, [], i + 1⟩)
  | none =>
    if t.isAttribute then (withArgument? view limit .other i).map some
    else if t.isTypeof then (withArgument? view limit .type i).map some
    else some (if typed then none else some (word .type i))

/-- The specifier of one keyword at position `i`. -/
def simple? (k : Keyword) (i : Nat) : Option PlacedSpecifier :=
  if k.isTypeSpecifier then some (word .type i)
  else if k.isTypeQualifier || k.isStorageClass || k.isFunctionSpecifier then some (word .other i)
  else none

/-- The specifier that the keyword `k` at position `i` begins. -/
def keyword? (view : View) (limit : Nat) (k : Keyword) (i : Nat) : Option (Option PlacedSpecifier) :=
  if k.isAggregate then (aggregate? view limit i).map some
  else
    match k with
    | .staticKw => some (some (word .static i))
    | .typedefKw => some (some (word .typedef i))
    | .inlineKw => some (some (word .inline i))
    | .alignasKw | .atomicKw => do
      if ← opensGroup? view limit (i + 1) then
        (withArgument? view limit (if k = .atomicKw then .type else .other) i).map some
      else some (simple? k i)
    | _ => some (simple? k i)

/-- Whether `extern` stands before position `i`. -/
def behindExtern? (view : View) (i : Nat) : Option Bool :=
  if 0 < i then do
    let before ← sub? i 1
    let t ← view before
    some (t.kind = .keyword .externKw)
  else some false

/-- The specifier at position `i`, if one begins there. -/
def specifier? (markers : Bool) (view : View) (limit : Nat) (typed : Bool) (i : Nat) : Option (Option PlacedSpecifier) := do
  let t ← view i
  match t.kind with
  | .identifier _ => identifier? markers view limit typed i t
  | .keyword k => keyword? view limit k i
  | .stringLiteral _ => do
    let linkage ← behindExtern? view i
    some (if linkage then some (word .other i) else none)
  | _ => some none

/-! ### All specifiers -/

/-- The specifiers of a construct, as far as its declarations depend on them. -/
structure PlacedSpecifiers where
  /-- The positions that belong to the declaration. -/
  positions : List Nat := []
  /-- The position behind the specifiers. -/
  stop : Nat := 0
  isStatic : Bool := false
  isTypedef : Bool := false
  isInline : Bool := false
  marker : Option Visibility := none
  aggregate : Option PlacedAggregate := none
  deriving DecidableEq, Repr

namespace PlacedSpecifiers

/-- Take in what a specifier says. A word that keeps the declaration out of the header wins. -/
def apply (specs : PlacedSpecifiers) : PlacedRole → PlacedSpecifiers
  | .marker .internal => { specs with marker := some .internal }
  | .marker .interface => { specs with marker := specs.marker <|> some .interface }
  | .static => { specs with isStatic := true }
  | .typedef => { specs with isTypedef := true }
  | .inline => { specs with isInline := true }
  | .aggregate aggregate => { specs with aggregate := some aggregate }
  | .type | .other => specs

/-- Take in a specifier. -/
def take (specs : PlacedSpecifiers) (s : PlacedSpecifier) : PlacedSpecifiers :=
  { specs.apply s.role with positions := specs.positions ++ s.positions, stop := s.next }

/-- Whether a specifier settles the type. -/
def settlesType : PlacedRole → Bool
  | .type | .aggregate _ => true
  | _ => false

/-- Take the specifiers from position `i` on. -/
def from? (markers : Bool) (view : View) (limit : Nat) (typed : Bool) (specs : PlacedSpecifiers) (i : Nat) :
    Option PlacedSpecifiers :=
  if _ : i < limit then do
    match ← specifier? markers view limit typed i with
    | some s =>
      if _ : i < s.next then from? markers view limit (typed || settlesType s.role) (specs.take s) s.next else none
    | none => some { specs with stop := i }
  else some { specs with stop := i }
termination_by limit - i

/-- The specifiers at the front of the positions below `limit`. -/
def ofView? (markers : Bool) (view : View) (limit : Nat) : Option PlacedSpecifiers :=
  from? markers view limit false {} 0

/-- The visibility of a type; an internal block hides all in it. -/
def typeVisibility (specs : PlacedSpecifiers) (block : Option InterfaceBlock) : Visibility :=
  if block = some .internal then .internal else specs.marker.getD .interface

/-- The visibility of a function or variable; a static one is internal. -/
def visibility (specs : PlacedSpecifiers) (block : Option InterfaceBlock) : Visibility :=
  if specs.isStatic || specs.marker = some .internal then .internal else specs.typeVisibility block

end PlacedSpecifiers

/-! ### Specifiers and their tokens -/

section Tokens

variable {view : View} {i : Nat} {t : Token} {ts : List Token}

theorem places_append {i j k : Nat} (hij : i ≤ j) (hjk : j ≤ k) : places i j ++ places j k = places i k := by
  obtain ⟨m, rfl⟩ := Nat.exists_eq_add_of_le hij
  obtain ⟨n, rfl⟩ := Nat.exists_eq_add_of_le hjk
  simp only [places, Nat.add_sub_cancel_left, Nat.add_assoc i m n]
  rw [← Nat.add_assoc, Nat.add_sub_cancel_left]
  exact List.range'_append_1

theorem places_succ (i : Nat) : places i (i + 1) = [i] := by
  simp [places]

theorem places_cons {i j : Nat} (h : i < j) : i :: places (i + 1) j = places i j := by
  rw [← places_append (Nat.le_succ i) h, places_succ]
  rfl

/-- Behind a front of the tokens, the rest of them goes on to the same end. -/
theorem add_length_drop {taken : List Token} (h : taken <+: ts) (i : Nat) :
    i + ts.length = i + taken.length + (ts.drop taken.length).length := by
  rw [List.length_drop, Nat.add_assoc, Nat.add_sub_cancel' h.length_le]

theorem attributes?_eq (h : view.Shows i ts) :
    attributes? view (i + ts.length) i =
      some (places i (i + (attributes ts).length), i + (attributes ts).length) := by
  fun_induction attributes ts generalizing i with
  | case1 =>
    rw [attributes?, dif_neg (by simp)]
    simp [places]
  | case2 t ts hattribute argument =>
    rename_i ih
    have hgroup : groupEnd? view (i + 1 + ts.length) (i + 1) = some (i + 1 + argument.length) := groupEnd?_eq h.2
    have hbehind := ih (h.2.drop argument.length)
    rw [← add_length_drop (Nesting.prefix_parenthesized ts)] at hbehind
    have hlength : i + (t :: (argument ++ attributes (ts.drop argument.length))).length =
        i + 1 + argument.length + (attributes (ts.drop argument.length)).length := by
      rw [add_length_cons, List.length_append, ← Nat.add_assoc]
    rw [attributes?, dif_pos (by simp), h.1, add_length_cons]
    simp only [Option.bind_eq_bind, Option.bind_some, if_pos hattribute]
    rw [hgroup, Option.bind_some, dif_pos (by omega), hbehind, Option.bind_some, hlength, places_append (by omega) (by omega)]
  | case3 t ts hattribute =>
    rw [attributes?, dif_pos (by simp), h.1]
    simp [hattribute, places]

theorem tag?_eq (h : view.Shows i ts) :
    tag? view (i + ts.length) i =
      some (if Aggregate.tagged ts = [] then none else some i, places i (i + (Aggregate.tagged ts).length),
        i + (Aggregate.tagged ts).length) := by
  cases ts with
  | nil => simp [tag?, Aggregate.tagged, places]
  | cons t ts =>
    rw [tag?, if_pos (by simp), h.1, Aggregate.tagged]
    simp only [Option.bind_eq_bind, Option.bind_some]
    split_ifs with hname hempty
    · cases hempty
    · rw [add_length_cons, attributes?_eq h.2, Option.bind_some, add_length_cons, places_cons (by omega)]
    · simp [places]
    · simp at *

theorem body?_eq (h : view.Shows i ts) :
    body? view (i + ts.length) i =
      some (if Aggregate.bodyOf ts = [] then none else some (i, i + (Aggregate.bodyOf ts).length - 1),
        places i (i + (Aggregate.bodyOf ts).length), i + (Aggregate.bodyOf ts).length) := by
  cases ts with
  | nil => simp [body?, Aggregate.bodyOf, places]
  | cons t ts =>
    rw [body?, if_pos (by simp), h.1, Aggregate.bodyOf]
    simp only [Option.bind_eq_bind, Option.bind_some]
    by_cases hbrace : t.kind = .opening .brace
    · rw [if_pos hbrace, if_pos hbrace, matching?_eq h (by simp [hbrace, TokenKind.isOpening])]
      simp [Nat.add_assoc]
    · simp [hbrace, places]

/-- The positions are those of the parts of the aggregate `a`, which begins at `i`. -/
structure PlacedAggregate.Stands (view : View) (i : Nat) (placed : PlacedAggregate) (a : Aggregate) : Prop where
  keyword : placed.keyword = i
  tag : placed.tag.map view = a.tag.map some
  body : placed.body =
    if a.body = [] then none else some (i + a.head.length, i + a.head.length + a.body.length - 1)

/-- A specifier at `i` says the same, by position or not. -/
inductive PlacedRole.Stands (view : View) (i : Nat) : PlacedRole → SpecifierRole → Prop
  | marker (visibility : Visibility) : Stands view i (.marker visibility) (.marker visibility)
  | typedef : Stands view i .typedef .typedef
  | static : Stands view i .static .static
  | inline : Stands view i .inline .inline
  | type : Stands view i .type .type
  | other : Stands view i .other .other
  | aggregate {placed : PlacedAggregate} {a : Aggregate} (stands : placed.Stands view i a) :
      Stands view i (.aggregate placed) (.aggregate a)

/-- A specifier that begins at `i`. -/
structure PlacedSpecifier.Stands (view : View) (i : Nat) (placed : PlacedSpecifier) (s : Specifier) : Prop where
  role : placed.role.Stands view i s.role
  positions : placed.positions = if s.isMarker then [] else places i (i + s.tokens.length)
  next : placed.next = i + s.tokens.length

theorem aggregate?_stands (h : view.Shows i (t :: ts)) :
    ∃ placed, aggregate? view (i + (t :: ts).length) i = some placed ∧
      placed.Stands view i ⟨.aggregate (.ofTokens t ts), (Aggregate.ofTokens t ts).head ++ (Aggregate.ofTokens t ts).body⟩ := by
  obtain ⟨ht, hts⟩ := h
  have hfirst := hts.drop (attributes ts).length
  have hsecond := hfirst.drop (Aggregate.tagged (ts.drop (attributes ts).length)).length
  have htag := tag?_eq hfirst
  have hhead : i + (Aggregate.ofTokens t ts).head.length =
      i + 1 + (attributes ts).length + (Aggregate.tagged (ts.drop (attributes ts).length)).length := by
    rw [Aggregate.ofTokens, add_length_cons, List.length_append, ← Nat.add_assoc]
  have hinside : Aggregate.bodyOf ((ts.drop (attributes ts).length).drop
      (Aggregate.tagged (ts.drop (attributes ts).length)).length) = (Aggregate.ofTokens t ts).body := by
    rw [List.drop_drop, ← List.length_append]
    rfl
  have hbody := body?_eq hsecond
  rw [← add_length_drop (prefix_attributes ts)] at htag
  rw [← add_length_drop (Aggregate.prefix_tagged _), ← add_length_drop (prefix_attributes ts), ← hhead, hinside] at hbody
  rw [← hhead] at htag
  rw [aggregate?, add_length_cons, attributes?_eq hts]
  simp only [Option.bind_eq_bind, Option.bind_some]
  rw [htag, Option.bind_some, hbody, Option.bind_some]
  refine ⟨_, rfl, .aggregate ⟨rfl, ?_, rfl⟩, ?_, ?_⟩
  · simp only [Aggregate.ofTokens]
    cases htagged : Aggregate.tagged (ts.drop (attributes ts).length) with
    | nil => rfl
    | cons u us =>
      have hprefix := Aggregate.prefix_tagged (ts.drop (attributes ts).length)
      obtain ⟨rest, hrest⟩ := htagged ▸ hprefix
      rw [← hrest] at hfirst
      simpa using hfirst.1
  · simp only [List.length_append, ← Nat.add_assoc]
    rw [places_append (by omega) (by omega), places_append (by omega) (by omega), places_cons (by omega)]
    rfl
  · simp only [List.length_append, ← Nat.add_assoc]

/-! ### One specifier -/

theorem isMarker_of_role {role : SpecifierRole} (h : ∀ visibility, role ≠ .marker visibility) (tokens : List Token) :
    (Specifier.mk role tokens).isMarker = false := by
  cases role with
  | marker visibility => exact absurd rfl (h visibility)
  | _ => rfl

theorem withArgument?_stands {role : PlacedRole} {role' : SpecifierRole} (h : view.Shows i (t :: ts)) (hrole : role.Stands view i role')
    (hmarker : ∀ visibility, role' ≠ .marker visibility) :
    ∃ placed, withArgument? view (i + (t :: ts).length) role i = some placed ∧
      placed.Stands view i (Specifier.withArgument role' t ts) := by
  rw [withArgument?, add_length_cons, groupEnd?_eq h.2]
  refine ⟨_, rfl, hrole, ?_, ?_⟩
  · rw [Specifier.withArgument, isMarker_of_role hmarker, add_length_cons]
    rfl
  · rw [Specifier.withArgument, add_length_cons]

theorem word_stands {role : PlacedRole} {role' : SpecifierRole} (hrole : role.Stands view i role')
    (hmarker : ∀ visibility, role' ≠ .marker visibility) : (word role i).Stands view i ⟨role', [t]⟩ := by
  refine ⟨hrole, ?_, rfl⟩
  rw [isMarker_of_role hmarker, word, List.length_singleton, places_succ]
  rfl

/-- The same specifier begins at `i`, or none. -/
def Agrees (view : View) (i : Nat) (found : Option (Option PlacedSpecifier)) (s : Option Specifier) : Prop :=
  match s with
  | some s => ∃ placed, found = some (some placed) ∧ placed.Stands view i s
  | none => found = some none

theorem Agrees.of_exists {found : Option PlacedSpecifier} {s : Specifier}
    (h : ∃ placed, found = some placed ∧ placed.Stands view i s) : Agrees view i (found.map some) (some s) := by
  obtain ⟨placed, rfl, hstands⟩ := h
  exact ⟨placed, rfl, hstands⟩

theorem identifier?_agrees (markers typed : Bool) (h : view.Shows i (t :: ts)) :
    Agrees view i (identifier? markers view (i + (t :: ts).length) typed i t) (Specifier.ofIdentifier? markers typed t ts) := by
  rw [identifier?, Specifier.ofIdentifier?]
  cases hmarker : Specifier.markerOf? markers t with
  | some visibility => exact ⟨_, rfl, .marker visibility, rfl, rfl⟩
  | none =>
    simp only
    split_ifs
    · exact .of_exists (withArgument?_stands h .other (by simp))
    · exact .of_exists (withArgument?_stands h .type (by simp))
    · rfl
    · exact ⟨_, rfl, word_stands .type (by simp)⟩

theorem simple?_agrees (k : Keyword) (t : Token) :
    Agrees view i (some (simple? k i))
      (if k.isTypeSpecifier then some ⟨.type, [t]⟩
       else if k.isTypeQualifier || k.isStorageClass || k.isFunctionSpecifier then some ⟨.other, [t]⟩ else none) := by
  rw [simple?]
  split_ifs
  · exact ⟨_, rfl, word_stands .type (by simp)⟩
  · exact ⟨_, rfl, word_stands .other (by simp)⟩
  · rfl

theorem opensGroup?_eq (h : view.Shows i ts) : opensGroup? view (i + ts.length) i = some (Specifier.hasArgument ts) := by
  cases ts with
  | nil => simp [opensGroup?, Specifier.hasArgument, parenthesized]
  | cons t ts =>
    rw [opensGroup?, if_pos (by simp), h.1, Specifier.hasArgument, parenthesized]
    by_cases hparen : t.kind = .opening .paren <;> simp [hparen]

theorem keyword?_agrees (k : Keyword) (h : view.Shows i (t :: ts)) :
    Agrees view i (keyword? view (i + (t :: ts).length) k i) (Specifier.ofKeyword? k t ts) := by
  have hgroup := opensGroup?_eq h.2
  rw [← add_length_cons i t] at hgroup
  have hnone : Specifier.hasArgument ts = false → parenthesized ts = [] := by simp [Specifier.hasArgument]
  unfold keyword? Specifier.ofKeyword?
  by_cases haggregate : k.isAggregate
  · rw [if_pos haggregate, if_pos haggregate]
    exact .of_exists (aggregate?_stands h)
  · rw [if_neg haggregate, if_neg haggregate, hgroup]
    simp only [Option.bind_eq_bind, Option.bind_some]
    cases k with
    | staticKw => exact ⟨_, rfl, word_stands .static (by simp)⟩
    | typedefKw => exact ⟨_, rfl, word_stands .typedef (by simp)⟩
    | inlineKw => exact ⟨_, rfl, word_stands .inline (by simp)⟩
    | alignasKw =>
      cases hargument : Specifier.hasArgument ts with
      | true => exact .of_exists (withArgument?_stands h .other (by simp))
      | false =>
        simp only [Specifier.withArgument, hnone hargument]
        exact simple?_agrees .alignasKw t
    | atomicKw =>
      cases hargument : Specifier.hasArgument ts with
      | true => exact .of_exists (withArgument?_stands h .type (by simp))
      | false =>
        simp only [Specifier.withArgument, hnone hargument]
        exact simple?_agrees .atomicKw t
    | _ => exact simple?_agrees _ t

theorem specifier?_agrees (markers typed : Bool) {behindExtern : Bool} (h : view.Shows i (t :: ts))
    (hbehind : behindExtern? view i = some behindExtern) :
    Agrees view i (specifier? markers view (i + (t :: ts).length) typed i) (Specifier.first? markers typed behindExtern t ts) := by
  rw [specifier?, Specifier.first?, h.1]
  simp only [Option.bind_eq_bind, Option.bind_some]
  cases t.kind with
  | identifier name => exact identifier?_agrees markers typed h
  | keyword k => exact keyword?_agrees k h
  | stringLiteral spelling =>
    simp only [hbehind, Option.bind_some]
    cases behindExtern with
    | true => exact ⟨_, rfl, word_stands .other (by simp)⟩
    | false => rfl
  | _ => rfl

end Tokens

/-! ### The word before a specifier -/

/-- The last of the tokens is not `extern`. -/
def EndsWithoutExtern (ts : List Token) : Prop :=
  ∀ t ∈ ts.getLast?, t.kind ≠ .keyword .externKw

section Extern

variable {t : Token} {ts us rest : List Token}

theorem endsWithoutExtern_nil : EndsWithoutExtern [] := by
  rintro _ ⟨⟩

theorem EndsWithoutExtern.cons (hus : EndsWithoutExtern us) (ht : us = [] → t.kind ≠ .keyword .externKw) :
    EndsWithoutExtern (t :: us) := by
  cases us with
  | nil =>
    rintro _ ⟨⟩
    exact ht rfl
  | cons u us => exact hus

theorem EndsWithoutExtern.append (hts : EndsWithoutExtern ts) (hus : EndsWithoutExtern us) : EndsWithoutExtern (ts ++ us) := by
  induction ts with
  | nil => exact hus
  | cons t ts ih =>
    refine (ih ?_).cons fun hempty => ?_
    · cases ts with
      | nil => exact endsWithoutExtern_nil
      | cons u ts => exact hts
    · obtain ⟨rfl, -⟩ := List.append_eq_nil_iff.1 hempty
      exact hts t rfl

/-- A group that something follows ends with a bracket. -/
theorem endsWithoutExtern_closing {depth : Nat} (h : closing depth ts ++ rest = ts) (hrest : rest ≠ []) :
    EndsWithoutExtern (closing depth ts) := by
  fun_induction closing depth ts with
  | case1 => exact endsWithoutExtern_nil
  | case2 => exact absurd h hrest
  | case3 depth t ts ih =>
    have hsplit := (List.cons.inj h).2
    refine (ih hsplit).cons fun hempty hlast => ?_
    rw [hempty] at hsplit
    rw [hlast] at hempty
    cases ts with
    | nil => exact hrest hsplit
    | cons u us => cases hempty

theorem endsWithoutExtern_parenthesized (h : parenthesized ts ++ rest = ts) (hrest : rest ≠ []) :
    EndsWithoutExtern (parenthesized ts) := by
  cases ts with
  | nil => exact endsWithoutExtern_nil
  | cons t ts =>
    rw [parenthesized] at h ⊢
    split_ifs at h ⊢ with hparen
    · exact (endsWithoutExtern_closing (List.cons.inj h).2 hrest).cons fun _ => by simp [hparen]
    · exact endsWithoutExtern_nil

theorem ne_extern_of_identifier (h : t.kind.identifier?.isSome = true) : t.kind ≠ .keyword .externKw := by
  rintro hkeyword
  rw [hkeyword] at h
  cases h

theorem ne_extern_of_isAttribute (h : t.isAttribute = true) : t.kind ≠ .keyword .externKw :=
  ne_extern_of_identifier (Option.isSome_of_any h)

theorem ne_extern_of_isName (h : t.isName = true) : t.kind ≠ .keyword .externKw :=
  ne_extern_of_identifier (Option.isSome_of_any h)

theorem endsWithoutExtern_attributes (h : attributes ts ++ rest = ts) (hrest : rest ≠ []) :
    EndsWithoutExtern (attributes ts) := by
  fun_induction attributes ts with
  | case1 => exact endsWithoutExtern_nil
  | case2 t ts hattribute argument =>
    rename_i ih
    have hsplit : argument ++ (attributes (ts.drop argument.length) ++ rest) = ts := by simpa using h
    have hdrop : attributes (ts.drop argument.length) ++ rest = ts.drop argument.length := by
      simpa using congrArg (List.drop argument.length) hsplit
    have hargument := endsWithoutExtern_parenthesized hsplit (by simp [hrest])
    exact (hargument.append (ih hdrop)).cons fun _ => ne_extern_of_isAttribute hattribute
  | case3 => exact endsWithoutExtern_nil

theorem endsWithoutExtern_tagged (h : Aggregate.tagged ts ++ rest = ts) (hrest : rest ≠ []) :
    EndsWithoutExtern (Aggregate.tagged ts) := by
  cases ts with
  | nil => exact endsWithoutExtern_nil
  | cons t ts =>
    rw [Aggregate.tagged] at h ⊢
    split_ifs at h ⊢ with hname
    · exact (endsWithoutExtern_attributes (List.cons.inj h).2 hrest).cons fun _ => ne_extern_of_isName hname
    · exact endsWithoutExtern_nil

theorem endsWithoutExtern_bodyOf (h : Aggregate.bodyOf ts ++ rest = ts) (hrest : rest ≠ []) :
    EndsWithoutExtern (Aggregate.bodyOf ts) := by
  cases ts with
  | nil => exact endsWithoutExtern_nil
  | cons t ts =>
    rw [Aggregate.bodyOf] at h ⊢
    split_ifs at h ⊢ with hbrace
    · exact (endsWithoutExtern_closing (List.cons.inj h).2 hrest).cons fun _ => by simp [hbrace]
    · exact endsWithoutExtern_nil

end Extern

section Last

variable {markers typed behindExtern : Bool} {t : Token} {ts rest : List Token} {s : Specifier}

theorem endsWithoutExtern_of_first? (h : Specifier.first? markers typed behindExtern t ts = some s)
    (ht : t.kind ≠ .keyword .externKw) (hsplit : s.tokens ++ rest = t :: ts) (hrest : rest ≠ []) :
    EndsWithoutExtern s.tokens := by
  cases Specifier.form_of_first? h with
  | word => exact endsWithoutExtern_nil.cons fun _ => ht
  | argument => exact (endsWithoutExtern_parenthesized (List.cons.inj hsplit).2 hrest).cons fun _ => ht
  | aggregate =>
    obtain ⟨first, second, ⟨hfirst, hne⟩, ⟨hsecond, hne'⟩, hthird, hhead, hbody⟩ := Aggregate.exists_parts_behind hsplit hrest
    have hinner := (endsWithoutExtern_attributes hfirst hne).append (endsWithoutExtern_tagged hsecond hne')
    show EndsWithoutExtern (_ ++ _)
    rw [hhead, hbody]
    exact (hinner.cons fun _ => ht).append (endsWithoutExtern_bodyOf hthird hrest)

/-- The last token of a specifier that something follows is `extern` only if that is all of it. -/
theorem getLast?_of_first? (h : Specifier.first? markers typed behindExtern t ts = some s) (hsplit : s.tokens ++ rest = t :: ts)
    (hrest : rest ≠ []) :
    ∃ last, s.tokens.getLast? = some last ∧ (last.kind = .keyword .externKw ↔ t.kind = .keyword .externKw) := by
  by_cases ht : t.kind = .keyword .externKw
  · rw [Specifier.first?, ht] at h
    cases h
    exact ⟨t, rfl, Iff.rfl⟩
  · obtain ⟨inner, hinner⟩ := List.head?_eq_some_iff.1 (Specifier.prefix_of_first? h).2
    obtain ⟨last, hlast⟩ := Option.ne_none_iff_exists'.1 (mt List.getLast?_eq_none_iff.1 (show s.tokens ≠ [] by simp [hinner]))
    exact ⟨last, hlast, iff_of_false (endsWithoutExtern_of_first? h ht hsplit hrest last hlast) ht⟩

end Last

/-! ### All specifiers -/

/-- The positions of what is kept of some specifiers, the first of which begins at `i`. -/
def keptPlaces (i : Nat) : Specifiers → List Nat
  | [] => []
  | s :: specs =>
    (if s.isMarker then [] else places i (i + s.tokens.length)) ++ keptPlaces (i + s.tokens.length) specs

theorem keptPlaces_append (i : Nat) (specs more : Specifiers) :
    keptPlaces i (specs ++ more) = keptPlaces i specs ++ keptPlaces (i + (Specifiers.tokens specs).length) more := by
  induction specs generalizing i with
  | nil => rfl
  | cons s specs ih =>
    have hlength : i + s.tokens.length + (Specifiers.tokens specs).length = i + (Specifiers.tokens (s :: specs)).length := by
      simp only [Specifiers.tokens, List.flatMap_cons, List.length_append, Nat.add_assoc]
    rw [List.cons_append, keptPlaces, keptPlaces, ih, List.append_assoc, hlength]

/-- The last aggregate of some specifiers, the first of which begins at 0, by position or not. -/
inductive LastAggregate (view : View) : Option PlacedAggregate → Specifiers → Prop
  | absent {specs : Specifiers} (absent : ∀ s ∈ specs, s.aggregate? = none) : LastAggregate view none specs
  | present {placed : PlacedAggregate} {a : Aggregate} {s : Specifier} {before behind : Specifiers}
      (stands : placed.Stands view (Specifiers.tokens before).length a) (aggregate : s.aggregate? = some a)
      (last : ∀ s ∈ behind, s.aggregate? = none) : LastAggregate view (some placed) (before ++ s :: behind)

variable {view : View} {i : Nat} {ts : List Token}

theorem LastAggregate.concat {placed : Option PlacedAggregate} {specs : Specifiers} {s : Specifier}
    (h : LastAggregate view placed specs) (hs : s.aggregate? = none) : LastAggregate view placed (specs ++ [s]) := by
  have hmore : ∀ {specs : Specifiers}, (∀ s ∈ specs, s.aggregate? = none) → ∀ s' ∈ specs ++ [s], s'.aggregate? = none := by
    intro specs hspecs s' hs'
    rcases List.mem_append.1 hs' with hs' | hs'
    · exact hspecs s' hs'
    · rwa [List.mem_singleton.1 hs']
  cases h with
  | absent hnone => exact .absent (hmore hnone)
  | present stands aggregate last =>
    rw [List.append_assoc, List.cons_append]
    exact .present stands aggregate (hmore last)

namespace PlacedSpecifiers

/-- What is found by position is what the specifiers say. -/
structure Describes (view : View) (placed : PlacedSpecifiers) (specs : Specifiers) : Prop where
  positions : placed.positions = keptPlaces 0 specs
  stop : placed.stop = specs.tokens.length
  isStatic : placed.isStatic = specs.isStatic
  isTypedef : placed.isTypedef = specs.isTypedef
  isInline : placed.isInline = specs.isInline
  marker : placed.marker = specs.marker?
  aggregate : LastAggregate view placed.aggregate specs

/-- What some specifiers and one behind them say of the marking. -/
theorem marker?_concat (specs : Specifiers) (s : Specifier) :
    Specifiers.marker? (specs ++ [s]) =
      match s.role with
      | .marker .internal => some .internal
      | .marker .interface => specs.marker? <|> some .interface
      | _ => specs.marker? := by
  unfold Specifiers.marker?
  simp only [List.any_append, List.any_cons, List.any_nil, Bool.or_false]
  cases hinternal : List.any specs (·.role = .marker .internal) <;>
    cases hinterface : List.any specs (·.role = .marker .interface) <;>
    rcases s.role with (_ | _) | _ | _ | _ | _ | _ | _ <;> simp

theorem isStatic_concat (specs : Specifiers) (s : Specifier) :
    Specifiers.isStatic (specs ++ [s]) = (specs.isStatic || s.role = .static) := by
  simp only [Specifiers.isStatic, List.any_append, List.any_cons, List.any_nil, Bool.or_false]

theorem isTypedef_concat (specs : Specifiers) (s : Specifier) :
    Specifiers.isTypedef (specs ++ [s]) = (specs.isTypedef || s.role = .typedef) := by
  simp only [Specifiers.isTypedef, List.any_append, List.any_cons, List.any_nil, Bool.or_false]

theorem isInline_concat (specs : Specifiers) (s : Specifier) :
    Specifiers.isInline (specs ++ [s]) = (specs.isInline || s.role = .inline) := by
  simp only [Specifiers.isInline, List.any_append, List.any_cons, List.any_nil, Bool.or_false]

/-- The flags behind one more specifier. -/
theorem flags_apply {placed : PlacedSpecifiers} {specs : Specifiers} {role : PlacedRole} {s : Specifier}
    (h : placed.Describes view specs) (hrole : role.Stands view i s.role) :
    (placed.apply role).isStatic = Specifiers.isStatic (specs ++ [s]) ∧
      (placed.apply role).isTypedef = Specifiers.isTypedef (specs ++ [s]) ∧
      (placed.apply role).isInline = Specifiers.isInline (specs ++ [s]) ∧
      (placed.apply role).marker = Specifiers.marker? (specs ++ [s]) := by
  rw [isStatic_concat, isTypedef_concat, isInline_concat, marker?_concat]
  obtain ⟨role', tokens⟩ := s
  cases hrole with
  | marker visibility => cases visibility <;> simp [apply, h.isStatic, h.isTypedef, h.isInline, h.marker]
  | _ => simp [apply, h.isStatic, h.isTypedef, h.isInline, h.marker]

theorem lastAggregate_apply {placed : PlacedSpecifiers} {specs : Specifiers} {role : PlacedRole} {s : Specifier}
    (h : LastAggregate view placed.aggregate specs) (hrole : role.Stands view (Specifiers.tokens specs).length s.role) :
    LastAggregate view (placed.apply role).aggregate (specs ++ [s]) := by
  obtain ⟨role', tokens⟩ := s
  cases hrole with
  | aggregate stands =>
    have hbehind : ∀ s ∈ ([] : Specifiers), s.aggregate? = none := by simp
    exact .present stands rfl hbehind
  | marker visibility => cases visibility <;> exact h.concat rfl
  | _ => exact h.concat rfl

/-- Behind one more specifier. -/
theorem Describes.concat {placed : PlacedSpecifiers} {specs : Specifiers} {p : PlacedSpecifier} {s : Specifier}
    (h : placed.Describes view specs) (hs : p.Stands view specs.tokens.length s) :
    (placed.take p).Describes view (specs ++ [s]) := by
  obtain ⟨hstatic, htypedef, hinline, hmarker⟩ := flags_apply h hs.role
  refine ⟨?_, ?_, hstatic, htypedef, hinline, hmarker, lastAggregate_apply h.aggregate hs.role⟩
  · simp only [take, keptPlaces_append, keptPlaces, h.positions, hs.positions, Nat.zero_add, List.append_nil]
  · simp only [take, hs.next, Specifiers.tokens, List.flatMap_append, List.flatMap_singleton, List.length_append]

theorem settlesType_eq {role : PlacedRole} {s : Specifier} (h : role.Stands view i s.role) : settlesType role = s.isType := by
  obtain ⟨role', tokens⟩ := s
  cases h <;> rfl

/-- What stands before the place behind some tokens. -/
theorem behindExtern?_of_getLast? {t : Token} (h : view.Shows i ts) (ht : ts.getLast? = some t) :
    behindExtern? view (i + ts.length) = some (decide (t.kind = .keyword .externKw)) := by
  obtain ⟨before, rfl⟩ := List.getLast?_eq_some_iff.1 ht
  have hlast := (View.shows_append.1 h).2.1
  rw [List.length_append, List.length_singleton, behindExtern?, if_pos (by omega), sub?_of_le (by omega),
    show i + (before.length + 1) - 1 = i + before.length by omega]
  simp [hlast]

/-- What is taken by position is what is taken off the tokens. -/
theorem from?_describes (markers typed behindExtern : Bool) {placed : PlacedSpecifiers} {specs : Specifiers}
    (h : view.Shows specs.tokens.length ts) (hplaced : placed.Describes view specs)
    (hbefore : ts ≠ [] → behindExtern? view specs.tokens.length = some behindExtern) :
    ∃ last, from? markers view (specs.tokens.length + ts.length) typed placed specs.tokens.length = some last ∧
      last.Describes view (specs ++ Specifiers.take markers typed behindExtern ts) := by
  fun_induction Specifiers.take markers typed behindExtern ts generalizing placed specs with
  | case1 =>
    rw [from?, dif_neg (by simp)]
    exact ⟨_, rfl, by rw [List.append_nil]; exact { hplaced with stop := rfl }⟩
  | case2 typed behindExtern t ts s hs ih =>
    have hagrees := specifier?_agrees markers typed h (hbefore (by simp))
    rw [hs] at hagrees
    obtain ⟨p, hp, hstands⟩ := hagrees
    have hlength : (Specifiers.tokens (specs ++ [s])).length = specs.tokens.length + s.tokens.length := by
      simp only [Specifiers.tokens, List.flatMap_append, List.flatMap_singleton, List.length_append]
    obtain ⟨hfront, hhead⟩ := Specifier.prefix_of_first? hs
    obtain ⟨inner, hinner⟩ := List.head?_eq_some_iff.1 hhead
    have hdrop : ts.drop (s.tokens.length - 1) = (t :: ts).drop s.tokens.length := by
      rw [hinner]
      rfl
    have hsplit := List.prefix_iff_eq_append.1 hfront
    have hbehind : (t :: ts).drop s.tokens.length ≠ [] →
        behindExtern? view (Specifiers.tokens (specs ++ [s])).length = some (decide (t.kind = .keyword .externKw)) := by
      intro hrest
      obtain ⟨last, hlast, hiff⟩ := getLast?_of_first? hs hsplit hrest
      rw [← hsplit, View.shows_append] at h
      rw [hlength, behindExtern?_of_getLast? h.1 hlast]
      simp only [hiff]
    rw [hdrop] at ih ⊢
    have hshows := h.drop s.tokens.length
    rw [← hlength] at hshows
    obtain ⟨last, hlast, hdescribes⟩ := ih hshows (hplaced.concat hstands) hbehind
    refine ⟨last, ?_, by rwa [List.append_assoc] at hdescribes⟩
    rw [hlength, ← add_length_drop hfront] at hlast
    rw [from?, dif_pos (by simp), hp]
    simp only [Option.bind_eq_bind, Option.bind_some]
    rw [dif_pos (by rw [hstands.next, hinner]; simp), hstands.next, settlesType_eq hstands.role]
    exact hlast
  | case3 typed behindExtern t ts hs =>
    have hagrees := specifier?_agrees markers typed h (hbefore (by simp))
    rw [hs] at hagrees
    rw [from?, dif_pos (by simp), hagrees]
    exact ⟨_, rfl, by rw [List.append_nil]; exact { hplaced with stop := rfl }⟩

/-- The specifiers at the front of some positions are those of the tokens that stand there. -/
theorem ofView?_describes (markers : Bool) (h : view.Shows 0 ts) :
    ∃ placed, ofView? markers view ts.length = some placed ∧ placed.Describes view (.ofTokens markers ts) := by
  have hempty : ({} : PlacedSpecifiers).Describes view [] := ⟨rfl, rfl, rfl, rfl, rfl, rfl, .absent (by simp)⟩
  have hread := from?_describes markers false false h hempty (fun _ => rfl)
  simp only [Specifiers.tokens, List.flatMap_nil, List.length_nil, Nat.zero_add, List.nil_append] at hread
  exact hread

end PlacedSpecifiers

end CHeader.Checked
