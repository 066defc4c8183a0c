import CHeader.Proofs.Checked.Declaring
import CHeader.Proofs.Restored

/-!
# Declarations by position are those of the construct

Where the tokens are read from the source, every position and every slice that `PlacedConstruct.entries?` asks for is
there, and what it finds are the entries of the construct (`entries?_eq`).
-/

namespace CHeader.Checked

/-- The frame of the construct `c`, whose first token is `first`. -/
structure Frame.Stands (site : Site) (tokens body : List Token) (f : Frame) (c : Construct) (first : Token) : Prop where
  read : ReadFrom site.source tokens body
  construct : f.construct.Stands tokens c
  specs : f.specs.Describes (f.view tokens) (c.specifiers site)
  begins : token? tokens f.first = some first
  start : token? tokens f.start = some (Construct.start (c.specifiers site) first)
  last : token? tokens f.last = some c.last
  le : f.start ≤ f.last
  within : f.last + 1 < tokens.length

/-- A text is found, or the position of a token. -/
def Tells {α : Type} (tokens : List Token) (found : Option (Except Nat α)) : Except Token α → Prop
  | .ok text => found = some (.ok text)
  | .error t => ∃ i, found = some (.error i) ∧ token? tokens i = some t

section Frame

variable {site : Site} {tokens body : List Token} {f : Frame} {c : Construct} {first : Token}

theorem issueAt?_eq {i : Nat} {t : Token} (h : token? tokens i = some t) (issue : Issue) :
    issueAt? tokens issue i = some (.issue (.ofIssue issue t)) := by
  simp [issueAt?, h]

namespace Frame.Stands

variable (h : f.Stands site tokens body c first)

include h

theorem declare?_eq (names : List String) (kind : DeclKind) (text : DeclText) (visibility : Visibility) :
    f.declare? site tokens names kind text visibility =
      some (.declare names (c.draft site (Construct.start (c.specifiers site) first) kind text visibility)) := by
  simp [Frame.declare?, h.start, h.last, Construct.draft]

theorem sourceText?_eq :
    sourceText? site.source tokens f.start f.last = some (site.between (Construct.start (c.specifiers site) first) c.last) :=
  h.read.sourceText?_eq rfl h.start h.last h.le h.within

theorem typeVisibility_eq (block : Option InterfaceBlock) :
    f.specs.typeVisibility block = (c.specifiers site).typeVisibility block := by
  rw [PlacedSpecifiers.typeVisibility, Specifiers.typeVisibility, h.specs.marker]

theorem visibility_eq (block : Option InterfaceBlock) : f.specs.visibility block = (c.specifiers site).visibility block := by
  rw [PlacedSpecifiers.visibility, Specifiers.visibility, h.specs.marker, h.specs.isStatic, h.typeVisibility_eq]

theorem copy?_eq (names : List String) :
    f.copy? site tokens names =
      some [.declare names (c.draft site (Construct.start (c.specifiers site) first) .type
        (.verbatim (site.between (Construct.start (c.specifiers site) first) c.last)) ((c.specifiers site).typeVisibility site.block))] := by
  simp only [Frame.copy?, h.sourceText?_eq, h.declare?_eq, h.typeVisibility_eq, Option.bind_eq_bind, Option.bind_some]

theorem named : Named (f.view tokens) := by
  intro p t name hp hname
  obtain ⟨k, -, hk, hwithin⟩ := h.construct.exists_of_view hp
  exact h.read.text_of_identifier hk hwithin hname

theorem isSome_body : f.construct.body.isSome = c.hasBody := by
  have hbody := congrArg Option.isSome h.construct.body
  rw [Option.isSome_map, Option.isSome_map] at hbody
  rw [hbody]
  unfold braces? Construct.hasBody
  cases c.ending <;> rfl

/-! ### Types -/

theorem declaredNames?_eq {ended : Prop} {floor : Nat} {stretches : List Stretch} {pieces : List Nesting.Piece}
    (hpieces : List.Forall₂ (Stretch.Holds (f.view tokens) ended floor) stretches pieces) :
    declaredNames? (f.view tokens) stretches =
      some ((pieces.filterMap fun piece => (Declarator.ofTokens piece.tokens).name).map (·.text)) := by
  induction hpieces with
  | nil => rfl
  | @cons stretch piece stretches pieces hholds _ ih =>
    obtain ⟨start, stop⟩ := stretch
    have hstop : stop = start + piece.tokens.length := hholds.stop
    subst hstop
    obtain ⟨placed, hplaced, hfinds⟩ := PlacedDeclarator.ofStretch?_eq (i := start) hholds.shows hholds.fits
    have hname := hfinds.name
    simp only [declaredNames?, hplaced, ih, Option.bind_eq_bind, Option.bind_some]
    cases hfound : (Declarator.ofTokens piece.tokens).name with
    | none =>
      rw [hfound] at hname
      obtain hnone : placed.name = none := by simpa using hname
      simp [nameOf?, hnone, hfound]
    | some t =>
      rw [hfound] at hname
      obtain ⟨p, hp, hview⟩ := Option.map_eq_some_iff.1 hname
      rw [hp, nameOf?, nameAt?_eq h.named hview (isName_of_ofTokens hfound)]
      simp [hfound]

theorem typedef?_eq {ended : Prop} {floor : Nat} {stretches : List Stretch}
    (hpieces : List.Forall₂ (Stretch.Holds (f.view tokens) ended floor) stretches (c.pieces (c.specifiers site))) :
    f.typedef? site tokens stretches =
      some (c.typedefEntries site (c.specifiers site) (Construct.start (c.specifiers site) first)) := by
  rw [Frame.typedef?, h.declaredNames?_eq hpieces, Construct.typedefEntries]
  simp only [Option.bind_eq_bind, Option.bind_some]
  cases (c.pieces (c.specifiers site)).filterMap fun piece => (Declarator.ofTokens piece.tokens).name with
  | nil => simp [issueAt?_eq h.start]
  | cons t ts =>
    simp only [List.map_cons]
    exact h.copy?_eq _

theorem bare?_eq : f.bare? site tokens =
    some (c.bareEntries site (c.specifiers site) (Construct.start (c.specifiers site) first) first) := by
  rw [Frame.bare?, Construct.bareEntries]
  obtain ⟨hnone, hnone'⟩ | ⟨p, a, i, hsome, hsome', hstands⟩ := h.specs.aggregate.getLast?
  · rw [hnone, hnone']
    simp [issueAt?_eq h.begins]
  · rw [hsome, hsome']
    simp only
    have htag := hstands.tag
    cases ha : a.tag with
    | none =>
      rw [ha] at htag
      obtain hp : p.tag = none := by simpa using htag
      rw [hp, nameOf?]
      exact h.copy?_eq _
    | some tag =>
      rw [ha] at htag
      obtain ⟨k, hk, hview⟩ := Option.map_eq_some_iff.1 htag
      have hname : tag.isName = true := by
        obtain ⟨s, hs, hagg⟩ := List.mem_filterMap.1 (List.mem_of_getLast? hsome')
        obtain ⟨-, -, keyword, us, rfl⟩ := exists_ofTokens hs hagg
        exact isName_of_tag ha
      rw [hk, nameOf?, nameAt?_eq h.named hview hname]
      exact h.copy?_eq _

/-! ### What the declarators share -/

theorem specifiers_shows : (f.view tokens).Shows 0 (c.specifiers site).tokens := by
  have hshows := h.construct.shows
  rw [List.append_assoc, View.shows_append, ← Specifiers.tokens_append_behind site.markers c.head, View.shows_append] at hshows
  exact hshows.1.1

theorem lists_shared : (f.view tokens).Lists f.specs.shared (Construct.shared (c.specifiers site)) :=
  (Checked.lists_shared h.specs h.specifiers_shows).1

theorem definition? : f.specs.definition? = none ∧ Construct.tagged? (c.specifiers site) = none ∨
    ∃ d a tag, f.specs.definition? = some d ∧ Construct.tagged? (c.specifiers site) = some (a, tag) ∧
      d.Stands (f.view tokens) a tag :=
  (Checked.lists_shared h.specs h.specifiers_shows).2

theorem lt_of_mem_shared {p : Nat} (hp : p ∈ f.specs.shared) : p < f.specs.stop := by
  have hmem : p ∈ f.specs.positions := by
    unfold PlacedSpecifiers.shared at hp
    split at hp
    · exact (List.mem_filter.1 hp).1
    · exact hp
  rw [h.specs.positions] at hmem
  rw [h.specs.stop]
  have := (mem_keptPlaces hmem).2
  omega

theorem le_of_getElem? {p q k l : Nat} (hp : f.construct.indices[p]? = some k) (hq : f.construct.indices[q]? = some l) (hle : p ≤ q) :
    k ≤ l := by
  rcases Nat.lt_or_eq_of_le hle with hlt | rfl
  · exact Nat.le_of_lt (lt_of_getElem? h.construct.increasing hp hq hlt)
  · rw [hp] at hq
    exact Nat.le_of_eq (Option.some.inj hq)

theorem apart?_eq :
    ∃ omitted, f.apart? site tokens =
        some (c.taggedEntries site (c.specifiers site) (Construct.start (c.specifiers site) first), omitted) ∧
      Encloses tokens omitted (Construct.omitted (c.specifiers site)) := by
  rw [Frame.apart?, Construct.taggedEntries, Construct.omitted]
  obtain ⟨hnone, hnone'⟩ | ⟨d, a, tag, hsome, hsome', hstands⟩ := h.definition?
  · rw [hnone, hnone']
    exact ⟨none, rfl, .none⟩
  · obtain ⟨keyword, hhead, hkeyword⟩ := hstands.keyword
    obtain ⟨opening, hfront, hopening⟩ := hstands.opening
    obtain ⟨close, hlast, hclose⟩ := hstands.close
    obtain ⟨k, hk, hkToken, -⟩ := h.construct.exists_of_view hkeyword
    obtain ⟨o, ho, hoToken, -⟩ := h.construct.exists_of_view hopening
    obtain ⟨l, hl, hlToken, hlt⟩ := h.construct.exists_of_view hclose
    have hko := h.le_of_getElem? hk ho hstands.order.1
    have hol := h.le_of_getElem? ho hl hstands.order.2
    have htext : sourceText? site.source tokens k l = some (site.between keyword close) :=
      h.read.sourceText?_eq rfl hkToken hlToken (hko.trans hol) hlt
    rw [hsome, hsome']
    refine ⟨some (o, l), ?_, .some hfront hlast hoToken hlToken hol hlt⟩
    simp only [hk, hl, ho, htext, nameAt?_eq h.named hstands.named hstands.isName, h.declare?_eq, h.typeVisibility_eq, hhead, hlast,
      Option.bind_eq_bind, Option.bind_some, Option.getD_some, Option.toList_some]

/-! ### Texts -/

/-- Tokens in order are all different. -/
theorem nodup {ks : List Nat} {ts : List Token} (hpicks : Picks tokens ks ts) : ts.Nodup := by
  have hplaces : (ks.map (token? tokens)).Pairwise (· ≠ ·) := by
    refine List.pairwise_map.2 (hpicks.increasing.imp_of_mem fun {i j} hi hj hlt hsame => ?_)
    have hmem := List.mem_map_of_mem (f := token? tokens) hi
    rw [hpicks.shows] at hmem
    obtain ⟨t, -, ht⟩ := List.mem_map.1 hmem
    have horder := h.read.lt_iff ht.symm (hsame.symm.trans ht.symm) (hpicks.within i hi) (hpicks.within j hj)
    exact Nat.lt_irrefl _ (horder.2 hlt)
  rw [hpicks.shows] at hplaces
  exact (List.pairwise_map.1 hplaces).imp fun hne heq => hne (congrArg some heq)

theorem spelled?_tells {omitted : Option (Nat × Nat)} {us ts : List Token} {ps : List Nat} (homitted : Encloses tokens omitted us)
    (hps : (f.view tokens).Lists ps ts) :
    Tells tokens (f.spelled? site tokens omitted ps)
      (match c.lostConditional? us ts with | some directive => .error directive | none => .ok (spell ts)) := by
  obtain ⟨ks, hks, hpicks, -⟩ := h.construct.select hps
  have hlost := h.read.lostConditional_map hpicks h.construct.conditionals
    (fun k hk => h.construct.within k (List.mem_append_right _ hk)) homitted
  rw [Frame.spelled?, hks]
  simp only [Option.bind_eq_bind, Option.bind_some]
  cases hc : c.lostConditional? us ts with
  | some directive =>
    rw [hc] at hlost
    obtain ⟨i, hi, htoken⟩ := Option.map_eq_some_iff.1 hlost
    exact ⟨i, by rw [hi], htoken⟩
  | none =>
    rw [hc] at hlost
    have hnone : lostConditional f.construct.conditionals omitted ks = none := by simpa using hlost
    simp [Tells, hnone, h.read.join?_eq hpicks]

end Frame.Stands

/-- What is made of a text that is found. -/
theorem Tells.map {α β : Type} {found : Option (Except Nat α)} {e : Except Token α} (h : Tells tokens found e) (g : α → β) :
    Tells tokens (found.bind fun text => some (text.map g)) (e.map g) := by
  cases e with
  | ok text =>
    obtain rfl : found = some (.ok text) := h
    rfl
  | error t =>
    obtain ⟨i, rfl, hi⟩ := h
    exact ⟨i, rfl, hi⟩

/-- Tokens that stand at some positions, before and behind one of them. -/
theorem View.Shows.exists_split {view : View} {ts : List Token} {t : Token} {i k : Nat} (h : view.Shows i ts) (hle : i ≤ k)
    (hlt : k < i + ts.length) (ht : view k = some t) :
    ∃ front rest, ts = front ++ t :: rest ∧ k + 1 = i + (front ++ [t]).length := by
  obtain ⟨m, rfl⟩ := Nat.exists_eq_add_of_le hle
  have hm : m < ts.length := by omega
  rw [h.getElem? hm] at ht
  obtain ⟨-, rfl⟩ := List.getElem?_eq_some_iff.1 ht
  refine ⟨ts.take m, ts.drop (m + 1), ?_, ?_⟩
  · rw [List.getElem_cons_drop, List.take_append_drop]
  · rw [List.length_append, List.length_take_of_le hm.le, List.length_singleton]
    omega

/-- What is made of a text, where no directive is lost in it. -/
theorem map_spelled (g : String → DeclText) (lost : Option Token) (ts : List Token) :
    Except.map g (match lost with | some directive => .error directive | none => .ok (spell ts)) =
      match lost with | some directive => .error directive | none => .ok (g (spell ts)) := by
  cases lost <;> rfl

/-- Positions before a declarator and those of a front of it list what they show. -/
theorem lists_behind {view : View} {ps : List Nat} {us ts : List Token} {j stop : Nat} (hps : view.Lists ps us)
    (hlt : ∀ p ∈ ps, p < stop) (hj : stop ≤ j) (hshows : view.Shows j ts) :
    view.Lists (ps ++ places j (j + ts.length)) (us ++ ts) := by
  refine hps.append (lists_places hshows) fun p hp q hq => ?_
  have := hlt p hp
  have := (mem_places.1 hq).1
  omega

namespace Frame.Stands

variable (h : f.Stands site tokens body c first)

include h

/-! ### Functions and variables -/

theorem functionText?_tells {omitted : Option (Nat × Nat)} {j : Nat} {piece : Nesting.Piece} {declarator : PlacedDeclarator}
    (homitted : Encloses tokens omitted (Construct.omitted (c.specifiers site))) (hj : f.specs.stop ≤ j)
    (hshows : (f.view tokens).Shows j piece.declaring)
    (hfinds : declarator.Finds (f.view tokens) j (j + piece.declaring.length) piece.declarator)
    (hfunction : piece.declarator.isFunction = true) :
    Tells tokens (f.functionText? site tokens omitted ⟨j, j + piece.declaring.length⟩ declarator)
      (c.functionText site (c.specifiers site) (Construct.start (c.specifiers site) first) piece) := by
  rw [Frame.functionText?, Construct.functionText, h.isSome_body, h.specs.isInline, h.specs.isStatic]
  by_cases hinline : (c.hasBody && (c.specifiers site).isInline && !(c.specifiers site).isStatic) = true
  · rw [if_pos hinline, if_pos hinline, h.sourceText?_eq]
    rfl
  rw [if_neg hinline, if_neg hinline]
  obtain ⟨opening, hopening⟩ := Option.isSome_iff_exists.1 (Bool.and_eq_true_iff.1 hfunction).2
  have hparameters := hfinds.parameters
  rw [hopening] at hparameters
  obtain ⟨⟨place, close⟩, hplace, hview⟩ := Option.map_eq_some_iff.1 hparameters
  have hshared := h.lists_shared
  have hbelow : ∀ p ∈ f.specs.shared, p < f.specs.stop := fun p hp => h.lt_of_mem_shared hp
  rw [hplace, h.construct.parameters]
  by_cases hold : c.parameters = []
  · have htells := (h.spelled?_tells homitted (lists_behind hshared hbelow hj hshows)).map fun text => DeclText.synthesized (text ++ ";")
    have hprototype : c.prototypeTokens piece = piece.declaring := by simp [Construct.prototypeTokens, hopening, hold]
    simp only [hold, List.isEmpty_nil, hprototype, if_true]
    rw [map_spelled] at htells
    exact htells
  · obtain ⟨hle, hlt⟩ := hfinds.within (place, close) hplace
    obtain ⟨front, rest, hsplit, hend⟩ := hshows.exists_split hle hlt hview
    obtain ⟨_, -, hpicks, -⟩ := h.construct.select (lists_places hshows)
    have hprototype := Construct.prototypeTokens_front (nodup h hpicks) hopening hsplit hold
    have hfront : (f.view tokens).Shows j (front ++ [opening]) := by
      rw [hsplit, List.append_cons, View.shows_append] at hshows
      exact hshows.1
    have htells := (h.spelled?_tells homitted (lists_behind hshared hbelow hj hfront)).map fun text => DeclText.synthesized (text ++ ");")
    simp only [hold, List.isEmpty_iff, hprototype, if_false]
    rw [map_spelled] at htells
    rw [hend]
    exact htells

/-- A variable is spelled without its initializer. -/
theorem variableText?_tells {omitted : Option (Nat × Nat)} {j : Nat} {piece : Nesting.Piece}
    (homitted : Encloses tokens omitted (Construct.omitted (c.specifiers site))) (hj : f.specs.stop ≤ j)
    (hshows : (f.view tokens).Shows j piece.declaring) :
    Tells tokens (f.variableText? site tokens omitted ⟨j, j + piece.declaring.length⟩)
      (c.variableText (c.specifiers site) piece) := by
  obtain ⟨kept, hkept, hsub, hlists⟩ := withoutStorage?_lists h.lists_shared
  have hbelow : ∀ p ∈ kept, p < f.specs.stop := fun p hp => h.lt_of_mem_shared (hsub.subset hp)
  have htells := (h.spelled?_tells homitted (lists_behind hlists hbelow hj hshows)).map fun text =>
    DeclText.synthesized ("extern " ++ text ++ ";")
  rw [map_spelled] at htells
  rw [Frame.variableText?, hkept, Construct.variableText]
  exact htells

theorem entry?_eq {found : Option (Except Nat DeclText)} {e : Except Token DeclText} (name : String) (kind : DeclKind) :
    Tells tokens found e → (found.bind fun text => f.entry? site tokens (some name) kind text) = some (match e with
      | .ok text => .declare [name] (c.draft site (Construct.start (c.specifiers site) first) kind text
          ((c.specifiers site).visibility site.block))
      | .error directive => .issue (.ofIssue (.splitByConditional name) directive)) := by
  intro htells
  cases e with
  | ok text =>
    obtain rfl : found = some (.ok text) := htells
    simp only [Option.bind_some, Frame.entry?, Option.toList_some, h.declare?_eq, h.visibility_eq]
  | error directive =>
    obtain ⟨i, rfl, hi⟩ := htells
    simp only [Option.bind_some, Frame.entry?, Option.getD_some, issueAt?_eq hi]

theorem declarator?_eq {omitted : Option (Nat × Nat)} {ended : Prop} {stretch : Stretch} {piece : Nesting.Piece}
    (homitted : Encloses tokens omitted (Construct.omitted (c.specifiers site)))
    (hholds : stretch.Holds (f.view tokens) ended f.specs.stop piece) (hstart : f.view tokens stretch.start = some piece.start) :
    f.declarator? site tokens omitted stretch =
      some (c.declaratorEntry site (c.specifiers site) (Construct.start (c.specifiers site) first) piece) := by
  obtain ⟨hshows, hfits⟩ := hholds.declaring
  obtain ⟨placed, hplaced, hfinds⟩ := PlacedDeclarator.ofStretch?_eq hshows hfits
  obtain ⟨initializer, hinitializer, hstop⟩ := hholds.initializer?_eq
  have hnamed := hfinds.name
  have hfunction := hfinds.isFunction
  rw [← Nesting.Piece.declarator] at hnamed hfunction
  rw [Frame.declarator?, Construct.declaratorEntry]
  simp only [hinitializer, hstop, hplaced, Option.bind_eq_bind, Option.bind_some]
  cases hname : piece.declarator.name with
  | none =>
    obtain hnone : placed.name = none := by simpa [hname] using hnamed
    obtain ⟨k, hk, htoken, -⟩ := h.construct.exists_of_view hstart
    obtain ⟨hlt, -⟩ := List.getElem?_eq_some_iff.1 hk
    rw [hnone]
    simp only [sub?_of_le (show 1 ≤ f.construct.indices.length by omega), Option.bind_some,
      Nat.min_eq_left (show stretch.start ≤ f.construct.indices.length - 1 by omega), hk, issueAt?_eq htoken]
  | some name =>
    rw [hname] at hnamed
    obtain ⟨place, hplace, hview⟩ := Option.map_eq_some_iff.1 hnamed
    rw [hplace]
    simp only [nameAt?_eq h.named hview (isName_of_ofTokens hname), hfunction, h.isSome_body, Option.bind_some]
    split_ifs with hisFunction hbody
    · exact h.entry?_eq name.text .function (h.functionText?_tells homitted hholds.floor hshows hfinds hisFunction)
    · obtain ⟨k, hk, htoken, -⟩ := h.construct.exists_of_view hview
      simp only [hk, issueAt?_eq htoken, Option.bind_some]
    · exact h.entry?_eq name.text .variable (h.variableText?_tells homitted hholds.floor hshows)

theorem declarators?_eq {omitted : Option (Nat × Nat)} {stretches : List Stretch}
    (homitted : Encloses tokens omitted (Construct.omitted (c.specifiers site)))
    (hpieces : List.Forall₂ (Stretch.Holds (f.view tokens) (c.hasBody = false) f.specs.stop) stretches (c.pieces (c.specifiers site))) :
    f.declarators? site tokens omitted stretches =
      some (c.declaratorEntries site (c.specifiers site) (Construct.start (c.specifiers site) first) first) := by
  rw [Frame.declarators?, Construct.declaratorEntries, h.isSome_body, hpieces.length_eq]
  split_ifs with hseveral
  · simp [issueAt?_eq h.begins]
  have hstarts : ∀ piece ∈ c.pieces (c.specifiers site), c.hasBody = false ∨ piece.tokens ≠ [] := by
    intro piece hpiece
    refine (Bool.eq_false_or_eq_true c.hasBody).symm.imp_right fun hbody => ?_
    have hsingle : (c.pieces (c.specifiers site)).length ≤ 1 := by simpa [hbody] using hseveral
    exact ne_nil_of_mem_declarators hpiece hsingle
  generalize c.pieces (c.specifiers site) = pieces at hpieces hstarts
  clear hseveral
  induction hpieces with
  | nil => rfl
  | @cons stretch piece stretches pieces hholds _ ih =>
    obtain ⟨hstart, hstarts⟩ := List.forall_mem_cons.1 hstarts
    rw [List.mapM_cons, h.declarator?_eq homitted hholds (hholds.view_start hstart), ih hstarts]
    rfl

/-- What the construct says behind the names that it mentions. -/
theorem entries?_eq {stretches : List Stretch}
    (hpieces : List.Forall₂ (Stretch.Holds (f.view tokens) (c.hasBody = false) f.specs.stop) stretches (c.pieces (c.specifiers site))) :
    f.entries? site tokens stretches =
      some (if (c.specifiers site).isTypedef then
          c.typedefEntries site (c.specifiers site) (Construct.start (c.specifiers site) first)
        else if (c.pieces (c.specifiers site)).isEmpty then
          c.bareEntries site (c.specifiers site) (Construct.start (c.specifiers site) first) first
        else c.taggedEntries site (c.specifiers site) (Construct.start (c.specifiers site) first) ++
          c.declaratorEntries site (c.specifiers site) (Construct.start (c.specifiers site) first) first) := by
  have hempty : stretches.isEmpty = (c.pieces (c.specifiers site)).isEmpty := by
    rw [Bool.eq_iff_iff, List.isEmpty_iff_length_eq_zero, List.isEmpty_iff_length_eq_zero, hpieces.length_eq]
  rw [Frame.entries?, h.specs.isTypedef, hempty]
  split_ifs
  · exact h.typedef?_eq hpieces
  · exact h.bare?_eq
  · obtain ⟨omitted, hapart, homitted⟩ := h.apart?_eq
    simp only [hapart, h.declarators?_eq homitted hpieces, Option.bind_eq_bind, Option.bind_some]

end Frame.Stands

end Frame

/-! ### A construct -/

namespace PlacedConstruct.Stands

variable {site : Site} {tokens body : List Token} {placed : PlacedConstruct} {c : Construct} {specs : PlacedSpecifiers}
  {first : Token} {i : Nat} (h : placed.Stands tokens c)

include h

/-- The specifiers stand at the front of the construct. -/
theorem lists_kept {markers : Bool} (hspecs : specs.Describes (placed.view tokens) (.ofTokens markers c.head)) :
    (placed.view tokens).Lists specs.positions (Specifiers.ofTokens markers c.head).kept := by
  have hshows := h.shows
  rw [List.append_assoc, View.shows_append, ← Specifiers.tokens_append_behind markers c.head, View.shows_append] at hshows
  rw [hspecs.positions]
  exact lists_keptPlaces hshows.1.1

theorem start?_eq {markers : Bool} (hspecs : specs.Describes (placed.view tokens) (.ofTokens markers c.head))
    (hi : i ∈ placed.indices) (hfirst : token? tokens i = some first) :
    ∃ k ∈ placed.indices, start? placed specs i = some k ∧
      token? tokens k = some (Construct.start (.ofTokens markers c.head) first) := by
  have hshows := congrArg List.head? (h.lists_kept hspecs).shows
  rw [List.head?_map, List.head?_map] at hshows
  rw [start?, Construct.start]
  cases hkept : (Specifiers.ofTokens markers c.head).kept.head? with
  | none =>
    rw [hkept] at hshows
    obtain hnone : specs.positions.head? = none := by simpa using hshows
    rw [hnone]
    exact ⟨i, hi, rfl, hfirst⟩
  | some t =>
    rw [hkept] at hshows
    obtain ⟨p, hp, hview⟩ := Option.map_eq_some_iff.1 hshows
    obtain ⟨k, hk, htoken, -⟩ := h.exists_of_view hview
    rw [hp]
    exact ⟨k, List.mem_of_getElem? hk, hk, htoken⟩

theorem last_eq (i : Nat) : token? tokens (placed.last i) = some c.last ∧ (∀ k ∈ placed.indices, k ≤ placed.last i) ∧
    placed.last i + 1 < tokens.length := by
  have hbody := h.body
  have hbehind := h.behind
  rw [PlacedConstruct.last, Construct.last]
  unfold braces? at hbody
  cases hending : c.ending with
  | body opening close =>
    rw [hending] at hbody
    obtain ⟨⟨o, l⟩, hbraces, htokens⟩ := Option.map_eq_some_iff.1 hbody
    obtain ⟨hbefore, hless, hlt⟩ := hbehind (o, l) hbraces
    rw [hbraces]
    refine ⟨(Prod.mk.inj htokens).2, fun k hk => ?_, hlt⟩
    have := hbefore k hk
    simp only at this hless ⊢
    omega
  | semicolon t =>
    rw [hending] at hbody
    obtain hnone : placed.body = none := by simpa using hbody
    have hindices := h.indices
    rw [semicolon, hending, List.map_append, List.map_singleton] at hindices
    obtain ⟨before, last, hplaced, -, hlast⟩ := List.map_eq_append_iff.1 hindices
    obtain ⟨k, rfl, hk⟩ := List.map_eq_singleton_iff.1 hlast
    have hincreasing := h.increasing
    rw [hplaced] at hincreasing
    rw [hnone, hplaced, List.getLast?_concat]
    refine ⟨hk, fun l hl => ?_, h.within k (by simp [hplaced])⟩
    rcases List.mem_append.1 hl with hl | hl
    · exact Nat.le_of_lt ((List.pairwise_append.1 hincreasing).2.2 l hl k List.mem_cons_self)
    · exact Nat.le_of_eq (List.mem_singleton.1 hl)

/-- What a construct says is found at its place. -/
theorem entries?_eq (hread : ReadFrom site.source tokens body) :
    placed.entries? site tokens = some (c.entries site) := by
  obtain ⟨first, behind, hhead⟩ := List.exists_cons_of_ne_nil h.nonempty
  have hindices := h.indices
  rw [hhead, List.cons_append, List.cons_append, List.map_cons] at hindices
  obtain ⟨i, is, hplaced, hi, -⟩ := List.map_eq_cons_iff.1 hindices
  obtain ⟨specs, hspecs, hdescribes⟩ := h.specifiers?_describes site.markers
  rw [PlacedConstruct.entries?, Construct.entries, hplaced, hhead]
  simp only [hi, Option.bind_eq_bind, Option.bind_some]
  by_cases hassert : first.kind = .keyword .staticAssertKw
  · rw [if_pos hassert, if_pos hassert]
  rw [if_neg hassert, if_neg hassert]
  have hmem : i ∈ placed.indices := by simp [hplaced]
  obtain ⟨start, hstart, hfound, hstartToken⟩ := h.start?_eq hdescribes hmem hi
  obtain ⟨hlast, hle, hwithin⟩ := h.last_eq i
  have hframe : Frame.Stands site tokens body ⟨placed, specs, i, start, placed.last i⟩ c first :=
    ⟨hread, h, hdescribes, hi, hstartToken, hlast, hle start hstart, hwithin⟩
  obtain ⟨hsplit, hholds⟩ := h.holds_pieces hdescribes
  have hnamed : Named (placed.view tokens) := hframe.named
  simp only [hspecs, hfound, mentions?_eq hnamed (h.lists_kept hdescribes).shows, h.declaratorsEnd?_eq hdescribes, hsplit,
    hframe.entries?_eq hholds, Option.bind_some]
  rfl

end PlacedConstruct.Stands

end CHeader.Checked
