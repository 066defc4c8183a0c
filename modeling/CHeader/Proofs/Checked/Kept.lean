import CHeader.Proofs.Checked.Spelling

/-!
# The positions that declarators share

Before each declarator stand the specifiers that belong to the declaration. Their positions list them in order
(`lists_keptPlaces`). Where an aggregate is declared apart, the positions of its body are left out, and those that
remain list the specifiers without it (`lists_shared`).
-/

namespace CHeader.Checked

/-! ### Listed positions -/

section Lists

variable {view : View} {ps qs : List Nat} {ts us : List Token} {i j k : Nat} {specs : Specifiers}

theorem View.Lists.append (h : view.Lists ps ts) (h' : view.Lists qs us) (hlt : ∀ p ∈ ps, ∀ q ∈ qs, p < q) :
    view.Lists (ps ++ qs) (ts ++ us) :=
  ⟨by rw [List.map_append, List.map_append, h.shows, h'.shows], List.pairwise_append.2 ⟨h.increasing, h'.increasing, hlt⟩⟩

theorem mem_places : k ∈ places i j ↔ i ≤ k ∧ k < j := by
  rw [places, List.mem_range'_1]
  omega

/-- A stretch of positions lists the tokens that it shows. -/
theorem lists_places (h : view.Shows i ts) : view.Lists (places i (i + ts.length)) ts := by
  refine ⟨?_, List.pairwise_lt_range' _⟩
  induction ts generalizing i with
  | nil => simp [places]
  | cons t ts ih =>
    rw [← places_cons (by simp), add_length_cons, List.map_cons, List.map_cons, h.1, ih h.2]

theorem mem_keptPlaces (h : k ∈ keptPlaces i specs) : i ≤ k ∧ k < i + specs.tokens.length := by
  induction specs generalizing i with
  | nil => cases h
  | cons s specs ih =>
    have hlength : i + (Specifiers.tokens (s :: specs)).length = i + s.tokens.length + (Specifiers.tokens specs).length := by
      simp only [Specifiers.tokens, List.flatMap_cons, List.length_append, Nat.add_assoc]
    rw [hlength]
    rcases List.mem_append.1 h with h | h
    · split_ifs at h
      · cases h
      · have := mem_places.1 h
        omega
    · have := ih h
      omega

/-- The positions of what is kept of the specifiers list it. -/
theorem lists_keptPlaces (h : view.Shows i specs.tokens) : view.Lists (keptPlaces i specs) specs.kept := by
  induction specs generalizing i with
  | nil => exact ⟨rfl, .nil⟩
  | cons s specs ih =>
    have hsplit : Specifiers.tokens (s :: specs) = s.tokens ++ Specifiers.tokens specs := List.flatMap_cons
    rw [hsplit, View.shows_append] at h
    have hfirst : view.Lists (if s.isMarker then [] else places i (i + s.tokens.length)) s.kept := by
      rw [Specifier.kept]
      split_ifs
      · exact ⟨rfl, .nil⟩
      · exact lists_places h.1
    refine hfirst.append (ih h.2) fun p hp q hq => ?_
    have hq := (mem_keptPlaces hq).1
    split_ifs at hp
    · cases hp
    · have := mem_places.1 hp
      omega

end Lists

/-! ### An aggregate declared apart -/

/-- Where an aggregate that is declared apart has its parts. -/
structure PlacedDefinition where
  keyword : Nat
  tag : Nat
  opening : Nat
  close : Nat
  deriving DecidableEq, Repr

namespace PlacedSpecifiers

/-- The aggregate among the specifiers that has a tag and a body. -/
def definition? (specs : PlacedSpecifiers) : Option PlacedDefinition :=
  match specs.aggregate with
  | some ⟨keyword, some tag, some (opening, close)⟩ => some ⟨keyword, tag, opening, close⟩
  | _ => none

/-- The positions that are spelled before each declarator. -/
def shared (specs : PlacedSpecifiers) : List Nat :=
  match specs.definition? with
  | some d => specs.positions.filter fun k => !(decide (d.opening ≤ k) && decide (k ≤ d.close))
  | none => specs.positions

end PlacedSpecifiers

section Shared

variable {before behind : Specifiers} {s : Specifier} {a : Aggregate} {view : View}

/-- The specifiers without the body of the last aggregate. -/
theorem keptWithoutBody_append (hs : s.aggregate? = some a) (hlast : ∀ s ∈ behind, s.aggregate? = none) :
    Specifiers.keptWithoutBody (before ++ s :: behind) = before.kept ++ a.head ++ behind.kept := by
  induction before with
  | nil =>
    have hnone : List.any behind (·.aggregate?.isSome) = false := by
      rw [List.any_eq_false]
      intro s' hs'
      simp [hlast s' hs']
    simp [Specifiers.keptWithoutBody, hs, hnone, Specifiers.kept]
  | cons s' before ih =>
    have hany : List.any (before ++ s :: behind) (·.aggregate?.isSome) = true :=
      List.any_eq_true.2 ⟨s, by simp, by simp [hs]⟩
    have hkept : Specifiers.kept (s' :: before) = s'.kept ++ Specifiers.kept before := rfl
    have hsame : Specifiers.keptWithoutBody (s' :: (before ++ s :: behind)) =
        s'.kept ++ Specifiers.keptWithoutBody (before ++ s :: behind) := by
      rw [Specifiers.keptWithoutBody]
      split
      · rw [if_pos hany]
      · rfl
    rw [List.cons_append, hsame, ih, hkept, List.append_assoc, List.append_assoc, List.append_assoc]

/-- The positions outside a body are those before it and those behind it. -/
theorem filter_keptPlaces (hs : s.isMarker = false) (htokens : s.tokens = a.head ++ a.body) (hbody : a.body ≠ []) :
    let first := (Specifiers.tokens before).length
    (keptPlaces 0 (before ++ s :: behind)).filter (fun k =>
        !(decide (first + a.head.length ≤ k) && decide (k ≤ first + a.head.length + a.body.length - 1))) =
      keptPlaces 0 before ++ places first (first + a.head.length) ++ keptPlaces (first + s.tokens.length) behind := by
  intro first
  have hpositive := List.length_pos_iff.2 hbody
  have hlength : s.tokens.length = a.head.length + a.body.length := by rw [htokens, List.length_append]
  have hall : keptPlaces 0 (before ++ s :: behind) = keptPlaces 0 before ++ places first (first + a.head.length) ++
      places (first + a.head.length) (first + s.tokens.length) ++ keptPlaces (first + s.tokens.length) behind := by
    rw [keptPlaces_append, keptPlaces, hs, if_neg Bool.false_ne_true, Nat.zero_add, List.append_assoc (keptPlaces 0 before),
      places_append (by omega) (by omega), List.append_assoc]
  have hkeep : ∀ {ks : List Nat}, (∀ k ∈ ks, k < first + a.head.length ∨ first + s.tokens.length ≤ k) →
      ks.filter (fun k => !(decide (first + a.head.length ≤ k) && decide (k ≤ first + a.head.length + a.body.length - 1))) = ks := by
    intro ks hks
    refine List.filter_eq_self.2 fun k hk => ?_
    have := hks k hk
    simp only [Bool.not_eq_true', Bool.and_eq_false_iff, decide_eq_false_iff_not]
    omega
  have hdrop : (places (first + a.head.length) (first + s.tokens.length)).filter
      (fun k => !(decide (first + a.head.length ≤ k) && decide (k ≤ first + a.head.length + a.body.length - 1))) = [] := by
    refine List.filter_eq_nil_iff.2 fun k hk => ?_
    have := mem_places.1 hk
    simp only [Bool.not_eq_true', Bool.and_eq_false_iff, decide_eq_false_iff_not]
    omega
  rw [hall, List.filter_append, List.filter_append, List.filter_append, hdrop, List.append_nil]
  rw [hkeep, hkeep, hkeep]
  · intro k hk
    exact .inr (mem_keptPlaces hk).1
  · intro k hk
    exact .inl (mem_places.1 hk).2
  · intro k hk
    have := mem_keptPlaces hk
    exact .inl (by omega)

/-- Specifiers are shown part by part: those before an aggregate, its head, its body and those behind it. -/
theorem shows_around (htokens : s.tokens = a.head ++ a.body) :
    let first := (Specifiers.tokens before).length
    view.Shows 0 (Specifiers.tokens (before ++ s :: behind)) ↔
      view.Shows 0 (Specifiers.tokens before) ∧ view.Shows first a.head ∧ view.Shows (first + a.head.length) a.body ∧
        view.Shows (first + s.tokens.length) (Specifiers.tokens behind) := by
  have hall : Specifiers.tokens (before ++ s :: behind) =
      Specifiers.tokens before ++ (a.head ++ (a.body ++ Specifiers.tokens behind)) := by
    simp [Specifiers.tokens, htokens]
  rw [hall, View.shows_append, View.shows_append, View.shows_append, Nat.zero_add, htokens, List.length_append, Nat.add_assoc]

/-- What is kept of the positions outside a body lists the specifiers without it. -/
theorem lists_around (hs : s.isMarker = false) (htokens : s.tokens = a.head ++ a.body) (hbody : a.body ≠ [])
    (hshows : view.Shows 0 (Specifiers.tokens (before ++ s :: behind))) :
    let first := (Specifiers.tokens before).length
    view.Lists ((keptPlaces 0 (before ++ s :: behind)).filter fun k =>
        !(decide (first + a.head.length ≤ k) && decide (k ≤ first + a.head.length + a.body.length - 1)))
      (before.kept ++ a.head ++ behind.kept) := by
  intro first
  obtain ⟨hbefore, hhead, -, hbehind⟩ := (shows_around htokens).1 hshows
  have hfirst : ∀ p ∈ keptPlaces 0 before, p < first := by
    intro p hp
    have := (mem_keptPlaces hp).2
    omega
  have hlength : s.tokens.length = a.head.length + a.body.length := by rw [htokens, List.length_append]
  rw [filter_keptPlaces hs htokens hbody]
  refine ((lists_keptPlaces hbefore).append (lists_places hhead) fun p hp q hq => ?_).append (lists_keptPlaces hbehind)
    fun p hp q hq => ?_
  · have := hfirst p hp
    have := (mem_places.1 hq).1
    omega
  · have hq := (mem_keptPlaces hq).1
    rcases List.mem_append.1 hp with hp | hp
    · have := hfirst p hp
      omega
    · have := (mem_places.1 hp).2
      omega

/-- The parts of the definition of `a` stand at their positions. -/
structure PlacedDefinition.Stands (view : View) (d : PlacedDefinition) (a : Aggregate) (tag : Token) : Prop where
  keyword : ∃ t, a.head.head? = some t ∧ view d.keyword = some t
  named : view d.tag = some tag
  isName : tag.isName = true
  opening : ∃ t, a.body.head? = some t ∧ view d.opening = some t
  close : ∃ t, a.body.getLast? = some t ∧ view d.close = some t
  order : d.keyword ≤ d.opening ∧ d.opening ≤ d.close

/-- An aggregate among the specifiers is read at its keyword. -/
theorem exists_ofTokens {markers : Bool} {ts : List Token} (h : s ∈ Specifiers.ofTokens markers ts) (ha : s.aggregate? = some a) :
    s.isMarker = false ∧ s.tokens = a.head ++ a.body ∧ ∃ keyword us, a = .ofTokens keyword us := by
  obtain ⟨_, _, t, rest, hfirst⟩ := Specifiers.first?_of_mem_take h
  exact ⟨Specifier.isMarker_of_aggregate? ha, Specifier.tokens_of_aggregate? hfirst ha, t, rest,
    (Specifier.keyword_of_aggregate? hfirst ha).2⟩

theorem isName_of_tag {keyword tag : Token} {us : List Token} (h : (Aggregate.ofTokens keyword us).tag = some tag) :
    tag.isName = true := by
  obtain ⟨rest, hrest⟩ := List.head?_eq_some_iff.1 h
  unfold Aggregate.tagged at hrest
  split at hrest
  · split_ifs at hrest with hname
    obtain rfl := (List.cons.inj hrest).1
    exact hname
  · cases hrest

/-- An aggregate that is shown has the parts of its definition at their positions. -/
theorem PlacedDefinition.stands_of_shows {first k : Nat} {keyword tag : Token} {us : List Token}
    (ha : a = .ofTokens keyword us) (htag : a.tag = some tag) (hk : view k = some tag) (hempty : a.body ≠ [])
    (hhead : view.Shows first a.head) (hbody : view.Shows (first + a.head.length) a.body) :
    PlacedDefinition.Stands view ⟨first, k, first + a.head.length, first + a.head.length + a.body.length - 1⟩ a tag := by
  have hpositive := List.length_pos_iff.2 hempty
  refine ⟨?_, hk, isName_of_tag (ha ▸ htag), ?_, ?_, ?_⟩
  · subst ha
    exact ⟨keyword, rfl, hhead.1⟩
  · obtain ⟨t, rest, hrest⟩ := List.exists_cons_of_ne_nil hempty
    rw [hrest] at hbody
    exact ⟨t, by rw [hrest]; rfl, hbody.1⟩
  · refine ⟨_, List.getLast?_eq_some_getLast hempty, ?_⟩
    rw [Nat.add_sub_assoc hpositive, hbody.getElem? (by omega), ← List.getLast?_eq_getElem?]
    exact List.getLast?_eq_some_getLast hempty
  · simp only
    omega

variable {placed : PlacedSpecifiers} {markers : Bool} {ts : List Token}

/-- An aggregate is declared apart by position if it is declared apart, and the positions that are spelled list what is
shared. -/
theorem lists_shared (h : placed.Describes view (.ofTokens markers ts)) (hshows : view.Shows 0 (Specifiers.ofTokens markers ts).tokens) :
    view.Lists placed.shared (Construct.shared (.ofTokens markers ts)) ∧
      (placed.definition? = none ∧ Construct.tagged? (.ofTokens markers ts) = none ∨
        ∃ d a tag, placed.definition? = some d ∧ Construct.tagged? (.ofTokens markers ts) = some (a, tag) ∧ d.Stands view a tag) := by
  have hkept := lists_keptPlaces hshows
  rw [← h.positions] at hkept
  -- where nothing is declared apart, all that is kept is shared
  have hplain : placed.definition? = none → Construct.tagged? (.ofTokens markers ts) = none →
      view.Lists placed.shared (Construct.shared (.ofTokens markers ts)) ∧
        (placed.definition? = none ∧ Construct.tagged? (.ofTokens markers ts) = none ∨
          ∃ d a tag, placed.definition? = some d ∧ Construct.tagged? (.ofTokens markers ts) = some (a, tag) ∧
            d.Stands view a tag) := by
    intro hnone hnone'
    refine ⟨?_, .inl ⟨hnone, hnone'⟩⟩
    rw [PlacedSpecifiers.shared, hnone, Construct.shared, hnone']
    exact hkept
  have haggregate := h.aggregate
  have hpositions := h.positions
  have hmem : ∀ s ∈ Specifiers.ofTokens markers ts, ∀ a, s.aggregate? = some a →
      s.isMarker = false ∧ s.tokens = a.head ++ a.body ∧ ∃ keyword us, a = .ofTokens keyword us :=
    fun s hs a ha => exists_ofTokens hs ha
  generalize Specifiers.ofTokens markers ts = specs at *
  generalize hagg : placed.aggregate = found at *
  cases haggregate with
  | absent hnone =>
    have hdefinition : placed.definition? = none := by rw [PlacedSpecifiers.definition?, hagg]
    have htagged : Construct.tagged? specs = none := by
      rw [Construct.tagged?, Specifiers.aggregate?, List.filterMap_eq_nil_iff.2 hnone]
      rfl
    exact hplain hdefinition htagged
  | @present p a s before behind stands aggregate last =>
    obtain ⟨hmarker, htokens, keyword, us, hread⟩ := hmem s (by simp) a aggregate
    have hlast : Specifiers.aggregate? (before ++ s :: behind) = some a := by
      rw [Specifiers.aggregate?, List.filterMap_append, List.filterMap_cons_some aggregate, List.filterMap_eq_nil_iff.2 last]
      simp
    obtain ⟨-, hhead, hbody, -⟩ := (shows_around htokens).1 hshows
    have htag := stands.tag
    have hbraces := stands.body
    have hkeyword := stands.keyword
    obtain ⟨place, tagPlace, braces⟩ := p
    simp only at htag hbraces hkeyword
    subst hkeyword
    cases hatag : a.tag with
    | none =>
      rw [hatag] at htag
      obtain rfl : tagPlace = none := by simpa using htag
      have hdefinition : placed.definition? = none := by rw [PlacedSpecifiers.definition?, hagg]
      have htagged : Construct.tagged? (before ++ s :: behind) = none := by simp [Construct.tagged?, hlast, hatag]
      exact hplain hdefinition htagged
    | some tag =>
      rw [hatag] at htag
      obtain ⟨k, rfl, hk⟩ := Option.map_eq_some_iff.1 htag
      by_cases hempty : a.body = []
      · obtain rfl : braces = none := by rw [hbraces, if_pos hempty]
        have hdefinition : placed.definition? = none := by rw [PlacedSpecifiers.definition?, hagg]
        have htagged : Construct.tagged? (before ++ s :: behind) = none := by simp [Construct.tagged?, hlast, hatag, hempty]
        exact hplain hdefinition htagged
      · rw [if_neg hempty] at hbraces
        subst hbraces
        have hdefinition : placed.definition? = some ⟨(Specifiers.tokens before).length, k,
            (Specifiers.tokens before).length + a.head.length,
            (Specifiers.tokens before).length + a.head.length + a.body.length - 1⟩ := by
          rw [PlacedSpecifiers.definition?, hagg]
        have htagged : Construct.tagged? (before ++ s :: behind) = some (a, tag) := by simp [Construct.tagged?, hlast, hatag, hempty]
        refine ⟨?_, .inr ⟨_, a, tag, hdefinition, htagged,
          PlacedDefinition.stands_of_shows hread hatag hk hempty hhead hbody⟩⟩
        rw [PlacedSpecifiers.shared, hdefinition, Construct.shared, htagged, Option.isSome_some, if_pos rfl,
          keptWithoutBody_append aggregate last, hpositions]
        exact lists_around hmarker htokens hempty hshows

end Shared

end CHeader.Checked
