import CHeader.Proofs.EvaluationSteps
import CHeader.Proofs.Following
import CHeader.Proofs.Parts
import CHeader.Proofs.Placing

/-!
# Where declarations are evaluated

A declaration is active if the text is active where it begins (`evaluationAt`). A run whose directives stand alone is
active or not as a whole: its declarations are evaluated where the run begins (`places_of_outline`).
-/

namespace CHeader

/-- The evaluation of the directives that begin before a place. -/
def evaluationAt (decision : Decision) (macros : Macros) (tokens : List Token) (place : Nat) : Evaluation :=
  ({ macros } : Evaluation).run decision ((tokens.filter (·.span.start < place)).filterMap Token.directive?)

/-- The declarations that are active, with their guards and texts. -/
def activeDeclarations (decision : Decision) (macros : Macros) (tokens : List Token) (ds : List Declaration) :
    List (GuardPath × String) :=
  (ds.filter fun d => (evaluationAt decision macros tokens d.span.start).isActive).map fun d => (d.guard, d.text.text)

/-- A run that has no directives, or is one. -/
def Item.Lone (item : Item) : Prop :=
  ∀ t ∈ item.tokens, t.directive?.isSome = true → item.tokens = [t]

instance (item : Item) : Decidable item.Lone :=
  inferInstanceAs (Decidable (∀ t ∈ item.tokens, t.directive?.isSome = true → item.tokens = [t]))

/-- The tokens that begin before one of them. -/
theorem Ordered.filter_start_lt {front more : List Token} {t : Token} (h : Ordered (front ++ t :: more)) :
    (front ++ t :: more).filter (·.span.start < t.span.start) = front := by
  have hfront : ∀ u ∈ front, u.span.start < t.span.start := fun u hu => by
    have hle := h.le_of_append hu List.mem_cons_self
    have hpositive := h.positive u (List.mem_append_left _ hu)
    omega
  have hmore : ∀ u ∈ t :: more, ¬u.span.start < t.span.start := fun u hu =>
    Nat.not_lt.2 ((h.sublist (List.sublist_append_right front _)).head_le u hu)
  rw [List.filter_append, List.filter_eq_self.2 (by simpa using hfront), List.filter_eq_nil_iff.2 (by simpa using hmore),
    List.append_nil]

/-- A declaration begins with one of the tokens of its run. -/
theorem exists_start_of_mem_entries {markers : Bool} {linkage : Nat} {ts : List Token} {item : Item}
    (hitem : item ∈ outline markers linkage ts) {source : List Char} {t : Tracker} {names : List String} {draft : Draft}
    (h : .declare names draft ∈ item.entries source markers t) : ∃ first ∈ item.tokens, draft.span.start = first.span.start := by
  cases item with
  | skipped => cases h
  | malformed => simp [Item.entries] at h
  | directive token =>
    obtain ⟨directive, -, -, -, visibility, rfl⟩ := macro_of_mem_entries h
    exact ⟨token, List.mem_singleton_self token, rfl⟩
  | construct run c =>
    obtain ⟨first, rest, hhead, kind, text, visibility, rfl⟩ := Construct.madeBy_entries h
    refine ⟨_, (head_of_mem_outline hitem).1.subset ?_, rfl⟩
    cases hkept : ((c.specifiers { source, markers, guard := t.guardPath, block := t.interfaceBlock }).kept).head? with
    | none =>
      rw [Construct.start, hkept, hhead]
      exact List.mem_cons_self
    | some start =>
      rw [Construct.start, hkept]
      exact (Specifiers.prefix_ofTokens _ c.head).subset ((Specifiers.sublist_kept _).subset (List.mem_of_head? hkept))

section Places

variable {decision : Decision} {place : Nat → Evaluation} {source : List Char} {e : Evaluation} {item : Item}
  {first rest items : List Item}

/-- The declarations of some runs are evaluated where their runs begin. -/
def Places (decision : Decision) (place : Nat → Evaluation) (source : List Char) (e : Evaluation) (items : List Item) : Prop :=
  ∀ earlier item later, items = earlier ++ item :: later → ∀ t names draft, .declare names draft ∈ item.entries source true t →
    place draft.span.start = e.run decision ((earlier.flatMap Item.tokens).filterMap Token.directive?)

theorem Places.head (h : Places decision place source e (item :: items)) {t : Tracker} {names : List String} {draft : Draft}
    (hentry : .declare names draft ∈ item.entries source true t) : place draft.span.start = e :=
  h [] item items rfl t names draft hentry

theorem Places.append (h : Places decision place source e (first ++ rest)) :
    Places decision place source (e.run decision ((first.flatMap Item.tokens).filterMap Token.directive?)) rest := by
  intro earlier item later hrest t names draft hentry
  have hplace := h (first ++ earlier) item later (by rw [hrest, List.append_assoc]) t names draft hentry
  rwa [List.flatMap_append, List.filterMap_append, Evaluation.run_append] at hplace

theorem Places.tail (h : Places decision place source e (item :: items)) :
    Places decision place source (e.run decision (item.tokens.filterMap Token.directive?)) items := by
  have htail := @Places.append decision place source e [item] items h
  rwa [List.flatMap_singleton] at htail

/-- Where directives stand alone, the declarations of a text are evaluated where their runs begin. -/
theorem places_of_outline {source : String} {tokens : List Token} (htokens : tokenize source = .ok tokens)
    (hlone : ∀ item ∈ outline true 0 tokens, item.Lone) (macros : Macros) :
    Places decision (evaluationAt decision macros tokens) source.toList { macros } (outline true 0 tokens) := by
  intro earlier item later houtline t names draft hentry
  have hmem : item ∈ outline true 0 tokens := by simp [houtline]
  obtain ⟨first, hfirst, hstart⟩ := exists_start_of_mem_entries hmem hentry
  obtain ⟨front, more, hitem⟩ := List.append_of_mem hfirst
  have hfront : front.filterMap Token.directive? = [] := by
    refine List.filterMap_eq_nil_iff.2 fun u hu => ?_
    by_contra hdirective
    have halone := hlone item hmem u (by rw [hitem]; simp [hu]) (Option.isSome_iff_ne_none.2 hdirective)
    rw [hitem] at halone
    have hlength := congrArg List.length halone
    have hpositive := List.length_pos_of_mem hu
    simp at hlength
    omega
  obtain ⟨hbody, last, hlast, htokens'⟩ := tokenized_run htokens houtline
  have hsplit : earlier.flatMap Item.tokens ++ item.tokens ++ later.flatMap Item.tokens =
      earlier.flatMap Item.tokens ++ front ++ first :: (more ++ later.flatMap Item.tokens) := by
    rw [hitem]
    simp
  rw [hsplit] at hbody htokens'
  have hend : ([last].filter (·.span.start < first.span.start)).filterMap Token.directive? = [] := by
    rw [List.filterMap_eq_nil_iff]
    intro u hu
    rw [List.mem_singleton.1 (List.mem_of_mem_filter hu), Token.directive?, hlast]
  rw [evaluationAt, hstart, htokens', List.filter_append, List.filterMap_append, hend, List.append_nil,
    hbody.ordered.filter_start_lt, List.filterMap_append, hfront, List.append_nil]

end Places

end CHeader
