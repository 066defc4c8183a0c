import CHeader.Proofs.Following
import CHeader.Proofs.Locality

/-!
# Comments among the tokens

Every loop over the tokens of a text passes over comments: nothing that a comment is or carries decides what is found.
So tokens of which some comments are left out (`LeavesComments`) are surveyed as all of them are (`survey_filter`). The
runs of their outline are the runs of all tokens without those comments, and runs that had nothing else are gone
(`outline_filter`).
-/

namespace CHeader

/-- All tokens are kept but some of the comments. -/
def LeavesComments (keep : Token → Bool) : Prop :=
  ∀ t : Token, keep t = false → t.kind.isComment = true

namespace LeavesComments

variable {keep : Token → Bool} {t : Token}

theorem keep_of_isComment (hkeep : LeavesComments keep) (h : t.kind.isComment = false) : keep t = true := by
  by_contra hgone
  have hcomment := hkeep t (by simpa using hgone)
  rw [h] at hcomment
  cases hcomment

theorem eq_comment (hkeep : LeavesComments keep) (h : keep t = false) : t.kind = .lineComment ∨ t.kind = .blockComment := by
  have hcomment := hkeep t h
  unfold TokenKind.isComment at hcomment
  split at hcomment <;> simp_all

theorem isSignificant (hkeep : LeavesComments keep) (h : keep t = false) : t.isSignificant = false := by
  rcases hkeep.eq_comment h with hkind | hkind <;> simp [Token.isSignificant, hkind]

theorem keep_of_isSignificant (hkeep : LeavesComments keep) (h : t.isSignificant = true) : keep t = true := by
  by_contra hgone
  have hnone := hkeep.isSignificant (by simpa using hgone)
  rw [h] at hnone
  cases hnone

theorem directive? (hkeep : LeavesComments keep) (h : keep t = false) : t.directive? = none := by
  rcases hkeep.eq_comment h with hkind | hkind <;> simp [Token.directive?, hkind]

end LeavesComments

/-- Behind a front of some tokens, what is kept is what is behind the kept part of the front. -/
theorem filter_drop_of_prefix (keep : Token → Bool) {front ts : List Token} (h : front <+: ts) :
    (ts.drop front.length).filter keep = (ts.filter keep).drop (front.filter keep).length := by
  obtain ⟨rest, rfl⟩ := h
  rw [List.drop_left, List.filter_append, List.drop_left]

theorem filter_take_drop (keep : Token → Bool) (ts : List Token) (n : Nat) :
    (ts.filter keep).take ((ts.take n).filter keep).length = (ts.take n).filter keep ∧
      (ts.filter keep).drop ((ts.take n).filter keep).length = (ts.drop n).filter keep := by
  have hsplit : ts.filter keep = (ts.take n).filter keep ++ (ts.drop n).filter keep := by
    rw [← List.filter_append, List.take_append_drop]
  rw [hsplit]
  exact ⟨List.take_left, List.drop_left⟩

namespace Item

/-- A run without the tokens that are not kept. -/
def keeping (keep : Token → Bool) : Item → Item
  | directive token => if keep token then directive token else skipped []
  | skipped tokens => skipped (tokens.filter keep)
  | construct tokens c => construct (tokens.filter keep) c
  | malformed before fault behind => malformed (before.filter keep) fault (behind.filter keep)

end Item

theorem Item.tokens_keeping (keep : Token → Bool) (item : Item) : (item.keeping keep).tokens = item.tokens.filter keep := by
  cases item with
  | directive token => cases ht : keep token <;> simp [keeping, tokens, ht]
  | skipped | construct | malformed => simp [keeping, tokens]

namespace Outline

variable {keep : Token → Bool}

theorem recovery_filter (hkeep : LeavesComments keep) (depth : Nat) (ts : List Token) :
    recovery depth (ts.filter keep) = (recovery depth ts).filter keep := by
  induction ts generalizing depth with
  | nil => rfl
  | cons t ts ih =>
    by_cases ht : keep t = true
    · rw [List.filter_cons_of_pos ht, recovery, recovery]
      split
      case h_1 => rfl
      case h_2 | h_4 =>
        split_ifs
        · simp [ht]
        · rw [ih, List.filter_cons_of_pos ht]
      case h_3 | h_5 => rw [ih, List.filter_cons_of_pos ht]
    · rw [List.filter_cons_of_neg ht, ih, recovery]
      rcases hkeep.eq_comment (by simpa using ht) with hkind | hkind <;> simp [hkind, ht]

theorem body?_filter (hkeep : LeavesComments keep) (depth : Nat) (ts : List Token) :
    body? depth (ts.filter keep) = (body? depth ts).map fun (inside, close) => (inside.filter keep, close) := by
  induction ts generalizing depth with
  | nil => rfl
  | cons t ts ih =>
    by_cases ht : keep t = true
    · rw [List.filter_cons_of_pos ht, body?, body?]
      simp only [ih]
      split
      · rfl
      · cases body? (depth + 1) ts <;> simp [ht]
      · split_ifs
        · rfl
        · cases body? (depth - 1) ts <;> simp [ht]
      · cases body? depth ts <;> simp [ht]
    · rw [List.filter_cons_of_neg ht, ih, body?]
      rcases hkeep.eq_comment (by simpa using ht) with hkind | hkind <;>
      · simp only [hkind]
        cases body? depth ts <;> simp [ht]

theorem untilEnd_filter (hkeep : LeavesComments keep) (ts : List Token) :
    untilEnd (ts.filter keep) = (untilEnd ts).filter keep := by
  induction ts with
  | nil => rfl
  | cons t ts ih =>
    by_cases heof : t.kind = .eof
    · have ht : keep t = true := hkeep.keep_of_isComment (by simp [heof, TokenKind.isComment])
      rw [List.filter_cons_of_pos ht, untilEnd_cons_eof heof, untilEnd_cons_eof heof, List.filter_nil]
    · rw [untilEnd_cons heof]
      by_cases ht : keep t = true
      · rw [List.filter_cons_of_pos ht, List.filter_cons_of_pos ht, untilEnd_cons heof, ih]
      · rw [List.filter_cons_of_neg ht, List.filter_cons_of_neg ht, ih]

/-! ### Constructs -/

/-- What is collected, without the tokens that are not kept. -/
def Collected.keeping (keep : Token → Bool) (c : Collected) : Collected :=
  { c with met := c.met.filter keep }

/-- A verdict, with what goes on without the tokens that are not kept. -/
def Verdict.keeping (keep : Token → Bool) : Verdict → Verdict
  | goOn c => goOn (c.keeping keep)
  | verdict => verdict

namespace Collected

theorem verdict_keeping {markers : Bool} {c : Collected} {t : Token} (ht : keep t = true) :
    (c.keeping keep).verdict markers t = (c.verdict markers t).keeping keep := by
  have hmet : (t :: c.met).filter keep = t :: c.met.filter keep := List.filter_cons_of_pos ht
  have hopened : (c.keeping keep).opened = c.opened := rfl
  have hhead : (c.keeping keep).head = c.head := rfl
  have htokens : (c.keeping keep).tokens = c.tokens := rfl
  simp only [verdict, hopened, hhead, htokens]
  split
  case h_1 => rfl
  case h_2 | h_3 | h_4 => simp only [Verdict.keeping, keeping, pass, hmet]
  case h_5 => split_ifs <;> simp only [Verdict.keeping, keeping, push, add, hmet]
  case h_6 => split_ifs <;> simp only [Verdict.keeping, keeping, add, hmet]
  case h_7 =>
    split_ifs
    · cases Shape.parameterDeclarations? markers c.tokens.reverse <;> simp only [Verdict.keeping, keeping, add, hmet]
    · simp only [Verdict.keeping, keeping, add, hmet]
  case h_8 => simp only [Verdict.keeping, keeping, add, hmet]

/-- A comment that is not kept is passed over without a trace. -/
theorem verdict_of_not_keep (hkeep : LeavesComments keep) {markers : Bool} {c : Collected} {t : Token} (ht : keep t = false) :
    c.verdict markers t = .goOn (c.pass t) ∧ (c.pass t).keeping keep = c.keeping keep := by
  constructor
  · rcases hkeep.eq_comment ht with hkind | hkind <;> simp [verdict, hkind]
  · simp [keeping, pass, ht, hkeep.directive? ht]

end Collected

theorem function_filter (hkeep : LeavesComments keep) (c : Collected) {brace : Token} (hbrace : keep brace = true)
    (ts : List Token) :
    function (c.keeping keep) brace (ts.filter keep) =
      ((function c brace ts).1.keeping keep, (function c brace ts).2.filter keep) := by
  simp only [function, body?_filter hkeep, untilEnd_filter hkeep]
  cases hbody : body? 0 ts with
  | none =>
    have hends : untilEnd ts <+: ts := List.takeWhile_prefix _
    have hfront := filter_drop_of_prefix keep hends
    simp [Item.keeping, Collected.keeping, hbrace, hfront]
  | some found =>
    obtain ⟨inside, close⟩ := found
    obtain ⟨⟨behind, rfl⟩, -⟩ := eq_append_of_body? hbody
    have hclose : keep close = true :=
      hkeep.keep_of_isComment (by simp [kind_of_body? hbody, TokenKind.isComment])
    have hfront : ((inside ++ close :: behind).drop (inside.length + 1)).filter keep =
        ((inside ++ close :: behind).filter keep).drop ((inside.filter keep).length + 1) := by
      simp [hclose]
    simp only [Option.map_some, hfront]
    simp [Item.keeping, Collected.keeping, Collected.finish, hbrace, hclose]

/-- A construct is collected of the tokens that are kept as it is of all. -/
theorem collect_filter (hkeep : LeavesComments keep) (markers : Bool) (first : Token) (c : Collected) (ts : List Token) :
    collect markers first (c.keeping keep) (ts.filter keep) =
      ((collect markers first c ts).1.keeping keep, (collect markers first c ts).2.filter keep) := by
  induction ts generalizing c with
  | nil => simp [collect, Collected.malformed, Collected.keeping, Collected.endFault, Item.keeping]
  | cons t ts ih =>
    rw [collect_cons]
    cases ht : keep t with
    | false =>
      obtain ⟨hverdict, hpass⟩ := @Collected.verdict_of_not_keep keep hkeep markers c t ht
      rw [List.filter_cons_of_neg (by simp [ht]), hverdict, ← hpass]
      exact ih (c.pass t)
    | true =>
      rw [List.filter_cons_of_pos ht, collect_cons, Collected.verdict_keeping ht]
      cases hverdict : c.verdict markers t with
      | goOn c' => exact ih c'
      | ends => simp [Verdict.keeping, Collected.stop, Collected.keeping, Collected.finish, Item.keeping, ht]
      | body => exact function_filter hkeep c ht ts
      | unexpected =>
        have hrecovery := recovery_filter hkeep 0 (t :: ts)
        have hfront := filter_drop_of_prefix keep (prefix_recovery 0 (t :: ts))
        rw [List.filter_cons_of_pos ht] at hrecovery hfront
        simp only [Verdict.keeping, Collected.stop, hrecovery, hfront]
        simp [Collected.malformed, Collected.keeping, Item.keeping]
      | unbalanced =>
        have hopened : (c.keeping keep).opened = c.opened := rfl
        have hfront := filter_drop_of_prefix keep (prefix_recovery (openBraces c.opened.tail) ts)
        simp only [Verdict.keeping, Collected.stop, hopened, recovery_filter hkeep, hfront]
        simp [Collected.malformed, Collected.keeping, Item.keeping, ht]
      | endOfText => simp [Verdict.keeping, Collected.stop, Collected.malformed, Collected.keeping, Collected.endFault, Item.keeping, ht]

/-- Tokens are insignificant if those of them that are kept are. -/
theorem insignificant_of_filter (hkeep : LeavesComments keep) {ts : List Token}
    (h : ∀ t ∈ ts.filter keep, t.isSignificant = false) : ∀ t ∈ ts, t.isSignificant = false := by
  intro t ht
  cases hkept : keep t with
  | true => exact h t (List.mem_filter.2 ⟨ht, hkept⟩)
  | false => exact hkeep.isSignificant hkept

theorem linkageLength?_filter (hkeep : LeavesComments keep) (ts : List Token) :
    linkageLength? (ts.filter keep) = (linkageLength? ts).map fun n => ((ts.take n).filter keep).length := by
  cases h : linkageLength? ts with
  | some n =>
    obtain ⟨opening, ⟨rest, rfl⟩, ⟨first, string, second, brace, rfl, hpassed, hstring, hbrace⟩, rfl⟩ :=
      linkageLength?_iff_blockOpening.1 h
    have hkept : ∀ t : Token, t.isSignificant = true → keep t = true := fun t => hkeep.keep_of_isSignificant
    have hstring' : keep string = true := by
      obtain ⟨spelling, hkind⟩ := hstring
      exact hkept string (by simp [Token.isSignificant, hkind])
    have hbrace' : keep brace = true := hkept brace (by simp [Token.isSignificant, hbrace])
    rw [Option.map_some, List.take_left]
    refine linkageLength?_iff_blockOpening.2 ⟨_, ⟨rest.filter keep, by rw [← List.filter_append]⟩, ?_, rfl⟩
    refine ⟨first.filter keep, string, second.filter keep, brace, by simp [hstring', hbrace'], ?_, hstring, hbrace⟩
    intro t ht
    rw [← List.filter_append] at ht
    exact hpassed t (List.mem_filter.1 ht).1
  | none =>
    by_contra hne
    obtain ⟨n, hn⟩ := Option.ne_none_iff_exists'.1 hne
    obtain ⟨first, string, second, brace, rest, hsplit, hpassed, hstring, hbrace, -⟩ := linkageLength?_eq_some_iff.1 hn
    obtain ⟨before, behind, rfl, rfl, hbehind⟩ := List.filter_eq_append_iff.1 hsplit
    obtain ⟨before', behind', rfl, hgone, -, hbehind'⟩ := List.filter_eq_cons_iff.1 hbehind
    obtain ⟨between, behind'', rfl, rfl, hlast⟩ := List.filter_eq_append_iff.1 hbehind'
    obtain ⟨between', after, rfl, hgone', -, -⟩ := List.filter_eq_cons_iff.1 hlast
    have hinsignificant : ∀ t ∈ (before ++ before') ++ (between ++ between'), t.isSignificant = false := by
      apply insignificant_of_filter hkeep
      rw [List.filter_append, List.filter_append, List.filter_append, List.filter_eq_nil_iff.2 hgone,
        List.filter_eq_nil_iff.2 hgone', List.append_nil, List.append_nil]
      exact hpassed
    rw [← Option.not_isSome_iff_eq_none] at h
    exact h (Option.isSome_iff_exists.2 ⟨_, linkageLength?_eq_some_iff.2
      ⟨before ++ before', string, between ++ between', brace, after, by simp, hinsignificant, hstring, hbrace, rfl⟩⟩)

theorem skipped?_filter (hkeep : LeavesComments keep) (linkage : Nat) (t : Token) (ts : List Token) :
    skipped? linkage t (ts.filter keep) =
      (skipped? linkage t ts).map fun (n, linkage') => (((ts.take n).filter keep).length, linkage') := by
  unfold skipped?
  split
  case h_1 | h_2 | h_3 => rfl
  case h_4 => split_ifs <;> rfl
  case h_5 =>
    rw [linkageLength?_filter hkeep]
    cases linkageLength? ts <;> rfl
  case h_6 => rfl

theorem external_filter (hkeep : LeavesComments keep) (markers : Bool) {t : Token} (ht : keep t = true) (heof : t.kind ≠ .eof)
    (ts : List Token) :
    external markers t (ts.filter keep) = ((external markers t ts).1.keeping keep, (external markers t ts).2.filter keep) := by
  unfold external
  split_ifs
  · have hstart : (Collected.start t).keeping keep = .start t := by simp [Collected.start, Collected.keeping, ht]
    rw [← collect_filter hkeep, hstart]
  · obtain ⟨behind, hbehind⟩ := recovery_cons 0 heof ts
    have hrecovery := recovery_filter hkeep 0 (t :: ts)
    have hfront := filter_drop_of_prefix keep (prefix_recovery 0 (t :: ts))
    rw [List.filter_cons_of_pos ht, hbehind, List.filter_cons_of_pos ht] at hrecovery
    rw [hbehind, List.filter_cons_of_pos ht, List.filter_cons_of_pos ht] at hfront
    simp only [hrecovery, hbehind, List.length_cons, Nat.add_sub_cancel]
    simpa [Item.keeping, ht] using hfront.symm

/-- What is collected is in the run. -/
theorem mem_tokens_collect {markers : Bool} {first t : Token} {c : Collected} {ts : List Token} (ht : t ∈ c.met) :
    t ∈ (collect markers first c ts).1.tokens := by
  induction ts generalizing c with
  | nil => simp [collect, Collected.malformed, Item.tokens, ht]
  | cons u ts ih =>
    rw [collect_cons]
    cases hverdict : c.verdict markers u with
    | goOn c' => exact ih (by simp [(Collected.grows_of_verdict hverdict).met, ht])
    | body =>
      simp only [Collected.stop, function]
      cases body? 0 ts <;> simp [Item.tokens, ht]
    | ends | unexpected | unbalanced | endOfText => simp [Collected.stop, Collected.malformed, Item.tokens, ht]

theorem mem_tokens_external (markers : Bool) {t : Token} (heof : t.kind ≠ .eof) (ts : List Token) :
    t ∈ (external markers t ts).1.tokens := by
  unfold external
  split_ifs
  · exact mem_tokens_collect (by simp [Collected.start])
  · obtain ⟨behind, hbehind⟩ := recovery_cons 0 heof ts
    simp [Item.tokens, hbehind]

end Outline

/-- The runs of the tokens that are kept are those of all tokens, without those that consisted of other comments. -/
theorem outline_filter {keep : Token → Bool} (hkeep : LeavesComments keep) (markers : Bool) (linkage : Nat) (ts : List Token) :
    outline markers linkage (ts.filter keep) =
      ((outline markers linkage ts).map (Item.keeping keep)).filter (· ≠ .skipped []) := by
  fun_induction outline markers linkage ts with
  | case1 => simp [outline]
  | case2 linkage t ts heof =>
    have ht : keep t = true := hkeep.keep_of_isComment (by simp [heof, TokenKind.isComment])
    rw [List.filter_cons_of_pos ht, outline, heof]
    rfl
  | case3 linkage t ts directive hkind ih =>
    have ht : keep t = true := hkeep.keep_of_isComment (by simp [hkind, TokenKind.isComment])
    rw [List.filter_cons_of_pos ht, outline_cons_directive (by simp [Token.directive?, hkind]), ih]
    simp [Item.keeping, ht]
  | case4 linkage t ts n linkage' hskipped heof hdirective ih =>
    have hnone : t.directive? = none := directive?_eq_none hdirective
    cases ht : keep t with
    | true =>
      have hfiltered := Outline.skipped?_filter hkeep linkage t ts
      rw [hskipped] at hfiltered
      obtain ⟨htake, hdrop⟩ := filter_take_drop keep ts n
      rw [List.filter_cons_of_pos ht, outline_cons_skipped heof hnone hfiltered, htake, hdrop, ih, List.map_cons,
        List.filter_cons_of_pos (by simp [Item.keeping, ht])]
      simp [Item.keeping, ht]
    | false =>
      have hcomment : Outline.skipped? linkage t ts = some (0, linkage) := by
        rcases hkeep.eq_comment ht with hkind | hkind <;> simp [Outline.skipped?, hkind]
      obtain ⟨rfl, rfl⟩ : n = 0 ∧ linkage' = linkage := by simpa [hskipped] using hcomment
      rw [List.filter_cons_of_neg (by simp [ht]), List.map_cons,
        List.filter_cons_of_neg (by simp [Item.keeping, ht])]
      exact ih
  | case5 linkage t ts hskipped run heof hdirective ih =>
    have hnone : t.directive? = none := directive?_eq_none hdirective
    have ht : keep t = true := by
      by_contra hgone
      rcases hkeep.eq_comment (by simpa using hgone) with hkind | hkind <;> simp [Outline.skipped?, hkind] at hskipped
    have hfiltered : Outline.skipped? linkage t (ts.filter keep) = none := by
      rw [Outline.skipped?_filter hkeep, hskipped]
      rfl
    have hne : run.1.keeping keep ≠ .skipped [] := by
      intro hgone
      have hmem : t ∈ (run.1.keeping keep).tokens := by
        rw [Item.tokens_keeping]
        exact List.mem_filter.2 ⟨Outline.mem_tokens_external markers heof ts, ht⟩
      rw [hgone] at hmem
      cases hmem
    rw [List.filter_cons_of_pos ht, outline_cons_external heof hnone hfiltered, Outline.external_filter hkeep markers ht heof,
      List.map_cons, List.filter_cons_of_pos (by simpa using hne), ← ih]

/-! ### Surveys -/

theorem Tracker.passAll_filter {keep : Token → Bool} (hkeep : LeavesComments keep) (t : Tracker) (ts : List Token) :
    t.passAll (ts.filter keep) = t.passAll ts := by
  induction ts generalizing t with
  | nil => rfl
  | cons token ts ih =>
    cases hkept : keep token with
    | true =>
      rw [List.filter_cons_of_pos hkept, passAll_cons, passAll_cons]
      cases t.pass token with
      | ok behind => exact ih behind
      | error fault => rfl
    | false =>
      rw [List.filter_cons_of_neg (by simp [hkept]), ih, passAll_cons, pass_of_directive?_eq_none (hkeep.directive? hkept)]
      rfl

namespace Surveying

variable {keep : Token → Bool}

theorem follow_filter (hkeep : LeavesComments keep) (s : Surveying) (ts : List Token) :
    s.follow (ts.filter keep) = s.follow ts := by
  rw [follow, follow, Tracker.passAll_filter hkeep]

/-- A run is taken in by the tokens of it that are kept. -/
theorem step_keeping (hkeep : LeavesComments keep) (source : List Char) (markers : Bool) (s : Surveying) (item : Item) :
    s.step source markers (item.keeping keep) = s.step source markers item := by
  cases item with
  | directive token =>
    cases ht : keep token with
    | true => simp [Item.keeping, ht]
    | false =>
      have hnone := hkeep.directive? ht
      have hfollow : s.follow [token] = .ok s := by
        rw [follow, Tracker.passAll_singleton, Tracker.pass_of_directive?_eq_none hnone]
      have hnothing : (Item.directive token).keeping keep = .skipped [] := by simp [Item.keeping, ht]
      rw [hnothing, step, step, hfollow, hnone]
      rfl
  | skipped tokens => exact follow_filter hkeep s tokens
  | construct tokens c => simp only [Item.keeping, step, follow_filter hkeep]
  | malformed before fault behind => simp only [Item.keeping, step, follow_filter hkeep]

/-- Runs that are gone have nothing to be taken in. -/
theorem foldlM_step_filter (source : List Char) (markers : Bool) (s : Surveying) (items : List Item) :
    (items.filter (· ≠ .skipped [])).foldlM (step source markers) s = items.foldlM (step source markers) s := by
  induction items generalizing s with
  | nil => rfl
  | cons item items ih =>
    by_cases hitem : item = .skipped []
    · subst hitem
      rw [List.filter_cons_of_neg (by simp), ih]
      rfl
    · rw [List.filter_cons_of_pos (by simpa using hitem), List.foldlM_cons, List.foldlM_cons]
      congr 1
      funext between
      exact ih between

end Surveying

/-- Tokens say the same without some of their comments. -/
theorem survey_filter {keep : Token → Bool} (hkeep : LeavesComments keep) (markers : Bool) (source : String)
    (tokens : List Token) : survey markers source (tokens.filter keep) = survey markers source tokens := by
  simp only [survey, outline_filter hkeep, Surveying.foldlM_step_filter, List.foldlM_map,
    Surveying.step_keeping hkeep]

end CHeader
