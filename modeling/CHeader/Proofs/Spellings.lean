import CHeader.Proofs.Checked.Spelling

/-!
# Spellings read back

Some tokens of a text, taken in order, are spelled in one line with blanks only where the text had something between
them or where two words meet. This is enough to keep them apart: up to the next blank the line is what the text was,
so that each token is read as it was there, and nothing is read across a blank (`TakenFrom.tokenize_spell`). Spelled
once more, the tokens that are read give the same line (`spelling_keeps_tokens`).
-/

namespace CHeader

/-- Tokens taken from a text are read from their spelling, and are spelled in the same way again. -/
theorem TakenFrom.tokenize_spell {source : List Char} {ts : List Token} (h : TakenFrom source ts) :
    ∃ again last, tokenize (spell ts) = .ok (again ++ [last]) ∧ last.kind = .eof ∧
      again.map (·.kind) = ts.map (·.kind) ∧ spell again = spell ts := by
  have hreads : Reads (spelled ts) [] := @Reads.front _ [] [';'] (reads_spelled h separator_semicolon [])
  have hchars : (spell ts).toList = Lexed.allChars (spelled ts) ++ [] := by rw [allChars_spelled, List.append_nil]
  obtain ⟨again, last, htokens, hstands, hlast⟩ := tokenize_of_reads hchars hreads rfl
  exact ⟨again, last, htokens, hlast, hstands.map_kind.trans (map_kind_spelled ts), spell_of_stands hstands⟩

/-! ### Tokens by position -/

section Picked

variable {tokens body : List Token} {last : Token} {indices : List Nat}

/-- What stands at increasing positions from `k` on is a part of what stands there. -/
theorem sublist_drop_of_increasing (hincreasing : indices.Pairwise (· < ·)) {k : Nat} (hfrom : ∀ i ∈ indices, k ≤ i) :
    (indices.filterMap (tokens[·]?)).Sublist (tokens.drop k) := by
  induction indices generalizing k with
  | nil => exact List.nil_sublist _
  | cons i indices ih =>
    obtain ⟨hbehind, hincreasing⟩ := List.pairwise_cons.1 hincreasing
    have hle : k ≤ i := hfrom i List.mem_cons_self
    have hrest := ih hincreasing hbehind
    cases hi : tokens[i]? with
    | none =>
      rw [List.filterMap_cons_none hi]
      exact hrest.trans (List.drop_sublist_drop_left tokens (by omega))
    | some t =>
      obtain ⟨hlt, rfl⟩ := List.getElem?_eq_some_iff.1 hi
      have hsplit : (tokens[i] :: tokens.drop (i + 1)).Sublist (tokens.drop k) := by
        rw [← List.drop_eq_getElem_cons hlt]
        exact List.drop_sublist_drop_left tokens hle
      rw [List.filterMap_cons_some hi]
      exact (hrest.cons_cons _).trans hsplit

/-- Positions before the end of a text pick the tokens there. -/
theorem Checked.picks_of_increasing (hincreasing : indices.Pairwise (· < ·)) (hinner : ∀ i ∈ indices, i < body.length) :
    Checked.Picks (body ++ [last]) indices (indices.filterMap (body[·]?)) := by
  refine ⟨⟨?_, hincreasing⟩, fun i hi => ?_⟩
  · induction indices with
    | nil => rfl
    | cons i indices ih =>
      have hlt := hinner i List.mem_cons_self
      have hrest := ih (List.pairwise_cons.1 hincreasing).2 fun j hj => hinner j (List.mem_cons_of_mem i hj)
      have hi : Checked.token? (body ++ [last]) i = some body[i] := by
        rw [Checked.token?_of_lt (by simp; omega), List.getElem?_append_left hlt, List.getElem?_eq_getElem hlt]
      rw [List.filterMap_cons_some (List.getElem?_eq_getElem hlt), List.map_cons, List.map_cons, hi, hrest]
  · have := hinner i hi
    simpa using this

theorem filterMap_range_getElem? (body : List Token) : (List.range body.length).filterMap (body[·]?) = body := by
  induction body using List.reverseRecOn with
  | nil => rfl
  | append_singleton body t ih =>
    have hsame : (List.range body.length).filterMap ((body ++ [t])[·]?) = (List.range body.length).filterMap (body[·]?) := by
      apply List.filterMap_congr
      intro i hi
      exact List.getElem?_append_left (List.mem_range.1 hi)
    rw [List.length_append, List.length_singleton, List.range_succ, List.filterMap_append, hsame, ih]
    simp

end Picked

/-- The tokens at some increasing positions of a text, none of them a comment, a directive or the end, are joined by
their spelling. It is a text with these tokens before its end, and joining them gives it again. -/
theorem spelling_keeps_tokens {source : String} {tokens : List Token} (htokens : tokenize source = .ok tokens)
    {indices : List Nat} (hincreasing : indices.Pairwise (· < ·))
    (hpicked : ∀ i ∈ indices, ∃ t, tokens[i]? = some t ∧ t.isSignificant = true ∧ t.kind ≠ .eof) :
    ∃ text again last, Checked.join? source.toList tokens indices = some text ∧
      text = spell (indices.filterMap (tokens[·]?)) ∧ tokenize text = .ok (again ++ [last]) ∧ last.kind = .eof ∧
      again.map (·.kind) = (indices.filterMap (tokens[·]?)).map (·.kind) ∧
      Checked.join? text.toList (again ++ [last]) (List.range again.length) = some text ∧ spell again = text := by
  obtain ⟨body, hread⟩ := Checked.readFrom_of_tokenize htokens
  obtain ⟨last, rfl, hlast⟩ := hread.split
  have hinner : ∀ i ∈ indices, i < body.length := by
    intro i hi
    obtain ⟨t, ht, -, hkind⟩ := hpicked i hi
    obtain ⟨hlt, rfl⟩ := List.getElem?_eq_some_iff.1 ht
    by_contra hend
    apply hkind
    rw [List.getElem_append_right (by omega)]
    simpa using hlast
  have hbody : indices.filterMap ((body ++ [last])[·]?) = indices.filterMap (body[·]?) :=
    List.filterMap_congr fun i hi => List.getElem?_append_left (hinner i hi)
  have htaken : TakenFrom source.toList (indices.filterMap (body[·]?)) := by
    apply hread.tokenized.takenFrom
    · exact sublist_drop_of_increasing hincreasing fun i _ => Nat.zero_le i
    · intro t ht
      obtain ⟨i, hi, hti⟩ := List.mem_filterMap.1 ht
      obtain ⟨u, hu, hsignificant, -⟩ := hpicked i hi
      rw [List.getElem?_append_left (hinner i hi), hti] at hu
      cases hu
      exact hsignificant
  obtain ⟨again, last', hagain, hlast', hkinds, hspell⟩ := htaken.tokenize_spell
  rw [hbody]
  refine ⟨_, again, last', hread.join?_eq (Checked.picks_of_increasing hincreasing hinner), rfl, hagain, hlast', hkinds,
    ?_, hspell⟩
  -- the tokens that are read before the end stand at all positions but the last
  obtain ⟨body', hread'⟩ := Checked.readFrom_of_tokenize hagain
  obtain ⟨last'', hsplit, -⟩ := hread'.split
  obtain ⟨rfl, -⟩ := List.append_inj' hsplit rfl
  have hall := @Checked.picks_of_increasing again last' (List.range again.length) List.pairwise_lt_range
    fun i hi => List.mem_range.1 hi
  rw [filterMap_range_getElem?] at hall
  rw [hread'.join?_eq hall, hspell]

/-- Two plus signs that a comment kept apart, a point that would begin a number, and a word that would begin a
literal. -/
theorem spelling_keeps_tokens_apart :
    let source := "x+/**/+y . .5\"s\" L"
    ∃ again last, tokenize source = .ok ((tokenize source).toOption.getD []) ∧
      tokenize "+ + . .5 \"s\" L" = .ok (again ++ [last]) ∧
      again.map (·.kind) = [.punct .plus, .punct .plus, .punct .dot, .number ".5", .stringLiteral "\"s\"", .identifier "L"] ∧
      spell again = "+ + . .5 \"s\" L" := by
  intro source
  have htokens : tokenize source = .ok ((tokenize source).toOption.getD []) := by decide +kernel
  have hpicked : ∀ i ∈ [1, 3, 5, 6, 7, 8], ∃ t, ((tokenize source).toOption.getD [])[i]? = some t ∧
      t.isSignificant = true ∧ t.kind ≠ .eof := by
    have hall : ∀ i ∈ [1, 3, 5, 6, 7, 8], (((tokenize source).toOption.getD [])[i]?).any
        (fun t => t.isSignificant && t.kind ≠ .eof) = true := by decide +kernel
    intro i hi
    obtain ⟨t, ht, hkind⟩ := (Option.any_eq_true _ _).1 (hall i hi)
    simp only [Bool.and_eq_true, decide_eq_true_eq] at hkind
    exact ⟨t, ht, hkind⟩
  obtain ⟨text, again, last, -, htext, hagain, -, hkinds, -, hspell⟩ :=
    @spelling_keeps_tokens source _ htokens [1, 3, 5, 6, 7, 8] (by decide) hpicked
  have hline : text = "+ + . .5 \"s\" L" := htext.trans (by decide +kernel)
  refine ⟨again, last, htokens, hline ▸ hagain, hkinds.trans (by decide +kernel), hspell.trans hline⟩

end CHeader
