import CHeader.Proofs.KindMaps

/-!
# The tokens that declare a name

A declarator is cut out of a construct at the commas, and before the initializer. No comma and no equals sign
stands in it outside all groups, so cut again it stays as it is (`splitCommas_declaring`). Up to the parenthesis
behind its name, a declarator is read in the same way whatever follows (`Declarator.ofTokens_front`): so the
parameters of a function can be replaced by none.
-/

namespace CHeader

namespace Nesting

/-! ### Groups -/

/-- A group that is closed is the same whatever follows it. -/
theorem closing_append {depth : Nat} {ts rest : List Token} (h : closing depth ts ++ rest = ts) (hrest : rest ≠ [])
    (more : List Token) : closing depth (closing depth ts ++ more) = closing depth ts := by
  fun_induction closing depth ts with
  | case1 => simp [closing]
  | case2 => exact absurd h hrest
  | case3 depth t ts ih =>
    rw [List.cons_append, closing, ih (List.cons.inj h).2]

theorem drop_closing_append {depth : Nat} {ts rest : List Token} (h : closing depth ts ++ rest = ts) (hrest : rest ≠ [])
    (more : List Token) :
    (closing depth ts ++ more).drop (closing depth (closing depth ts ++ more)).length = more := by
  rw [closing_append h hrest, List.drop_left]

theorem closing_append_drop (depth : Nat) (ts : List Token) : closing depth ts ++ ts.drop (closing depth ts).length = ts :=
  List.prefix_iff_eq_append.1 (prefix_closing depth ts)

theorem parenthesized_append_drop (ts : List Token) : parenthesized ts ++ ts.drop (parenthesized ts).length = ts :=
  List.prefix_iff_eq_append.1 (prefix_parenthesized ts)

theorem parenthesized_append {ts rest : List Token} (h : parenthesized ts ++ rest = ts) {more : List Token}
    (hrest : rest ≠ []) (hmore : more.head? = rest.head?) :
    parenthesized (parenthesized ts ++ more) = parenthesized ts := by
  cases ts with
  | nil => simp_all [parenthesized]
  | cons t ts =>
    by_cases hopening : t.kind = .opening .paren
    · rw [parenthesized, if_pos hopening] at h ⊢
      rw [List.cons_append, parenthesized, if_pos hopening, closing_append (List.cons.inj h).2 hrest]
    · rw [parenthesized, if_neg hopening] at h ⊢
      rw [List.nil_append] at h ⊢
      cases more with
      | nil => rfl
      | cons u us =>
        obtain rfl : u = t := by simpa [h] using hmore
        rw [parenthesized, if_neg hopening]

/-! ### Cuts -/

/-- Where a kind does not occur outside the groups, it does not before a place either. -/
theorem breakAt_of_append {kind : TokenKind} {depth : Nat} {first rest : List Token}
    (h : (breakAt kind depth (first ++ rest)).2 = []) : (breakAt kind depth first).2 = [] := by
  induction first generalizing depth with
  | nil => rfl
  | cons t ts ih =>
    rw [List.cons_append, breakAt] at h
    rw [breakAt]
    split_ifs at h ⊢
    exact ih h

theorem breakAt_concat {kind : TokenKind} {depth : Nat} {ts : List Token} (h : (breakAt kind depth ts).2 = []) {t : Token}
    (ht : t.kind ≠ kind) : (breakAt kind depth (ts ++ [t])).2 = [] := by
  induction ts generalizing depth with
  | nil => simp [breakAt, ht]
  | cons u us ih =>
    rw [breakAt] at h
    rw [List.cons_append, breakAt]
    split_ifs at h ⊢
    exact ih h

theorem breakAt_fst (kind : TokenKind) (depth : Nat) (ts : List Token) :
    (breakAt kind depth (breakAt kind depth ts).1).2 = [] := by
  fun_induction breakAt kind depth ts with
  | case1 => rfl
  | case2 => rfl
  | case3 depth t ts h before behind heq ih =>
    rw [heq] at ih
    rw [breakAt, if_neg h]
    exact ih

theorem fst_breakAt {kind : TokenKind} {depth : Nat} {ts : List Token} (h : (breakAt kind depth ts).2 = []) :
    (breakAt kind depth ts).1 = ts := by
  simpa [h] using breakAt_append kind depth ts

/-- No comma stands in a piece, outside all groups. -/
theorem breakAt_of_mem_splitCommas {stop : Token} {depth : Nat} {ts : List Token} :
    (∀ piece ∈ (splitCommas stop depth ts).head?, (breakAt (.punct .comma) depth piece.tokens).2 = []) ∧
      ∀ piece ∈ (splitCommas stop depth ts).tail, (breakAt (.punct .comma) 0 piece.tokens).2 = [] := by
  fun_induction splitCommas stop depth ts with
  | case1 => simp [breakAt]
  | case2 depth t ts h ih =>
    refine ⟨by simp [breakAt], ?_⟩
    intro piece hpiece
    rw [List.tail_cons] at hpiece
    cases hsplit : splitCommas stop 0 ts with
    | nil => simp [hsplit] at hpiece
    | cons first rest =>
      rw [hsplit] at hpiece ih
      rcases List.mem_cons.1 hpiece with rfl | hpiece
      · exact ih.1 _ rfl
      · exact ih.2 _ hpiece
  | case3 depth t ts h first rest hsplit ih =>
    rw [hsplit] at ih
    refine ⟨?_, ih.2⟩
    simp only [List.head?_cons, Option.mem_some_iff, forall_eq']
    rw [breakAt, if_neg h]
    exact ih.1 first rfl
  | case4 => simp

theorem comma_of_mem_splitCommas {stop : Token} {ts : List Token} {piece : Piece} (h : piece ∈ splitCommas stop 0 ts) :
    (breakAt (.punct .comma) 0 piece.tokens).2 = [] := by
  obtain ⟨hfirst, hrest⟩ := @breakAt_of_mem_splitCommas stop 0 ts
  cases hsplit : splitCommas stop 0 ts with
  | nil => simp [hsplit] at h
  | cons first rest =>
    rw [hsplit] at h hfirst hrest
    rcases List.mem_cons.1 h with rfl | h
    · exact hfirst _ rfl
    · exact hrest _ h

/-- Tokens without such a comma are one piece. -/
theorem splitCommas_of_breakAt {stop : Token} {depth : Nat} {ts : List Token}
    (h : (breakAt (.punct .comma) depth ts).2 = []) : splitCommas stop depth ts = [⟨ts, stop⟩] := by
  induction ts generalizing depth with
  | nil => rfl
  | cons t ts ih =>
    rw [breakAt] at h
    rw [splitCommas]
    split_ifs at h ⊢
    rw [ih h]

namespace Piece

/-- What declares a name is the front of its piece. -/
theorem declaring_append (piece : Piece) : ∃ rest, piece.tokens = piece.declaring ++ rest :=
  ⟨_, (breakAt_append (.punct .eq) 0 piece.tokens).symm⟩

theorem equals_declaring (piece : Piece) : (breakAt (.punct .eq) 0 piece.declaring).2 = [] :=
  breakAt_fst ..

theorem comma_declaring {stop : Token} {ts : List Token} {piece : Piece} (h : piece ∈ splitCommas stop 0 ts) :
    (breakAt (.punct .comma) 0 piece.declaring).2 = [] := by
  obtain ⟨rest, hrest⟩ := piece.declaring_append
  have hcomma := comma_of_mem_splitCommas h
  rw [hrest] at hcomma
  exact breakAt_of_append hcomma

end Piece

end Nesting

/-! ### Reading a declarator -/

namespace Declarator

/-- Behind the parameters nothing is found. -/
theorem read_of_parameters {context : Context} {found : Declarator} {ts : List Token} (h : found.parameters.isSome) :
    read context found ts = found := by
  fun_induction read context found ts <;> simp_all

/-- Up to its parameters, a declarator is read in the same way whatever follows. -/
theorem read_front {context : Context} {found : Declarator} {ts : List Token} (hfound : found.parameters = none)
    {opening : Token} (h : (read context found ts).parameters = some opening) :
    ∃ front rest, ts = front ++ opening :: rest ∧ opening.kind = .opening .paren ∧
      ∀ more, read context found (front ++ opening :: more) = read context found ts := by
  fun_induction read context found ts with
  | case1 => simp [hfound] at h
  | case2 context found t ts word hkind hattribute argument ih =>
    obtain ⟨front, rest, hsplit, hopening, hmore⟩ := ih hfound h
    refine ⟨t :: (argument ++ front), rest, ?_, hopening, fun more => ?_⟩
    · rw [List.cons_append, List.append_assoc, ← hsplit, Nesting.parenthesized_append_drop]
    · have hargument : Nesting.parenthesized (argument ++ (front ++ opening :: more)) = argument := by
        have hrest : Nesting.parenthesized ts ++ (front ++ opening :: rest) = ts := by
          rw [← hsplit, Nesting.parenthesized_append_drop]
        exact Nesting.parenthesized_append hrest (by simp) (by cases front <;> rfl)
      rw [List.cons_append, List.append_assoc, read, hkind]
      simp only [hattribute, if_true, hargument, List.drop_left]
      exact hmore more
  | case3 context found t ts word hkind hattribute hnone ih =>
    obtain ⟨front, rest, rfl, hopening, hmore⟩ := ih hfound h
    refine ⟨t :: front, rest, rfl, hopening, fun more => ?_⟩
    rw [List.cons_append, read, hkind]
    simp only [hattribute, hnone, Bool.false_eq_true, if_false, if_true]
    exact hmore more
  | case4 context found t ts word hkind hattribute hnone => simp [hfound] at hnone
  | case5 found t ts hkind behind hnone =>
    rw [read_of_parameters (by simp)] at h
    obtain rfl : t = opening := by simpa using h
    refine ⟨[], ts, rfl, hkind, fun more => ?_⟩
    rw [List.nil_append, read, hkind]
    simp only [hnone, if_true]
    rw [read_of_parameters (by simp), read_of_parameters (by simp)]
  | case6 found t ts hkind behind hnone => simp [hfound] at hnone
  | case7 found t ts hkind behind ih =>
    obtain ⟨front, rest, hsplit, hopening, hmore⟩ := ih hfound h
    refine ⟨t :: (Nesting.closing 1 ts ++ front), rest, ?_, hopening, fun more => ?_⟩
    · rw [List.cons_append, List.append_assoc, ← hsplit, Nesting.closing_append_drop]
    · rw [List.cons_append, List.append_assoc, read, hkind]
      have hrest : Nesting.closing 1 ts ++ (front ++ opening :: rest) = ts := by
        rw [← hsplit, Nesting.closing_append_drop]
      simp only [Nesting.drop_closing_append hrest (by simp)]
      exact hmore more
  | case8 found t ts hkind ih =>
    obtain ⟨front, rest, rfl, hopening, hmore⟩ := ih hfound h
    refine ⟨t :: front, rest, rfl, hopening, fun more => ?_⟩
    rw [List.cons_append, read, hkind]
    exact hmore more
  | case9 context found t ts hkind ih =>
    obtain ⟨front, rest, hsplit, hopening, hmore⟩ := ih hfound h
    refine ⟨t :: (Nesting.closing 1 ts ++ front), rest, ?_, hopening, fun more => ?_⟩
    · rw [List.cons_append, List.append_assoc, ← hsplit, Nesting.closing_append_drop]
    · rw [List.cons_append, List.append_assoc, read, hkind]
      have hrest : Nesting.closing 1 ts ++ (front ++ opening :: rest) = ts := by
        rw [← hsplit, Nesting.closing_append_drop]
      simp only [Nesting.drop_closing_append hrest (by simp)]
      exact hmore more
  | case10 context found t ts hkind ih | case11 context found t ts hkind ih =>
    obtain ⟨front, rest, rfl, hopening, hmore⟩ := ih hfound h
    refine ⟨t :: front, rest, rfl, hopening, fun more => ?_⟩
    rw [List.cons_append, read, hkind]
    exact hmore more
  | case12 context found t ts hidentifier hparen hsquare hclose hcloseSquare ih =>
    obtain ⟨front, rest, rfl, hopening, hmore⟩ := ih hfound h
    refine ⟨t :: front, rest, rfl, hopening, fun more => ?_⟩
    rw [List.cons_append, read]
    split <;> simp_all

/-- A declarator that is cut off behind the parenthesis of its parameters names the same function. -/
theorem ofTokens_front {ts : List Token} {opening : Token} (h : (ofTokens ts).parameters = some opening) :
    ∃ front rest, ts = front ++ opening :: rest ∧ opening.kind = .opening .paren ∧
      ∀ more, ofTokens (front ++ opening :: more) = ofTokens ts :=
  read_front rfl h

end Declarator

end CHeader
