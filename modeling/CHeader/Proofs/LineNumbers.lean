import CHeader.Tokens
import Mathlib.Tactic.SplitIfs

/-!
# Lines and offsets

The starts of lines are in order, so that those up to an offset come first; halving finds how many they are
(`search_eq_countP`). So the line of an offset is one more than the newlines before it (`lineOf_ofText`). Every token
and every fault is on the line of its first byte (`line_of_mem_items`).
-/

namespace CHeader

namespace LineIndex

/-! ### Halving -/

/-- Among numbers in order, those up to `offset` come first. -/
theorem any_le_iff_lt_countP {starts : List Nat} (hsorted : starts.Pairwise (· ≤ ·)) (offset i : Nat) :
    (starts[i]?).any (· ≤ offset) = true ↔ i < starts.countP (· ≤ offset) := by
  induction starts generalizing i with
  | nil => simp
  | cons start starts ih =>
    obtain ⟨hstart, hsorted⟩ := List.pairwise_cons.1 hsorted
    by_cases hle : start ≤ offset
    · rw [List.countP_cons_of_pos (by simpa using hle)]
      cases i with
      | zero => simp [hle]
      | succ i =>
        rw [List.getElem?_cons_succ, ih hsorted]
        omega
    · have hnone : starts.countP (· ≤ offset) = 0 := by
        rw [List.countP_eq_zero]
        intro other hother
        have := hstart other hother
        simp only [decide_eq_true_eq]
        omega
      rw [List.countP_cons_of_neg (by simpa using hle), hnone]
      cases i with
      | zero => simp [hle]
      | succ i =>
        rw [List.getElem?_cons_succ, ih hsorted, hnone]
        omega

/-- The search ends behind the starts up to the offset. -/
theorem search_eq_countP {starts : Array Nat} (hsorted : starts.toList.Pairwise (· ≤ ·)) {offset lo hi : Nat}
    (hlo : lo ≤ starts.toList.countP (· ≤ offset)) (hhi : starts.toList.countP (· ≤ offset) ≤ hi) :
    search starts offset lo hi = starts.toList.countP (· ≤ offset) := by
  have hmid := any_le_iff_lt_countP hsorted offset
  simp only [Array.getElem?_toList] at hmid
  fun_induction search starts offset lo hi with
  | case1 lo hi hlt mid hle ih => exact ih ((hmid mid).1 hle) hhi
  | case2 lo hi hlt mid hle ih =>
    apply ih hlo
    have := mt (hmid mid).2 hle
    omega
  | case3 => omega

/-! ### Starts of lines -/

theorem lt_of_mem_startsFrom {base start : Nat} {cs : List Char} (h : start ∈ startsFrom base cs) : base < start := by
  induction cs generalizing base with
  | nil => cases h
  | cons c cs ih =>
    have hsize := c.utf8Size_pos
    simp only [startsFrom] at h
    split_ifs at h
    · rcases List.mem_cons.1 h with rfl | h
      · omega
      · have := ih h
        omega
    · have := ih h
      omega

theorem pairwise_startsFrom (base : Nat) (cs : List Char) : (startsFrom base cs).Pairwise (· ≤ ·) := by
  induction cs generalizing base with
  | nil => exact .nil
  | cons c cs ih =>
    simp only [startsFrom]
    split_ifs
    · refine List.pairwise_cons.2 ⟨fun start hstart => ?_, ih _⟩
      exact Nat.le_of_lt (lt_of_mem_startsFrom hstart)
    · exact ih _

/-- A line starts behind each newline. -/
theorem countP_startsFrom (base n : Nat) (cs : List Char) :
    (startsFrom base cs).countP (· ≤ base + n) = newlinesBefore n cs := by
  induction cs generalizing base n with
  | nil => cases n <;> rfl
  | cons c cs ih =>
    have hsize := c.utf8Size_pos
    cases n with
    | zero =>
      rw [newlinesBefore, List.countP_eq_zero]
      intro start hstart
      have := lt_of_mem_startsFrom hstart
      simp only [decide_eq_true_eq]
      omega
    | succ n =>
      have hrest : (startsFrom (base + c.utf8Size) cs).countP (· ≤ base + (n + 1)) = newlinesBefore (n + 1 - c.utf8Size) cs := by
        by_cases hle : c.utf8Size ≤ n + 1
        · rw [← ih (base + c.utf8Size) (n + 1 - c.utf8Size), show base + c.utf8Size + (n + 1 - c.utf8Size) = base + (n + 1) by omega]
        · have hzero : n + 1 - c.utf8Size = 0 := by omega
          rw [hzero, newlinesBefore, List.countP_eq_zero]
          intro start hstart
          have := lt_of_mem_startsFrom hstart
          simp only [decide_eq_true_eq]
          omega
      simp only [startsFrom, newlinesBefore]
      split_ifs with hnewline
      · subst hnewline
        rw [List.countP_cons_of_pos (by simp [Char.utf8Size]), hrest]
        omega
      · rw [hrest]
        omega

/-- The line of an offset is one more than the newlines before it. -/
theorem lineOf_ofText (text : List Char) (offset : Nat) : (ofText text).lineOf offset = 1 + newlinesBefore offset text := by
  have hsorted : (0 :: startsFrom 0 text).Pairwise (· ≤ ·) :=
    List.pairwise_cons.2 ⟨fun start _ => Nat.zero_le start, pairwise_startsFrom 0 text⟩
  have hcount : (0 :: startsFrom 0 text).countP (· ≤ offset) = 1 + newlinesBefore offset text := by
    rw [List.countP_cons_of_pos (by simp), ← countP_startsFrom 0 offset text, Nat.zero_add]
    omega
  have hle : (0 :: startsFrom 0 text).countP (· ≤ offset) ≤ (ofText text).starts.size := List.countP_le_length
  rw [← hcount]
  exact @search_eq_countP (ofText text).starts hsorted offset 0 _ (Nat.zero_le _) hle

end LineIndex

/-! ### Newlines in two texts -/

theorem newlinesBefore_append_add (cs ds : List Char) (n : Nat) :
    newlinesBefore (byteLength cs + n) (cs ++ ds) = cs.count '\n' + newlinesBefore n ds := by
  induction cs with
  | nil => simp
  | cons c cs ih =>
    have hsize := c.utf8Size_pos
    obtain ⟨m, hm⟩ : ∃ m, c.utf8Size + byteLength cs + n = m + 1 := ⟨c.utf8Size + byteLength cs + n - 1, by omega⟩
    rw [byteLength_cons, hm, List.cons_append, newlinesBefore, show m + 1 - c.utf8Size = byteLength cs + n by omega, ih,
      List.count_cons]
    simp only [beq_iff_eq]
    omega

theorem newlinesBefore_append_of_le {cs : List Char} {n : Nat} (h : n ≤ byteLength cs) (ds : List Char) :
    newlinesBefore n (cs ++ ds) = newlinesBefore n cs := by
  induction cs generalizing n with
  | nil =>
    obtain rfl : n = 0 := Nat.le_zero.1 h
    cases ds <;> rfl
  | cons c cs ih =>
    cases n with
    | zero => rfl
    | succ n =>
      rw [byteLength_cons] at h
      rw [List.cons_append, newlinesBefore, newlinesBefore, ih (by omega)]

/-! ### Tokens and faults -/

/-- The line and the span of what was read. -/
def readAt : Except Diagnostic Token → Nat × Span
  | .ok t => (t.line, t.span)
  | .error fault => (fault.line, fault.span)

namespace Scanner

theorem lines_next (s : Scanner) : s.next.2.lines = s.lines := by
  simp only [next]
  split <;> rfl

theorem line_next (s : Scanner) : (readAt s.next.1).1 = s.lines.lineOf (readAt s.next.1).2.start := by
  simp only [next]
  split
  · rfl
  · rename_i c cs _
    simp only [readLexeme]
    cases (Lexeme.lexeme c cs).outcome <;> rfl

/-- Every token and every fault is on the line of its first byte. -/
theorem line_of_mem_items {s : Scanner} {item : Except Diagnostic Token} (h : item ∈ s.items) :
    (readAt item).1 = s.lines.lineOf (readAt item).2.start := by
  fun_induction items s with
  | case1 s hend =>
    rw [List.mem_singleton.1 h]
    exact s.line_next
  | case2 s hend ih =>
    rcases List.mem_cons.1 h with rfl | h
    · exact s.line_next
    · rw [← s.lines_next]
      exact ih h

end Scanner

/-- A token of a text is on the line that the newlines before it tell. -/
theorem line_of_mem_tokenize {source : String} {tokens : List Token} (h : tokenize source = .ok tokens) {t : Token}
    (ht : t ∈ tokens) : t.line = 1 + newlinesBefore t.span.start source.toList := by
  simp only [tokenize] at h
  split at h
  · cases h
    obtain ⟨item, hitem, heq⟩ := List.mem_filterMap.1 ht
    cases item with
    | error fault => cases heq
    | ok u =>
      cases heq
      have hline := Scanner.line_of_mem_items hitem
      exact hline.trans (LineIndex.lineOf_ofText source.toList t.span.start)
  · cases h

end CHeader
