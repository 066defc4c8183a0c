import CHeader.Proofs.LineNumbers
import CHeader.Proofs.Placing

/-!
# What is read tiles the text

A scanner passes a gap and reads a lexeme, a token or a fault, of at least one character
(`Scanner.step_of_not_atEnd`). So what is read of a text lies one behind the other in it, with nothing but gaps
between, before the first and behind the last (`Scanner.tiles_items`), and the token of the end is read at the end of
the text for ever (`Scanner.next_onward`). The spans are those of the pieces of the text (`items_tile_text`).
-/

namespace CHeader

open Lexeme (gapLength)

/-! ### Gaps -/

/-- What may stand between lexemes: white space, and ends of lines behind a backslash. -/
inductive Gap : List Char → Prop
  | nil : Gap []
  | blank {c : Char} {cs : List Char} (white : c ∈ [' ', '\t', '\n', '\r', '\x0C', '\x0B']) (rest : Gap cs) : Gap (c :: cs)
  | newline {cs : List Char} (rest : Gap cs) : Gap ('\\' :: '\n' :: cs)
  | carriage {cs : List Char} (rest : Gap cs) : Gap ('\\' :: '\r' :: '\n' :: cs)

/-- What the scanner passes over is a gap. -/
theorem gap_take_gapLength (cs : List Char) : Gap (cs.take (gapLength cs)) := by
  fun_induction gapLength cs with
  | case1 => exact .nil
  | case2 cs ih =>
    rw [Nat.add_comm]
    exact .newline ih
  | case3 cs ih =>
    rw [Nat.add_comm]
    exact .carriage ih
  | case4 c cs _ _ hblank ih =>
    rw [Nat.add_comm, List.take_succ_cons]
    refine .blank ?_ ih
    simp only [Lexeme.isBlank, Bool.or_eq_true, decide_eq_true_eq] at hblank
    simp only [List.mem_cons, List.not_mem_nil, or_false]
    tauto
  | case5 => exact .nil

theorem byteLength_eq_zero_iff {cs : List Char} : byteLength cs = 0 ↔ cs = [] := by
  constructor
  · intro h
    by_contra hne
    have := byteLength_pos hne
    omega
  · rintro rfl
    rfl

/-! ### Reading on -/

/-- The items lie in `text` behind byte `offset`, and nothing but gaps is left over. -/
inductive Tiles : Nat → List Char → List (Except Diagnostic Token) → Prop
  | nil {offset : Nat} {gap : List Char} (isGap : Gap gap) : Tiles offset gap []
  | cons {offset : Nat} {gap text rest : List Char} {item : Except Diagnostic Token} {items : List (Except Diagnostic Token)}
      (isGap : Gap gap) (nonempty : text ≠ [])
      (span : (readAt item).2 = ⟨offset + byteLength gap, offset + byteLength gap + byteLength text⟩)
      (token : ∀ t, item = .ok t → t.kind ≠ .eof ∧ (t.spaced = true ↔ gap ≠ []))
      (more : Tiles (offset + byteLength gap + byteLength text) rest items) :
      Tiles offset (gap ++ text ++ rest) (item :: items)

namespace Scanner

/-- The place behind the next `n` answers. -/
def onward (s : Scanner) : Nat → Scanner
  | 0 => s
  | n + 1 => s.next.2.onward n

/-- Before the end, the scanner passes a gap and reads at least one character behind it. -/
theorem step_of_not_atEnd {s : Scanner} (h : s.atEnd = false) :
    ∃ gap text, s.rest = gap ++ text ++ s.next.2.rest ∧ Gap gap ∧ text ≠ [] ∧
      (readAt s.next.1).2 = ⟨s.offset + byteLength gap, s.offset + byteLength gap + byteLength text⟩ ∧
      s.next.2.offset = s.offset + byteLength gap + byteLength text ∧
      ∀ t, s.next.1 = .ok t → t.kind ≠ .eof ∧ (t.spaced = true ↔ gap ≠ []) := by
  cases hplace : s.skipGap.rest with
  | nil => simp [atEnd, hplace] at h
  | cons c cs =>
    have hoffset : s.skipGap.offset = s.offset + byteLength (s.rest.take (gapLength s.rest)) := rfl
    have hspaced : s.offset < s.skipGap.offset ↔ s.rest.take (gapLength s.rest) ≠ [] := by
      rw [hoffset, ← not_iff_not, not_not, ← byteLength_eq_zero_iff]
      omega
    refine ⟨s.rest.take (gapLength s.rest), c :: cs.take (Lexeme.lexeme c cs).tail, ?_, gap_take_gapLength _, by simp, ?_⟩
    · have hbehind : s.next.2.rest = cs.drop (Lexeme.lexeme c cs).tail := by simp [next, hplace, readLexeme, advance]
      have hsplit := rest_skipGap s
      rw [hplace] at hsplit
      rw [hbehind, List.append_assoc, List.cons_append, List.take_append_drop, ← hsplit]
    · simp only [next, hplace, readLexeme, advance, List.take_succ_cons, hoffset]
      have heof := Lexeme.lexeme_outcome_ne_eof c cs
      cases houtcome : (Lexeme.lexeme c cs).outcome with
      | error fault => exact ⟨rfl, trivial, by simp⟩
      | ok kind =>
        refine ⟨rfl, trivial, ?_⟩
        rintro t ⟨⟩
        refine ⟨?_, by simpa [hoffset] using hspaced⟩
        rintro rfl
        exact heof houtcome

/-- What is read tiles the text, up to the end. -/
theorem tiles_items (s : Scanner) :
    ∃ body line, s.items = body ++ [.ok (.endOfText (s.offset + byteLength s.rest) line)] ∧ Tiles s.offset s.rest body := by
  fun_induction items s with
  | case1 s hend =>
    have hgap := isGap_of_atEnd hend
    have hplace : s.skipGap.rest = [] := by simpa [atEnd] using hend
    have hoffset : s.skipGap.offset = s.offset + byteLength s.rest := by
      rw [skipGap, advance, hgap, List.take_length]
    refine ⟨[], s.skipGap.lines.lineOf s.skipGap.offset, ?_, .nil ?_⟩
    · simp only [next, hplace, hoffset, List.nil_append]
    · have hall := gap_take_gapLength s.rest
      rwa [hgap, List.take_length] at hall
  | case2 s hend ih =>
    obtain ⟨gap, text, hrest, hgap, hne, hspan, hoffset, hspaced⟩ := step_of_not_atEnd hend
    obtain ⟨body, line, hitems, htiles⟩ := ih
    rw [hoffset] at hitems htiles
    refine ⟨s.next.1 :: body, line, ?_, ?_⟩
    · rw [hitems, hrest]
      simp [Nat.add_assoc]
    · rw [hrest]
      exact .cons hgap hne hspan hspaced htiles

/-- Where nothing is left, there is no gap to pass. -/
theorem skipGap_of_rest_eq_nil {s : Scanner} (h : s.rest = []) : s.skipGap = s := by
  obtain ⟨lines, offset, rest⟩ := s
  subst h
  rfl

/-- At the end, the scanner stays there with the same answer. -/
theorem next_of_atEnd {s : Scanner} (h : s.atEnd = true) : s.next.2.atEnd = true ∧ s.next.2.next.1 = s.next.1 := by
  have hplace : s.skipGap.rest = [] := by simpa [atEnd] using h
  have hnext : s.next = (.ok (.endOfText s.skipGap.offset (s.skipGap.lines.lineOf s.skipGap.offset)), s.skipGap) := by
    simp only [next, hplace]
  have hstays : s.skipGap.skipGap = s.skipGap := skipGap_of_rest_eq_nil hplace
  rw [hnext]
  refine ⟨by simp [atEnd, hstays, hplace], ?_⟩
  simp only [next, hstays, hplace]

theorem next_onward_of_atEnd {s : Scanner} (h : s.atEnd = true) (n : Nat) : (s.onward n).next.1 = s.next.1 := by
  induction n generalizing s with
  | zero => rfl
  | succ n ih =>
    obtain ⟨hend, hnext⟩ := next_of_atEnd h
    rw [onward, ih hend, hnext]

/-- The answers of the scanner are its items, and the last of them for ever. -/
theorem next_onward {s : Scanner} {body : List (Except Diagnostic Token)} {last : Except Diagnostic Token}
    (h : s.items = body ++ [last]) (n : Nat) : (s.onward n).next.1 = body[n]?.getD last := by
  fun_induction items s generalizing body n with
  | case1 s hend =>
    obtain ⟨rfl, hlast⟩ : body = [] ∧ s.next.1 = last := by
      cases body with
      | nil => exact ⟨rfl, by simpa using h⟩
      | cons item body => simp at h
    rw [next_onward_of_atEnd hend, hlast]
    rfl
  | case2 s hend ih =>
    cases body with
    | nil =>
      obtain ⟨body', line, hitems, -⟩ := s.next.2.tiles_items
      simp [hitems] at h
    | cons item body =>
      obtain ⟨rfl, hrest⟩ := List.cons.inj h
      cases n with
      | zero => rfl
      | succ n =>
        rw [onward, ih hrest]
        rfl

end Scanner

/-! ### Spans -/

/-- The end of the last item, or the place where there is none. -/
def endOf (place : Nat) (items : List (Except Diagnostic Token)) : Nat :=
  (items.getLast?.map fun item => (readAt item).2.stop).getD place

theorem endOf_cons (place : Nat) (item : Except Diagnostic Token) (items : List (Except Diagnostic Token)) :
    endOf place (item :: items) = endOf (readAt item).2.stop items := by
  unfold endOf
  cases items with
  | nil => rfl
  | cons other items => rw [List.getLast?_cons_cons, List.getLast?_eq_some_getLast (List.cons_ne_nil other items)]; rfl

namespace Tiles

variable {before cs : List Char} {items : List (Except Diagnostic Token)}

/-- Every item is a piece of the text, behind a gap that begins where the item before it ends. -/
theorem split (h : Tiles (byteLength before) cs items) {earlier later : List (Except Diagnostic Token)}
    {item : Except Diagnostic Token} (hitems : items = earlier ++ item :: later) :
    ∃ front gap text rest, before ++ cs = front ++ gap ++ text ++ rest ∧ Gap gap ∧ text ≠ [] ∧
      byteLength front = endOf (byteLength before) earlier ∧
      (readAt item).2 = ⟨byteLength (front ++ gap), byteLength (front ++ gap) + byteLength text⟩ ∧
      ∀ t, item = .ok t → t.kind ≠ .eof ∧ (t.spaced = true ↔ gap ≠ []) := by
  induction earlier generalizing before cs items with
  | nil =>
    subst hitems
    obtain _ | ⟨hgap, hne, hspan, htoken, -⟩ := h
    rename_i gap text rest
    exact ⟨before, gap, text, rest, by simp, hgap, hne, rfl, by simpa using hspan, htoken⟩
  | cons other earlier ih =>
    subst hitems
    obtain _ | ⟨-, -, hspan, -, hmore⟩ := h
    rename_i gap text rest
    rw [← byteLength_append, ← byteLength_append] at hmore
    obtain ⟨front, gap', text', rest', hall, hgap, hne, hend, hitem⟩ := ih hmore rfl
    refine ⟨front, gap', text', rest', ?_, hgap, hne, ?_, hitem⟩
    · rw [← hall]
      simp
    · rw [hend, endOf_cons, hspan, byteLength_append, byteLength_append]

/-- The items are in the text, one behind the other, and not empty. -/
theorem ordered (h : Tiles (byteLength before) cs items) :
    (∀ item ∈ items, byteLength before ≤ (readAt item).2.start ∧ (readAt item).2.start < (readAt item).2.stop) ∧
      items.Pairwise fun item other => (readAt item).2.stop ≤ (readAt other).2.start := by
  induction items generalizing before cs with
  | nil => exact ⟨by simp, .nil⟩
  | cons item items ih =>
    obtain _ | ⟨-, hne, hspan, -, hmore⟩ := h
    rename_i gap text rest
    have hpositive := byteLength_pos hne
    rw [← byteLength_append, ← byteLength_append] at hmore
    obtain ⟨hplaces, hpairwise⟩ := ih hmore
    simp only [byteLength_append] at hplaces
    refine ⟨List.forall_mem_cons.2 ⟨?_, fun other hother => ?_⟩, .cons (fun other hother => ?_) hpairwise⟩
    · rw [hspan]
      simp only
      omega
    · have := hplaces other hother
      omega
    · rw [hspan]
      have := hplaces other hother
      simp only
      omega

/-- Behind the last item nothing but a gap is left. -/
theorem last (h : Tiles (byteLength before) cs items) :
    ∃ front gap, before ++ cs = front ++ gap ∧ Gap gap ∧ byteLength front = endOf (byteLength before) items := by
  induction items generalizing before cs with
  | nil =>
    obtain ⟨hgap⟩ := h
    exact ⟨before, cs, rfl, hgap, rfl⟩
  | cons item items ih =>
    obtain _ | ⟨-, -, hspan, -, hmore⟩ := h
    rename_i gap text rest
    rw [← byteLength_append, ← byteLength_append] at hmore
    obtain ⟨front, gap', hall, hgap, hend⟩ := ih hmore
    refine ⟨front, gap', ?_, hgap, ?_⟩
    · rw [← hall]
      simp
    · rw [hend, endOf_cons, hspan, byteLength_append, byteLength_append]

end Tiles

/-- The lexer tiles its input. What it answers is the items of the text, and then the end of the text for ever. The items
are whole characters of the text, at least one each, and stand one behind the other. Between them, before the first and
behind the last there is nothing but gaps, and a token is spaced exactly if there is something in the gap before it. -/
theorem items_tile_text (source : String) :
    let text := source.toList
    ∃ items line, (∀ n, ((Scanner.ofText text).onward n).next.1 = items[n]?.getD (.ok (.endOfText (byteLength text) line))) ∧
      (∀ item ∈ items, (∀ t, item = .ok t → t.kind ≠ .eof) ∧ (readAt item).2.start < (readAt item).2.stop ∧
        ∃ piece, (readAt item).2.slice? text = some piece) ∧
      (items.Pairwise fun item other => (readAt item).2.stop ≤ (readAt other).2.start) ∧
      (∀ earlier item later, items = earlier ++ item :: later →
        ∃ gap, Span.slice? ⟨endOf 0 earlier, (readAt item).2.start⟩ text = some gap ∧ Gap gap ∧
          ∀ t, item = .ok t → (t.spaced = true ↔ gap ≠ [])) ∧
      ∃ gap, Span.slice? ⟨endOf 0 items, byteLength text⟩ text = some gap ∧ Gap gap := by
  intro text
  obtain ⟨items, line, hitems, htiles⟩ := (Scanner.ofText text).tiles_items
  have htiles : Tiles (byteLength []) text items := htiles
  have hend : (Scanner.ofText text).items = items ++ [.ok (.endOfText (byteLength text) line)] := by
    simpa [Scanner.ofText] using hitems
  obtain ⟨hplaces, hpairwise⟩ := htiles.ordered
  refine ⟨items, line, Scanner.next_onward hend, fun item hitem => ?_, hpairwise, ?_, ?_⟩
  · obtain ⟨earlier, later, hsplit⟩ := List.append_of_mem hitem
    obtain ⟨front, gap, piece, rest, hall, -, -, -, hspan, htoken⟩ := htiles.split hsplit
    refine ⟨fun t ht => (htoken t ht).1, (hplaces item hitem).2, piece, ?_⟩
    rw [hspan, ← List.nil_append text, hall]
    exact Span.slice?_append (front ++ gap) piece rest
  · intro earlier item later hsplit
    obtain ⟨front, gap, piece, rest, hall, hgap, -, hfront, hspan, htoken⟩ := htiles.split hsplit
    refine ⟨gap, ?_, hgap, fun t ht => (htoken t ht).2⟩
    rw [byteLength_nil] at hfront
    rw [hspan, ← hfront, ← List.nil_append text, hall, byteLength_append, List.append_assoc]
    exact Span.slice?_append front gap (piece ++ rest)
  · obtain ⟨front, gap, hall, hgap, hfront⟩ := htiles.last
    refine ⟨gap, ?_, hgap⟩
    rw [byteLength_nil] at hfront
    rw [List.nil_append] at hall
    have hslice := Span.slice?_append front gap []
    rw [List.append_nil, ← byteLength_append, ← hall] at hslice
    rwa [← hfront]

end CHeader
