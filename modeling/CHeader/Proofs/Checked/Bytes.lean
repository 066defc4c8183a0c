import CHeader.Proofs.LexemeContext

/-!
# Measures in bytes

A scanner counts the bytes of the UTF-8 encoding and looks at single ones of them: it searches for the end of a comment
and of a line (`find?`), goes through a literal to its closing quote (`quotedLen?`), and through a directive from index to
index, with every index and every slice checked (`directiveFrom?`). The bytes that it looks for are those of characters of
one byte, and no other character has such a byte. So each of these measures is a number of whole characters, the
number that the measures of `Lexeme` give.
-/

namespace CHeader.Checked

open Lexeme (commentLength? quotedLength? lineLength directiveExtent Extent)

/-- The bytes of a text in UTF-8. -/
def bytes (cs : List Char) : List UInt8 :=
  cs.flatMap String.utf8EncodeChar

/-- A character of one byte. -/
def Ascii (c : Char) : Prop :=
  c.toNat < 128

instance (c : Char) : Decidable (Ascii c) :=
  inferInstanceAs (Decidable (c.toNat < 128))

section Bytes

variable {c q : Char} {cs ds : List Char} {b : UInt8}

theorem bytes_cons (c : Char) (cs : List Char) : bytes (c :: cs) = String.utf8EncodeChar c ++ bytes cs :=
  List.flatMap_cons

@[simp] theorem bytes_append (cs ds : List Char) : bytes (cs ++ ds) = bytes cs ++ bytes ds :=
  List.flatMap_append

@[simp] theorem length_bytes (cs : List Char) : (bytes cs).length = byteLength cs := by
  induction cs with
  | nil => rfl
  | cons c cs ih => rw [bytes_cons, List.length_append, String.length_utf8EncodeChar, ih, byteLength_cons]

theorem utf8EncodeChar_of_ascii (h : Ascii c) : String.utf8EncodeChar c = [c.toUInt8] := by
  have hle : c.val.toNat ≤ 127 := Nat.le_of_lt_succ h
  rw [String.utf8EncodeChar]
  exact if_pos hle

theorem bytes_cons_of_ascii (h : Ascii c) (cs : List Char) : bytes (c :: cs) = c.toUInt8 :: bytes cs := by
  rw [bytes_cons, utf8EncodeChar_of_ascii h, List.singleton_append]

theorem utf8Size_of_ascii (h : Ascii c) : c.utf8Size = 1 := by
  rw [← String.length_utf8EncodeChar, utf8EncodeChar_of_ascii h, List.length_singleton]

/-- The bytes of any other character are beyond those of one-byte characters. -/
theorem le_of_mem_utf8EncodeChar (h : ¬Ascii c) (hb : b ∈ String.utf8EncodeChar c) : 128 ≤ b.toNat := by
  have hlt : 127 < c.val.toNat := by
    unfold Ascii at h
    exact Nat.lt_of_succ_le (Nat.le_of_not_lt h)
  simp only [String.utf8EncodeChar, if_neg (Nat.not_le_of_lt hlt)] at hb
  split_ifs at hb <;> simp only [List.mem_cons, List.not_mem_nil, or_false] at hb <;> rcases hb with rfl | rfl | rfl | rfl <;>
    simp only [UInt8.toNat_ofNat'] <;> omega

theorem toNat_toUInt8 (h : Ascii c) : c.toUInt8.toNat = c.toNat := by
  unfold Ascii at h
  have hmod : c.toUInt8.toNat = c.toNat % 256 := rfl
  omega

/-- A one-byte character is found among the bytes of itself only. -/
theorem eq_of_mem_utf8EncodeChar (hq : Ascii q) (h : q.toUInt8 ∈ String.utf8EncodeChar c) : c = q := by
  by_cases hc : Ascii c
  · rw [utf8EncodeChar_of_ascii hc, List.mem_singleton] at h
    have hsame := congrArg UInt8.toNat h
    rw [toNat_toUInt8 hq, toNat_toUInt8 hc] at hsame
    exact (Char.toNat_inj.1 hsame).symm
  · have hle := le_of_mem_utf8EncodeChar hc h
    rw [toNat_toUInt8 hq] at hle
    exact absurd hq (Nat.not_lt.2 hle)

theorem toUInt8_inj (hc : Ascii c) (hq : Ascii q) : c.toUInt8 = q.toUInt8 ↔ c = q := by
  refine ⟨fun h => eq_of_mem_utf8EncodeChar hq ?_, congrArg _⟩
  rw [utf8EncodeChar_of_ascii hc, ← h]
  exact List.mem_singleton.2 rfl

/-- The first byte says whether a one-byte character comes first. -/
theorem head?_bytes (hq : Ascii q) (cs : List Char) : (bytes cs).head? = some q.toUInt8 ↔ cs.head? = some q := by
  cases cs with
  | nil => simp [bytes]
  | cons c cs =>
    constructor
    · intro h
      have hfirst : (String.utf8EncodeChar c).head? = some q.toUInt8 := by
        rw [bytes_cons] at h
        cases hbytes : String.utf8EncodeChar c with
        | nil => simp at hbytes
        | cons b bs =>
          rw [hbytes] at h
          exact h
      exact congrArg some (eq_of_mem_utf8EncodeChar hq (List.mem_of_mem_head? hfirst))
    · rintro ⟨⟩
      rw [bytes_cons_of_ascii hq]
      rfl

end Bytes

/-! ### Searching -/

/-- The first place where some bytes begin that start with `b`. -/
def find? (b : UInt8) (bs : List UInt8) : List UInt8 → Option Nat
  | [] => none
  | a :: as => if (b :: bs).isPrefixOf (a :: as) then some 0 else (find? b bs as).map (· + 1)

/-- The bytes through the closing quote, if there is one on the line. -/
def quotedLen? (quote : UInt8) (escaped : Bool) : List UInt8 → Option Nat
  | [] => none
  | b :: bs =>
    if escaped then (quotedLen? quote false bs).map (· + 1)
    else if b = '\\'.toUInt8 then (quotedLen? quote true bs).map (· + 1)
    else if b = '\n'.toUInt8 then none
    else if b = quote then some 1
    else (quotedLen? quote false bs).map (· + 1)

section Searching

variable {c q quote : Char} {cs : List Char} {b : UInt8} {bs us vs : List UInt8}

/-- Bytes without the first of those that are looked for are passed over. -/
theorem find?_append (h : b ∉ us) : find? b bs (us ++ vs) = (find? b bs vs).map (us.length + ·) := by
  induction us with
  | nil => simp
  | cons u us ih =>
    obtain ⟨hu, hus⟩ := not_or.1 (List.mem_cons.not.1 h)
    rw [List.cons_append, find?, if_neg (by simp [List.isPrefixOf, hu]), ih hus, Option.map_map]
    congr 1
    funext n
    simp only [Function.comp_apply, List.length_cons]
    omega

theorem quotedLen?_append {quote : UInt8} (h : ∀ u ∈ us, u ≠ '\\'.toUInt8 ∧ u ≠ '\n'.toUInt8 ∧ u ≠ quote) :
    quotedLen? quote false (us ++ vs) = (quotedLen? quote false vs).map (us.length + ·) := by
  induction us with
  | nil => simp
  | cons u us ih =>
    obtain ⟨⟨hbackslash, hnewline, hquote⟩, hus⟩ := List.forall_mem_cons.1 h
    rw [List.cons_append, quotedLen?]
    simp only [Bool.false_eq_true, if_false, if_neg hbackslash, if_neg hnewline, if_neg hquote]
    rw [ih hus, Option.map_map]
    congr 1
    funext n
    simp only [Function.comp_apply, List.length_cons]
    omega

/-- The end of a line. -/
theorem find?_newline (cs : List Char) :
    (find? '\n'.toUInt8 [] (bytes cs)).getD (bytes cs).length = byteLength (cs.take (lineLength cs)) := by
  induction cs with
  | nil => rfl
  | cons c cs ih =>
    rw [lineLength] at ih ⊢
    by_cases hnewline : c = '\n'
    · subst hnewline
      rw [bytes_cons_of_ascii (by decide), find?, if_pos (by simp [List.isPrefixOf])]
      rfl
    · rw [bytes_cons, find?_append fun h => hnewline (eq_of_mem_utf8EncodeChar (by decide) h),
        List.takeWhile_cons_of_pos (by simpa using hnewline), List.length_cons, List.take_succ_cons, byteLength_cons, ← ih]
      cases find? '\n'.toUInt8 [] (bytes cs) <;> simp

/-- The end of a comment. -/
theorem find?_comment (cs : List Char) :
    (find? '*'.toUInt8 ['/'.toUInt8] (bytes cs)).map (· + 2) = (commentLength? cs).map fun n => byteLength (cs.take n) := by
  fun_induction commentLength? cs with
  | case1 => rfl
  | case2 cs =>
    rw [bytes_cons_of_ascii (by decide), bytes_cons_of_ascii (by decide), find?, if_pos (by simp [List.isPrefixOf])]
    rfl
  | case3 c cs hopen ih =>
    have hpass : find? '*'.toUInt8 ['/'.toUInt8] (bytes (c :: cs)) =
        (find? '*'.toUInt8 ['/'.toUInt8] (bytes cs)).map (c.utf8Size + ·) := by
      by_cases hstar : c = '*'
      · subst hstar
        have hslash : (bytes cs).head? ≠ some '/'.toUInt8 := by
          rw [ne_eq, head?_bytes (by decide)]
          rintro hhead
          obtain ⟨ds, rfl⟩ := List.head?_eq_some_iff.1 hhead
          exact hopen ds rfl rfl
        rw [bytes_cons_of_ascii (by decide), find?, if_neg, utf8Size_of_ascii (by decide)]
        · simp only [Nat.add_comm]
        · cases hbytes : bytes cs with
          | nil => decide
          | cons u us =>
            rw [hbytes] at hslash
            simp only [List.isPrefixOf, beq_self_eq_true, Bool.true_and, Bool.and_true, beq_iff_eq]
            exact fun h => hslash (congrArg some h.symm)
      · rw [bytes_cons, find?_append fun h => hstar (eq_of_mem_utf8EncodeChar (by decide) h), String.length_utf8EncodeChar]
    rw [hpass, Option.map_map]
    cases hfind : find? '*'.toUInt8 ['/'.toUInt8] (bytes cs) with
    | none =>
      rw [hfind] at ih
      obtain hnone : commentLength? cs = none := by simpa using ih.symm
      rw [hnone]
      rfl
    | some p =>
      rw [hfind] at ih
      obtain ⟨n, hn, hlength⟩ := Option.map_eq_some_iff.1 ih.symm
      simp only [hn, Option.map_some, Function.comp_apply, List.take_succ_cons, byteLength_cons] at hlength ⊢
      rw [hlength, Nat.add_assoc]

/-- The byte behind a backslash counts for nothing, and none of the same character behind it does. -/
theorem quotedLen?_escaped (hquote : Ascii quote) (c : Char) (us : List UInt8) :
    quotedLen? quote.toUInt8 true (String.utf8EncodeChar c ++ us) = (quotedLen? quote.toUInt8 false us).map (c.utf8Size + ·) := by
  rw [← String.length_utf8EncodeChar]
  by_cases hc : Ascii c
  · rw [utf8EncodeChar_of_ascii hc, List.singleton_append, quotedLen?, if_pos rfl, List.length_singleton]
    simp only [Nat.add_comm]
  · have hhigh : ∀ u ∈ String.utf8EncodeChar c, ∀ q, Ascii q → u ≠ q.toUInt8 := by
      rintro u hu q hq rfl
      exact hc (eq_of_mem_utf8EncodeChar hq hu ▸ hq)
    cases hbytes : String.utf8EncodeChar c with
    | nil => simp at hbytes
    | cons b bs =>
      rw [hbytes] at hhigh
      have hpass : ∀ u ∈ bs, u ≠ '\\'.toUInt8 ∧ u ≠ '\n'.toUInt8 ∧ u ≠ quote.toUInt8 := fun u hu =>
        have hne := hhigh u (List.mem_cons_of_mem b hu)
        ⟨hne _ (by decide), hne _ (by decide), hne _ hquote⟩
      rw [List.cons_append, quotedLen?, if_pos rfl, quotedLen?_append hpass, Option.map_map]
      congr 1
      funext n
      simp only [Function.comp_apply, List.length_cons]
      omega

/-- The end of a literal. -/
theorem quotedLen?_bytes (hquote : Ascii quote) (cs : List Char) :
    quotedLen? quote.toUInt8 false (bytes cs) = (quotedLength? quote cs).map fun n => byteLength (cs.take n) := by
  fun_induction quotedLength? quote cs with
  | case1 => rfl
  | case2 => rfl
  | case3 c cs ih =>
    rw [bytes_cons_of_ascii (by decide), quotedLen?, if_neg (by simp), if_pos rfl, bytes_cons, quotedLen?_escaped hquote, ih]
    cases quotedLength? quote cs with
    | none => rfl
    | some n =>
      simp only [Option.map_some, List.take_succ_cons, byteLength_cons, utf8Size_of_ascii (show Ascii '\\' by decide)]
      congr 1
      omega
  | case4 cs hend hescape =>
    rw [bytes_cons_of_ascii (by decide), quotedLen?, if_neg (by simp), if_neg (by decide), if_pos rfl]
    rfl
  | case5 cs hend hescape hnewline =>
    have hbackslash := Lexeme.ne_backslash hend hescape
    rw [bytes_cons_of_ascii hquote, quotedLen?, if_neg (by simp), if_neg ((toUInt8_inj hquote (by decide)).not.2 hbackslash),
      if_neg ((toUInt8_inj hquote (by decide)).not.2 hnewline), if_pos rfl]
    simp [utf8Size_of_ascii hquote]
  | case6 c cs hend hescape hnewline hne ih =>
    have hbackslash := Lexeme.ne_backslash hend hescape
    have hpass : ∀ u ∈ String.utf8EncodeChar c, u ≠ '\\'.toUInt8 ∧ u ≠ '\n'.toUInt8 ∧ u ≠ quote.toUInt8 := by
      refine fun u hu => ⟨?_, ?_, ?_⟩ <;> rintro rfl
      · exact hbackslash (eq_of_mem_utf8EncodeChar (by decide) hu)
      · exact hnewline (eq_of_mem_utf8EncodeChar (by decide) hu)
      · exact hne (eq_of_mem_utf8EncodeChar hquote hu)
    rw [bytes_cons, quotedLen?_append hpass, ih, String.length_utf8EncodeChar]
    cases quotedLength? quote cs <;> simp

end Searching

/-! ### Directives -/

/-- What stands from an index on, if that is not behind the end. -/
def from? {α : Type} (i : Nat) (xs : List α) : Option (List α) :=
  if i ≤ xs.length then some (xs.drop i) else none

/-- Where a directive goes on behind the byte `b` at index `i`, and whether it ends in an open comment. -/
def directiveStep? (bs : List UInt8) (i : Nat) (b : UInt8) : Option (Nat × Bool) :=
  if b = '\\'.toUInt8 ∧ bs[i + 1]? = some '\n'.toUInt8 then some (i + 2, false)
  else if b = '\\'.toUInt8 ∧ bs[i + 1]? = some '\r'.toUInt8 ∧ bs[i + 2]? = some '\n'.toUInt8 then some (i + 3, false)
  else if b = '/'.toUInt8 ∧ bs[i + 1]? = some '*'.toUInt8 then do
    let behind ← from? (i + 2) bs
    match find? '*'.toUInt8 ['/'.toUInt8] behind with
    | some stop => some (i + stop + 4, false)
    | none => some (bs.length, true)
  else if b = '/'.toUInt8 ∧ bs[i + 1]? = some '/'.toUInt8 then do
    let behind ← from? i bs
    some (((find? '\n'.toUInt8 [] behind).map (i + ·)).getD bs.length, false)
  else if b = '"'.toUInt8 ∨ b = '\''.toUInt8 then do
    let behind ← from? (i + 1) bs
    some (i + 1 + (quotedLen? b false behind).getD 0, false)
  else some (i + 1, false)

/-- The index behind a directive that is read from index `i` on, and whether it ends in an open comment. -/
def directiveFrom? (bs : List UInt8) (i : Nat) : Option (Nat × Bool) :=
  if _ : i < bs.length then do
    let b ← bs[i]?
    if b = '\n'.toUInt8 then some (i, false)
    else do
      let (next, unclosed) ← directiveStep? bs i b
      if _ : i < next then do
        let (stop, later) ← directiveFrom? bs next
        some (stop, unclosed || later)
      else none
  else some (i, false)
termination_by bs.length - i

section Directive

variable {c : Char} {cs taken rest : List Char} {b : UInt8} {before bs us : List UInt8} {e : Extent}

theorem from?_append (before us : List UInt8) (k : Nat) (h : k ≤ us.length) :
    from? (before.length + k) (before ++ us) = some (us.drop k) := by
  rw [from?, if_pos (by simpa using h), ← List.drop_drop, List.drop_left]

theorem getElem?_append (before us : List UInt8) (k : Nat) : (before ++ us)[before.length + k]? = us[k]? := by
  rw [List.getElem?_append_right (Nat.le_add_right _ _), Nat.add_sub_cancel_left]

theorem getElem?_bytes {q : Char} (hq : Ascii q) (cs : List Char) : (bytes cs)[0]? = some q.toUInt8 ↔ cs.head? = some q := by
  rw [← List.head?_eq_getElem?]
  exact head?_bytes hq cs

/-- The byte of a character says of a directive what the character says. -/
theorem directiveStep?_eq (hc : Ascii c) (cs : List Char) (before : List UInt8) :
    directiveStep? (before ++ bytes (c :: cs)) before.length c.toUInt8 =
      if c = '\\' ∧ cs.head? = some '\n' then some (before.length + 2, false)
      else if c = '\\' ∧ cs.head? = some '\r' ∧ cs.tail.head? = some '\n' then some (before.length + 3, false)
      else if c = '/' ∧ cs.head? = some '*' then
        match commentLength? cs.tail with
        | some n => some (before.length + 2 + byteLength (cs.tail.take n), false)
        | none => some (before.length + byteLength (c :: cs), true)
      else if c = '/' ∧ cs.head? = some '/' then
        some (before.length + byteLength ((c :: cs).take (lineLength (c :: cs))), false)
      else if c = '"' ∨ c = '\'' then
        some (before.length + 1 + byteLength (cs.take ((quotedLength? c cs).getD 0)), false)
      else some (before.length + 1, false) := by
  have hfirst : ∀ q, Ascii q → ((before ++ bytes (c :: cs))[before.length + 1]? = some q.toUInt8 ↔ cs.head? = some q) := by
    intro q hq
    rw [getElem?_append, bytes_cons_of_ascii hc, List.getElem?_cons_succ, getElem?_bytes hq]
  have hsecond : cs.head? = some '\r' →
      ((before ++ bytes (c :: cs))[before.length + 2]? = some '\n'.toUInt8 ↔ cs.tail.head? = some '\n') := by
    intro hhead
    obtain ⟨ds, rfl⟩ := List.head?_eq_some_iff.1 hhead
    rw [getElem?_append, bytes_cons_of_ascii hc, bytes_cons_of_ascii (by decide), List.getElem?_cons_succ, List.getElem?_cons_succ,
      getElem?_bytes (by decide), List.tail_cons]
  have hreturn : (cs.head? = some '\r' ∧ (before ++ bytes (c :: cs))[before.length + 2]? = some '\n'.toUInt8) ↔
      cs.head? = some '\r' ∧ cs.tail.head? = some '\n' := and_congr_right hsecond
  rw [directiveStep?]
  simp only [toUInt8_inj hc (show Ascii '\\' by decide), toUInt8_inj hc (show Ascii '/' by decide),
    toUInt8_inj hc (show Ascii '"' by decide), toUInt8_inj hc (show Ascii '\'' by decide), hfirst _ (show Ascii '\n' by decide),
    hfirst _ (show Ascii '\r' by decide), hfirst _ (show Ascii '*' by decide), hfirst _ (show Ascii '/' by decide), hreturn]
  split_ifs with hnewline hcarriage hblock hline hquote
  · rfl
  · rfl
  · obtain ⟨rfl, hhead⟩ := hblock
    obtain ⟨ds, rfl⟩ := List.head?_eq_some_iff.1 hhead
    have hbytes : bytes ('/' :: '*' :: ds) = '/'.toUInt8 :: '*'.toUInt8 :: bytes ds := by
      rw [bytes_cons_of_ascii (by decide), bytes_cons_of_ascii (by decide)]
    have hfind := find?_comment ds
    rw [from?_append _ _ _ (by simp [hbytes]), hbytes, List.drop_succ_cons, List.drop_succ_cons, List.drop_zero]
    simp only [Option.bind_eq_bind, Option.bind_some, List.tail_cons]
    cases hstop : find? '*'.toUInt8 ['/'.toUInt8] (bytes ds) with
    | none =>
      rw [hstop] at hfind
      obtain hnone : commentLength? ds = none := by simpa using hfind.symm
      rw [hnone, ← hbytes, List.length_append, length_bytes]
    | some p =>
      rw [hstop] at hfind
      obtain ⟨n, hn, hlength⟩ := Option.map_eq_some_iff.1 hfind.symm
      simp only [hn, hlength, Option.some.injEq, Prod.mk.injEq, and_true]
      omega
  · have hlineEnd := find?_newline (c :: cs)
    rw [← Nat.add_zero before.length, from?_append _ _ _ (Nat.zero_le _), List.drop_zero, Nat.add_zero, ← hlineEnd]
    simp only [Option.bind_eq_bind, Option.bind_some, List.length_append]
    cases find? '\n'.toUInt8 [] (bytes (c :: cs)) <;> rfl
  · rw [from?_append _ _ _ (by simp [bytes_cons_of_ascii hc]), bytes_cons_of_ascii hc, List.drop_succ_cons, List.drop_zero]
    simp only [Option.bind_eq_bind, Option.bind_some, quotedLen?_bytes hc]
    cases quotedLength? c cs <;> rfl
  · rfl

/-- From any index on, `cs` is read to the extent `e`. -/
def Reads (cs : List Char) (e : Extent) : Prop :=
  ∀ before : List UInt8,
    directiveFrom? (before ++ bytes cs) before.length = some (before.length + byteLength (cs.take e.length), e.unterminated)

theorem directiveFrom?_next (hbs : bs = before ++ b :: us) (hnewline : b ≠ '\n'.toUInt8) {next : Nat}
    (hstep : directiveStep? bs before.length b = some (next, false)) (hlt : before.length < next) :
    directiveFrom? bs before.length = directiveFrom? bs next := by
  have hb : bs[before.length]? = some b := by simp [hbs]
  have hin : before.length < bs.length := by simp [hbs]
  rw [directiveFrom?, dif_pos hin]
  simp only [hb, Option.bind_eq_bind, Option.bind_some, if_neg hnewline, hstep, dif_pos hlt, Bool.false_or]
  exact Option.bind_fun_some _

/-- Behind what is passed over, the reading goes on. -/
theorem Reads.behind (taken : List Char) (h : Reads rest e)
    (hpass : ∀ before, directiveFrom? (before ++ (bytes taken ++ bytes rest)) before.length =
      directiveFrom? (before ++ (bytes taken ++ bytes rest)) (before.length + byteLength taken)) :
    Reads (taken ++ rest) (e.behind taken.length) := by
  intro before
  have hrest := h (before ++ bytes taken)
  rw [List.append_assoc, List.length_append, length_bytes] at hrest
  rw [bytes_append, hpass, hrest, Extent.behind, List.take_length_add_append, byteLength_append, Nat.add_assoc]

/-- A character of one byte is passed over with some of those behind it. -/
theorem Reads.step (taken : List Char) (h : Reads rest e) (hc : Ascii c) (hnewline : c ≠ '\n')
    (hstep : ∀ before, directiveStep? (before ++ bytes (c :: taken ++ rest)) before.length c.toUInt8 =
      some (before.length + byteLength (c :: taken), false)) : Reads (c :: taken ++ rest) (e.behind (c :: taken).length) := by
  refine h.behind _ fun before => ?_
  have hbytes : bytes (c :: taken) = c.toUInt8 :: bytes taken := bytes_cons_of_ascii hc taken
  have hsplit : before ++ bytes (c :: taken ++ rest) = before ++ c.toUInt8 :: bytes (taken ++ rest) := by
    rw [List.cons_append, bytes_cons_of_ascii hc]
  rw [← bytes_append]
  refine directiveFrom?_next hsplit ((toUInt8_inj hc (by decide)).not.2 hnewline) (hstep before) ?_
  rw [byteLength_cons, utf8Size_of_ascii hc]
  omega

/-- Bytes of no one-byte character are passed over one by one. -/
theorem directiveFrom?_high (h : ∀ u ∈ us, 128 ≤ u.toNat) (before vs : List UInt8) :
    directiveFrom? (before ++ (us ++ vs)) before.length = directiveFrom? (before ++ (us ++ vs)) (before.length + us.length) := by
  induction us generalizing before with
  | nil => rfl
  | cons u us ih =>
    obtain ⟨hu, hus⟩ := List.forall_mem_cons.1 h
    have hne : ∀ q, Ascii q → u ≠ q.toUInt8 := by
      rintro q hq rfl
      rw [toNat_toUInt8 hq] at hu
      exact absurd hq (Nat.not_lt.2 hu)
    have hstep : directiveStep? (before ++ (u :: us ++ vs)) before.length u = some (before.length + 1, false) := by
      rw [directiveStep?]
      simp [hne '\\' (by decide), hne '/' (by decide), hne '"' (by decide), hne '\'' (by decide)]
    have hsplit : before ++ (u :: us ++ vs) = before ++ u :: (us ++ vs) := rfl
    refine (directiveFrom?_next hsplit (hne '\n' (by decide)) hstep (Nat.lt_succ_self _)).trans ?_
    have hrest := ih hus (before ++ [u])
    rw [List.append_assoc, List.length_append] at hrest
    rw [List.length_cons, Nat.add_comm us.length 1, ← Nat.add_assoc]
    exact hrest

/-- Where the line or the text ends, the directive does. -/
theorem reads_end (h : ∀ c ∈ cs.head?, c = '\n') : Reads cs ⟨0, false⟩ := by
  intro before
  rw [directiveFrom?]
  cases cs with
  | nil => simp [bytes]
  | cons c cs =>
    obtain rfl := h c rfl
    rw [bytes_cons_of_ascii (by decide)]
    simp

theorem eq_newline_of_drop (cs : List Char) : ∀ c ∈ (cs.drop (lineLength cs)).head?, c = '\n' := by
  induction cs with
  | nil => simp
  | cons c cs ih =>
    rw [lineLength] at ih ⊢
    by_cases hnewline : c = '\n'
    · simp [hnewline]
    · rw [List.takeWhile_cons_of_pos (by simpa using hnewline), List.length_cons, List.drop_succ_cons]
      exact ih

/-- A comment is passed over up to behind its end. -/
theorem reads_comment {n : Nat} (hn : commentLength? cs = some n) (h : Reads (cs.drop n) e) :
    Reads ('/' :: '*' :: cs) (e.behind (2 + n)) := by
  have htaken : '/' :: '*' :: cs = ('/' :: '*' :: cs.take n) ++ cs.drop n := by simp
  have hlength : 2 + n = ('/' :: '*' :: cs.take n).length := by
    simp [Lexeme.commentLength?_le hn]
    omega
  rw [htaken, hlength]
  refine h.step _ (by decide) (by decide) fun before => ?_
  rw [← htaken, directiveStep?_eq (by decide)]
  simp only [List.head?_cons, List.tail_cons, hn, byteLength_cons, utf8Size_of_ascii (show Ascii '/' by decide),
    utf8Size_of_ascii (show Ascii '*' by decide)]
  simp
  omega

/-- A comment without an end takes in the rest of the text. -/
theorem reads_unclosed (hnone : commentLength? cs = none) : Reads ('/' :: '*' :: cs) ⟨2 + cs.length, true⟩ := by
  intro before
  have hbytes := bytes_cons_of_ascii (show Ascii '/' by decide) ('*' :: cs)
  have hstep : directiveStep? (before ++ bytes ('/' :: '*' :: cs)) before.length '/'.toUInt8 =
      some ((before ++ bytes ('/' :: '*' :: cs)).length, true) := by
    rw [directiveStep?_eq (by decide), List.length_append, length_bytes]
    simp [hnone]
  have hb : (before ++ bytes ('/' :: '*' :: cs))[before.length]? = some '/'.toUInt8 := by simp [hbytes]
  have hlt : before.length < (before ++ bytes ('/' :: '*' :: cs)).length := by simp [hbytes]
  rw [directiveFrom?, dif_pos hlt]
  simp only [hb, Option.bind_eq_bind, Option.bind_some, hstep, dif_pos hlt]
  rw [directiveFrom?, dif_neg (Nat.lt_irrefl _), List.take_of_length_le (by simp; omega), List.length_append, length_bytes]
  rfl

/-- A comment that ends with the line ends the directive. -/
theorem reads_lineComment (cs : List Char) : Reads ('/' :: '/' :: cs) ⟨2 + lineLength cs, false⟩ := by
  have htaken : '/' :: '/' :: cs = ('/' :: '/' :: cs.take (lineLength cs)) ++ cs.drop (lineLength cs) := by simp
  have hlength : 2 + lineLength cs = ('/' :: '/' :: cs.take (lineLength cs)).length := by
    simp [Lexeme.lineLength_le cs]
    omega
  have hextent : (⟨2 + lineLength cs, false⟩ : Extent) = Extent.behind (2 + lineLength cs) ⟨0, false⟩ := rfl
  rw [hextent, htaken, hlength]
  refine (reads_end (eq_newline_of_drop cs)).step _ (by decide) (by decide) fun before => ?_
  rw [← htaken, directiveStep?_eq (by decide)]
  have hline : lineLength ('/' :: '/' :: cs) = lineLength cs + 2 := rfl
  rw [hline]
  simp

/-- A quotation is passed over up to behind the quote that ends it. -/
theorem reads_quoted {n : Nat} (hquote : c = '"' ∨ c = '\'') (hn : quotedLength? c cs = some n) (h : Reads (cs.drop n) e) :
    Reads (c :: cs) (e.behind (1 + n)) := by
  have htaken : c :: cs = (c :: cs.take n) ++ cs.drop n := by simp
  have hlength : 1 + n = (c :: cs.take n).length := by
    simp [Lexeme.quotedLength?_le hn]
    omega
  have hc : Ascii c := by rcases hquote with rfl | rfl <;> decide
  have hnewline : c ≠ '\n' := by rcases hquote with rfl | rfl <;> decide
  rw [htaken, hlength]
  refine h.step _ hc hnewline fun before => ?_
  rw [← htaken, directiveStep?_eq hc, hn]
  rcases hquote with rfl | rfl <;> simp [utf8Size_of_ascii hc, Nat.add_assoc]

/-- A quote that nothing ends is passed over alone. -/
theorem reads_quote (hquote : c = '"' ∨ c = '\'') (hnone : quotedLength? c cs = none) (h : Reads cs e) :
    Reads (c :: cs) (e.behind 1) := by
  have hc : Ascii c := by rcases hquote with rfl | rfl <;> decide
  have hnewline : c ≠ '\n' := by rcases hquote with rfl | rfl <;> decide
  refine h.step [] hc hnewline fun before => ?_
  rw [List.singleton_append, directiveStep?_eq hc, hnone]
  rcases hquote with rfl | rfl <;> simp [utf8Size_of_ascii hc]

/-- A directive is read by bytes as far as it is by characters. -/
theorem reads_directiveExtent (cs : List Char) : Reads cs (directiveExtent cs) := by
  fun_induction directiveExtent cs with
  | case1 => exact reads_end (by simp)
  | case2 cs => exact reads_end (by simp)
  | case3 cs ih =>
    refine ih.step ['\n'] (by decide) (by decide) fun before => ?_
    rw [List.cons_append, directiveStep?_eq (by decide)]
    simp only [List.singleton_append, List.head?_cons, and_self, if_true]
    rfl
  | case4 cs ih =>
    refine ih.step ['\r', '\n'] (by decide) (by decide) fun before => ?_
    rw [List.cons_append, directiveStep?_eq (by decide)]
    simp
    rfl
  | case5 cs n hn ih => exact reads_comment hn ih
  | case6 cs hnone => exact reads_unclosed hnone
  | case7 cs => exact reads_lineComment cs
  | case8 c cs hnewline hcontinued hreturned hblock hline hquote n hn ih =>
    rw [Bool.or_eq_true, decide_eq_true_eq, decide_eq_true_eq] at hquote
    exact reads_quoted hquote hn ih
  | case9 c cs hnewline hcontinued hreturned hblock hline hquote hnone ih =>
    rw [Bool.or_eq_true, decide_eq_true_eq, decide_eq_true_eq] at hquote
    exact reads_quote hquote hnone ih
  | case10 c cs hnewline hcontinued hreturned hblock hline hquote ih =>
    by_cases hc : Ascii c
    · refine ih.step [] hc hnewline fun before => ?_
      rw [Bool.or_eq_true, decide_eq_true_eq, decide_eq_true_eq] at hquote
      rw [List.singleton_append, directiveStep?_eq hc, if_neg, if_neg, if_neg, if_neg, if_neg hquote, byteLength_cons,
        utf8Size_of_ascii hc]
      · rfl
      · rintro ⟨rfl, hhead⟩
        obtain ⟨ds, rfl⟩ := List.head?_eq_some_iff.1 hhead
        exact hline ds rfl rfl
      · rintro ⟨rfl, hhead⟩
        obtain ⟨ds, rfl⟩ := List.head?_eq_some_iff.1 hhead
        exact hblock ds rfl rfl
      · rintro ⟨rfl, hhead, hnext⟩
        obtain ⟨ds, rfl⟩ := List.head?_eq_some_iff.1 hhead
        obtain ⟨es, rfl⟩ := List.head?_eq_some_iff.1 hnext
        exact hreturned es rfl rfl
      · rintro ⟨rfl, hhead⟩
        obtain ⟨ds, rfl⟩ := List.head?_eq_some_iff.1 hhead
        exact hcontinued ds rfl rfl
    · refine ih.behind [c] fun before => ?_
      rw [← length_bytes]
      exact directiveFrom?_high (fun u hu => le_of_mem_utf8EncodeChar hc (by simpa [bytes] using hu)) before (bytes cs)

end Directive

end CHeader.Checked
