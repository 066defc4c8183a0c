import CHeader.Proofs.Checked.Bytes
import CHeader.Proofs.Tiling
import Mathlib.Order.Monotone.Basic

/-!
# Lines, counted in bytes

Lines start at the first byte and behind each newline byte (`mem_starts_iff`). Whatever a search for an offset among
them answers, the place where it stands or the place where it would have to be inserted (`Answers`), the line is the
number of starts up to the offset, so that both kinds of answers agree with the plain count of the newline bytes before
it (`lines_count_newlines`).
-/

namespace CHeader

open Checked (bytes)

/-- The byte that ends a line. -/
def newline : UInt8 := '\n'.toUInt8

/-! ### Newline bytes -/

theorem bytes_toList (s : String) : bytes s.toList = s.toUTF8.data.toList := by
  have hencoded : s.toList.utf8Encode = s.toUTF8 := String.utf8Encode_toList
  rw [← hencoded]
  simp [List.utf8Encode, bytes]

/-- The newline bytes of a character: one for a newline, and none for any other. -/
theorem count_take_utf8EncodeChar (c : Char) (n : Nat) :
    ((String.utf8EncodeChar c).take (n + 1)).count newline = if c = '\n' then 1 else 0 := by
  split_ifs with hc
  · subst hc
    rw [Checked.utf8EncodeChar_of_ascii (by decide), List.take_of_length_le (by simp)]
    rfl
  · rw [List.count_eq_zero]
    intro hmem
    exact hc (Checked.eq_of_mem_utf8EncodeChar (by decide) (List.mem_of_mem_take hmem))

/-- Counting characters and counting bytes gives the same number of newlines. -/
theorem newlinesBefore_eq_count (offset : Nat) (cs : List Char) :
    newlinesBefore offset cs = ((bytes cs).take offset).count newline := by
  fun_induction newlinesBefore offset cs with
  | case1 cs => rfl
  | case2 n => simp [bytes]
  | case3 n c cs ih =>
    rw [Checked.bytes_cons, List.take_append, List.count_append, String.length_utf8EncodeChar, count_take_utf8EncodeChar, ih]

namespace LineIndex

/-! ### Starts -/

theorem pairwise_lt_startsFrom (base : Nat) (cs : List Char) : (startsFrom base cs).Pairwise (· < ·) := by
  induction cs generalizing base with
  | nil => exact .nil
  | cons c cs ih =>
    simp only [startsFrom]
    split_ifs
    · exact List.pairwise_cons.2 ⟨fun start hstart => lt_of_mem_startsFrom hstart, ih _⟩
    · exact ih _

theorem pairwise_starts (text : List Char) : (ofText text).starts.toList.Pairwise (· < ·) :=
  List.pairwise_cons.2 ⟨fun _ hstart => lt_of_mem_startsFrom hstart, pairwise_lt_startsFrom 0 text⟩

theorem mem_startsFrom_iff {base start : Nat} {cs : List Char} :
    start ∈ startsFrom base cs ↔ ∃ k, (bytes cs)[k]? = some newline ∧ start = base + k + 1 := by
  induction cs generalizing base with
  | nil => simp [startsFrom, bytes]
  | cons c cs ih =>
    have hrest : start ∈ startsFrom (base + c.utf8Size) cs ↔
        ∃ k, c.utf8Size ≤ k ∧ (bytes (c :: cs))[k]? = some newline ∧ start = base + k + 1 := by
      rw [ih, Checked.bytes_cons]
      constructor
      · rintro ⟨k, hk, rfl⟩
        refine ⟨c.utf8Size + k, by omega, ?_, by omega⟩
        rw [List.getElem?_append_right (by simp), String.length_utf8EncodeChar, Nat.add_sub_cancel_left, hk]
      · rintro ⟨k, hle, hk, rfl⟩
        rw [List.getElem?_append_right (by simpa using hle), String.length_utf8EncodeChar] at hk
        exact ⟨k - c.utf8Size, hk, by omega⟩
    by_cases hc : c = '\n'
    · subst hc
      rw [show '\n'.utf8Size = 1 from rfl] at hrest
      rw [startsFrom, if_pos rfl, List.mem_cons]
      simp only [show '\n'.utf8Size = 1 from rfl, hrest]
      constructor
      · rintro (rfl | ⟨k, -, hk⟩)
        · exact ⟨0, by rw [Checked.bytes_cons_of_ascii (by decide)]; rfl, rfl⟩
        · exact ⟨k, hk⟩
      · rintro ⟨k, hk, rfl⟩
        rcases Nat.eq_zero_or_pos k with rfl | hpos
        · exact .inl rfl
        · exact .inr ⟨k, hpos, hk, rfl⟩
    · simp only [startsFrom, if_neg hc, hrest]
      refine exists_congr fun k => and_iff_right_of_imp fun h => ?_
      obtain ⟨hk, -⟩ := h
      -- The bytes of the first character are no newlines.
      by_contra hlt
      rw [Checked.bytes_cons, List.getElem?_append_left (by simpa using hlt)] at hk
      exact hc (Checked.eq_of_mem_utf8EncodeChar (by decide) (List.mem_of_getElem? hk))

/-- Lines start at the first byte and behind each newline byte. -/
theorem mem_starts_iff {text : List Char} {start : Nat} :
    start ∈ (ofText text).starts.toList ↔ start = 0 ∨ ∃ k, (bytes text)[k]? = some newline ∧ start = k + 1 := by
  have hstarts : (ofText text).starts.toList = 0 :: startsFrom 0 text := rfl
  rw [hstarts, List.mem_cons, mem_startsFrom_iff]
  simp only [Nat.zero_add]

/-! ### Searching -/

/-- What a search among numbers in order may answer: a place where the number stands, or else the place where it would
have to be inserted. -/
inductive Answers (sorted : List Nat) (key : Nat) : Except Nat Nat → Prop
  | found {i : Nat} (stands : sorted[i]? = some key) : Answers sorted key (.ok i)
  | missing {before behind : List Nat} (split : sorted = before ++ behind) (below : ∀ n ∈ before, n < key)
      (above : ∀ n ∈ behind, key < n) : Answers sorted key (.error before.length)

/-- The 1-based line that an answer stands for. -/
def lineOfAnswer : Except Nat Nat → Nat
  | .ok i => i + 1
  | .error i => i

section Answers

variable {sorted : List Nat} {key : Nat}

theorem countP_le_of_below {ns : List Nat} (h : ∀ n ∈ ns, n < key) : ns.countP (· ≤ key) = ns.length := by
  rw [List.countP_eq_length]
  intro n hn
  simpa using Nat.le_of_lt (h n hn)

theorem countP_le_of_above {ns : List Nat} (h : ∀ n ∈ ns, key < n) : ns.countP (· ≤ key) = 0 := by
  rw [List.countP_eq_zero]
  intro n hn
  simpa using h n hn

/-- Both kinds of answers count the numbers up to the one that is searched for. -/
theorem lineOfAnswer_eq_countP (hsorted : sorted.Pairwise (· < ·)) {answer : Except Nat Nat} (h : Answers sorted key answer) :
    lineOfAnswer answer = sorted.countP (· ≤ key) := by
  cases h with
  | found stands =>
    rename_i i
    obtain ⟨before, behind, rfl, rfl⟩ : ∃ before behind, sorted = before ++ key :: behind ∧ before.length = i := by
      obtain ⟨hi, rfl⟩ := List.getElem?_eq_some_iff.1 stands
      exact ⟨sorted.take i, sorted.drop (i + 1), by simp, List.length_take_of_le (Nat.le_of_lt hi)⟩
    obtain ⟨-, hbehind, hbefore⟩ := List.pairwise_append.1 hsorted
    have hbelow := countP_le_of_below fun n hn => hbefore n hn key List.mem_cons_self
    have habove := countP_le_of_above (List.pairwise_cons.1 hbehind).1
    rw [lineOfAnswer, List.countP_append, List.countP_cons_of_pos (by simp), hbelow, habove]
  | missing split below above =>
    rw [lineOfAnswer, split, List.countP_append, countP_le_of_below below, countP_le_of_above above, Nat.add_zero]

/-- There is an answer. -/
theorem exists_answer (hsorted : sorted.Pairwise (· < ·)) (key : Nat) : ∃ answer, Answers sorted key answer := by
  by_cases hmem : key ∈ sorted
  · obtain ⟨i, hi, hkey⟩ := List.getElem_of_mem hmem
    exact ⟨.ok i, .found (List.getElem?_eq_some_iff.2 ⟨hi, hkey⟩)⟩
  · have hsplit : sorted = sorted.takeWhile (· < key) ++ sorted.dropWhile (· < key) := by simp
    refine ⟨_, .missing hsplit (fun n hn => by simpa using List.mem_takeWhile_imp hn) fun n hn => ?_⟩
    have hrest := hsorted.sublist (List.dropWhile_sublist (p := (· < key)))
    cases hdrop : sorted.dropWhile (· < key) with
    | nil => simp [hdrop] at hn
    | cons m ms =>
      have hfirst : ¬m < key := by
        have := List.head_dropWhile_not (· < key) (l := sorted) (by simp [hdrop])
        simpa [hdrop] using this
      have hm : m ∈ sorted := (List.dropWhile_sublist _).subset (hdrop ▸ List.mem_cons_self)
      have hne : m ≠ key := fun h => hmem (h ▸ hm)
      rw [hdrop] at hn hrest
      rcases List.mem_cons.1 hn with rfl | hn
      · omega
      · have := (List.pairwise_cons.1 hrest).1 n hn
        omega

end Answers

/-- Whatever the search answers, the line is the same. -/
theorem lineOfAnswer_eq_lineOf {text : List Char} {offset : Nat} {answer : Except Nat Nat}
    (h : Answers (ofText text).starts.toList offset answer) : lineOfAnswer answer = (ofText text).lineOf offset := by
  have hordered : (ofText text).starts.toList.Pairwise (· ≤ ·) := (pairwise_starts text).imp fun h => Nat.le_of_lt h
  have hsize : (ofText text).starts.toList.countP (· ≤ offset) ≤ (ofText text).starts.size := List.countP_le_length
  rw [lineOfAnswer_eq_countP (pairwise_starts text) h]
  exact (search_eq_countP hordered (Nat.zero_le _) hsize).symm

/-- Later offsets are on later lines. -/
theorem monotone_lineOf (text : List Char) : Monotone (ofText text).lineOf := by
  intro first second hle
  rw [lineOf_ofText, lineOf_ofText, newlinesBefore_eq_count, newlinesBefore_eq_count]
  have hfront : (bytes text).take first <+: (bytes text).take second := List.take_prefix_take_left hle
  exact Nat.add_le_add_left (hfront.sublist.count_le newline) 1

end LineIndex

/-! ### Items -/

/-- What is read of a text begins in order. -/
theorem pairwise_start_items (text : List Char) :
    (Scanner.ofText text).items.Pairwise fun item other => (readAt item).2.start ≤ (readAt other).2.start := by
  obtain ⟨body, line, hitems, htiles⟩ := (Scanner.ofText text).tiles_items
  have htiles : Tiles (byteLength []) text body := htiles
  obtain ⟨hplaces, hpairwise⟩ := htiles.ordered
  rw [hitems]
  refine List.pairwise_append.2 ⟨hpairwise.imp_of_mem fun hitem _ hle => ?_, List.pairwise_singleton _ _, ?_⟩
  · have := (hplaces _ hitem).2
    omega
  · intro item hitem last hlast
    obtain ⟨earlier, later, hsplit⟩ := List.append_of_mem hitem
    obtain ⟨front, gap, piece, rest, hall, -, -, -, hspan, -⟩ := htiles.split hsplit
    have hlength := congrArg byteLength hall
    simp only [List.nil_append, byteLength_append] at hlength
    rw [List.mem_singleton.1 hlast, hspan]
    simp only [byteLength_append, readAt, Token.endOfText, Scanner.ofText]
    omega

/-- Line numbers are exact. Lines start at offset 0 and behind each newline byte, in order, and the line of an offset, in the
text or beyond it, is one more than the newline bytes before it. That is what any answer of a search for the offset among the
starts stands for, and there is one. Later offsets are on no earlier lines. Every token and every fault of the text is on the
line of its first byte, and their lines are in order. -/
theorem lines_count_newlines (source : String) :
    let lines := LineIndex.ofText source.toList
    let items := (Scanner.ofText source.toList).items
    (lines.starts.toList.Pairwise (· < ·) ∧ ∀ start, start ∈ lines.starts.toList ↔
      start = 0 ∨ ∃ k, source.toUTF8.data.toList[k]? = some newline ∧ start = k + 1) ∧
    (∀ offset, lines.lineOf offset = 1 + (source.toUTF8.data.toList.take offset).count newline) ∧
    (∀ offset, (∃ answer, LineIndex.Answers lines.starts.toList offset answer) ∧
      ∀ answer, LineIndex.Answers lines.starts.toList offset answer → LineIndex.lineOfAnswer answer = lines.lineOf offset) ∧
    Monotone lines.lineOf ∧
    (∀ item ∈ items, (readAt item).1 = lines.lineOf (readAt item).2.start) ∧
    items.Pairwise fun item other => (readAt item).1 ≤ (readAt other).1 := by
  intro lines items
  have hmonotone : Monotone lines.lineOf := LineIndex.monotone_lineOf source.toList
  have hlines : ∀ item ∈ items, (readAt item).1 = lines.lineOf (readAt item).2.start := fun item hitem =>
    Scanner.line_of_mem_items hitem
  refine ⟨⟨LineIndex.pairwise_starts source.toList, fun start => ?_⟩, fun offset => ?_, fun offset => ⟨?_, fun answer hanswer => ?_⟩,
    hmonotone, hlines, ?_⟩
  · rw [← bytes_toList]
    exact LineIndex.mem_starts_iff
  · rw [← bytes_toList, ← newlinesBefore_eq_count]
    exact LineIndex.lineOf_ofText source.toList offset
  · exact LineIndex.exists_answer (LineIndex.pairwise_starts source.toList) offset
  · exact LineIndex.lineOfAnswer_eq_lineOf hanswer
  · refine (pairwise_start_items source.toList).imp_of_mem fun hitem hother hle => ?_
    rw [hlines _ hitem, hlines _ hother]
    exact hmonotone hle

end CHeader
