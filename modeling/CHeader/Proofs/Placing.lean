import CHeader.Proofs.KindMaps
import CHeader.Proofs.LexemeFront
import CHeader.Proofs.Partition
import CHeader.Proofs.Reading
import Mathlib.Data.List.Forall2

/-!
# Pieces of a text put at another place

The tokens of a text stand one behind the other (`Stands.ordered`), so that no two are the same, and the
characters from one of them to another are a slice of the text (`Stands.slice`). Cut out of the text, the
lexemes are read as before (`Reads.cut`). Wherever they are put, their tokens are the old ones with new
places: the image under a map that keeps kinds (`exists_keepsKinds`).
-/

namespace CHeader

open Lexed (allChars)
open Lexeme (gapLength)

/-! ### Maps -/

/-- Tokens that are related one by one are the image of each other, if the first are all different. -/
theorem exists_map_of_forall₂ {R : Token → Token → Prop} (hR : ∀ t, ∃ u, R t u) {ts us : List Token}
    (hnodup : ts.Nodup) (h : List.Forall₂ R ts us) : ∃ f, (∀ t, R t (f t)) ∧ us = ts.map f := by
  induction h with
  | nil =>
    obtain ⟨f, hf⟩ := Classical.skolem.1 hR
    exact ⟨f, hf, rfl⟩
  | @cons t u ts us htu _ ih =>
    obtain ⟨hmem, hnodup⟩ := List.nodup_cons.1 hnodup
    obtain ⟨f, hf, rfl⟩ := ih hnodup
    refine ⟨fun v => if v = t then u else f v, fun v => ?_, ?_⟩
    · by_cases hv : v = t
      · simp only [hv, if_true]
        exact htu
      · simp only [hv, if_false]
        exact hf v
    · simp only [List.map_cons, if_true, List.cons.injEq, true_and]
      apply List.map_congr_left
      intro v hv
      rw [if_neg]
      rintro rfl
      exact hmem hv

/-- Tokens of the same kinds are the image of each other, if the first are all different. -/
theorem exists_keepsKinds {ts us : List Token} (hnodup : ts.Nodup) (h : us.map (·.kind) = ts.map (·.kind)) :
    ∃ f, KeepsKinds f ∧ us = ts.map f := by
  have hsame : List.Forall₂ (fun t u : Token => u.kind = t.kind) ts us := by
    induction ts generalizing us with
    | nil =>
      obtain rfl : us = [] := by simpa using h
      exact .nil
    | cons t ts ih =>
      obtain ⟨u, us, rfl, hkind, hrest⟩ := List.map_eq_cons_iff.1 h
      exact .cons hkind (ih (List.nodup_cons.1 hnodup).2 hrest)
  have hkind : ∀ t : Token, ∃ u : Token, u.kind = t.kind := fun t => ⟨t, rfl⟩
  exact exists_map_of_forall₂ hkind hnodup hsame

/-! ### Order -/

/-- Tokens that stand one behind the other, none of them empty. -/
structure Ordered (ts : List Token) : Prop where
  pairwise : ts.Pairwise fun t u => t.span.stop ≤ u.span.start
  positive : ∀ t ∈ ts, t.span.start < t.span.stop

theorem Ordered.sublist {ts us : List Token} (h : Ordered ts) (hsub : us.Sublist ts) : Ordered us :=
  ⟨h.pairwise.sublist hsub, fun t ht => h.positive t (hsub.subset ht)⟩

theorem Ordered.middle {front ts rest : List Token} (h : Ordered (front ++ ts ++ rest)) : Ordered ts :=
  h.sublist ((List.sublist_append_right front ts).trans (List.sublist_append_left _ rest))

theorem Ordered.nodup {ts : List Token} (h : Ordered ts) : ts.Nodup := by
  refine h.pairwise.imp_of_mem ?_
  rintro t u ht - hle rfl
  have := h.positive t ht
  omega

theorem Ordered.le_of_append {ts us : List Token} (h : Ordered (ts ++ us)) {t u : Token} (ht : t ∈ ts) (hu : u ∈ us) :
    t.span.stop ≤ u.span.start :=
  (List.pairwise_append.1 h.pairwise).2.2 t ht u hu

/-- One of two different tokens stands before the other. -/
theorem Ordered.apart {ts : List Token} (h : Ordered ts) {t u : Token} (ht : t ∈ ts) (hu : u ∈ ts) (hne : t ≠ u) :
    t.span.stop ≤ u.span.start ∨ u.span.stop ≤ t.span.start := by
  obtain ⟨before, behind, rfl⟩ := List.append_of_mem ht
  rcases List.mem_append.1 hu with hbefore | hbehind
  · exact .inr (h.le_of_append hbefore List.mem_cons_self)
  · have hmem : u ∈ behind := (List.mem_cons.1 hbehind).resolve_left fun heq => hne heq.symm
    exact .inl (List.rel_of_pairwise_cons (List.pairwise_append.1 h.pairwise).2.1 hmem)

/-- A token of a text is known by the place where it ends. -/
theorem Ordered.eq_of_stop_eq {ts : List Token} (h : Ordered ts) {t u : Token} (ht : t ∈ ts) (hu : u ∈ ts)
    (hstop : t.span.stop = u.span.stop) : t = u := by
  by_contra hne
  have hpositive := h.positive t ht
  have hpositive' := h.positive u hu
  have hapart := h.apart ht hu hne
  omega

/-- Tokens of a text and different ones that are written anew, without a place, are all different. -/
theorem Ordered.nodup_append {ts written : List Token} (h : Ordered ts) (hwritten : written.Nodup)
    (hspan : ∀ t ∈ written, t.span.stop = 0) : (ts ++ written).Nodup := by
  refine List.nodup_append.2 ⟨h.nodup, hwritten, ?_⟩
  rintro t ht u hu rfl
  have := h.positive t ht
  have := hspan t hu
  omega

theorem Ordered.le_getLast {ts : List Token} (h : Ordered ts) {t last : Token} (ht : t ∈ ts) (hlast : ts.getLast? = some last) :
    t.span.start ≤ last.span.start := by
  obtain ⟨front, rfl⟩ := List.getLast?_eq_some_iff.1 hlast
  rcases List.mem_append.1 ht with hfront | hself
  · have hle := h.le_of_append hfront List.mem_cons_self
    have hpositive := h.positive t ht
    omega
  · rw [List.mem_singleton.1 hself]

theorem Ordered.head_le {t : Token} {ts : List Token} (h : Ordered (t :: ts)) : ∀ u ∈ t :: ts, t.span.start ≤ u.span.start := by
  intro u hu
  have hpositive := h.positive t List.mem_cons_self
  rcases List.mem_cons.1 hu with rfl | hmem
  · exact Nat.le_refl _
  · have := List.rel_of_pairwise_cons h.pairwise hmem
    omega

/-- Tokens before a place come first. -/
theorem Ordered.filter_append_filter {ts : List Token} (h : Ordered ts) (place : Nat) :
    ts.filter (·.span.start < place) ++ ts.filter (place ≤ ·.span.start) = ts := by
  induction ts with
  | nil => rfl
  | cons t ts ih =>
    by_cases hplace : t.span.start < place
    · rw [List.filter_cons_of_pos (by simpa using hplace), List.filter_cons_of_neg (by simpa using hplace), List.cons_append,
        ih (h.sublist (List.sublist_cons_self t ts))]
    · have hbehind : ∀ u ∈ t :: ts, place ≤ u.span.start := fun u hu => (Nat.le_of_not_lt hplace).trans (h.head_le u hu)
      have hnone : (t :: ts).filter (·.span.start < place) = [] :=
        List.filter_eq_nil_iff.2 fun u hu => by simpa using hbehind u hu
      rw [hnone, List.nil_append]
      exact List.filter_eq_self.2 fun u hu => by simpa using hbehind u hu

theorem byteLength_pos {cs : List Char} (h : cs ≠ []) : 0 < byteLength cs := by
  obtain ⟨c, cs, rfl⟩ := List.exists_cons_of_ne_nil h
  have := Char.utf8Size_pos c
  simp only [byteLength_cons]
  omega

theorem Stands.le_start {offset : Nat} {ls : List Lexed} {ts : List Token} (h : Stands offset ls ts) :
    ∀ t ∈ ts, offset ≤ t.span.start := by
  induction h with
  | nil => simp
  | cons kind text span next rest ih =>
    subst next
    intro t ht
    rcases List.mem_cons.1 ht with rfl | ht
    · rw [span]
      exact Nat.le_add_right _ _
    · have := ih t ht
      omega

theorem Stands.stop_le {offset : Nat} {ls : List Lexed} {ts : List Token} (h : Stands offset ls ts) :
    ∀ t ∈ ts, t.span.stop ≤ offset + byteLength (allChars ls) := by
  induction h with
  | nil => simp
  | cons kind text span next rest ih =>
    subst next
    intro t ht
    rw [Lexed.allChars_cons, byteLength_append, byteLength_append]
    rcases List.mem_cons.1 ht with rfl | ht
    · rw [span]
      simp only
      omega
    · have := ih t ht
      omega

/-- The tokens of a text are in order. -/
theorem Stands.ordered {offset : Nat} {ls : List Lexed} {ts : List Token} {behind : List Char} (h : Stands offset ls ts)
    (hreads : Reads ls behind) : Ordered ts := by
  induction h with
  | nil => exact ⟨.nil, by simp⟩
  | cons kind text span next rest ih =>
    obtain ⟨hread, hreads⟩ := hreads
    have hpositive := byteLength_pos hread.text_ne_nil
    have hrest := ih hreads
    refine ⟨.cons ?_ hrest.pairwise, List.forall_mem_cons.2 ⟨?_, hrest.positive⟩⟩
    · intro u hu
      rw [span]
      exact rest.le_start u hu
    · rw [span]
      simp only
      omega

/-! ### Slices -/

theorem Stands.stop_getLast {offset : Nat} {ls : List Lexed} {ts : List Token} (h : Stands offset ls ts) {last : Token}
    (hlast : ts.getLast? = some last) : last.span.stop = offset + byteLength (allChars ls) := by
  induction h with
  | nil => cases hlast
  | @cons offset stop l ls t ts kind text span next rest ih =>
    subst next
    cases ts with
    | nil =>
      obtain rfl : t = last := by simpa using hlast
      cases rest
      rw [span]
      simp [Nat.add_assoc]
    | cons u us =>
      rw [ih (by simpa using hlast), Lexed.allChars_cons]
      simp only [byteLength_append]
      omega

/-- The text from the first of some tokens to the end of the last. -/
theorem Stands.slice {before behind : List Char} {l : Lexed} {ls : List Lexed} {t last : Token} {ts : List Token}
    (h : Stands (byteLength before) (l :: ls) (t :: ts)) (hlast : (t :: ts).getLast? = some last) :
    Span.slice? ⟨t.span.start, last.span.stop⟩ (before ++ allChars (l :: ls) ++ behind) = some (l.text ++ allChars ls) := by
  have hstop := h.stop_getLast hlast
  have hstart : t.span.start = byteLength (before ++ l.gap) := by
    obtain _ | ⟨-, -, span, -, -⟩ := h
    rw [span, byteLength_append]
  have hslice := Span.slice?_append (before ++ l.gap) (l.text ++ allChars ls) behind
  rw [hstart, hstop]
  have hbytes : byteLength before + byteLength (allChars (l :: ls)) =
      byteLength (before ++ l.gap) + byteLength (l.text ++ allChars ls) := by
    simp only [Lexed.allChars_cons, byteLength_append]
    omega
  rw [hbytes, ← hslice]
  simp

/-! ### Cutting out -/

/-- A row of lexemes without the gap before it. -/
def Lexed.narrow : List Lexed → List Lexed
  | [] => []
  | l :: ls => { l with gap := [] } :: ls

theorem gapLength_drop (cs : List Char) : gapLength (cs.drop (gapLength cs)) = 0 := by
  fun_induction gapLength cs with
  | case1 => rfl
  | case2 cs ih =>
    rw [Nat.add_comm]
    exact ih
  | case3 cs ih =>
    rw [Nat.add_comm]
    exact ih
  | case4 c cs _ _ _ ih =>
    rw [Nat.add_comm]
    exact ih
  | case5 c cs hnewline hreturn hblank =>
    rw [List.drop_zero, gapLength, if_neg hblank]
    · exact hnewline
    · exact hreturn

/-- Where the text ends behind them, lexemes are read as before. -/
theorem Reads.front {ls : List Lexed} {rest more : List Char} (h : Reads ls (rest ++ more)) : Reads ls rest := by
  induction ls with
  | nil => trivial
  | cons l ls ih =>
    obtain ⟨⟨hgap, c, cs, htext, hlexeme⟩, hreads⟩ := h
    refine ⟨⟨?_, c, cs, htext, ?_⟩, ih hreads⟩
    · have happend : l.gap ++ l.text ++ (allChars ls ++ (rest ++ more)) = (l.gap ++ l.text ++ (allChars ls ++ rest)) ++ more := by
        simp
      rw [happend] at hgap
      rw [Lexeme.gapLength_of_append, hgap]
      rw [hgap, htext]
      simp only [List.length_append, List.length_cons]
      omega
    · have happend : cs ++ (allChars ls ++ (rest ++ more)) = (cs ++ (allChars ls ++ rest)) ++ more := by simp
      rw [happend] at hlexeme
      exact Lexeme.lexeme_of_append hlexeme (by simp)

theorem Reads.narrow {ls : List Lexed} {rest : List Char} (h : Reads ls rest) : Reads (Lexed.narrow ls) rest := by
  cases ls with
  | nil => trivial
  | cons l ls =>
    obtain ⟨⟨hgap, hlexeme⟩, hreads⟩ := h
    refine ⟨⟨?_, hlexeme⟩, hreads⟩
    have hdrop := gapLength_drop (l.gap ++ l.text ++ (allChars ls ++ rest))
    rw [hgap, List.append_assoc, List.drop_left] at hdrop
    simpa using hdrop

/-- Some lexemes of a text are read as before if they are all of the text. -/
theorem Reads.cut {before ls behind : List Lexed} {rest : List Char} (h : Reads (before ++ ls ++ behind) rest) :
    Reads (Lexed.narrow ls) [] := by
  rw [List.append_assoc, reads_append, reads_append] at h
  have hfront := h.2.1
  rw [← List.nil_append (allChars behind ++ rest)] at hfront
  exact hfront.front.narrow

/-- Lexemes are read as before if a separator is written behind the last of them, which does not go on with its
line. -/
theorem Reads.concat {ls : List Lexed} (h : Reads ls []) {d : Char} (hd : Lexeme.Separator d) (hnewline : d ≠ '\n')
    (hlast : ∀ l ∈ ls.getLast?, (∀ directive, l.kind ≠ .directive directive) ∧ l.kind ≠ .lineComment) : Reads ls [d] := by
  induction ls with
  | nil => trivial
  | cons l ls ih =>
    obtain ⟨⟨hgap, c, cs, htext, hlexeme⟩, hreads⟩ := h
    rw [List.append_nil] at hgap hlexeme
    refine ⟨⟨?_, c, cs, htext, ?_⟩, ?_⟩
    · rw [← List.append_assoc, Lexeme.gapLength_concat hnewline, hgap]
      rw [hgap, htext]
      simp only [List.length_append, List.length_cons]
      omega
    · rw [← List.append_assoc]
      cases ls with
      | nil =>
        obtain ⟨hdirective, hcomment⟩ := hlast l rfl
        exact Lexeme.lexeme_append_separator hd hlexeme hdirective hcomment
      | cons m ls =>
        refine Lexeme.lexeme_concat hd hlexeme ?_
        have hne := List.length_pos_iff.2 hreads.1.text_ne_nil
        simp only [Lexed.allChars_cons, List.length_append]
        omega
    · refine ih hreads fun m hm => hlast m ?_
      rw [List.getLast?_cons, hm]
      rfl

/-! ### The tokens of a text -/

/-- Tokens that are read from a text, one after another from its start. -/
def Tokenized (source : List Char) (ts : List Token) : Prop :=
  ∃ ls rest, source = allChars ls ++ rest ∧ Reads ls rest ∧ Stands 0 ls ts

theorem Tokenized.ordered {source : List Char} {ts : List Token} (h : Tokenized source ts) : Ordered ts := by
  obtain ⟨ls, rest, -, hreads, hstands⟩ := h
  exact hstands.ordered hreads

theorem tokenized_of_tokenize {source : String} {tokens : List Token} (h : tokenize source = .ok tokens) :
    ∃ body last, tokens = body ++ [last] ∧ last.kind = .eof ∧ (∀ t ∈ body, t.kind ≠ .eof) ∧
      Tokenized source.toList body := by
  obtain ⟨ls, rest, body, last, hsource, hreads, -, rfl, hstands, hlast⟩ := reads_of_tokenize h
  refine ⟨body, last, rfl, hlast, ?_, ls, rest, hsource, hreads, hstands⟩
  intro t ht heof
  obtain ⟨l, hl, hkind, -⟩ := hstands.exists_of_mem ht
  exact hreads.kind_ne_eof l hl (hkind.symm.trans heof)

/-- The runs of a text are all of its tokens but the end. -/
theorem tokenized_outline {source : String} {tokens : List Token} (h : tokenize source = .ok tokens) (markers : Bool) :
    Tokenized source.toList ((outline markers 0 tokens).flatMap Item.tokens) ∧
      ∃ last, last.kind = .eof ∧ tokens = (outline markers 0 tokens).flatMap Item.tokens ++ [last] := by
  obtain ⟨body, last, rfl, hlast, hends, hbody⟩ := tokenized_of_tokenize h
  rw [flatMap_tokens_outline, Outline.untilEnd_concat_eof hlast hends]
  exact ⟨hbody, last, hlast, rfl⟩

/-- The tokens around a run of a text. -/
theorem tokenized_run {source : String} {tokens : List Token} (h : tokenize source = .ok tokens) {markers : Bool}
    {earlier later : List Item} {item : Item} (houtline : outline markers 0 tokens = earlier ++ item :: later) :
    Tokenized source.toList (earlier.flatMap Item.tokens ++ item.tokens ++ later.flatMap Item.tokens) ∧
      ∃ last, last.kind = .eof ∧ tokens = earlier.flatMap Item.tokens ++ item.tokens ++ later.flatMap Item.tokens ++ [last] := by
  have hruns := tokenized_outline h markers
  rwa [houtline, List.flatMap_append, List.flatMap_cons, ← List.append_assoc] at hruns

theorem Stands.split_tokens {offset : Nat} {ls : List Lexed} {ts us : List Token} (h : Stands offset ls (ts ++ us)) :
    ∃ first rest, ls = first ++ rest ∧ Stands offset first ts ∧ Stands (offset + byteLength (allChars first)) rest us := by
  induction ts generalizing offset ls with
  | nil => exact ⟨[], ls, rfl, .nil _, by simpa using h⟩
  | cons t ts ih =>
    obtain _ | ⟨kind, text, span, rfl, behind⟩ := h
    obtain ⟨first, rest, rfl, hfirst, hrest⟩ := ih behind
    exact ⟨_ :: first, rest, rfl, .cons kind text span rfl hfirst, by simpa [Nat.add_assoc] using hrest⟩

/-- Tokens of a text are those of the piece of the text that they are cut out with. -/
theorem Tokenized.cut {source : List Char} {before behind ts : List Token} {t last : Token}
    (h : Tokenized source (before ++ t :: ts ++ behind)) (hlast : (t :: ts).getLast? = some last) :
    ∃ l row, l.gap = [] ∧ Reads (l :: row) [] ∧ (l :: row).map (·.kind) = (t :: ts).map (·.kind) ∧
      Span.slice? ⟨t.span.start, last.span.stop⟩ source = some (allChars (l :: row)) := by
  obtain ⟨ls, rest, rfl, hreads, hstands⟩ := h
  rw [List.append_assoc] at hstands
  obtain ⟨front, others, rfl, hfront, hothers⟩ := hstands.split_tokens
  obtain ⟨mid, behind', rfl, hmid, hbehind⟩ := hothers.split_tokens
  obtain _ | ⟨kind, text, span, next, inner⟩ := hmid
  rename_i l row
  have hstands' : Stands (byteLength (allChars front)) (l :: row) (t :: ts) := by
    simpa using Stands.cons kind text span next inner
  refine ⟨{ l with gap := [] }, row, rfl, ?_, ?_, ?_⟩
  · have hcut := @Reads.cut front (l :: row) behind' rest (by simpa using hreads)
    exact hcut
  · simpa using hstands'.map_kind.symm
  · have hslice := @Stands.slice (allChars front) (allChars behind' ++ rest) _ _ _ _ _ hstands' hlast
    simpa using hslice

end CHeader
