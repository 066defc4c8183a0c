import CHeader.Proofs.Checked.Heads
import CHeader.Proofs.Respelling
import CHeader.Proofs.Tiling

/-!
# Texts by position

The text of a declaration is a slice of the source between two positions (`sourceText?`), or the slices of some tokens
with the blanks that are needed between them (`join?`). A slice that does not begin and end at characters of the source
fails. Where the tokens are read from the source (`ReadFrom`), nothing fails, and the texts are those of `Site.between`
and `spell`.
-/

namespace CHeader

/-! ### Tokens of a source -/

/-- An identifier is called as it is spelled. -/
theorem Lexeme.name_of_lexeme {c : Char} {cs : List Char} {name : String} {n : Nat}
    (h : lexeme c cs = ⟨.ok (.identifier name), n⟩) : name = String.ofList (c :: cs.take n) := by
  have hliteral : ∀ quote kind fault opening, (∀ spelling, kind spelling ≠ TokenKind.identifier name) →
      literal quote kind fault c opening cs ≠ ⟨.ok (.identifier name), n⟩ := by
    intro quote kind fault opening hkind
    rw [literal]
    split <;> simp [hkind]
  have hplain : ∀ m, plainWord c cs m = ⟨.ok (.identifier name), n⟩ → name = String.ofList (c :: cs.take n) := by
    intro m hm
    simp only [plainWord] at hm
    split at hm
    · cases hm
    · cases hm
      rfl
  rw [lexeme] at h
  split_ifs at h
  · rw [word_eq] at h
    split_ifs at h
    · exact absurd h (hliteral _ _ _ _ (by simp))
    · exact absurd h (hliteral _ _ _ _ (by simp))
    · exact hplain _ h
    · exact hplain _ h
  · cases h
  · exact absurd h (hliteral _ _ _ _ (by simp))
  · exact absurd h (hliteral _ _ _ _ (by simp))
  · simp only [directive] at h
    split_ifs at h <;> cases h
  · cases h
  · rw [blockComment] at h
    split at h <;> cases h
  · rw [punct] at h
    split at h <;> cases h

/-- What is read without a fault is the tokens. -/
theorem eq_map_ok_of_faults {items : List (Except Diagnostic Token)} (h : faults items = []) :
    items = (goodTokens items).map .ok := by
  induction items with
  | nil => rfl
  | cons item items ih =>
    cases item with
    | error fault => cases h
    | ok t =>
      exact congrArg (Except.ok t :: ·) (ih h)

/-- A token is spaced exactly if it does not begin where the one before it ends. -/
theorem Tiles.isChain {offset : Nat} {cs : List Char} {ts : List Token} (h : Tiles offset cs (ts.map .ok)) :
    ts.IsChain fun t u => u.spaced = true ↔ t.span.stop < u.span.start := by
  induction ts generalizing offset cs with
  | nil => exact .nil
  | cons t ts ih =>
    obtain _ | ⟨-, -, hspan, -, hmore⟩ := h
    have hrest := ih hmore
    cases ts with
    | nil => exact .singleton t
    | cons u us =>
      obtain _ | ⟨-, -, hspan', htoken, -⟩ := hmore
      rename_i gap' text' rest' _
      refine .cons_cons ?_ hrest
      have hstop : t.span = _ := hspan
      have hstart : u.span = _ := hspan'
      rw [(htoken u rfl).2, hstop, hstart, ← not_iff_not, not_not, ← byteLength_eq_zero_iff]
      simp only
      omega

namespace Checked

/-- The tokens `body` are read from the source, and one more ends it. -/
structure ReadFrom (source : List Char) (tokens body : List Token) : Prop where
  split : ∃ last, tokens = body ++ [last] ∧ last.kind = .eof
  tokenized : Tokenized source body
  spaced : body.IsChain fun t u => u.spaced = true ↔ t.span.stop < u.span.start

theorem readFrom_of_tokenize {source : String} {tokens : List Token} (h : tokenize source = .ok tokens) :
    ∃ body, ReadFrom source.toList tokens body := by
  obtain ⟨body, last, rfl, hlast, -, hbody⟩ := tokenized_of_tokenize h
  obtain ⟨items, line, hitems, htiles⟩ := (Scanner.ofText source.toList).tiles_items
  have hfaults : faults (Scanner.ofText source.toList).items = [] ∧
      goodTokens (Scanner.ofText source.toList).items = body ++ [last] := by
    simp only [tokenize] at h
    split at h
    · rename_i hnone
      exact ⟨hnone, Except.ok.inj h⟩
    · cases h
  have hall := eq_map_ok_of_faults hfaults.1
  rw [hfaults.2, hitems, List.map_append] at hall
  obtain ⟨rfl, -⟩ := List.append_inj' hall rfl
  exact ⟨body, ⟨last, rfl, hlast⟩, hbody, htiles.isChain⟩

/-! ### Texts -/

/-- The characters of a span. -/
def slice? (source : List Char) (span : Span) : Option String :=
  (span.slice? source).map String.ofList

/-- The source from the start of the token at one position to the end of that at another. -/
def sourceText? (source : List Char) (tokens : List Token) (first last : Nat) : Option String := do
  let t ← token? tokens first
  let u ← token? tokens last
  slice? source ⟨t.span.start, u.span.stop⟩

/-- Whether a blank is written between two tokens: where the second is spaced, where the positions are not next to each
other, and between two words. -/
def needsBlank (p i : Nat) (before t : Token) : Bool :=
  t.spaced || decide (i ≠ p + 1) || (!before.kind.isPunctuation && !t.kind.isPunctuation)

/-- The tokens at some positions behind that at position `p`, each with the blank it needs. -/
def joinBehind? (source : List Char) (tokens : List Token) (p : Nat) : List Nat → Option String
  | [] => some ""
  | i :: indices => do
    let before ← token? tokens p
    let t ← token? tokens i
    let text ← slice? source t.span
    let behind ← joinBehind? source tokens i indices
    some ((if needsBlank p i before t then " " else "") ++ text ++ behind)

/-- The tokens at some positions in one line. -/
def join? (source : List Char) (tokens : List Token) : List Nat → Option String
  | [] => some ""
  | i :: indices => do
    let t ← token? tokens i
    let text ← slice? source t.span
    let behind ← joinBehind? source tokens i indices
    some (text ++ behind)

/-- The first of some positions that lies between others, outside the two that `omitted` are. -/
def lostConditional (conditionals : List Nat) (omitted : Option (Nat × Nat)) (indices : List Nat) : Option Nat := do
  let first ← indices.min?
  let last ← indices.max?
  conditionals.find? fun i => decide (first < i) && decide (i < last) &&
    !(omitted.any fun (opening, close) => decide (opening < i) && decide (i < close))

/-- Some tokens in order, at their positions. -/
structure View.Lists (view : View) (places : List Nat) (ts : List Token) : Prop where
  shows : places.map view = ts.map some
  increasing : places.Pairwise (· < ·)

/-- Some tokens of a text in order, at their positions, none of which is that of the end of the text. -/
structure Picks (tokens : List Token) (indices : List Nat) (ts : List Token) : Prop extends (token? tokens).Lists indices ts where
  within : ∀ k ∈ indices, k + 1 < tokens.length

section Picks

variable {source : List Char} {tokens body ts : List Token} {indices : List Nat} {i j : Nat} {t u : Token}

theorem Picks.tail {k : Nat} (h : Picks tokens (k :: indices) (t :: ts)) : Picks tokens indices ts :=
  ⟨⟨(List.cons.inj h.shows).2, (List.pairwise_cons.1 h.increasing).2⟩, fun i hi => h.within i (List.mem_cons_of_mem k hi)⟩

namespace ReadFrom

variable (h : ReadFrom source tokens body)

include h

theorem length : tokens.length = body.length + 1 := by
  obtain ⟨last, rfl, -⟩ := h.split
  simp

theorem getElem?_of_token? (hi : token? tokens i = some t) (hlt : i + 1 < tokens.length) : body[i]? = some t := by
  have hlength := h.length
  rw [token?_of_lt (by omega)] at hi
  obtain ⟨last, rfl, -⟩ := h.split
  rwa [List.getElem?_append_left (by omega)] at hi

theorem mem (hi : token? tokens i = some t) (hlt : i + 1 < tokens.length) : t ∈ body :=
  List.mem_of_getElem? (h.getElem?_of_token? hi hlt)

/-- The tokens between two positions. -/
theorem exists_between (hi : token? tokens i = some t) (hj : token? tokens j = some u) (hij : i ≤ j) (hlt : j + 1 < tokens.length) :
    ∃ before mid behind, body = before ++ t :: mid ++ behind ∧ (t :: mid).getLast? = some u := by
  have hbody := h.getElem?_of_token? hi (by omega)
  have hbody' := h.getElem?_of_token? hj hlt
  obtain ⟨hilt, rfl⟩ := List.getElem?_eq_some_iff.1 hbody
  obtain ⟨hjlt, rfl⟩ := List.getElem?_eq_some_iff.1 hbody'
  have hcut : body[i] :: (body.drop (i + 1)).take (j - i) = (body.drop i).take (j - i + 1) := by
    rw [List.drop_eq_getElem_cons hilt, List.take_succ_cons]
  refine ⟨body.take i, (body.drop (i + 1)).take (j - i), body.drop (j + 1), ?_, ?_⟩
  · rw [hcut, List.append_assoc, show j + 1 = i + (j - i + 1) by omega, ← List.drop_drop, List.take_append_drop,
      List.take_append_drop]
  · rw [hcut, List.getLast?_eq_getElem?, List.length_take, List.length_drop, List.getElem?_take_of_lt (by omega),
      List.getElem?_drop, List.getElem?_eq_getElem (by omega)]
    congr 2
    omega

theorem start_lt_stop (hi : token? tokens i = some t) (hlt : i + 1 < tokens.length) : t.span.start < t.span.stop :=
  h.tokenized.ordered.positive t (h.mem hi hlt)

theorem stop_le_start (hi : token? tokens i = some t) (hj : token? tokens j = some u) (hij : i < j) (hlt : j + 1 < tokens.length) :
    t.span.stop ≤ u.span.start := by
  have hbody := h.getElem?_of_token? hi (by omega)
  have hbody' := h.getElem?_of_token? hj hlt
  obtain ⟨hilt, rfl⟩ := List.getElem?_eq_some_iff.1 hbody
  obtain ⟨hjlt, rfl⟩ := List.getElem?_eq_some_iff.1 hbody'
  exact List.pairwise_iff_getElem.1 h.tokenized.ordered.pairwise i j hilt hjlt hij

/-- Tokens stand in the order of their positions. -/
theorem lt_iff (hi : token? tokens i = some t) (hj : token? tokens j = some u) (hilt : i + 1 < tokens.length)
    (hjlt : j + 1 < tokens.length) : t.span.start < u.span.start ↔ i < j := by
  constructor
  · intro hstart
    by_contra hle
    rcases Nat.lt_or_eq_of_le (Nat.le_of_not_lt hle) with hlt | rfl
    · have := h.stop_le_start hj hi hlt hilt
      have := h.start_lt_stop hj hjlt
      omega
    · rw [hi] at hj
      cases hj
      omega
  · intro hlt
    have := h.stop_le_start hi hj hlt hjlt
    have := h.start_lt_stop hi hilt
    omega

theorem slice?_of_mem (ht : t ∈ body) : slice? source t.span = some t.text := by
  obtain ⟨before, behind, hread⟩ := h.tokenized.readIn ht
  rw [slice?, hread.slice, Option.map_some, String.ofList_toList]

theorem slice?_eq (hi : token? tokens i = some t) (hlt : i + 1 < tokens.length) : slice? source t.span = some t.text :=
  h.slice?_of_mem (h.mem hi hlt)

theorem sourceText?_eq {site : Site} (hsource : site.source = source) (hi : token? tokens i = some t) (hj : token? tokens j = some u)
    (hij : i ≤ j) (hlt : j + 1 < tokens.length) : sourceText? source tokens i j = some (site.between t u) := by
  obtain ⟨before, mid, behind, rfl, hlast⟩ := h.exists_between hi hj hij hlt
  obtain ⟨l, row, -, -, -, hslice⟩ := h.tokenized.cut hlast
  simp only [sourceText?, hi, hj, Option.bind_eq_bind, Option.bind_some, slice?, Site.between, hsource, hslice, Option.map_some,
    Option.getD_some]

theorem text_of_identifier {name : String} (hi : token? tokens i = some t) (hlt : i + 1 < tokens.length)
    (hname : t.kind.identifier? = some name) : name = t.text := by
  obtain ⟨before, behind, hread⟩ := h.tokenized.readIn (h.mem hi hlt)
  obtain ⟨c, cs, htext, hlexeme⟩ := hread.read.lexeme
  have hkind : t.kind = .identifier name := by
    unfold TokenKind.identifier? at hname
    split at hname <;> simp_all
  rw [hkind] at hlexeme
  rw [Lexeme.name_of_lexeme hlexeme, List.take_left, ← htext, String.ofList_toList]

theorem needsBlank_eq (hi : token? tokens i = some t) (hj : token? tokens j = some u) (hij : i < j) (hlt : j + 1 < tokens.length) :
    needsBlank i j t u = CHeader.needsBlank t u := by
  rw [needsBlank, CHeader.needsBlank]
  congr 1
  rw [Bool.eq_iff_iff, Bool.or_eq_true, decide_eq_true_eq, decide_eq_true_eq]
  rcases Nat.lt_or_eq_of_le hij with hapart | rfl
  · -- a token stands between the two
    obtain ⟨between, hbetween⟩ : ∃ v, token? tokens (i + 1) = some v := by
      rw [token?_of_lt (by omega)]
      exact ⟨_, List.getElem?_eq_getElem (by omega)⟩
    have := h.stop_le_start hi hbetween (Nat.lt_succ_self i) (by omega)
    have := h.start_lt_stop hbetween (by omega)
    have := h.stop_le_start hbetween hj hapart hlt
    exact iff_of_true (.inr (by omega)) (by omega)
  · have hbody := h.getElem?_of_token? hi (by omega)
    have hbody' := h.getElem?_of_token? hj hlt
    obtain ⟨hilt, rfl⟩ := List.getElem?_eq_some_iff.1 hbody
    obtain ⟨hjlt, rfl⟩ := List.getElem?_eq_some_iff.1 hbody'
    simpa using List.isChain_iff_getElem.1 h.spaced i hjlt

theorem joinBehind?_eq (hpicks : Picks tokens (i :: indices) (t :: ts)) :
    joinBehind? source tokens i indices = some (spellBehind t ts) := by
  induction ts generalizing i t indices with
  | nil =>
    obtain rfl : indices = [] := by simpa using (List.cons.inj hpicks.shows).2
    rfl
  | cons u ts ih =>
    obtain ⟨hi, hrest⟩ := List.cons.inj hpicks.shows
    obtain ⟨j, indices, rfl, hj, -⟩ := List.map_eq_cons_iff.1 hrest
    have hlt := hpicks.within j (by simp)
    have hij := List.rel_of_pairwise_cons hpicks.increasing (List.mem_cons_self : j ∈ j :: indices)
    simp only [joinBehind?, hi, hj, Option.bind_eq_bind, Option.bind_some, h.slice?_eq hj hlt, ih hpicks.tail,
      h.needsBlank_eq hi hj hij hlt, spellBehind]

/-- Tokens are joined as they are spelled. -/
theorem join?_eq (hpicks : Picks tokens indices ts) : join? source tokens indices = some (spell ts) := by
  cases ts with
  | nil =>
    obtain rfl : indices = [] := by simpa using hpicks.shows
    rfl
  | cons t ts =>
    obtain ⟨i, indices, rfl, hi, -⟩ := List.map_eq_cons_iff.1 hpicks.shows
    simp only [join?, hi, Option.bind_eq_bind, Option.bind_some, h.slice?_eq hi (hpicks.within i (by simp)),
      h.joinBehind?_eq hpicks, spell]

end ReadFrom

/-! ### Conditionals -/

/-- The two positions are those of the first and the last of some tokens; there are none where there are no positions. -/
inductive Encloses (tokens : List Token) : Option (Nat × Nat) → List Token → Prop
  | none : Encloses tokens none []
  | some {opening close : Nat} {t u : Token} {ts : List Token} (first : ts.head? = some t) (last : ts.getLast? = some u)
      (shows : token? tokens opening = some t) (shows_close : token? tokens close = some u) (le : opening ≤ close)
      (within : close + 1 < tokens.length) : Encloses tokens (some (opening, close)) ts

/-- What is found among some positions is what is found among their tokens. -/
theorem find?_map {f : Nat → Option Token} {p : Nat → Bool} {q : Token → Bool} {ks : List Nat}
    (hshows : ks.map f = ts.map some) (hsame : ∀ k ∈ ks, ∀ t, f k = some t → p k = q t) :
    (ks.find? p).map f = (ts.find? q).map some := by
  induction ks generalizing ts with
  | nil =>
    obtain rfl : ts = [] := by simpa using hshows.symm
    rfl
  | cons k ks ih =>
    obtain ⟨t, ts, rfl, ht, hts⟩ := List.map_eq_cons_iff.1 hshows.symm
    have hsplit := hsame k List.mem_cons_self t ht.symm
    rw [List.find?_cons, List.find?_cons, hsplit]
    cases q t with
    | true => exact congrArg some ht.symm
    | false => exact ih hts.symm fun k' hk' => hsame k' (List.mem_cons_of_mem k hk')

/-- The first and the last of some positions in order. -/
theorem Picks.ends (h : Picks tokens indices ts) :
    (indices.min? = none ∧ ts = []) ∨ ∃ k l t u, indices.min? = some k ∧ indices.max? = some l ∧ k ∈ indices ∧ l ∈ indices ∧
      token? tokens k = some t ∧ token? tokens l = some u ∧ ts.head? = some t ∧ ts.getLast? = some u := by
  cases ts with
  | nil => exact .inl ⟨by simpa using h.shows, rfl⟩
  | cons t ts =>
    right
    obtain ⟨k, rest, rfl, hk, -⟩ := List.map_eq_cons_iff.1 h.shows
    have hne : k :: rest ≠ [] := List.cons_ne_nil k rest
    have hlast : (k :: rest).getLast? = some ((k :: rest).getLast hne) := List.getLast?_eq_some_getLast hne
    obtain ⟨front, hfront⟩ := List.getLast?_eq_some_iff.1 hlast
    have hincreasing := h.increasing
    have hshows := congrArg List.getLast? h.shows
    rw [List.getLast?_map, List.getLast?_map, hlast, Option.map_some] at hshows
    obtain ⟨u, hu, hlastToken⟩ := Option.map_eq_some_iff.1 hshows.symm
    refine ⟨k, _, t, u, List.min?_eq_some_iff.2 ⟨List.mem_cons_self, ?_⟩, List.max?_eq_some_iff.2 ⟨List.getLast_mem hne, ?_⟩,
      List.mem_cons_self, List.getLast_mem hne, hk, hlastToken.symm, rfl, hu⟩
    · intro j hj
      rcases List.mem_cons.1 hj with rfl | hj
      · exact Nat.le_refl _
      · exact Nat.le_of_lt (List.rel_of_pairwise_cons hincreasing hj)
    · intro j hj
      rw [hfront] at hj hincreasing
      rcases List.mem_append.1 hj with hj | hj
      · exact Nat.le_of_lt ((List.pairwise_append.1 hincreasing).2.2 j hj _ (List.mem_singleton.2 rfl))
      · exact Nat.le_of_eq (List.mem_singleton.1 hj)

/-- A conditional directive is lost by position if it is lost between the tokens. -/
theorem ReadFrom.lostConditional_map (h : ReadFrom source tokens body) {c : Construct} {conditionals : List Nat}
    {omitted : Option (Nat × Nat)} {omittedTokens : List Token} (hpicks : Picks tokens indices ts)
    (hconditionals : conditionals.map (token? tokens) = c.conditionals.map some)
    (hwithin : ∀ k ∈ conditionals, k + 1 < tokens.length) (homitted : Encloses tokens omitted omittedTokens) :
    (lostConditional conditionals omitted indices).map (token? tokens) = (c.lostConditional? omittedTokens ts).map some := by
  rw [lostConditional, Construct.lostConditional?]
  obtain ⟨hmin, rfl⟩ | ⟨k, l, t, u, hmin, hmax, hk, hl, ht, hu, hhead, hlast⟩ := hpicks.ends
  · rw [hmin]
    rfl
  · rw [hmin, hmax, hhead, hlast]
    simp only [Option.bind_eq_bind, Option.bind_some]
    refine find?_map hconditionals fun i hi v hv => ?_
    have hiwithin := hwithin i hi
    have hbetween : ∀ {j j' : Nat} {w w' : Token}, token? tokens j = some w → token? tokens j' = some w' → j + 1 < tokens.length →
        j' + 1 < tokens.length → (decide (j < i) && decide (i < j')) = v.isBetween w w' := by
      intro j j' w w' hw hw' hj hj'
      rw [Token.isBetween, Bool.eq_iff_iff]
      simp only [Bool.and_eq_true, decide_eq_true_eq, h.lt_iff hw hv hj hiwithin, h.lt_iff hv hw' hiwithin hj']
    rw [hbetween ht hu (hpicks.within k hk) (hpicks.within l hl)]
    cases homitted with
    | none => rfl
    | some first last shows shows_close le within =>
      simp only [first, last, Option.any_some]
      rw [hbetween shows shows_close (by omega) within]

end Picks

end Checked

end CHeader
