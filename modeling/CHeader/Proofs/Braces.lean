import CHeader.Proofs.Joining
import CHeader.Proofs.OldStyle

/-!
# Braces

Braces are taken in at five places: among the brackets of a construct, in the body of a function, behind a fault, as
`extern "C" {`, and as the brace that closes such a block. A run that is no broken construct takes them in as they nest: a
construct leaves none open, whatever brackets of other kinds stand in the body of its function
(`Outline.openBehind?_of_collect`), and a block stands open behind the run that opens it. So a text without an error leaves
no brace open and closes none in excess, but for the blocks (`openBehind?_outline`). Whether those are closed nothing asks
at the end of the text (`block_left_open`).
-/

namespace CHeader

/-- A brace, opening or closing. -/
def Token.IsBrace (t : Token) : Prop :=
  t.kind = .opening .brace ∨ t.kind = .closing .brace

instance (t : Token) : Decidable t.IsBrace :=
  inferInstanceAs (Decidable (_ ∨ _))

namespace Nesting

/-- The braces among some tokens. -/
def braces (ts : List Token) : List Token :=
  ts.filter (·.IsBrace)

@[simp] theorem braces_nil : braces [] = [] := rfl

@[simp] theorem braces_append (ts us : List Token) : braces (ts ++ us) = braces ts ++ braces us :=
  List.filter_append ..

theorem braces_cons (t : Token) (ts : List Token) :
    braces (t :: ts) = if t.IsBrace then t :: braces ts else braces ts := by
  simp [braces, List.filter_cons]

theorem braces_eq_nil {ts : List Token} (h : ∀ t ∈ ts, ¬ t.IsBrace) : braces ts = [] := by
  simpa [braces] using h

theorem braces_filter_isSignificant (ts : List Token) : braces (ts.filter (·.isSignificant)) = braces ts := by
  rw [braces, braces, List.filter_filter]
  apply List.filter_congr
  intro t _
  by_cases h : t.IsBrace
  · have hsignificant : t.isSignificant = true := by rcases h with h | h <;> simp [Token.isSignificant, h]
    simp [h, hsignificant]
  · simp [h]

/-- More brackets around a token stay open. -/
theorem openStep_frame {opened between : List Token} {t : Token} (h : openStep opened t = some between)
    (outer : List Token) : openStep (opened ++ outer) t = some (between ++ outer) := by
  unfold openStep at h ⊢
  split_ifs at h ⊢
  · cases h
    rfl
  · cases opened with
    | nil => cases h
    | cons opening opened =>
      simp only [List.cons_append] at h ⊢
      split_ifs at h ⊢
      cases h
      rfl
  · cases h
    rfl

/-- More brackets around the tokens stay open. -/
theorem openBehind?_frame {opened ts behind : List Token} (h : openBehind? opened ts = some behind) (outer : List Token) :
    openBehind? (opened ++ outer) ts = some (behind ++ outer) := by
  induction ts generalizing opened with
  | nil =>
    cases h
    rfl
  | cons t ts ih =>
    rw [openBehind?_cons] at h ⊢
    obtain ⟨between, hstep, hts⟩ := Option.bind_eq_some_iff.1 h
    rw [openStep_frame hstep, Option.bind_some, ih hts]

/-- A bracket whose inside leaves brackets open is open below them. -/
theorem exists_outer_of_openBehind? {opened before inside left behind : List Token} {opening : Token} {bracket : Bracket}
    (hkind : opening.kind = .opening bracket) (h : openBehind? opened (before ++ opening :: inside) = some behind)
    (hinside : openBehind? [] inside = some left) : ∃ outer, behind = left ++ opening :: outer := by
  rw [openBehind?_append] at h
  obtain ⟨outer, -, h⟩ := Option.bind_eq_some_iff.1 h
  rw [openBehind?_cons, openStep_opening hkind, Option.bind_some] at h
  have hframe := openBehind?_frame hinside (opening :: outer)
  exact ⟨outer, Option.some.inj (h.symm.trans hframe)⟩

theorem openBehind?_of_closed {ts : List Token} (h : openBehind? [] ts = some []) (outer : List Token) :
    openBehind? outer ts = some outer := by
  simpa using openBehind?_frame h outer

/-- Where all brackets fit, the braces among them do. -/
theorem openBehind?_braces {opened ts behind : List Token} (h : openBehind? opened ts = some behind) :
    openBehind? (braces opened) (braces ts) = some (braces behind) := by
  induction ts generalizing opened with
  | nil =>
    cases h
    rfl
  | cons t ts ih =>
    rw [openBehind?_cons] at h
    obtain ⟨between, hstep, hts⟩ := Option.bind_eq_some_iff.1 h
    have hrest := ih hts
    by_cases hopening : t.kind.isOpening = true
    · obtain ⟨bracket, hkind⟩ := TokenKind.isOpening_iff.1 hopening
      rw [openStep_opening hkind] at hstep
      obtain rfl := Option.some.inj hstep
      by_cases hbrace : bracket = .brace
      · subst hbrace
        rw [braces_cons, if_pos (.inl hkind)] at hrest
        rw [braces_cons, if_pos (.inl hkind), openBehind?_cons, openStep_opening hkind, Option.bind_some, hrest]
      · have hother : ¬ t.IsBrace := by simp [Token.IsBrace, hkind, hbrace]
        rw [braces_cons, if_neg hother] at hrest
        rw [braces_cons, if_neg hother, hrest]
    · by_cases hclosing : t.kind.isClosing = true
      · obtain ⟨bracket, hkind⟩ := TokenKind.isClosing_iff.1 hclosing
        cases opened with
        | nil => simp [openStep, hkind, TokenKind.isOpening, TokenKind.isClosing] at hstep
        | cons opening outer =>
          obtain ⟨hcloses, rfl⟩ : t.kind.closes opening.kind = true ∧ outer = between := by
            simpa [openStep, hopening, hclosing] using hstep
          rw [hkind, TokenKind.closes_closing_iff] at hcloses
          by_cases hbrace : bracket = .brace
          · subst hbrace
            rw [braces_cons, if_pos (.inl hcloses), braces_cons, if_pos (.inr hkind), openBehind?_cons,
              (openStep_closing_iff hclosing hcloses).2 ⟨hkind, rfl⟩, Option.bind_some, hrest]
          · have hother : ¬ t.IsBrace := by simp [Token.IsBrace, hkind, hbrace]
            have hopening' : ¬ opening.IsBrace := by simp [Token.IsBrace, hcloses, hbrace]
            rw [braces_cons, if_neg hopening', braces_cons, if_neg hother, hrest]
      · have hnone : t.kind.isOpening = false ∧ t.kind.isClosing = false := by simpa using And.intro hopening hclosing
        rw [openStep_of_noBracket hnone] at hstep
        obtain rfl := Option.some.inj hstep
        have hother : ¬ t.IsBrace := by
          rintro (hkind | hkind) <;> simp [hkind, TokenKind.isOpening, TokenKind.isClosing] at hnone
        rw [braces_cons, if_neg hother, hrest]

/-- Among tokens without brackets of other kinds, the braces are all that matters. -/
theorem openBehind?_of_onlyBraces {ts : List Token}
    (h : ∀ t ∈ ts, t.IsBrace ∨ t.kind.isOpening = false ∧ t.kind.isClosing = false) (opened : List Token) :
    openBehind? opened ts = openBehind? opened (braces ts) := by
  induction ts generalizing opened with
  | nil => rfl
  | cons t ts ih =>
    obtain ⟨ht, hts⟩ := List.forall_mem_cons.1 h
    rw [braces_cons]
    split_ifs with hbrace
    · rw [openBehind?_cons, openBehind?_cons]
      simp only [ih hts]
    · rw [openBehind?_cons, openStep_of_noBracket (ht.resolve_left hbrace), Option.bind_some, ih hts]

/-- Tokens that close all braces have one that closes a given one. -/
theorem exists_closing_brace {opened stack ts : List Token} {brace : Token}
    (h : openBehind? (opened ++ brace :: stack) (braces ts) = some []) :
    ∃ inside close rest, ts = inside ++ close :: rest ∧ close.kind = .closing .brace ∧
      openBehind? opened (braces inside) = some [] ∧ openBehind? stack (braces rest) = some [] := by
  induction ts generalizing opened with
  | nil => simp [openBehind?] at h
  | cons t ts ih =>
    rw [braces_cons] at h
    by_cases hbrace : t.IsBrace
    case neg =>
      rw [if_neg hbrace] at h
      obtain ⟨inside, close, rest, rfl, hclose, hinside, hrest⟩ := ih h
      exact ⟨t :: inside, close, rest, rfl, hclose, by rwa [braces_cons, if_neg hbrace], hrest⟩
    rw [if_pos hbrace, openBehind?_cons] at h
    obtain ⟨between, hstep, h⟩ := Option.bind_eq_some_iff.1 h
    rcases hbrace with hopening | hclosing
    · obtain rfl : t :: (opened ++ brace :: stack) = between := by simpa [openStep_opening hopening] using hstep
      obtain ⟨inside, close, rest, rfl, hclose, hinside, hrest⟩ := @ih (t :: opened) h
      refine ⟨t :: inside, close, rest, rfl, hclose, ?_, hrest⟩
      rw [braces_cons, if_pos (.inl hopening), openBehind?_cons, openStep_opening hopening]
      exact hinside
    · cases opened with
      | nil =>
        obtain rfl : stack = between := by
          simp only [openStep, hclosing, TokenKind.isOpening, TokenKind.isClosing, List.nil_append] at hstep
          simp at hstep
          exact hstep.2
        exact ⟨[], t, ts, rfl, hclosing, rfl, h⟩
      | cons b outer =>
        obtain ⟨hcloses, rfl⟩ : t.kind.closes b.kind = true ∧ outer ++ brace :: stack = between := by
          simpa [openStep, hclosing, TokenKind.isOpening, TokenKind.isClosing] using hstep
        obtain ⟨inside, close, rest, rfl, hclose, hinside, hrest⟩ := ih h
        refine ⟨t :: inside, close, rest, rfl, hclose, ?_, hrest⟩
        rw [hclosing, TokenKind.closes_closing_iff] at hcloses
        rw [braces_cons, if_pos (.inr hclosing), openBehind?_cons,
          (openStep_closing_iff (TokenKind.isClosing_iff.2 ⟨_, hclosing⟩) hcloses).2 ⟨hclosing, rfl⟩]
        exact hinside

end Nesting

open Nesting (openBehind? braces)

/-! ### Runs that are no broken constructs -/

namespace Outline

/-- The braces inside a body are balanced, and a brace closes it. -/
theorem braces_of_body? {close : Token} {ts inside opened : List Token} (hopened : ∀ t ∈ opened, t.kind = .opening .brace)
    (h : body? opened.length ts = some (inside, close)) :
    openBehind? opened (braces inside) = some [] ∧ close.kind = .closing .brace := by
  induction ts generalizing opened inside with
  | nil => cases h
  | cons t ts ih =>
    -- the token is inside the body, and `between` is open behind it
    have hinside : ∀ between, (∀ t ∈ between, t.kind = .opening .brace) →
        (t.IsBrace → Nesting.openStep opened t = some between) → (¬ t.IsBrace → between = opened) →
        (body? between.length ts).map (fun found => (t :: found.1, found.2)) = some (inside, close) →
        openBehind? opened (braces inside) = some [] ∧ close.kind = .closing .brace := by
      intro between hbetween hstep hsame hbody
      obtain ⟨⟨inside', close'⟩, hfound, heq⟩ := Option.map_eq_some_iff.1 hbody
      obtain ⟨rfl, rfl⟩ := Prod.mk.inj heq
      obtain ⟨hrest, hclose⟩ := ih hbetween hfound
      refine ⟨?_, hclose⟩
      rw [Nesting.braces_cons]
      split_ifs with ht
      · rw [Nesting.openBehind?_cons, hstep ht, Option.bind_some, hrest]
      · rw [← hsame ht]
        exact hrest
    rw [body?] at h
    split at h
    case h_1 => cases h
    case h_2 hkind =>
      refine hinside (t :: opened) (List.forall_mem_cons.2 ⟨hkind, hopened⟩) ?_ ?_ h
      · intro _
        exact Nesting.openStep_opening hkind _
      · intro ht
        exact absurd (.inl hkind) ht
    case h_3 hkind =>
      cases opened with
      | nil =>
        cases h
        exact ⟨rfl, hkind⟩
      | cons opening outer =>
        obtain ⟨hopening, houter⟩ := List.forall_mem_cons.1 hopened
        refine hinside outer houter ?_ ?_ h
        · intro _
          exact (Nesting.openStep_closing_iff (TokenKind.isClosing_iff.2 ⟨_, hkind⟩) hopening).2 ⟨hkind, rfl⟩
        · intro ht
          exact absurd (.inr hkind) ht
    case h_4 hopening hclosing =>
      have hnone : ¬ t.IsBrace := by
        rintro (hkind | hkind)
        · exact hopening hkind
        · exact hclosing hkind
      exact hinside opened hopened (fun ht => absurd ht hnone) (fun _ => rfl) h

/-- Tokens between which braces are balanced are the inside of a body. -/
theorem body?_of_braces {opened inside : List Token} (hopened : ∀ t ∈ opened, t.kind = .opening .brace)
    (hinner : ∀ t ∈ inside, t.kind ≠ .eof) (hbalanced : openBehind? opened (braces inside) = some []) {close : Token}
    (hclose : close.kind = .closing .brace) (more : List Token) :
    body? opened.length (inside ++ close :: more) = some (inside, close) := by
  induction inside generalizing opened with
  | nil =>
    obtain rfl : opened = [] := Option.some.inj hbalanced
    simp [body?, hclose]
  | cons t inside ih =>
    obtain ⟨ht, hinner⟩ := List.forall_mem_cons.1 hinner
    rw [Nesting.braces_cons] at hbalanced
    by_cases hopening : t.kind = .opening .brace
    · rw [if_pos (.inl hopening), Nesting.openBehind?_cons, Nesting.openStep_opening hopening] at hbalanced
      have hmore := @ih (t :: opened) (List.forall_mem_cons.2 ⟨hopening, hopened⟩) hinner hbalanced
      rw [List.cons_append, body?]
      simp only [hopening]
      rw [← List.length_cons (a := t), hmore]
      rfl
    · by_cases hclosing : t.kind = .closing .brace
      · rw [if_pos (.inr hclosing), Nesting.openBehind?_cons] at hbalanced
        cases opened with
        | nil => simp [Nesting.openStep, hclosing, TokenKind.isOpening, TokenKind.isClosing] at hbalanced
        | cons brace outer =>
          obtain ⟨hbrace, houter⟩ := List.forall_mem_cons.1 hopened
          have hstep := (@Nesting.openStep_closing_iff t brace .brace outer outer (by simp [hclosing, TokenKind.isClosing])
            hbrace).2 ⟨hclosing, rfl⟩
          rw [hstep] at hbalanced
          have hmore := ih houter hinner hbalanced
          rw [List.cons_append, body?]
          simp only [hclosing]
          rw [if_neg (by simp), List.length_cons, Nat.add_sub_cancel, hmore]
          rfl
      · rw [if_neg (by simp [Token.IsBrace, hopening, hclosing])] at hbalanced
        have hmore := ih hopened hinner hbalanced
        rw [List.cons_append, body?]
        split
        case h_1 heof => exact absurd heof ht
        case h_2 hkind => exact absurd hkind hopening
        case h_3 hkind => exact absurd hkind hclosing
        case h_4 => simp only [hmore, Option.map_some]

/-- The braces of a body close the one that opens it. -/
theorem openBehind?_of_body? {brace close : Token} {ts inside : List Token} (hbrace : brace.kind = .opening .brace)
    (h : body? 0 ts = some (inside, close)) (outer : List Token) :
    openBehind? (brace :: outer) (braces (inside ++ [close])) = some outer := by
  obtain ⟨hinside, hclose⟩ := @braces_of_body? close ts inside [] (by simp) h
  rw [Nesting.braces_append, Nesting.openBehind?_append, Nesting.openBehind?_of_closed hinside, Option.bind_some,
    Nesting.braces_cons, if_pos (.inr hclose), Nesting.openBehind?_cons,
    (Nesting.openStep_closing_iff (TokenKind.isClosing_iff.2 ⟨_, hclose⟩) hbrace).2 ⟨hclose, rfl⟩]
  rfl

/-- A construct leaves no brace open. -/
theorem openBehind?_of_collect {markers : Bool} {first : Token} {c : Collected} {ts tokens rest : List Token}
    {construct : Construct} (hdivided : c.Divided markers)
    (h : collect markers first c ts = (.construct tokens construct, rest)) :
    openBehind? [] (braces tokens) = some [] := by
  induction ts generalizing c with
  | nil => cases h
  | cons t ts ih =>
    rw [collect_cons] at h
    have hmet : braces c.met.reverse = braces c.tokens.reverse := by
      rw [← Nesting.braces_filter_isSignificant c.met.reverse, hdivided.met]
    have hopened := Nesting.openBehind?_braces hdivided.opened
    cases hverdict : c.verdict markers t with
    | goOn c' =>
      simp only [hverdict] at h
      exact ih (hdivided.grows (Collected.grows_of_verdict hverdict)) h
    | ends =>
      simp only [hverdict, Collected.stop] at h
      cases h
      obtain ⟨hsemi, hnone, -⟩ := Collected.of_verdict_eq_ends hverdict
      have hother : ¬ t.IsBrace := by simp [Token.IsBrace, hsemi]
      rw [List.reverse_cons, Nesting.braces_append, hmet, Nesting.braces_cons, if_neg hother, Nesting.braces_nil,
        List.append_nil]
      simpa [hnone] using hopened
    | body =>
      simp only [hverdict, Collected.stop, function] at h
      split at h
      case h_2 => cases h
      case h_1 inside close hbody =>
        cases h
        obtain ⟨hkind, hnone, -⟩ := Collected.of_verdict_eq_body hverdict
        rw [hnone, Nesting.braces_nil] at hopened
        rw [Nesting.braces_append, hmet, Nesting.openBehind?_append, hopened, Option.bind_some, Nesting.braces_cons,
          if_pos (.inl hkind), Nesting.openBehind?_cons, Nesting.openStep_opening hkind, Option.bind_some]
        exact openBehind?_of_body? hkind hbody []
    | unexpected | unbalanced | endOfText =>
      simp only [hverdict, Collected.stop] at h
      cases h

/-- What opens a block has no bracket before its brace. -/
theorem BlockOpening.noBracket {inner : List Token} {brace : Token} (h : BlockOpening (inner ++ [brace])) :
    brace.kind = .opening .brace ∧ ∀ t ∈ inner, t.kind.isOpening = false ∧ t.kind.isClosing = false := by
  obtain ⟨inner', brace', hsplit, hbrace, hinner⟩ := h.eq_concat
  obtain ⟨rfl, hlast⟩ := List.append_inj' hsplit rfl
  cases hlast
  exact ⟨hbrace, fun t ht => noBracket_of_word (hinner t ht).2⟩

/-- The ways in which a token begins a run that declares nothing: alone and no bracket, as the brace that closes a block,
or as `extern` before what opens one. -/
inductive Skips (linkage : Nat) (t : Token) (ts : List Token) : Nat → Nat → Prop
  | alone (kind : t.kind.isOpening = false ∧ t.kind.isClosing = false) : Skips linkage t ts 0 linkage
  | closed (kind : t.kind = .closing .brace) (inside : 0 < linkage) : Skips linkage t ts 0 (linkage - 1)
  | opened (kind : t.kind = .keyword .externKw) (inner : List Token) (brace : Token)
      (block : BlockOpening (inner ++ [brace])) (front : inner ++ [brace] <+: ts) :
      Skips linkage t ts (inner.length + 1) (linkage + 1)

theorem skips_of_skipped? {linkage linkage' n : Nat} {t : Token} {ts : List Token}
    (h : skipped? linkage t ts = some (n, linkage')) : Skips linkage t ts n linkage' := by
  unfold skipped? at h
  split at h
  case h_1 hkind | h_2 hkind | h_3 hkind =>
    cases h
    exact .alone (by simp [hkind, TokenKind.isOpening, TokenKind.isClosing])
  case h_4 hkind =>
    split_ifs at h with hinside
    cases h
    exact .closed hkind hinside
  case h_5 hkind =>
    obtain ⟨m, hlength, heq⟩ := Option.map_eq_some_iff.1 h
    cases heq
    obtain ⟨opening, hfront, hblock, rfl⟩ := linkageLength?_iff_blockOpening.1 hlength
    obtain ⟨inner, brace, rfl, -⟩ := hblock.eq_concat
    rw [List.length_append, List.length_singleton]
    exact .opened hkind inner brace hblock hfront
  case h_6 => cases h

end Outline

/-! ### Braces left open -/

/-- The brace stands at the end of `extern "C" {` among the tokens. -/
def OpensBlock (tokens : List Token) (brace : Token) : Prop :=
  ∃ keyword inner, keyword.kind = .keyword .externKw ∧ Outline.BlockOpening (inner ++ [brace]) ∧
    keyword :: (inner ++ [brace]) <:+: tokens

theorem OpensBlock.of_suffix {tokens rest : List Token} {brace : Token} (h : OpensBlock rest brace)
    (hrest : rest <:+ tokens) : OpensBlock tokens brace := by
  obtain ⟨keyword, inner, hkeyword, hblock, hwithin⟩ := h
  exact ⟨keyword, inner, hkeyword, hblock, hwithin.trans hrest.isInfix⟩

/-- What is skipped leaves one brace open for each block that it leaves open. -/
theorem Outline.Skips.openBehind? {linkage linkage' n : Nat} {t : Token} {ts opened : List Token}
    (h : Outline.Skips linkage t ts n linkage') (hlength : opened.length = linkage)
    (hopened : ∀ b ∈ opened, b.kind = .opening .brace) :
    ∃ behind, Nesting.openBehind? opened (braces (t :: ts.take n)) = some behind ∧ behind.length = linkage' ∧
      (∀ b ∈ behind, b.kind = .opening .brace) ∧ ∀ b ∈ behind, b ∈ opened ∨ OpensBlock (t :: ts) b := by
  cases h with
  | alone kind =>
    have hother : ¬ t.IsBrace := by
      rintro (hkind | hkind) <;> simp [hkind, TokenKind.isOpening, TokenKind.isClosing] at kind
    refine ⟨opened, ?_, hlength, hopened, fun b hb => .inl hb⟩
    rw [List.take_zero, Nesting.braces_cons, if_neg hother]
    rfl
  | closed kind inside =>
    obtain ⟨opening, outer, rfl⟩ := List.exists_cons_of_length_pos (hlength ▸ inside)
    obtain ⟨hopening, houter⟩ := List.forall_mem_cons.1 hopened
    have hclosing : t.kind.isClosing = true := TokenKind.isClosing_iff.2 ⟨_, kind⟩
    refine ⟨outer, ?_, by rw [← hlength]; rfl, houter, fun b hb => .inl (List.mem_cons_of_mem opening hb)⟩
    rw [List.take_zero, Nesting.braces_cons, if_pos (.inr kind), Nesting.openBehind?_cons,
      (Nesting.openStep_closing_iff hclosing hopening).2 ⟨kind, rfl⟩]
    rfl
  | opened kind inner brace block front =>
    obtain ⟨hbrace, hinner⟩ := block.noBracket
    obtain ⟨rest, rfl⟩ := front
    have hlength' : (inner ++ [brace]).length = inner.length + 1 := by simp
    have hother : ¬ t.IsBrace := by simp [Token.IsBrace, kind]
    have hnone : braces inner = [] := by
      apply Nesting.braces_eq_nil
      rintro u hu (hkind | hkind) <;> simpa [hkind, TokenKind.isOpening, TokenKind.isClosing] using hinner u hu
    have hopens : OpensBlock (t :: (inner ++ [brace] ++ rest)) brace :=
      ⟨t, inner, kind, block, (List.prefix_append (t :: (inner ++ [brace])) rest).isInfix⟩
    refine ⟨brace :: opened, ?_, by rw [← hlength]; rfl, List.forall_mem_cons.2 ⟨hbrace, hopened⟩, ?_⟩
    · rw [← hlength', List.take_left, Nesting.braces_cons, if_neg hother, Nesting.braces_append, hnone, List.nil_append,
        Nesting.braces_cons, if_pos (.inl hbrace), Nesting.braces_nil, Nesting.openBehind?_cons, Nesting.openStep_opening hbrace]
      rfl
    · exact List.forall_mem_cons.2 ⟨.inr hopens, fun b hb => .inl hb⟩

/-- Where no construct is broken, the braces fit, and only those of blocks stay open. -/
theorem openBehind?_outline {markers : Bool} {linkage : Nat} {ts : List Token}
    (h : ∀ item ∈ outline markers linkage ts, item.Sound) {opened : List Token} (hlength : opened.length = linkage)
    (hopened : ∀ b ∈ opened, b.kind = .opening .brace) :
    ∃ behind, openBehind? opened (braces ((outline markers linkage ts).flatMap Item.tokens)) = some behind ∧
      ∀ b ∈ behind, b ∈ opened ∨ OpensBlock ts b := by
  fun_induction outline markers linkage ts generalizing opened with
  | case1 | case2 => exact ⟨opened, rfl, fun b hb => .inl hb⟩
  | case3 linkage t ts directive hkind ih =>
    obtain ⟨-, hrest⟩ := List.forall_mem_cons.1 h
    have hother : ¬ t.IsBrace := by simp [Token.IsBrace, hkind]
    obtain ⟨behind, hbehind, hblocks⟩ := ih hrest hlength hopened
    refine ⟨behind, ?_, ?_⟩
    · rw [List.flatMap_cons, Item.tokens, List.singleton_append, Nesting.braces_cons, if_neg hother, hbehind]
    · intro b hb
      exact (hblocks b hb).imp_right (·.of_suffix (List.suffix_cons t ts))
  | case4 linkage t ts n linkage' hskipped _ _ ih =>
    obtain ⟨-, hrest⟩ := List.forall_mem_cons.1 h
    have hdrop : ts.drop n <:+ t :: ts := (List.drop_suffix n ts).trans (List.suffix_cons t ts)
    obtain ⟨between, hbetween, hlength', hopened', hmem⟩ :=
      (Outline.skips_of_skipped? hskipped).openBehind? hlength hopened
    obtain ⟨behind, hbehind, hblocks⟩ := ih hrest hlength' hopened'
    refine ⟨behind, ?_, ?_⟩
    · rw [List.flatMap_cons, Item.tokens, Nesting.braces_append, Nesting.openBehind?_append, hbetween, Option.bind_some, hbehind]
    · intro b hb
      exact (hblocks b hb).elim (hmem b) fun hblock => .inr (hblock.of_suffix hdrop)
  | case5 linkage t ts hskipped run heof hdirective ih =>
    obtain ⟨hrun, hrest⟩ := List.forall_mem_cons.1 h
    obtain ⟨tokens, construct, rest, hexternal, hstart, hcollect⟩ := external_of_sound hrun
    have hbraces := Outline.openBehind?_of_collect (Outline.Collected.divided_start hstart markers) hcollect
    have hitem : run = (.construct tokens construct, rest) := hexternal
    have hsuffix : run.2 <:+ t :: ts := by
      obtain ⟨taken, hsplit, -⟩ := Outline.collect_taken hcollect
      rw [hitem, hsplit]
      exact (List.suffix_append taken rest).trans (List.suffix_cons t _)
    obtain ⟨behind, hbehind, hblocks⟩ := ih hrest hlength hopened
    refine ⟨behind, ?_, ?_⟩
    · rw [List.flatMap_cons, Nesting.braces_append, Nesting.openBehind?_append, hitem, Item.tokens,
        Nesting.openBehind?_of_closed hbraces, Option.bind_some, ← hbehind, hitem]
    · intro b hb
      exact (hblocks b hb).imp_right (·.of_suffix hsuffix)

/-- A text without directives has a survey. -/
theorem exists_survey_of_noDirectives {source : String} {tokens : List Token} (htokens : tokenize source = .ok tokens)
    (hplain : ∀ t ∈ tokens, t.directive? = none) (markers : Bool) :
    ∃ s, surveySource markers source = .ok s :=
  ⟨_, surveySource_of_passAll htokens (Tracker.passAll_outline hplain _)⟩

/-- A text without directives whose braces are not balanced is read with an error, unless the braces fit and those left
open are all of `extern "C" {`. -/
theorem unbalanced_braces_reported {markers : Bool} {source : String} {tokens : List Token}
    (htokens : tokenize source = .ok tokens) (hplain : ∀ t ∈ tokens, t.directive? = none)
    (hunbalanced : openBehind? [] (braces tokens) ≠ some []) :
    ∃ s, surveySource markers source = .ok s ∧
      (s.errors ≠ [] ∨
        ∃ opened, openBehind? [] (braces tokens) = some opened ∧ opened ≠ [] ∧ ∀ b ∈ opened, OpensBlock tokens b) := by
  obtain ⟨s, hs⟩ := exists_survey_of_noDirectives htokens hplain markers
  refine ⟨s, hs, ?_⟩
  by_cases herrors : s.errors = []
  · right
    obtain ⟨body, last, hclean, -⟩ := Faultless.of_survey hs herrors
    obtain rfl : tokens = body ++ [last] := Except.ok.inj (htokens.symm.trans hclean.tokens)
    obtain ⟨opened, hopened, hblocks⟩ := @openBehind?_outline markers 0 (body ++ [last]) hclean.sound [] rfl (by simp)
    have hlast : ¬ last.IsBrace := by simp [Token.IsBrace, hclean.isEnd]
    rw [flatMap_tokens_outline, Outline.untilEnd_concat_eof hclean.isEnd hclean.inner] at hopened
    have hbraces : openBehind? [] (braces (body ++ [last])) = some opened := by
      rw [Nesting.braces_append, Nesting.braces_cons, if_neg hlast]
      simpa using hopened
    refine ⟨opened, hbraces, ?_, ?_⟩
    · rintro rfl
      exact hunbalanced hbraces
    · intro b hb
      simpa using hblocks b hb
  · exact .inl herrors

/-- One brace too many behind a type. -/
theorem unbalanced_braces_reported_excess :
    let source := "struct s \x7b int n; \x7d \x7d;"
    ∃ tokens, tokenize source = .ok tokens ∧ (∀ t ∈ tokens, t.directive? = none) ∧
      openBehind? [] (braces tokens) ≠ some [] ∧ ∃ s, surveySource true source = .ok s ∧ s.errors ≠ [] := by
  intro source
  have htokens : tokenize source = .ok ((tokenize source).toOption.getD []) := by decide +kernel
  have hplain : ∀ t ∈ (tokenize source).toOption.getD [], t.directive? = none := by decide +kernel
  have hnone : openBehind? [] (braces ((tokenize source).toOption.getD [])) = none := by decide +kernel
  have hunbalanced : openBehind? [] (braces ((tokenize source).toOption.getD [])) ≠ some [] := by simp [hnone]
  refine ⟨_, htokens, hplain, hunbalanced, ?_⟩
  obtain ⟨s, hs, herrors | ⟨opened, hopened, -⟩⟩ := @unbalanced_braces_reported true source _ htokens hplain hunbalanced
  · exact ⟨s, hs, herrors⟩
  · rw [hnone] at hopened
    cases hopened

/-- A block that is never closed is read without an error. -/
theorem block_left_open :
    let source := "extern \"C\" \x7b\nint f(void);"
    generateHeader source = .ok "int f(void);" ∧
      ∃ tokens s, tokenize source = .ok tokens ∧ (∀ t ∈ tokens, t.directive? = none) ∧
        openBehind? [] (braces tokens) ≠ some [] ∧ surveySource true source = .ok s ∧ s.errors = [] := by
  intro source
  have htokens : tokenize source = .ok ((tokenize source).toOption.getD []) := by decide +kernel
  have hsurvey : surveySource true source = .ok ((surveySource true source).toOption.getD {}) := by decide +kernel
  exact ⟨by decide +kernel, _, _, htokens, by decide +kernel, by decide +kernel, hsurvey, by decide +kernel⟩

end CHeader
