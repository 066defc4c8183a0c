import CHeader.Proofs.KindMaps
import CHeader.Proofs.Partition

/-!
# An outline does not look past a construct

Whether tokens make a construct, and which, is settled at the token that ends it. So the runs of a text
without broken constructs are found again where more tokens follow (`outline_append`), also at another
place of a larger text (`outline_map`) and inside `extern` blocks. Texts that parse can therefore be put
one behind the other, and their runs follow one another.
-/

namespace CHeader

namespace Item

/-- The construct that a run is. -/
def construct? : Item → Option Construct
  | construct _ c => some c
  | _ => none

/-- A run that is no broken construct. -/
def Sound : Item → Prop
  | malformed .. => False
  | _ => True

/-- A run with its tokens mapped; the fault of a broken construct stays. -/
def map (f : Token → Token) : Item → Item
  | directive token => directive (f token)
  | skipped tokens => skipped (tokens.map f)
  | construct tokens c => construct (tokens.map f) (c.map f)
  | malformed before fault behind => malformed (before.map f) fault (behind.map f)

end Item

namespace Outline

/-! ### The end of a construct -/

/-- A body is found by its tokens, whatever follows them. -/
theorem body?_taken {depth : Nat} {ts inside : List Token} {close : Token} (h : body? depth ts = some (inside, close))
    (more : List Token) : body? depth (inside ++ close :: more) = some (inside, close) := by
  induction ts generalizing depth inside with
  | nil => cases h
  | cons t ts ih =>
    have hinside : ∀ depth', (body? depth' ts).map (fun found => (t :: found.1, found.2)) = some (inside, close) →
        ∃ inside', inside = t :: inside' ∧ body? depth' (inside' ++ close :: more) = some (inside', close) := by
      intro depth' h
      obtain ⟨⟨inside', close'⟩, hbody, heq⟩ := Option.map_eq_some_iff.1 h
      obtain ⟨rfl, rfl⟩ := Prod.mk.inj heq
      exact ⟨inside', rfl, ih hbody⟩
    rw [body?] at h
    split at h
    case h_1 => cases h
    case h_2 hkind =>
      obtain ⟨inside', rfl, hbody⟩ := hinside _ h
      simp [body?, hkind, hbody]
    case h_3 hkind =>
      split_ifs at h with hdepth
      · cases h
        simp [body?, hkind, hdepth]
      · obtain ⟨inside', rfl, hbody⟩ := hinside _ h
        simp [body?, hkind, hdepth, hbody]
    case h_4 heof hopening hclosing =>
      obtain ⟨inside', rfl, hbody⟩ := hinside _ h
      rw [List.cons_append, body?]
      split
      case h_1 hkind => exact absurd hkind heof
      case h_2 hkind => exact absurd hkind hopening
      case h_3 hkind => exact absurd hkind hclosing
      case h_4 =>
        simp only [hbody, Option.map_some]

/-- A construct is found by the tokens that are taken for it, whatever follows them. -/
theorem collect_taken {markers : Bool} {first : Token} {c : Collected} {ts tokens rest : List Token} {construct : Construct}
    (h : collect markers first c ts = (.construct tokens construct, rest)) :
    ∃ taken, ts = taken ++ rest ∧ tokens = c.met.reverse ++ taken ∧ (∀ t ∈ taken, t.kind ≠ .eof) ∧
      ∀ more, collect markers first c (taken ++ more) = (.construct tokens construct, more) := by
  induction ts generalizing c with
  | nil => cases h
  | cons t ts ih =>
    rw [collect_cons] at h
    cases hverdict : c.verdict markers t with
    | goOn c' =>
      simp only [hverdict] at h
      obtain ⟨taken, rfl, rfl, htaken, hmore⟩ := ih h
      have hmet := (Collected.grows_of_verdict hverdict).met
      refine ⟨t :: taken, rfl, by simp [hmet], List.forall_mem_cons.2 ⟨?_, htaken⟩, fun more => ?_⟩
      · intro heof
        rw [Collected.verdict_eq_endOfText_iff.2 heof] at hverdict
        cases hverdict
      · rw [List.cons_append, collect_cons, hverdict]
        exact hmore more
    | ends =>
      simp only [hverdict, Collected.stop] at h
      cases h
      have hkind := (Collected.of_verdict_eq_ends hverdict).1
      refine ⟨[t], rfl, by simp, by simp [hkind], fun more => ?_⟩
      rw [List.singleton_append, collect_cons, hverdict]
      rfl
    | body =>
      simp only [hverdict, Collected.stop, function] at h
      split at h
      case h_1 inside close hbody =>
        have hkind := (Collected.of_verdict_eq_body hverdict).1
        obtain ⟨⟨behind, rfl⟩, hinside⟩ := eq_append_of_body? hbody
        cases h
        refine ⟨t :: (inside ++ [close]), by simp, by simp, List.forall_mem_cons.2 ⟨by simp [hkind], hinside⟩, fun more => ?_⟩
        rw [List.cons_append, collect_cons, hverdict]
        simp only [Collected.stop, function, List.append_assoc, List.singleton_append, body?_taken hbody more]
        simp
      case h_2 => cases h
    | unexpected | unbalanced | endOfText =>
      simp only [hverdict, Collected.stop] at h
      cases h

/-- Nothing behind a construct is looked at, so that the end of the text may be replaced. -/
theorem collect_append {markers : Bool} {first last : Token} {c : Collected} {ts tokens rest : List Token}
    {construct : Construct} (hlast : last.kind = .eof)
    (h : collect markers first c (ts ++ [last]) = (.construct tokens construct, rest)) :
    ∃ taken behind, ts = taken ++ behind ∧ rest = behind ++ [last] ∧
      ∀ more, collect markers first c (taken ++ more) = (.construct tokens construct, more) := by
  obtain ⟨taken, hsplit, -, htaken, hmore⟩ := collect_taken h
  rcases List.eq_nil_or_concat rest with rfl | ⟨behind, other, rfl⟩
  · refine absurd hlast (htaken last ?_)
    rw [← List.append_nil taken, ← hsplit]
    simp
  · rw [List.concat_eq_append, ← List.append_assoc] at hsplit
    obtain ⟨rfl, hother⟩ := List.append_inj' hsplit rfl
    cases hother
    exact ⟨taken, behind, rfl, by simp, hmore⟩

/-- A construct has a token that can end one, which is no word. -/
theorem exists_end_of_collect {markers : Bool} {first : Token} {c : Collected} {ts tokens rest : List Token}
    {construct : Construct} (h : collect markers first c ts = (.construct tokens construct, rest)) :
    ∃ t ∈ ts, t.kind.isPunctuation = true := by
  induction ts generalizing c with
  | nil => cases h
  | cons t ts ih =>
    rw [collect_cons] at h
    cases hverdict : c.verdict markers t with
    | goOn c' =>
      simp only [hverdict] at h
      obtain ⟨other, hmem, hother⟩ := ih h
      exact ⟨other, List.mem_cons_of_mem _ hmem, hother⟩
    | ends => exact ⟨t, List.mem_cons_self, by simp [(Collected.of_verdict_eq_ends hverdict).1, TokenKind.isPunctuation]⟩
    | body => exact ⟨t, List.mem_cons_self, by simp [(Collected.of_verdict_eq_body hverdict).1, TokenKind.isPunctuation]⟩
    | unexpected | unbalanced | endOfText =>
      simp only [hverdict, Collected.stop] at h
      cases h

/-! ### Blocks -/

/-- The tokens behind `extern` through the brace of a block: behind comments and directives a string, and behind
others the brace. -/
def BlockOpening (tokens : List Token) : Prop :=
  ∃ first string second brace, tokens = first ++ string :: (second ++ [brace]) ∧
    (∀ t ∈ first ++ second, t.isSignificant = false) ∧
    (∃ spelling, string.kind = .stringLiteral spelling) ∧ brace.kind = .opening .brace

theorem BlockOpening.eq_concat {tokens : List Token} (h : BlockOpening tokens) :
    ∃ inner brace, tokens = inner ++ [brace] ∧ brace.kind = .opening .brace ∧
      ∀ t ∈ inner, t.kind ≠ .eof ∧ t.kind.isPunctuation = false := by
  obtain ⟨first, string, second, brace, rfl, hpassed, ⟨spelling, hstring⟩, hbrace⟩ := h
  refine ⟨first ++ string :: second, brace, by simp, hbrace, ?_⟩
  have hinsignificant : ∀ t : Token, t.isSignificant = false → t.kind ≠ .eof ∧ t.kind.isPunctuation = false := by
    intro t ht
    unfold Token.isSignificant at ht
    split at ht <;> simp_all [TokenKind.isPunctuation]
  intro t ht
  simp only [List.mem_append, List.mem_cons] at ht
  rcases ht with ht | rfl | ht
  · exact hinsignificant t (hpassed t (List.mem_append_left _ ht))
  · simp [hstring, TokenKind.isPunctuation]
  · exact hinsignificant t (hpassed t (List.mem_append_right _ ht))

theorem linkageLength?_iff_blockOpening {ts : List Token} {n : Nat} :
    linkageLength? ts = some n ↔ ∃ opening, opening <+: ts ∧ BlockOpening opening ∧ n = opening.length := by
  rw [linkageLength?_eq_some_iff]
  constructor
  · rintro ⟨first, string, second, brace, rest, rfl, hpassed, hstring, hbrace, rfl⟩
    refine ⟨first ++ string :: (second ++ [brace]), ⟨rest, by simp⟩, ⟨first, string, second, brace, rfl, hpassed, hstring, hbrace⟩, ?_⟩
    simp
    omega
  · rintro ⟨_, ⟨rest, rfl⟩, ⟨first, string, second, brace, rfl, hpassed, hstring, hbrace⟩, rfl⟩
    refine ⟨first, string, second, brace, rest, by simp, hpassed, hstring, hbrace, ?_⟩
    simp
    omega

/-- A block that is open before the end of the text is open whatever follows. -/
theorem linkageLength?_append {ts : List Token} {last : Token} {n : Nat} (hlast : last.kind = .eof)
    (h : linkageLength? (ts ++ [last]) = some n) :
    n ≤ ts.length ∧ ∀ more, linkageLength? (ts ++ more) = some n := by
  obtain ⟨opening, hfront, hblock, rfl⟩ := linkageLength?_iff_blockOpening.1 h
  obtain ⟨inner, brace, hconcat, hbrace, hinner⟩ := hblock.eq_concat
  have hts : opening <+: ts := by
    rcases List.prefix_concat_iff.1 hfront with heq | hts
    · exfalso
      rw [hconcat] at heq
      obtain ⟨-, hbrace'⟩ := List.append_inj' heq rfl
      cases hbrace'
      rw [hlast] at hbrace
      cases hbrace
    · exact hts
  refine ⟨hts.length_le, fun more => linkageLength?_iff_blockOpening.2 ⟨opening, ?_, hblock, rfl⟩⟩
  exact hts.trans (List.prefix_append ts more)

/-- Tokens with punctuation among them open no block, whatever follows them. -/
theorem linkageLength?_append_eq_none {ts rest : List Token} (hend : ∃ t ∈ ts, t.kind.isPunctuation = true)
    (h : linkageLength? (ts ++ rest) = none) (more : List Token) : linkageLength? (ts ++ more) = none := by
  by_contra hne
  obtain ⟨n, hn⟩ := Option.ne_none_iff_exists'.1 hne
  obtain ⟨opening, hfront, hblock, rfl⟩ := linkageLength?_iff_blockOpening.1 hn
  obtain ⟨inner, brace, hconcat, hbrace, hinner⟩ := hblock.eq_concat
  -- The opening cannot lie in `ts`, so `ts` ends inside it, before its brace.
  rcases List.prefix_or_prefix_of_prefix hfront (List.prefix_append ts more) with hts | hts
  · have hsome := linkageLength?_iff_blockOpening.2 ⟨opening, hts.trans (List.prefix_append ts rest), hblock, rfl⟩
    rw [h] at hsome
    cases hsome
  · obtain ⟨t, hmem, hend⟩ := hend
    rw [hconcat] at hts
    rcases List.prefix_concat_iff.1 hts with heq | hinner'
    · obtain rfl : opening = ts := hconcat.trans heq.symm
      have hsome := linkageLength?_iff_blockOpening.2 ⟨opening, List.prefix_append opening rest, hblock, rfl⟩
      rw [h] at hsome
      cases hsome
    · obtain ⟨-, hword⟩ := hinner t (hinner'.subset hmem)
      rw [hend] at hword
      cases hword

theorem skipped?_append {linkage linkage' n : Nat} {t last : Token} {ts : List Token} (hlast : last.kind = .eof)
    (h : skipped? linkage t (ts ++ [last]) = some (n, linkage')) :
    n ≤ ts.length ∧ ∀ more, skipped? linkage t (ts ++ more) = some (n, linkage') := by
  unfold skipped? at h ⊢
  split at h
  case h_1 | h_2 | h_3 =>
    cases h
    exact ⟨Nat.zero_le _, fun more => rfl⟩
  case h_4 =>
    split_ifs at h with hlinkage
    cases h
    exact ⟨Nat.zero_le _, fun more => if_pos hlinkage⟩
  case h_5 =>
    obtain ⟨m, hm, heq⟩ := Option.map_eq_some_iff.1 h
    cases heq
    obtain ⟨hle, hmore⟩ := linkageLength?_append hlast hm
    exact ⟨hle, fun more => by rw [hmore more]; rfl⟩
  case h_6 => cases h

theorem skipped?_append_eq_none {linkage : Nat} {t : Token} {ts rest : List Token}
    (hend : ∃ t ∈ ts, t.kind.isPunctuation = true) (h : skipped? linkage t (ts ++ rest) = none)
    (more : List Token) : skipped? linkage t (ts ++ more) = none := by
  unfold skipped? at h ⊢
  split at h
  case h_1 | h_2 | h_3 => cases h
  case h_4 =>
    split_ifs at h with hlinkage
    exact if_neg hlinkage
  case h_5 =>
    rw [linkageLength?_append_eq_none hend (Option.map_eq_none_iff.1 h) more]
    rfl
  case h_6 => rfl

/-- What is collected soundly is a construct. -/
theorem exists_construct_of_sound {markers : Bool} {first : Token} {c : Collected} {ts : List Token}
    (h : (collect markers first c ts).1.Sound) :
    ∃ tokens construct rest, collect markers first c ts = (.construct tokens construct, rest) := by
  induction ts generalizing c with
  | nil => cases h
  | cons t ts ih =>
    rw [collect_cons] at h ⊢
    cases hverdict : c.verdict markers t with
    | goOn c' =>
      simp only [hverdict] at h ⊢
      exact ih h
    | ends => exact ⟨_, _, _, rfl⟩
    | body =>
      simp only [hverdict, Collected.stop, function] at h ⊢
      cases hbody : body? 0 ts with
      | none => simp [hbody, Item.Sound] at h
      | some found => exact ⟨_, _, _, rfl⟩
    | unexpected | unbalanced | endOfText =>
      simp only [hverdict, Collected.stop] at h
      cases h

end Outline

/-! ### Runs -/

section Runs

variable {markers : Bool} {linkage : Nat} {t : Token} {ts : List Token}

theorem directive?_eq_none (h : ∀ directive, t.kind = .directive directive → False) : t.directive? = none := by
  unfold Token.directive?
  split
  · exact absurd ‹_› (h _)
  · rfl

theorem outline_cons_directive (h : t.directive?.isSome) :
    outline markers linkage (t :: ts) = .directive t :: outline markers linkage ts := by
  unfold Token.directive? at h
  split at h
  case h_1 directive hkind => rw [outline, hkind]
  case h_2 => cases h

theorem outline_cons_skipped {linkage' n : Nat} (heof : t.kind ≠ .eof) (hdirective : t.directive? = none)
    (h : Outline.skipped? linkage t ts = some (n, linkage')) :
    outline markers linkage (t :: ts) = .skipped (t :: ts.take n) :: outline markers linkage' (ts.drop n) := by
  rw [outline]
  split
  · exact absurd ‹_› heof
  · simp_all [Token.directive?]
  · simp [h]

theorem outline_cons_external (heof : t.kind ≠ .eof) (hdirective : t.directive? = none)
    (h : Outline.skipped? linkage t ts = none) :
    outline markers linkage (t :: ts) =
      (Outline.external markers t ts).1 :: outline markers linkage (Outline.external markers t ts).2 := by
  rw [outline]
  split
  · exact absurd ‹_› heof
  · simp_all [Token.directive?]
  · simp [h]

/-- A sound run that should be a construct is one. -/
theorem external_of_sound (h : (Outline.external markers t ts).1.Sound) :
    ∃ tokens construct rest, Outline.external markers t ts = (.construct tokens construct, rest) ∧
      t.kind.canStartDeclaration = true ∧
      Outline.collect markers t (.start t) ts = (.construct tokens construct, rest) := by
  by_cases hstart : t.kind.canStartDeclaration
  · rw [Outline.external, if_pos hstart] at h ⊢
    obtain ⟨tokens, construct, rest, hcollect⟩ := Outline.exists_construct_of_sound h
    exact ⟨tokens, construct, rest, hcollect, hstart, hcollect⟩
  · rw [Outline.external, if_neg hstart] at h
    cases h

end Runs

/-- The runs of tokens without broken constructs come first where more tokens follow. -/
theorem outline_append {markers : Bool} {linkage : Nat} {body : List Token} {last : Token} (hlast : last.kind = .eof)
    (hbody : ∀ t ∈ body, t.kind ≠ .eof) (h : ∀ item ∈ outline markers linkage (body ++ [last]), item.Sound) :
    ∃ linkage', ∀ more, outline markers linkage (body ++ more) =
      outline markers linkage (body ++ [last]) ++ outline markers linkage' more := by
  match body with
  | [] =>
    refine ⟨linkage, fun more => ?_⟩
    rw [List.nil_append, List.nil_append, outline, hlast]
    rfl
  | t :: ts =>
    have ht : t.kind ≠ .eof := hbody t List.mem_cons_self
    have hts : ∀ t ∈ ts, t.kind ≠ .eof := fun t ht => hbody t (List.mem_cons_of_mem _ ht)
    simp only [List.cons_append] at h ⊢
    by_cases hdirective : t.directive?.isSome
    · simp only [outline_cons_directive hdirective] at h ⊢
      obtain ⟨linkage', hmore⟩ := outline_append hlast hts fun item hitem => h item (List.mem_cons_of_mem _ hitem)
      exact ⟨linkage', fun more => by rw [hmore more, List.cons_append]⟩
    · have hdirective : t.directive? = none := by simpa using hdirective
      cases hskipped : Outline.skipped? linkage t (ts ++ [last]) with
      | some found =>
        obtain ⟨n, linkage₁⟩ := found
        obtain ⟨hle, hmore⟩ := Outline.skipped?_append hlast hskipped
        rw [outline_cons_skipped ht hdirective hskipped] at h ⊢
        rw [List.drop_append_of_le_length hle] at h ⊢
        obtain ⟨linkage', hrest⟩ := outline_append hlast (fun t ht => hts t (List.mem_of_mem_drop ht))
          fun item hitem => h item (List.mem_cons_of_mem _ hitem)
        refine ⟨linkage', fun more => ?_⟩
        rw [outline_cons_skipped ht hdirective (hmore more), List.drop_append_of_le_length hle,
          List.take_append_of_le_length hle, List.take_append_of_le_length hle, hrest more, List.cons_append]
      | none =>
        rw [outline_cons_external ht hdirective hskipped] at h ⊢
        obtain ⟨tokens, construct, rest, hexternal, hstart, hcollect⟩ := external_of_sound (h _ List.mem_cons_self)
        obtain ⟨taken, behind, hsplit, rfl, hmore⟩ := Outline.collect_append hlast hcollect
        have hend : ∃ t ∈ ts, t.kind.isPunctuation = true := by
          obtain ⟨end_, hmem, hkind⟩ := Outline.exists_end_of_collect (hmore [])
          rw [List.append_nil] at hmem
          exact ⟨end_, by rw [hsplit]; exact List.mem_append_left _ hmem, hkind⟩
        have hlength : behind.length ≤ ts.length := by simp [hsplit]
        rw [hexternal] at h ⊢
        obtain ⟨linkage', hrest⟩ := outline_append hlast
          (fun t ht => hts t (by rw [hsplit]; exact List.mem_append_right _ ht))
          fun item hitem => h item (List.mem_cons_of_mem _ hitem)
        refine ⟨linkage', fun more => ?_⟩
        have hexternal' : Outline.external markers t (ts ++ more) = (.construct tokens construct, behind ++ more) := by
          rw [Outline.external, if_pos hstart, hsplit, List.append_assoc, hmore]
        rw [outline_cons_external ht hdirective (Outline.skipped?_append_eq_none hend hskipped more), hexternal']
        simp only [hrest more, List.cons_append]
termination_by body.length
decreasing_by all_goals simp only [List.length_cons, List.length_drop]; omega

/-! ### Other places -/

namespace Outline

variable {f : Token → Token}

theorem BlockOpening.map (hf : KeepsKinds f) {tokens : List Token} :
    BlockOpening (tokens.map f) ↔ BlockOpening tokens := by
  constructor
  · rintro ⟨_, _, _, _, heq, hpassed, ⟨spelling, hstring⟩, hbrace⟩
    obtain ⟨first, behind, rfl, rfl, hbehind⟩ := List.map_eq_append_iff.1 heq
    obtain ⟨string, inner, rfl, rfl, hinner⟩ := List.map_eq_cons_iff.1 hbehind
    obtain ⟨second, last, rfl, rfl, hlast⟩ := List.map_eq_append_iff.1 hinner
    obtain ⟨brace, rfl, rfl⟩ := List.map_eq_singleton_iff.1 hlast
    refine ⟨first, string, second, brace, rfl, ?_, ⟨spelling, by rw [← hf, hstring]⟩, by rw [← hf, hbrace]⟩
    intro t ht
    rw [← hf.isSignificant]
    exact hpassed _ (by rw [← List.map_append]; exact List.mem_map_of_mem ht)
  · rintro ⟨first, string, second, brace, rfl, hpassed, ⟨spelling, hstring⟩, hbrace⟩
    refine ⟨first.map f, f string, second.map f, f brace, by simp, ?_, ⟨spelling, by rw [hf, hstring]⟩, by rw [hf, hbrace]⟩
    intro t ht
    rw [← List.map_append] at ht
    obtain ⟨u, hu, rfl⟩ := List.mem_map.1 ht
    rw [hf.isSignificant]
    exact hpassed u hu

theorem linkageLength?_map (hf : KeepsKinds f) (ts : List Token) : linkageLength? (ts.map f) = linkageLength? ts := by
  ext n
  rw [linkageLength?_iff_blockOpening, linkageLength?_iff_blockOpening]
  constructor
  · rintro ⟨_, hfront, hblock, rfl⟩
    obtain ⟨opening, hopening, rfl⟩ := List.prefix_map_iff.1 hfront
    exact ⟨opening, hopening, (BlockOpening.map hf).1 hblock, by simp⟩
  · rintro ⟨opening, hfront, hblock, rfl⟩
    exact ⟨opening.map f, hfront.map f, (BlockOpening.map hf).2 hblock, by simp⟩

theorem skipped?_map (hf : KeepsKinds f) (linkage : Nat) (t : Token) (ts : List Token) :
    skipped? linkage (f t) (ts.map f) = skipped? linkage t ts := by
  simp only [skipped?, hf t, linkageLength?_map hf]

/-- Blocks around the tokens stay open. -/
theorem skipped?_add {linkage linkage' n : Nat} {t : Token} {ts : List Token}
    (h : skipped? linkage t ts = some (n, linkage')) (outer : Nat) :
    skipped? (linkage + outer) t ts = some (n, linkage' + outer) := by
  unfold skipped? at h ⊢
  split at h
  case h_1 | h_2 | h_3 =>
    cases h
    rfl
  case h_4 =>
    split_ifs at h with hlinkage
    cases h
    rw [if_pos (by omega)]
    congr 2
    omega
  case h_5 =>
    obtain ⟨m, hm, heq⟩ := Option.map_eq_some_iff.1 h
    cases heq
    rw [hm, Option.map_some]
    congr 2
    omega
  case h_6 => cases h

theorem skipped?_add_eq_none {linkage : Nat} {t : Token} {ts : List Token} (h : skipped? linkage t ts = none)
    (hstart : t.kind.canStartDeclaration = true) (outer : Nat) : skipped? (linkage + outer) t ts = none := by
  unfold skipped? at h ⊢
  split at h
  case h_1 | h_2 | h_3 => cases h
  case h_4 hkind =>
    rw [hkind] at hstart
    cases hstart
  case h_5 => simpa using h
  case h_6 => rfl

end Outline

/-- Sound runs are found in mapped tokens where they are found in the tokens. -/
theorem outline_map {f : Token → Token} (hf : KeepsKinds f) {markers : Bool} {linkage : Nat} {ts : List Token}
    (h : ∀ item ∈ outline markers linkage ts, item.Sound) :
    outline markers linkage (ts.map f) = (outline markers linkage ts).map (Item.map f) := by
  fun_induction outline markers linkage ts with
  | case1 => simp [outline]
  | case2 linkage t ts heof => simp [outline, hf t, heof]
  | case3 linkage t ts directive hkind ih =>
    rw [List.map_cons, outline_cons_directive (by simp [Token.directive?, hf t, hkind]),
      ih fun item hitem => h item (List.mem_cons_of_mem _ hitem)]
    rfl
  | case4 linkage t ts n linkage' hskipped heof hdirective ih =>
    have hdirective' : (f t).directive? = none := by rw [hf.directive?, directive?_eq_none hdirective]
    rw [List.map_cons, outline_cons_skipped (by simpa [hf t] using heof) hdirective'
      ((Outline.skipped?_map hf linkage t ts).trans hskipped), ← List.map_drop,
      ih fun item hitem => h item (List.mem_cons_of_mem _ hitem)]
    simp [Item.map]
  | case5 linkage t ts hskipped run heof hdirective ih =>
    have hdirective' : (f t).directive? = none := by rw [hf.directive?, directive?_eq_none hdirective]
    obtain ⟨tokens, construct, rest, hexternal, hstart, hcollect⟩ := external_of_sound (h _ List.mem_cons_self)
    have hmapped : Outline.external markers (f t) (ts.map f) = (.construct (tokens.map f) (construct.map f), rest.map f) := by
      rw [Outline.external, hf t, if_pos hstart]
      exact Outline.collect_map hf hcollect
    have hrun : run = (.construct tokens construct, rest) := hexternal
    rw [hrun] at h ih ⊢
    rw [List.map_cons, outline_cons_external (by simpa [hf t] using heof) hdirective'
      ((Outline.skipped?_map hf linkage t ts).trans hskipped), hmapped,
      ih fun item hitem => h item (List.mem_cons_of_mem _ hitem)]
    rfl

/-- Sound runs are found inside `extern` blocks as outside. -/
theorem outline_add {markers : Bool} {linkage : Nat} {ts : List Token}
    (h : ∀ item ∈ outline markers linkage ts, item.Sound) (outer : Nat) :
    outline markers (linkage + outer) ts = outline markers linkage ts := by
  fun_induction outline markers linkage ts with
  | case1 => simp [outline]
  | case2 linkage t ts heof => simp [outline, heof]
  | case3 linkage t ts directive hkind ih =>
    rw [outline_cons_directive (by simp [Token.directive?, hkind]),
      ih fun item hitem => h item (List.mem_cons_of_mem _ hitem)]
  | case4 linkage t ts n linkage' hskipped heof hdirective ih =>
    rw [outline_cons_skipped heof (directive?_eq_none hdirective) (Outline.skipped?_add hskipped outer),
      ih fun item hitem => h item (List.mem_cons_of_mem _ hitem)]
  | case5 linkage t ts hskipped run heof hdirective ih =>
    obtain ⟨tokens, construct, rest, hexternal, hstart, hcollect⟩ := external_of_sound (h _ List.mem_cons_self)
    rw [outline_cons_external heof (directive?_eq_none hdirective)
      (Outline.skipped?_add_eq_none hskipped hstart outer),
      ih fun item hitem => h item (List.mem_cons_of_mem _ hitem)]

/-- The runs of a text without broken constructs are its runs in a larger text, inside blocks or outside. -/
theorem outline_placed {markers : Bool} {body : List Token} {last : Token} (hlast : last.kind = .eof)
    (hbody : ∀ t ∈ body, t.kind ≠ .eof) (h : ∀ item ∈ outline markers 0 (body ++ [last]), item.Sound)
    {f : Token → Token} (hf : KeepsKinds f) (linkage : Nat) :
    ∃ linkage', ∀ more, outline markers linkage (body.map f ++ more) =
      (outline markers 0 (body ++ [last])).map (Item.map f) ++ outline markers linkage' more := by
  have hmap : outline markers 0 (body.map f ++ [f last]) = (outline markers 0 (body ++ [last])).map (Item.map f) := by
    rw [← outline_map hf h, List.map_append, List.map_singleton]
  have hsound : ∀ item ∈ outline markers 0 (body.map f ++ [f last]), item.Sound := by
    rw [hmap]
    intro item hitem
    obtain ⟨item, hmem, rfl⟩ := List.mem_map.1 hitem
    have hitem := h item hmem
    cases item <;> exact hitem
  have hadd : outline markers linkage (body.map f ++ [f last]) = outline markers 0 (body.map f ++ [f last]) := by
    have := outline_add hsound linkage
    rwa [Nat.zero_add] at this
  have hbody' : ∀ t ∈ body.map f, t.kind ≠ .eof := by
    intro t ht
    obtain ⟨t, hmem, rfl⟩ := List.mem_map.1 ht
    rw [hf]
    exact hbody t hmem
  obtain ⟨linkage', hmore⟩ := @outline_append markers linkage (body.map f) (f last) (by rw [hf, hlast]) hbody'
    (by rwa [hadd])
  exact ⟨linkage', fun more => by rw [hmore more, hadd, hmap]⟩

end CHeader
