import CHeader.Proofs.HeaderLines
import CHeader.Proofs.LineNumbers
import CHeader.Proofs.Moving
import CHeader.Proofs.Naming

/-!
# Two texts one behind the other

A text in which nothing is wrong leaves nothing open: no conditional, no construct, no comment, and no line that goes
on. So a newline and another such text may follow it. The lexemes of the two are read one behind the other
(`reads_join`), and where the second text is put its tokens are moved by what stands before it (`exists_moves`). Its runs
are then found as before (`outline_placed`), and they say the same further on (`entriesFrom_moved`). The declarations
of the whole are those of the first text followed by those of the second (`survey_join`).
-/

namespace CHeader

open Lexed (allChars)
open Lexeme (runsOn)

/-! ### Slices of a text in a larger one -/

theorem splitBytes?_append_add (before cs : List Char) (n : Nat) :
    splitBytes? (byteLength before + n) (before ++ cs) = (splitBytes? n cs).map fun cut => (before ++ cut.1, cut.2) := by
  induction before with
  | nil => simp
  | cons c before ih =>
    have hc := Char.utf8Size_pos c
    obtain ⟨m, hm⟩ : ∃ m, c.utf8Size + byteLength before + n = m + 1 :=
      ⟨c.utf8Size + byteLength before + n - 1, by omega⟩
    rw [byteLength_cons, hm, List.cons_append, splitBytes?, if_pos (by omega),
      show m + 1 - c.utf8Size = byteLength before + n by omega, ih, Option.map_map]
    rfl

theorem splitBytes?_append_of_le {n : Nat} {cs : List Char} (h : n ≤ byteLength cs) (ds : List Char) :
    splitBytes? n (cs ++ ds) = (splitBytes? n cs).map fun cut => (cut.1, cut.2 ++ ds) := by
  fun_induction splitBytes? n cs with
  | case1 cs => simp [splitBytes?]
  | case2 n => simp at h
  | case3 n c cs hc ih =>
    have hle : n + 1 - c.utf8Size ≤ byteLength cs := by
      rw [byteLength_cons] at h
      omega
    rw [List.cons_append, splitBytes?, if_pos hc, ih hle, Option.map_map, Option.map_map]
    rfl
  | case4 n c cs hc => rw [List.cons_append, splitBytes?, if_neg hc, Option.map_none]

/-- A slice of a text is the slice further on of a text around it. -/
theorem Span.slice?_moved {span : Span} {text : List Char} (h : span.stop ≤ byteLength text) (before behind : List Char) :
    (span.moved (byteLength before)).slice? (before ++ text ++ behind) = span.slice? text := by
  have hlength : span.stop + byteLength before - (span.start + byteLength before) = span.stop - span.start := by omega
  simp only [slice?, moved, Nat.add_le_add_iff_right, hlength]
  split_ifs with hle
  · rw [List.append_assoc, Nat.add_comm span.start, splitBytes?_append_add,
      splitBytes?_append_of_le (hle.trans h)]
    cases hsplit : splitBytes? span.start text with
    | none => rfl
    | some cut =>
      obtain ⟨taken, rest⟩ := cut
      obtain ⟨rfl, htaken⟩ := eq_append_of_splitBytes? hsplit
      have hrest : span.stop - span.start ≤ byteLength rest := by
        rw [byteLength_append, htaken] at h
        omega
      simp only [Option.map_some, bind, Option.bind_some, splitBytes?_append_of_le hrest]
      cases splitBytes? (span.stop - span.start) rest <;> rfl
  · rfl

/-! ### Tokens of a text in a larger one -/

variable {offset lines : Nat} {f : Token → Token}

/-- Tokens of the same lexemes at another place have the same kinds and texts, and their lines if the places tell
them. -/
theorem Stands.forall₂_moved {place : Nat} {ls : List Lexed} {ts us : List Token} (hts : Stands place ls ts)
    (hus : Stands (place + offset) ls us) {line line' : Nat → Nat} (hline : ∀ t ∈ ts, t.line = line t.span.start)
    (hline' : ∀ u ∈ us, u.line = line' u.span.start)
    (hsame : ∀ t ∈ ts, line' (t.span.start + offset) = line t.span.start + lines) :
    List.Forall₂ (fun t u : Token =>
      (u.kind = t.kind ∧ u.text = t.text) ∧ u.span = t.span.moved offset ∧ u.line = t.line + lines) ts us := by
  induction hts generalizing us with
  | nil =>
    cases hus
    exact .nil
  | @cons place stop l ls t ts kind text span next _ ih =>
    cases hus with
    | @cons _ _ _ _ u us kind' text' span' next' hus =>
      subst next next'
      have hspan : u.span = t.span.moved offset := by
        rw [span', span]
        simp only [Span.moved, Span.mk.injEq]
        omega
      have hhere : u.line = t.line + lines := by
        rw [hline' u List.mem_cons_self, hspan, hline t List.mem_cons_self]
        exact hsame t List.mem_cons_self
      have hplace : place + offset + byteLength l.gap + byteLength l.text =
          place + byteLength l.gap + byteLength l.text + offset := by omega
      rw [hplace] at hus
      exact .cons ⟨⟨kind'.trans kind.symm, text'.trans text.symm⟩, hspan, hhere⟩
        (ih hus (fun t ht => hline t (List.mem_cons_of_mem _ ht)) (fun u hu => hline' u (List.mem_cons_of_mem _ hu))
          fun t ht => hsame t (List.mem_cons_of_mem _ ht))

/-- The tokens of some lexemes at another place are the image of those here under a map that moves them. -/
theorem exists_moves {place : Nat} {ls : List Lexed} {rest : List Char} {ts us : List Token} (hreads : Reads ls rest)
    (hts : Stands place ls ts) (hus : Stands (place + offset) ls us) (line line' : Nat → Nat)
    (hline : ∀ t ∈ ts, t.line = line t.span.start) (hline' : ∀ u ∈ us, u.line = line' u.span.start)
    (hsame : ∀ t ∈ ts, line' (t.span.start + offset) = line t.span.start + lines) :
    ∃ f, Moves offset lines f ∧ us = ts.map f := by
  have hmoved := hts.forall₂_moved hus hline hline' hsame
  obtain ⟨f, hf, hmap⟩ := exists_map_of_forall₂
    (fun t => ⟨{ t with span := t.span.moved offset, line := t.line + lines }, ⟨rfl, rfl⟩, rfl, rfl⟩)
    (hts.ordered hreads).nodup hmoved
  exact ⟨f, ⟨fun t => (hf t).1.1, fun t => (hf t).1.2, fun t => (hf t).2.1, fun t => (hf t).2.2⟩, hmap⟩

theorem Stands.stop_le_of_eq {text : List Char} {ls : List Lexed} {rest : List Char} {ts : List Token} (h : Stands 0 ls ts)
    (htext : text = allChars ls ++ rest) : ∀ t ∈ ts, t.span.stop ≤ byteLength text := by
  intro t ht
  have := h.stop_le t ht
  rw [htext, byteLength_append]
  omega

/-- The tokens of a text that is put into a larger one are moved by what stands before it there. -/
theorem exists_moves_of_tokenize {source : String} {body : List Token} {last : Token}
    (htokens : tokenize source = .ok (body ++ [last])) (before behind : List Char) {whole : List Char}
    (hwhole : whole = before ++ source.toList ++ behind) {ls : List Lexed} {rest : List Char}
    (hsource : source.toList = allChars ls ++ rest) (hreads : Reads ls rest) (hbody : Stands 0 ls body) {us : List Token}
    (hus : Stands (byteLength before) ls us) (hlines : ∀ u ∈ us, u.line = 1 + newlinesBefore u.span.start whole) :
    ∃ f, Moves (byteLength before) (before.count '\n') f ∧ us = body.map f := by
  have hsame : ∀ t ∈ body, 1 + newlinesBefore (t.span.start + byteLength before) whole =
      1 + newlinesBefore t.span.start source.toList + before.count '\n' := by
    intro t ht
    have hstart : t.span.start ≤ byteLength source.toList :=
      ((hbody.ordered hreads).positive t ht).le.trans (hbody.stop_le_of_eq hsource t ht)
    rw [hwhole, List.append_assoc, Nat.add_comm t.span.start, newlinesBefore_append_add,
      newlinesBefore_append_of_le hstart]
    omega
  have hus' : Stands (0 + byteLength before) ls us := by rwa [Nat.zero_add]
  exact exists_moves hreads hbody hus' (fun place => 1 + newlinesBefore place source.toList)
    (fun place => 1 + newlinesBefore place whole) (fun t ht => line_of_mem_tokenize htokens (List.mem_append_left _ ht)) hlines
    hsame

/-! ### Trackers that differ by places only -/

namespace Tracker

variable {t t' behind : Tracker}

theorem inside_refl (t : Tracker) : t.Inside [] t :=
  ⟨rfl, t.stack, by simp, rfl⟩

theorem Inside.guardPath (h : t.Inside [] t') : t'.guardPath = t.guardPath := by
  obtain ⟨inner, hstack, hinner⟩ := h.stack
  have hpath : ∀ stack : List OpenConditional,
      (stack.reverse.filter (·.block.isNone)).map (·.guard) =
        ((stack.map unplaced).reverse.filter (·.2.isNone)).map (·.1) := by
    intro stack
    rw [← List.map_reverse, List.filter_map, List.map_map]
    rfl
  rw [Tracker.guardPath, Tracker.guardPath, hstack, List.append_nil, hpath, hpath, hinner]

theorem Inside.interfaceBlock (h : t.Inside [] t') : t'.interfaceBlock = t.interfaceBlock := by
  obtain ⟨inner, hstack, hinner⟩ := h.stack
  have hblock : ∀ t : Tracker, t.interfaceBlock =
      ((t.stack.map unplaced).find? (·.2.isSome)).elim none fun found => if found.1.inElse then none else found.2 := by
    intro t
    rw [List.find?_map, Tracker.interfaceBlock]
    show _ = ((t.stack.find? (·.block.isSome)).map unplaced).elim _ _
    cases t.stack.find? (·.block.isSome) <;> rfl
  rw [hblock, hblock, hstack, List.append_nil, hinner]

/-- Tokens without a fault of the conditionals leave the tracker as it was at the start of the text. -/
theorem passAll_of_fault?_eq_none {blocks : Bool} {tokens : List Token}
    (h : fault? { recognizeBlocks := blocks } tokens = none) :
    passAll { recognizeBlocks := blocks } tokens = .ok { recognizeBlocks := blocks } := by
  unfold fault? at h
  split at h
  · rename_i behind hpass
    have hblocks : behind.recognizeBlocks = blocks := recognizeBlocks_passAll hpass
    have hstack : behind.stack = [] := by simpa [finish] using h
    rw [hpass, ← hblocks, ← hstack]
  · cases h

end Tracker

/-! ### Runs of a text in a larger one -/

/-- A run that is no broken construct, and whose tokens are in order and among `tokens`. -/
def Item.PlacedIn (tokens : List Token) : Item → Prop
  | malformed .. => False
  | construct _ c => c.last ∈ tokens ∧ c.head ⊆ tokens ∧ Ordered c.head
  | _ => True

theorem macroEntries_moved (hf : Moves offset lines f) {t t' : Tracker} (h : t.Inside [] t') (token : Token)
    (directive : Directive) :
    macroEntries t' (f token) directive = (macroEntries t token directive).map (Entry.moved offset lines) := by
  simp only [macroEntries, h.guardPath, h.interfaceBlock]
  by_cases hkind : directive.kind = .define ∨ directive.kind = .undef
  · rw [if_pos hkind, if_pos hkind]
    cases directive.macroName? with
    | none => simp [Entry.moved, hf.ofIssue]
    | some name => simp [Entry.moved, Draft.moved, hf.text, hf.span, hf.line]
  · rw [if_neg hkind, if_neg hkind]
    rfl

/-- A run says the same further on. -/
theorem Item.entries_moved (hf : Moves offset lines f) {source source' : List Char} {tokens : List Token}
    (hslice : ∀ first last : Token, last ∈ tokens →
      Span.slice? ⟨(f first).span.start, (f last).span.stop⟩ source' =
        Span.slice? ⟨first.span.start, last.span.stop⟩ source)
    {t t' : Tracker} (h : t.Inside [] t') {item : Item} (hitem : item.PlacedIn tokens) (markers : Bool) :
    (item.map f).entries source' markers t' = (item.entries source markers t).map (Entry.moved offset lines) := by
  cases item with
  | directive token =>
    simp only [Item.map, Item.entries, hf.keepsKinds.directive?]
    cases token.directive? with
    | none => rfl
    | some directive => exact macroEntries_moved hf h token directive
  | skipped run => rfl
  | construct run c =>
    obtain ⟨hlast, hhead, hordered⟩ := hitem
    refine Construct.entries_moved hf ⟨rfl, h.guardPath, h.interfaceBlock, ?_⟩ hlast hhead hordered
    intro first last hmem
    simp only [Site.between, hslice first last hmem]
  | malformed before fault behind => cases hitem

theorem Item.tokens_map (item : Item) : (item.map f).tokens = item.tokens.map f := by
  cases item <;> simp [Item.map, Item.tokens]

theorem flatMap_tokens_map (items : List Item) :
    (items.map (Item.map f)).flatMap Item.tokens = (items.flatMap Item.tokens).map f := by
  induction items with
  | nil => rfl
  | cons item items ih => rw [List.map_cons, List.flatMap_cons, List.flatMap_cons, List.map_append, Item.tokens_map, ih]

/-- Runs whose directives fit say the same further on. -/
theorem entriesFrom_moved (hf : Moves offset lines f) {source source' : List Char} {tokens : List Token}
    (hslice : ∀ first last : Token, last ∈ tokens →
      Span.slice? ⟨(f first).span.start, (f last).span.stop⟩ source' =
        Span.slice? ⟨first.span.start, last.span.stop⟩ source)
    {t t' behind : Tracker} (h : t.Inside [] t') {items : List Item} (hitems : ∀ item ∈ items, item.PlacedIn tokens)
    (hpass : t.passAll (items.flatMap Item.tokens) = .ok behind) (markers : Bool) :
    entriesFrom source' markers t' (items.map (Item.map f)) =
      (entriesFrom source markers t items).map (Entry.moved offset lines) := by
  induction items generalizing t t' with
  | nil => rfl
  | cons item items ih =>
    rw [List.flatMap_cons, Tracker.passAll_append] at hpass
    cases hhere : t.passAll item.tokens with
    | error fault =>
      rw [hhere] at hpass
      cases hpass
    | ok between =>
      rw [hhere] at hpass
      have hdirectives : (item.map f).tokens.filterMap Token.directive? = item.tokens.filterMap Token.directive? := by
        rw [Item.tokens_map, hf.keepsKinds.filterMap_directive?]
      obtain ⟨between', hhere', hbetween⟩ := h.passAll hdirectives hhere
      rw [List.map_cons, entriesFrom, entriesFrom, hhere, hhere',
        Item.entries_moved hf hslice h (hitems item List.mem_cons_self)]
      simp only [List.map_append, ih hbetween (fun item hitem => hitems item (List.mem_cons_of_mem _ hitem)) hpass]

/-- The constructs of a text without broken ones are placed in it. -/
theorem placedIn_of_mem_outline {markers : Bool} {linkage : Nat} {ts : List Token}
    (hordered : Ordered (Outline.untilEnd ts)) {item : Item} (h : item ∈ outline markers linkage ts)
    (hsound : item.Sound) : item.PlacedIn (Outline.untilEnd ts) := by
  cases item with
  | directive token => trivial
  | skipped run => trivial
  | malformed before fault behind => cases hsound
  | construct run c =>
    have hrun : run.Sublist (Outline.untilEnd ts) := by
      rw [← flatMap_tokens_outline markers linkage ts]
      obtain ⟨before, behind, hitems⟩ := List.append_of_mem h
      rw [hitems, List.flatMap_append, List.flatMap_cons]
      exact (List.sublist_append_left run _).trans (List.sublist_append_right _ _)
    obtain ⟨first, rest, left, -, hcollect⟩ := collect_of_mem_outline h
    have hlast : c.last ∈ run := List.mem_of_getLast? (Outline.last_of_collect hcollect)
    have hhead := (head_of_mem_outline h).1.trans hrun
    exact ⟨hrun.subset hlast, hhead.subset, hordered.sublist hhead⟩

/-- A text whose directives leave the tracker as it was has a survey. -/
theorem surveySource_of_passAll {markers : Bool} {source : String} {tokens : List Token}
    (htokens : tokenize source = .ok tokens)
    (hpass : Tracker.passAll { recognizeBlocks := markers } ((outline markers 0 tokens).flatMap Item.tokens) =
      .ok { recognizeBlocks := markers }) :
    surveySource markers source = .ok (Survey.recordAll {} (entriesFrom source.toList markers
      { recognizeBlocks := markers } (outline markers 0 tokens))) := by
  have hfault : Tracker.fault? { recognizeBlocks := markers } (Outline.untilEnd tokens) = none := by
    rw [← flatMap_tokens_outline markers 0, Tracker.fault?, hpass]
    rfl
  simp only [surveySource, htokens, bind, Except.bind]
  exact survey_of_fault?_eq_none hfault

/-- Runs whose directives fit and that give no issue are no broken constructs. -/
theorem sound_of_entriesFrom {source : List Char} {markers : Bool} {t behind : Tracker} {items : List Item}
    (hpass : t.passAll (items.flatMap Item.tokens) = .ok behind)
    (hissues : (entriesFrom source markers t items).filterMap Entry.issue? = []) : ∀ item ∈ items, item.Sound := by
  induction items generalizing t with
  | nil => simp
  | cons item items ih =>
    rw [List.flatMap_cons, Tracker.passAll_append] at hpass
    cases hhere : t.passAll item.tokens with
    | error fault =>
      rw [hhere] at hpass
      cases hpass
    | ok between =>
      rw [hhere] at hpass
      rw [entriesFrom, hhere, List.filterMap_append] at hissues
      obtain ⟨hissue, hrest⟩ := List.append_eq_nil_iff.1 hissues
      have hitem : item.Sound := by
        cases item with
        | malformed before fault behind => simp [Item.entries, Entry.issue?] at hissue
        | directive | skipped | construct => trivial
      exact List.forall_mem_cons.2 ⟨hitem, ih hpass hrest⟩

/-! ### Texts in which nothing is wrong -/

/-- A text in which nothing is wrong, with its tokens before the end and the token of the end. The conditionals all fit
and are closed, and no run gives an issue. -/
structure Faultless (markers : Bool) (source : String) (body : List Token) (last : Token) : Prop where
  tokens : tokenize source = .ok (body ++ [last])
  isEnd : last.kind = .eof
  inner : ∀ t ∈ body, t.kind ≠ .eof
  closed : Tracker.passAll { recognizeBlocks := markers } body = .ok { recognizeBlocks := markers }
  issues : (entriesFrom source.toList markers { recognizeBlocks := markers }
    (outline markers 0 (body ++ [last]))).filterMap Entry.issue? = []

namespace Faultless

variable {markers : Bool} {source : String} {body : List Token} {last : Token}

/-- Its runs leave the tracker as it was. -/
theorem passAll_outline (h : Faultless markers source body last) :
    Tracker.passAll { recognizeBlocks := markers } ((outline markers 0 (body ++ [last])).flatMap Item.tokens) =
      .ok { recognizeBlocks := markers } := by
  rw [flatMap_tokens_outline, Outline.untilEnd_concat_eof h.isEnd h.inner]
  exact h.closed

/-- Such a text has a survey without errors. -/
theorem survey_eq (h : Faultless markers source body last) :
    surveySource markers source = .ok (Survey.recordAll {} (entriesFrom source.toList markers
      { recognizeBlocks := markers } (outline markers 0 (body ++ [last])))) :=
  surveySource_of_passAll h.tokens h.passAll_outline

/-- A text with a survey without errors is one. -/
theorem of_survey {s : Survey} (h : surveySource markers source = .ok s) (herrors : s.errors = []) :
    ∃ body last, Faultless markers source body last ∧ s = Survey.recordAll {} (entriesFrom source.toList markers
      { recognizeBlocks := markers } (outline markers 0 (body ++ [last]))) := by
  cases htokens : tokenize source with
  | error faults => simp [surveySource, htokens, bind, Except.bind] at h
  | ok tokens =>
    obtain ⟨body, last, rfl, hlast, hbody, -⟩ := tokenized_of_tokenize htokens
    obtain ⟨hfault, hrecorded⟩ := recorded_of_surveySource htokens h
    refine ⟨body, last, ⟨htokens, hlast, hbody, ?_, ?_⟩, hrecorded⟩
    · rw [Outline.untilEnd_concat_eof hlast hbody] at hfault
      exact Tracker.passAll_of_fault?_eq_none hfault
    · rw [hrecorded, Survey.errors_recordAll] at herrors
      exact herrors

/-- None of the constructs is broken. -/
theorem sound (h : Faultless markers source body last) : ∀ item ∈ outline markers 0 (body ++ [last]), item.Sound :=
  sound_of_entriesFrom h.passAll_outline h.issues

/-- The lexemes of such a text, put into a larger one, are followed there to where the tracker was, and their runs say
the same further on. -/
theorem placed (h : Faultless markers source body last) (before behind : List Char) {whole : List Char}
    (hwhole : whole = before ++ source.toList ++ behind) {ls : List Lexed} {rest : List Char}
    (hsource : source.toList = allChars ls ++ rest) (hreads : Reads ls rest) (hbody : Stands 0 ls body) {us : List Token}
    (hus : Stands (byteLength before) ls us) (hlines : ∀ u ∈ us, u.line = 1 + newlinesBefore u.span.start whole)
    (linkage : Nat) :
    ∃ items linkage', (∀ more, outline markers linkage (us ++ more) = items ++ outline markers linkage' more) ∧
      Tracker.passAll { recognizeBlocks := markers } (items.flatMap Item.tokens) = .ok { recognizeBlocks := markers } ∧
      entriesFrom whole markers { recognizeBlocks := markers } items =
        (entriesFrom source.toList markers { recognizeBlocks := markers } (outline markers 0 (body ++ [last]))).map
          (Entry.moved (byteLength before) (before.count '\n')) := by
  have hstop := hbody.stop_le_of_eq hsource
  have hordered := hbody.ordered hreads
  obtain ⟨f, hf, rfl⟩ := exists_moves_of_tokenize h.tokens before behind hwhole hsource hreads hbody hus hlines
  obtain ⟨linkage', hruns⟩ := outline_placed h.isEnd h.inner h.sound hf.keepsKinds linkage
  have huntil := Outline.untilEnd_concat_eof h.isEnd h.inner
  have hplaced : ∀ item ∈ outline markers 0 (body ++ [last]), item.PlacedIn body := by
    intro item hitem
    rw [← huntil] at hordered ⊢
    exact placedIn_of_mem_outline hordered hitem (h.sound item hitem)
  have hslice : ∀ first last : Token, last ∈ body →
      Span.slice? ⟨(f first).span.start, (f last).span.stop⟩ whole =
        Span.slice? ⟨first.span.start, last.span.stop⟩ source.toList := by
    intro first last hmem
    rw [hf.span, hf.span, hwhole]
    exact @Span.slice?_moved ⟨first.span.start, last.span.stop⟩ _ (hstop last hmem) before behind
  refine ⟨_, linkage', hruns, ?_, entriesFrom_moved hf hslice (Tracker.inside_refl _) hplaced h.passAll_outline markers⟩
  rw [flatMap_tokens_map, flatMap_tokens_outline, huntil]
  have hdirectives : (body.map f).filterMap Token.directive? = body.filterMap Token.directive? :=
    hf.keepsKinds.filterMap_directive? body
  exact Tracker.passAll_of_closed hdirectives h.closed

end Faultless

/-! ### Both texts -/

theorem Entry.named?_moved (entry : Entry) :
    (entry.moved offset lines).named? = entry.named?.map fun named => (named.1.moved offset lines, named.2) := by
  cases entry <;> rfl

theorem length_items_recordAll (entries : List Entry) :
    (Survey.recordAll {} entries).declarations.items.length = (entries.filterMap Entry.named?).length := by
  rw [← List.length_map (f := (Survey.recordAll {} entries).declarations.shownOf)]
  show (Survey.recordAll {} entries).declarations.shown.length = _
  rw [Survey.shown_recordAll, List.length_zipIdx]

/-- The declarations of two lists of entries are numbered one behind the other. -/
theorem shown_append (entries behind : List Entry) :
    (Survey.recordAll {} (entries ++ behind)).declarations.shown =
      (Survey.recordAll {} entries).declarations.shown ++
        (behind.filterMap Entry.named?).zipIdx (Survey.recordAll {} entries).declarations.items.length := by
  rw [Survey.shown_recordAll, Survey.shown_recordAll, length_items_recordAll, List.filterMap_append, List.zipIdx_append,
    Nat.zero_add]

theorem shown_append_moved (entries behind : List Entry) :
    (Survey.recordAll {} (entries ++ behind.map (Entry.moved offset lines))).declarations.shown =
      (Survey.recordAll {} entries).declarations.shown ++
        (Survey.recordAll {} behind).declarations.shown.map fun entry =>
          ((entry.1.1.moved offset lines, entry.1.2),
            entry.2 + (Survey.recordAll {} entries).declarations.items.length) := by
  rw [shown_append, Survey.shown_recordAll behind, List.filterMap_map]
  simp only [Function.comp_def, Entry.named?_moved, ← List.map_filterMap]
  rw [List.zipIdx_map, ← Nat.add_zero (Survey.recordAll {} entries).declarations.items.length,
    ← List.map_snd_add_zipIdx_eq_zipIdx, List.map_map]
  rfl

theorem Entry.issue?_moved (entry : Entry) :
    (entry.moved offset lines).issue? = entry.issue?.map (Diagnostic.moved offset lines) := by
  cases entry <;> rfl

/-- Two texts without errors, the first of which does not run on, are a text without errors one behind the other with a
newline between them. Its declarations are those of the first text, and behind them those of the second, with their
names, kinds, visibilities, guards and texts; only the numbers, the spans and the lines of the second are counted from
the start of the whole. -/
theorem survey_join {markers : Bool} {a b : String} {first second : Survey} (ha : surveySource markers a = .ok first)
    (hfirst : first.errors = []) (hb : surveySource markers b = .ok second) (hsecond : second.errors = [])
    (hends : ¬['\\'] <:+ a.toList ∧ ¬['\\', '\r'] <:+ a.toList) :
    ∃ whole, surveySource markers (a ++ "\n" ++ b) = .ok whole ∧ whole.errors = [] ∧
      whole.declarations.shown = first.declarations.shown ++ second.declarations.shown.map fun entry =>
        ((entry.1.1.moved (byteLength a.toList + 1) (a.toList.count '\n' + 1), entry.1.2),
          entry.2 + first.declarations.items.length) := by
  obtain ⟨bodyA, lastA, hA, rfl⟩ := Faultless.of_survey ha hfirst
  obtain ⟨bodyB, lastB, hB, rfl⟩ := Faultless.of_survey hb hsecond
  obtain ⟨ls, rest, bodyA', lastA', hsourceA, hreadsA, hgapA, htokensA, hstandsA, -⟩ := reads_of_tokenize hA.tokens
  obtain ⟨rfl, -⟩ := List.append_inj' htokensA rfl
  obtain ⟨ms, rest', bodyB', lastB', hsourceB, hreadsB, hgapB, htokensB, hstandsB, -⟩ := reads_of_tokenize hB.tokens
  obtain ⟨rfl, -⟩ := List.append_inj' htokensB rfl
  have hruns : runsOn (allChars ls ++ rest) = false := by
    rw [← hsourceA]
    exact runsOn_eq_false_iff.2 hends
  have hwhole : (a ++ "\n" ++ b).toList = a.toList ++ '\n' :: b.toList := by
    simp
  -- the lexemes of the whole are those of the first text, and those of the second with a wider gap before them
  obtain ⟨gap, hchars, hreads, hgap⟩ := reads_join (hreadsA.append_newline hruns) hgapA hreadsB hgapB
  rw [← hsourceA, ← hsourceB, ← hwhole] at hchars
  obtain ⟨body, last, htokens, hstands, hlast⟩ := tokenize_of_reads hchars hreads hgap
  obtain ⟨us, vs, rfl, hus, hvs⟩ := hstands.split
  have hvs' : Stands (byteLength (a.toList ++ ['\n'])) ms vs := by
    rw [stands_widen, Nat.zero_add] at hvs
    rwa [hsourceA, byteLength_append, byteLength_append, Nat.add_assoc, ← byteLength_append]
  have hline : ∀ t ∈ us ++ vs, t.line = 1 + newlinesBefore t.span.start (a ++ "\n" ++ b).toList := fun t ht =>
    line_of_mem_tokenize htokens (List.mem_append_left _ ht)
  obtain ⟨itemsA, linkage, hrunsA, hpassA, hentriesA⟩ := hA.placed [] ('\n' :: b.toList)
    (by rw [hwhole]; rfl) hsourceA hreadsA hstandsA hus (fun u hu => hline u (List.mem_append_left _ hu)) 0
  obtain ⟨itemsB, linkage', hrunsB, hpassB, hentriesB⟩ := hB.placed (a.toList ++ ['\n']) []
    (by rw [hwhole]; simp) hsourceB hreadsB hstandsB hvs' (fun v hv => hline v (List.mem_append_right _ hv)) linkage
  have houtline : outline markers 0 (us ++ vs ++ [last]) = itemsA ++ itemsB := by
    have hend : outline markers linkage' [last] = [] := by rw [outline, hlast]
    rw [List.append_assoc, hrunsA, hrunsB, hend, List.append_nil]
  have hpass : Tracker.passAll { recognizeBlocks := markers } ((itemsA ++ itemsB).flatMap Item.tokens) =
      .ok { recognizeBlocks := markers } := by
    rw [List.flatMap_append, Tracker.passAll_append, hpassA]
    exact hpassB
  have hentries := @entriesFrom_append (a ++ "\n" ++ b).toList markers _ _ _ hpassA itemsB
  have hoffset : byteLength (a.toList ++ ['\n']) = byteLength a.toList + 1 := by
    rw [byteLength_append]
    rfl
  have hlines : (a.toList ++ ['\n']).count '\n' = a.toList.count '\n' + 1 := by
    rw [List.count_append]
    rfl
  have hzero : Entry.moved (byteLength []) (List.count '\n' []) = id := funext Entry.moved_zero
  rw [hentriesA, hentriesB, hoffset, hlines, hzero, List.map_id] at hentries
  have hjoined : Faultless markers (a ++ "\n" ++ b) (us ++ vs) last := by
    have hinner : ∀ t ∈ us ++ vs, t.kind ≠ .eof := by
      intro t ht
      obtain ⟨l, hl, hkind, -⟩ := hstands.exists_of_mem ht
      rw [hkind]
      exact hreads.kind_ne_eof l hl
    refine ⟨htokens, hlast, hinner, ?_, ?_⟩
    · rwa [← houtline, flatMap_tokens_outline, Outline.untilEnd_concat_eof hlast hinner] at hpass
    · rw [houtline, hentries, List.filterMap_append, List.filterMap_map]
      simp only [Function.comp_def, Entry.issue?_moved, ← List.map_filterMap, hA.issues, hB.issues]
      rfl
  refine ⟨_, hjoined.survey_eq, ?_, ?_⟩
  · rw [Survey.errors_recordAll, hjoined.issues]
    rfl
  · rw [houtline, hentries]
    exact shown_append_moved _ _

/-- A guarded variable, and behind it a type and a function. -/
theorem survey_join_guarded :
    let a := "#ifdef X\nint a;\n#endif"
    let b := "struct s \x7b int n; \x7d;\nLOCAL struct s *f(void);"
    ∃ first second whole, surveySource true a = .ok first ∧ first.errors = [] ∧ surveySource true b = .ok second ∧
      second.errors = [] ∧ surveySource true (a ++ "\n" ++ b) = .ok whole ∧ whole.errors = [] ∧
      whole.declarations.shown = first.declarations.shown ++ second.declarations.shown.map fun entry =>
        ((entry.1.1.moved (byteLength a.toList + 1) (a.toList.count '\n' + 1), entry.1.2),
          entry.2 + first.declarations.items.length) := by
  intro a b
  have ha : surveySource true a = .ok ((surveySource true a).toOption.getD {}) := by decide +kernel
  have hb : surveySource true b = .ok ((surveySource true b).toOption.getD {}) := by decide +kernel
  have hfirst : ((surveySource true a).toOption.getD {}).errors = [] := by decide +kernel
  have hsecond : ((surveySource true b).toOption.getD {}).errors = [] := by decide +kernel
  have hends : ¬['\\'] <:+ a.toList ∧ ¬['\\', '\r'] <:+ a.toList := by decide +kernel
  obtain ⟨whole, hwhole, hclean, hshown⟩ := survey_join ha hfirst hb hsecond hends
  exact ⟨_, _, whole, ha, hfirst, hb, hsecond, hwhole, hclean, hshown⟩

end CHeader
