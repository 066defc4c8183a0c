import CHeader.Proofs.Emitting
import CHeader.Proofs.Restored
import CHeader.Proofs.Resuming

/-!
# Reading a header back

A header is read back as the declarations that it was written from, under the guards that they were written under
(`header_round_trip`). Three things can go wrong on the way, and are what a text is asked for (`ReadBack`). A
condition that ends in a spliced line, or a macro with a comment that does, takes the next line of the header with
it. A conditional that is open behind a copied declaration guards what follows. And a spelling may be read as
something else than it was made of.
-/

namespace CHeader

open Lexeme (directiveRunsOn runsOn)

/-! ### Directives in declarations -/

theorem filterMap_directive?_of_map_kind {ts us : List Token} (h : us.map (·.kind) = ts.map (·.kind)) :
    us.filterMap Token.directive? = ts.filterMap Token.directive? := by
  induction us generalizing ts with
  | nil =>
    obtain rfl : ts = [] := by simpa using h.symm
    rfl
  | cons u us ih =>
    obtain ⟨t, ts, rfl, hkind, hrest⟩ := List.map_eq_cons_iff.1 h.symm
    have hdirective : u.directive? = t.directive? := by rw [Token.directive?, Token.directive?, hkind]
    rw [List.filterMap_cons, List.filterMap_cons, hdirective, ih hrest.symm]

/-- The tokens of a row of lexemes that are one run are those of the run. -/
theorem Item.tokens_of_outline {ls : List Lexed} {rest : List Char} (hreads : Reads ls rest) {offset : Nat} {ts : List Token}
    (hstands : Stands offset ls ts) {item : Item} {linkage : Nat}
    (h : ∀ more, outline true 0 (ts ++ more) = item :: outline true linkage more) : item.tokens = ts := by
  have hends : ∀ t ∈ ts, t.kind ≠ .eof := by
    intro t ht heof
    obtain ⟨l, hl, hkind, -⟩ := hstands.exists_of_mem ht
    exact hreads.kind_ne_eof l hl (hkind.symm.trans heof)
  have hall := flatMap_tokens_outline true 0 (ts ++ [])
  rw [h, List.append_nil, Outline.untilEnd, List.takeWhile_eq_self_iff.2 (by simpa using hends)] at hall
  simpa [outline] using hall

/-- A text that is one run wherever it stands is so by itself. In any place, the tokens of the run are of the kinds that
the text has by itself. -/
theorem ReadsAs.of_tokenize {text : String} {P : List Char → Item → Prop} (h : ReadsAs text.toList P) :
    ∃ body last, tokenize text = .ok (body ++ [last]) ∧ last.kind = .eof ∧
      (∃ source item, P source item ∧ item.tokens.map (·.kind) = body.map (·.kind)) ∧
      ReadsAs text.toList fun source item => P source item ∧ item.tokens.map (·.kind) = body.map (·.kind) := by
  obtain ⟨ls, hchars, hreads, hruns⟩ := h
  obtain ⟨body, last, htokens, hstands, hlast⟩ := tokenize_of_reads (by rw [hchars, List.append_nil]) hreads rfl
  have hruns' : ∀ before behind ts, Stands (byteLength before) ls ts →
      ∃ item, (P (before ++ text.toList ++ behind) item ∧ item.tokens.map (·.kind) = body.map (·.kind)) ∧
        ∀ linkage, ∃ linkage', ∀ more, outline true linkage (ts ++ more) = item :: outline true linkage' more := by
    intro before behind ts hts
    obtain ⟨item, hitem, houtline⟩ := hruns before behind ts hts
    refine ⟨item, ⟨hitem, ?_⟩, houtline⟩
    obtain ⟨linkage, hmore⟩ := houtline 0
    rw [Item.tokens_of_outline hreads hts hmore, hts.map_kind, hstands.map_kind]
  obtain ⟨item, hitem, -⟩ := hruns' [] [] body hstands
  exact ⟨body, last, htokens, hlast, ⟨_, item, hitem⟩, ls, hchars, hreads, hruns'⟩

/-- Whether a text closes the conditionals that it opens, and no others. -/
def isBalanced (text : String) : Bool :=
  match tokenize text with
  | .ok tokens => ({} : Tracker).passAll tokens = .ok {}
  | .error _ => false

/-- The directives of a text that are balanced by themselves are balanced where the text is read back. -/
theorem ReadsAs.balanced {text declared : String} {directives : List Directive}
    (h : ReadsAs text.toList (Item.Declares directives declared)) (hbalanced : isBalanced text = true) :
    Directive.Balanced directives := by
  obtain ⟨body, last, htokens, hlast, ⟨source, item, hitem, hkinds⟩, -⟩ := h.of_tokenize
  have hpass : ({} : Tracker).passAll (body ++ [last]) = .ok {} := by simpa [isBalanced, htokens] using hbalanced
  have hbody : ({} : Tracker).passAll body = .ok {} := by
    obtain ⟨behind, hbody, hrest⟩ := Tracker.passAll_append_eq_ok_iff.1 hpass
    rw [Tracker.passAll_singleton, Tracker.pass_eof hlast] at hrest
    cases hrest
    exact hbody
  rw [← hitem.directives, filterMap_directive?_of_map_kind hkinds]
  exact Tracker.balanced_of_passAll hbody

/-! ### Ends of lines -/

/-- Whether a line takes the next one with it. Only directives do. -/
def HeaderLine.runsOn (line : HeaderLine) : Bool :=
  match line.text.toList with
  | '#' :: cs => directiveRunsOn cs
  | _ => false

/-- The line of a directive ends where the directive does. -/
theorem DirectiveLine.endsItsLine_of_runsOn {line : HeaderLine} (h : DirectiveLine line.text) (hruns : line.runsOn = false) :
    EndsItsLine line.text.toList := by
  refine h.endsItsLine fun cs hcs => ?_
  simpa [HeaderLine.runsOn, hcs] using hruns

/-- The text of a declaration is a directive, or it ends with a semicolon or a brace. -/
theorem ReadsAs.directiveLine_or_runsOn {text : String} {directives : List Directive}
    (h : ReadsAs text.toList (Item.Declares directives text)) : DirectiveLine text ∨ runsOn text.toList = false := by
  obtain ⟨ls, hchars, hreads, hruns⟩ := h
  obtain ⟨body, last, -, hstands, -⟩ := @tokenize_of_reads text ls [] (by rw [hchars, List.append_nil]) hreads rfl
  obtain ⟨item, hdeclares, houtline⟩ := hruns [] [] body hstands
  obtain ⟨linkage, hmore⟩ := houtline 0
  have htokens := Item.tokens_of_outline hreads hstands hmore
  obtain ⟨draft, hdraft, -, htext⟩ := hdeclares.drafts {}
  obtain ⟨names, hentry⟩ := Entry.mem_of_mem_drafts (hdraft ▸ List.mem_singleton_self draft)
  cases item with
  | skipped tokens => cases hentry
  | malformed before fault behind => simp [Item.entries] at hentry
  | directive token =>
    left
    obtain rfl : [token] = body := htokens
    obtain ⟨directive, hdirective, -, -, visibility, rfl⟩ := macro_of_mem_entries hentry
    obtain _ | ⟨hkind, hspelled, -, -, ⟨⟩⟩ := hstands
    obtain ⟨cs, hcs, hwhole, -⟩ := hreads.1.directive (hkind.symm.trans (Token.kind_of_directive? hdirective))
    refine ⟨cs, ?_, hwhole⟩
    rw [← htext, DeclText.text, hspelled, String.toList_ofList, hcs]
  | construct run c =>
    right
    obtain rfl : run = body := htokens
    obtain ⟨first, behind, rest, -, hcollect⟩ := collect_of_mem_outline (hmore [] ▸ List.mem_cons_self)
    refine LexedText.runsOn_eq_false ⟨by rw [hchars, List.append_nil], hreads, rfl⟩ hstands ⟨c.last, ?_, ?_⟩
    · exact Outline.last_of_collect hcollect
    · exact Outline.isEnd_of_collect hcollect

/-- The text of a declaration ends its line, unless it is a directive that runs on. -/
theorem ReadsAs.endsItsLine {text : String} {directives : List Directive}
    (h : ReadsAs text.toList (Item.Declares directives text)) (hruns : (HeaderLine.declaration text).runsOn = false) :
    EndsItsLine text.toList := by
  rcases h.directiveLine_or_runsOn with hdirective | htext
  · exact @DirectiveLine.endsItsLine_of_runsOn (.declaration text) hdirective hruns
  · exact .of_runsOn htext

/-! ### Headers -/

/-- What a text with these tokens and declarations needs for its header to be read back. -/
structure ReadBack (tokens : List Token) (list : DeclarationList) : Prop where
  /-- No line of the header but the last takes the next one with it. -/
  lines : ∀ line ∈ (Emission.emit list).dropLast, line.runsOn = false
  balanced : ∀ d ∈ list.visible, d.text.isVerbatim = true → isBalanced d.text.text = true
  /-- What is spelled is read as it was made. -/
  restorable : ∀ item ∈ outline true 0 tokens, ∀ c ∈ item.construct?, (Specifiers.ofTokens true c.head).isTypedef = false →
    ∀ d ∈ list.visible, d.span.stop = c.last.span.stop → c.Restorable d.toDraft

instance (tokens : List Token) (list : DeclarationList) : Decidable (ReadBack tokens list) :=
  decidable_of_iff
    ((∀ line ∈ (Emission.emit list).dropLast, line.runsOn = false) ∧
      (∀ d ∈ list.visible, d.text.isVerbatim = true → isBalanced d.text.text = true) ∧
      ∀ item ∈ outline true 0 tokens, ∀ c ∈ item.construct?, (Specifiers.ofTokens true c.head).isTypedef = false →
        ∀ d ∈ list.visible, d.span.stop = c.last.span.stop → c.Restorable d.toDraft)
    ⟨fun ⟨lines, balanced, restorable⟩ => ⟨lines, balanced, restorable⟩, fun h => ⟨h.lines, h.balanced, h.restorable⟩⟩

/-- A declaration of a text is read back, and stands under guards that can be written. -/
theorem restored_of_mem_items {source : String} {tokens : List Token} (htokens : tokenize source = .ok tokens) {t : Tracker}
    {d : Declaration} (hsound : t.Sound)
    (hd : d ∈ (Survey.recordAll {} (entriesFrom source.toList true t (outline true 0 tokens))).declarations.items)
    (hrestorable : ∀ run c, .construct run c ∈ outline true 0 tokens → (Specifiers.ofTokens true c.head).isTypedef = false →
      d.span.stop = c.last.span.stop → c.Restorable d.toDraft) :
    d.toDraft.Restored ∧ ∀ guard ∈ d.guard, guard.Writable := by
  obtain ⟨earlier, item, later, here, first, names, hsplit, -, hentry, ⟨behind, hbehind⟩, hhere, hguard⟩ :=
    exists_run_of_mem_recordAll hd
  obtain ⟨hbody, last, -, htokens'⟩ := tokenized_run htokens hsplit
  have hmem : item ∈ outline true 0 tokens := by simp [hsplit]
  refine ⟨?_, ?_⟩
  · cases item with
    | skipped => cases hentry
    | malformed => simp [Item.entries] at hentry
    | construct run c =>
      obtain ⟨start, ts, rest, hstart, hcollect⟩ := collect_of_mem_outline hmem
      have hstop := (Construct.declare_cases rfl hentry).1
      exact restored_of_mem_entries hbody hstart hcollect rfl rfl (hrestorable run c hmem · hstop) hentry
    | directive token => exact restored_of_mem_directive hbody (by simp [Item.tokens]) hentry
  · have hfits := fits_of_tokenize htokens
    rw [hguard]
    refine (hsound.passAll (fun u hu => hfits u ?_) hhere).writable
    rw [htokens']
    simp [hu]

/-- A header is written from the declarations of a text without issues. -/
theorem render_of_generateHeader {source header : String} (hheader : generateHeader source = .ok header) {s : Survey}
    (hsurvey : surveySource true source = .ok s) : s.errors = [] ∧ header = Emission.render s.declarations := by
  simp only [generateHeader, generate, hsurvey] at hheader
  unfold Generation.result at hheader
  split at hheader
  · rename_i hfound hclean
    cases hheader
    split_ifs at hfound
    exact ⟨hclean, (Option.some_inj.1 hfound).symm⟩
  · cases hheader

/-- What a header says is what the text shows, and is read back. -/
theorem restored_of_mem_entries_header {source : String} {tokens : List Token} (htokens : tokenize source = .ok tokens) {s : Survey}
    (hsurvey : surveySource true source = .ok s) (hback : ReadBack tokens s.declarations) :
    ∀ entry ∈ Emission.entries s.declarations, ∃ d ∈ s.declarations.visible, entry = (d.guard, d.text.text) ∧
      d.toDraft.Restored ∧ ∀ guard ∈ d.guard, guard.Writable := by
  obtain ⟨-, hrecorded⟩ := recorded_of_surveySource htokens hsurvey
  intro entry hentry
  obtain ⟨d, hd, rfl⟩ := List.mem_map.1 (Emission.mem_of_mem_collapse hentry)
  have hitem : d ∈ s.declarations.items := (List.mem_filter.1 hd).1
  rw [hrecorded] at hitem
  exact ⟨d, hd, rfl, restored_of_mem_items htokens Tracker.sound_start hitem fun run c hc hplain =>
    hback.restorable _ hc c rfl hplain d hd⟩

/-- A line of a header does not take the next one with it. -/
theorem endsItsLine_of_mem_lines {source : String} {tokens : List Token} (htokens : tokenize source = .ok tokens) {s : Survey}
    (hsurvey : surveySource true source = .ok s) (hback : ReadBack tokens s.declarations) :
    ∀ line ∈ (Emission.lines [] (Emission.entries s.declarations)).dropLast, EndsItsLine line.text.toList := by
  have hentries := restored_of_mem_entries_header htokens hsurvey hback
  have hguards : ∀ entry ∈ Emission.entries s.declarations, ∀ guard ∈ entry.1, guard.Writable := by
    intro entry hentry
    obtain ⟨d, -, rfl, -, hwritable⟩ := hentries entry hentry
    exact hwritable
  intro line hline
  have hruns := hback.lines line (by rwa [Emission.emit_eq_lines])
  rcases Emission.directiveLine_or_declaration hguards line (List.mem_of_mem_dropLast hline) with
    ⟨text, rfl, hdirective⟩ | ⟨entry, hentry, rfl⟩
  · exact DirectiveLine.endsItsLine_of_runsOn hdirective hruns
  · obtain ⟨d, -, rfl, ⟨directives, hreads, -⟩, -⟩ := hentries entry hentry
    exact hreads.endsItsLine hruns

/-- The header of a text is read back without fault. It declares what the text shows, under the same guards and in the
same words, repeats left out. -/
theorem header_round_trip {source header : String} (hheader : generateHeader source = .ok header) {tokens : List Token}
    (htokens : tokenize source = .ok tokens) {s : Survey} (hsurvey : surveySource true source = .ok s)
    (hback : ReadBack tokens s.declarations) :
    ∃ again, surveySource true header = .ok again ∧ again.errors = [] ∧
      again.declarations.items.map (fun d => (d.guard, d.text.text)) =
        Emission.collapse (s.declarations.visible.map fun d => (d.guard, d.text.text)) := by
  have hentries := restored_of_mem_entries_header htokens hsurvey hback
  refine survey_lines ?_ ?_ ?_ ((render_of_generateHeader hheader hsurvey).2.trans ?_)
  · intro entry hentry
    obtain ⟨d, -, rfl, -, hwritable⟩ := hentries entry hentry
    exact hwritable
  · intro entry hentry
    obtain ⟨d, hd, rfl, ⟨directives, hreads, hnone⟩, -⟩ := hentries entry hentry
    refine hreads.imp fun source item hdeclares => ⟨directives, ?_, hdeclares⟩
    cases hverbatim : d.text.isVerbatim with
    | true =>
      exact hreads.balanced (hback.balanced d hd hverbatim)
    | false =>
      rw [hnone hverbatim]
      exact @Tracker.balanced_of_passAll [] rfl
  · exact endsItsLine_of_mem_lines htokens hsurvey hback
  · rw [Emission.render, Emission.emit_eq_lines]
    rfl

/-- A header with a macro, a copied type, a condition with a backslash at its end, a declarator behind an attribute, an
aggregate apart, a variable and a prototype in the old style. -/
theorem header_round_trip_branches :
    let here (elifs : List String) (inElse : Bool) : GuardPath := [⟨.defined, "A", elifs, inElse⟩]
    let header := "#ifdef A\ntypedef int t;\n#define B 1\n#elif C // d\\\nextern int a;\nextern int __attribute__((unused)) b;\n" ++
      "#else\nstruct s \x7b int x; \x7d;\nextern struct s v;\nint f();\n#endif"
    ∃ again, surveySource true header = .ok again ∧ again.errors = [] ∧
      again.declarations.items.map (fun d => (d.guard, d.text.text)) =
        [(here [] false, "typedef int t;"), (here [] false, "#define B 1"), (here ["C // d\\"] false, "extern int a;"),
          (here ["C // d\\"] false, "extern int __attribute__((unused)) b;"),
          (here ["C // d\\"] true, "struct s \x7b int x; \x7d;"), (here ["C // d\\"] true, "extern struct s v;"),
          (here ["C // d\\"] true, "int f();")] := by
  intro here header
  let source := "#ifdef A\ntypedef int t;\n#define B 1\n#elif C // d\\ \nint a, __attribute__((unused)) b;\n#else\n" ++
    "EXPORT struct s \x7b int x; \x7d v = \x7b 1 \x7d;\nint f(a) int a; \x7b return a; \x7d\n#endif\nstatic int hidden;\n"
  let tokens := (tokenize source).toOption.getD []
  let s := (surveySource true source).toOption.getD {}
  obtain ⟨hheader, htokens, hsurvey, hback⟩ : generateHeader source = .ok header ∧ tokenize source = .ok tokens ∧
      surveySource true source = .ok s ∧ ReadBack tokens s.declarations := by
    decide +kernel
  obtain ⟨again, hagain, herrors, hentries⟩ := header_round_trip hheader htokens hsurvey hback
  refine ⟨again, hagain, herrors, hentries.trans ?_⟩
  decide +kernel

/-- A condition that ends in a spliced line takes the declaration behind it along. -/
theorem header_condition_runs_on :
    let source := "#if A\\\n\nint a;\n#endif"
    let header := "#if A\\\nextern int a;\n#endif"
    generateHeader source = .ok header ∧
      (∃ s, surveySource true source = .ok s ∧ Emission.entries s.declarations = [([⟨.expression, "A\\", [], false⟩], "extern int a;")]) ∧
      ∃ again, surveySource true header = .ok again ∧ again.errors = [] ∧ again.declarations.items = [] := by
  intro source header
  have hsurvey : ∀ text ∈ [source, header], surveySource true text = .ok ((surveySource true text).toOption.getD {}) := by
    decide +kernel
  refine ⟨by decide +kernel, ⟨_, hsurvey source (by simp), by decide +kernel⟩, ⟨_, hsurvey header (by simp), ?_, ?_⟩⟩ <;>
    decide +kernel

end CHeader
