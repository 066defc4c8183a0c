import CHeader.Generator
import CHeader.Proofs.Checked.Entries
import CHeader.Proofs.Checked.Runs
import CHeader.Proofs.Checked.Writing

/-!
# Generation by position

The whole way from a source text to its header, with every look-up, every slice and every difference checked, and with a
failure where a loop does not go on (`generate?`). Nothing fails for any text and any options, and the header and the issues
are those of `generate` (`generation_is_safe`).
-/

namespace CHeader.Checked

/-! ### Definitions -/

/-- Go on with what is found, unless it is a fault. -/
def andThen? {ε α β : Type} (found : Option (Except ε α)) (next : α → Option (Except ε β)) : Option (Except ε β) := do
  match ← found with
  | .ok a => next a
  | .error e => some (.error e)

/-- Take in the tokens between two positions up to the first fault. -/
def passAll? (tokens : List Token) (tracker : Tracker) (start stop : Nat) : Option (Except Diagnostic Tracker) :=
  if start < stop then do
    let t ← token? tokens start
    andThen? (some (tracker.pass t)) fun tracker => passAll? tokens tracker (start + 1) stop
  else some (.ok tracker)
termination_by stop - start

/-- Follow the conditionals between two positions. A fault is the last of the errors. -/
def follow? (tokens : List Token) (s : Surveying) (start stop : Nat) : Option (Except (List Diagnostic) Surveying) := do
  match ← passAll? tokens s.tracker start stop with
  | .ok tracker => some (.ok { s with tracker })
  | .error fault => some (.error (s.survey.errors ++ [fault]))

/-- What a directive says. -/
def macroEntries? (source : List Char) (t : Tracker) (token : Token) (directive : Directive) : Option (List Entry) :=
  if directive.kind = .define ∨ directive.kind = .undef then do
    match ← macroName? directive with
    | some name => do
      let text ← slice? source token.span
      let visibility := if t.interfaceBlock = some .internal then .internal else .interface
      some [.declare [name] { kind := .macroDef, text := .verbatim text, visibility, guard := t.guardPath,
                              span := token.span, line := token.line }]
    | none => some [.issue (.ofIssue (.macroWithoutName directive.kind.keyword) token)]
  else some []

/-- What the token at a position says as a directive. -/
def directiveEntries? (source : List Char) (tokens : List Token) (t : Tracker) (i : Nat) : Option (List Entry) := do
  let token ← token? tokens i
  match token.directive? with
  | some directive => macroEntries? source t token directive
  | none => some []

/-- Take in a run. -/
def step? (source : List Char) (markers : Bool) (tokens : List Token) (s : Surveying) :
    PlacedItem → Option (Except (List Diagnostic) Surveying)
  | .directive i => andThen? (follow? tokens s i (i + 1)) fun s => do
    let entries ← directiveEntries? source tokens s.tracker i
    some (.ok (s.recordAll entries))
  | .skipped start stop => follow? tokens s start stop
  | .construct start stop placed =>
    let site : Site := { source, markers, guard := s.tracker.guardPath, block := s.tracker.interfaceBlock }
    andThen? (follow? tokens s start stop) fun s => do
      let entries ← placed.entries? site tokens
      some (.ok (s.recordAll entries))
  | .malformed start middle stop fault => andThen? (follow? tokens s start middle) fun s =>
    follow? tokens (s.recordAll [.issue fault]) middle stop

/-- Take in runs in order. -/
def stepAll? (source : List Char) (markers : Bool) (tokens : List Token) (s : Surveying) :
    List PlacedItem → Option (Except (List Diagnostic) Surveying)
  | [] => some (.ok s)
  | item :: items => andThen? (step? source markers tokens s item) fun s => stepAll? source markers tokens s items

/-- The declarations of the tokens of `source`. -/
def survey? (markers : Bool) (source : String) (tokens : List Token) : Option (Except (List Diagnostic) Survey) :=
  if tokens.isEmpty then some (.ok {})
  else do
    let items ← outline? markers tokens 0 0
    andThen? (stepAll? source.toList markers tokens { tracker := { recognizeBlocks := markers } } items) fun s => some s.finish

/-- The survey of a source text. -/
def surveySource? (markers : Bool) (source : String) : Option (Except (List Diagnostic) Survey) :=
  andThen? (tokenize? source) fun tokens => survey? markers source tokens

/-- The header of a source text, and the declarations it is written from. -/
def generate? (options : Options) (source : String) : Option (Generation × DeclarationList) := do
  match ← surveySource? options.markers source with
  | .error errors => some (⟨none, errors⟩, {})
  | .ok { declarations, errors } =>
    if errors.isEmpty || options.bestEffort then do
      let header ← render? declarations
      some (⟨some header, errors⟩, declarations)
    else some (⟨none, errors⟩, declarations)

/-- The header of a source text that has nothing wrong with it. -/
def generateHeader? (source : String) : Option (Except (List Diagnostic) String) := do
  let (generation, _) ← generate? {} source
  some generation.result

/-- Run a generator on a source text. -/
def run? (g : Generator) (source : String) : Option (Generation × Generator) := do
  let (generation, declarations) ← generate? g.options source
  some (generation, { g with declarations })

/-! ### Surveying -/

section Survey

variable {source : String} {tokens body : List Token} {markers : Bool}

theorem andThen?_eq {ε α β : Type} {e : Except ε α} {next : α → Option (Except ε β)} {f : α → Except ε β}
    (h : ∀ a, next a = some (f a)) : andThen? (some e) next = some (e >>= f) := by
  cases e with
  | error e => rfl
  | ok a => exact h a

theorem passAll?_eq {start stop : Nat} {ts : List Token} (h : Between tokens start stop ts) (tracker : Tracker) :
    passAll? tokens tracker start stop = some (tracker.passAll ts) := by
  obtain ⟨hshows, rfl⟩ := h
  induction ts generalizing start tracker with
  | nil =>
    rw [passAll?, if_neg (by simp)]
    rfl
  | cons t ts ih =>
    rw [passAll?, if_pos (by simp), hshows.1]
    refine andThen?_eq fun tracker => ?_
    rw [add_length_cons]
    exact ih tracker hshows.2

theorem follow?_eq {start stop : Nat} {ts : List Token} (h : Between tokens start stop ts) (s : Surveying) :
    follow? tokens s start stop = some (s.follow ts) := by
  rw [follow?, passAll?_eq h, Surveying.follow]
  cases s.tracker.passAll ts <;> rfl

/-- A directive of the text is spelled as the source is at its span. -/
theorem macroEntries?_eq (hread : ReadFrom source.toList tokens body) {i : Nat} {t : Token} {directive : Directive}
    (hi : token? tokens i = some t) (ht : t.directive? = some directive) (tracker : Tracker) :
    macroEntries? source.toList tracker t directive = some (macroEntries tracker t directive) := by
  have hbody : t ∈ body := by
    obtain ⟨last, hsplit, hlast⟩ := hread.split
    have hmem : t ∈ tokens := by
      obtain ⟨n, -, hn⟩ := Option.bind_eq_some_iff.1 hi
      exact List.mem_of_getElem? hn
    rw [hsplit, List.mem_append, List.mem_singleton] at hmem
    refine hmem.resolve_right ?_
    rintro rfl
    simp [Token.directive?, hlast] at ht
  rw [macroEntries?, macroEntries, macroName?_eq, hread.slice?_of_mem hbody]
  simp only [Option.bind_eq_bind, Option.bind_some]
  by_cases hmacro : directive.kind = .define ∨ directive.kind = .undef
  · rw [if_pos hmacro, if_pos hmacro]
    cases directive.macroName? <;> rfl
  · rw [if_neg hmacro, if_neg hmacro]

theorem directiveEntries?_eq (hread : ReadFrom source.toList tokens body) {i : Nat} {t : Token} (hi : token? tokens i = some t)
    (tracker : Tracker) :
    directiveEntries? source.toList tokens tracker i = some ((t.directive?.map (macroEntries tracker t)).getD []) := by
  rw [directiveEntries?, hi]
  simp only [Option.bind_eq_bind, Option.bind_some]
  cases hdirective : t.directive? with
  | none => rfl
  | some directive => exact macroEntries?_eq hread hi hdirective tracker

theorem step?_eq (hread : ReadFrom source.toList tokens body) {placed : PlacedItem} {item : Item} (h : placed.Stands tokens item)
    (s : Surveying) : step? source.toList markers tokens s placed = some (s.step source.toList markers item) := by
  cases h with
  | @directive i t hi =>
    have hbetween : Between tokens i (i + 1) [t] := ⟨⟨hi, trivial⟩, rfl⟩
    rw [step?, follow?_eq hbetween, Surveying.step]
    refine andThen?_eq fun s => ?_
    rw [directiveEntries?_eq hread hi]
    rfl
  | skipped between => exact follow?_eq between s
  | @construct start stop ts placed c between stands =>
    rw [step?, follow?_eq between, Surveying.step]
    refine andThen?_eq fun s => ?_
    rw [stands.entries?_eq hread]
    rfl
  | malformed first second =>
    rw [step?, follow?_eq first, Surveying.step]
    exact andThen?_eq fun s => follow?_eq second _

theorem stepAll?_eq (hread : ReadFrom source.toList tokens body) {placed : List PlacedItem} {items : List Item}
    (h : List.Forall₂ (PlacedItem.Stands tokens) placed items) (s : Surveying) :
    stepAll? source.toList markers tokens s placed = some (items.foldlM (Surveying.step source.toList markers) s) := by
  induction h generalizing s with
  | nil => rfl
  | cons hitem _ ih =>
    rw [stepAll?, step?_eq hread hitem, List.foldlM_cons]
    exact andThen?_eq ih

/-- The tokens of a text remain at its start. -/
theorem ReadFrom.remains {source : List Char} (h : ReadFrom source tokens body) : Remains tokens 0 tokens := by
  obtain ⟨last, hsplit, hlast⟩ := h.split
  exact ⟨⟨[], rfl, rfl⟩, body, last, hsplit, hlast⟩

theorem survey?_eq (hread : ReadFrom source.toList tokens body) : survey? markers source tokens = some (survey markers source tokens) := by
  obtain ⟨placed, hplaced, hstands⟩ := @outline?_stands _ _ 0 0 markers hread.remains
  have hnonempty : tokens.isEmpty = false := by simpa using hread.remains.ne_nil
  rw [survey?, hnonempty, hplaced]
  simp only [Bool.false_eq_true, if_false, Option.bind_eq_bind, Option.bind_some, stepAll?_eq hread hstands]
  exact andThen?_eq fun s => rfl

theorem surveySource?_eq (markers : Bool) (source : String) : surveySource? markers source = some (surveySource markers source) := by
  rw [surveySource?, tokenize?_eq, surveySource]
  cases htokens : tokenize source with
  | error errors => rfl
  | ok tokens =>
    obtain ⟨body, hread⟩ := readFrom_of_tokenize htokens
    exact survey?_eq hread

end Survey

/-! ### Generation -/

theorem generate?_eq (options : Options) (source : String) : generate? options source = some (generate options source) := by
  rw [generate?, generate, surveySource?_eq]
  simp only [Option.bind_eq_bind, Option.bind_some]
  cases surveySource options.markers source with
  | error errors => rfl
  | ok survey =>
    obtain ⟨declarations, errors⟩ := survey
    simp only [render?_eq, Option.bind_some]
    split_ifs <;> rfl

/-- Generation is safe: for every source text and every state of a generator, no look-up of a token, a guard or a byte is
out of range, no slice of the source, of a directive or of a list begins behind its end or off a character, no difference
falls below zero, and every loop goes on. The header and the issues are those of the generator, and the same holds of
`generateHeader`. -/
theorem generation_is_safe (g : Generator) (source : String) :
    run? g source = some (g.run source) ∧ generateHeader? source = some (generateHeader source) := by
  constructor
  · rw [run?, generate?_eq]
    rfl
  · rw [generateHeader?, generate?_eq]
    rfl

end CHeader.Checked
