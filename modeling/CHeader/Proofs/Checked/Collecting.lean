import CHeader.Proofs.Checked.Shapes
import CHeader.Proofs.Checked.Stream
import CHeader.Proofs.OldStyle

/-!
# Constructs by position

A construct is collected from the position where it begins (`collect?`): the positions of its tokens, of the brackets
that are open and of the conditional directives between them. What is found is the run that `Outline.collect` takes
off the tokens.
-/

namespace CHeader.Checked

open Outline (Collected Verdict openBraces)

/-! ### One token of a construct -/

/-- What is collected of a construct, by position. -/
structure Gathered where
  /-- The tokens of the construct itself, in order. -/
  indices : List Nat := []
  /-- The brackets that are open, the innermost first. -/
  opened : List Nat := []
  /-- Where among the tokens the parameter declarations of a definition in the old style begin. -/
  parameters : Option Nat := none
  conditionals : List Nat := []
  deriving DecidableEq, Repr

/-- What a token does to a construct. -/
inductive PlacedVerdict
  | goOn (g : Gathered)
  | ends
  | body
  | unexpected
  /-- The brackets that are open behind the token, the innermost first. -/
  | unbalanced (opened : List Nat)
  | endOfText
  deriving DecidableEq, Repr

namespace Gathered

/-- Add a token of the construct. -/
def add (g : Gathered) (i : Nat) : Gathered :=
  { g with indices := g.indices ++ [i] }

/-- Add an opening bracket. -/
def push (g : Gathered) (i : Nat) : Gathered :=
  { g.add i with opened := i :: g.opened }

/-- Pass over a comment or a directive. -/
def pass (g : Gathered) (i : Nat) (t : Token) : Gathered :=
  if t.directive?.any (·.kind.isConditional) then { g with conditionals := g.conditionals ++ [i] } else g

/-- The verdict on a brace outside all brackets. -/
def brace? (markers : Bool) (view : View) (g : Gathered) (i : Nat) : Option PlacedVerdict := do
  if g.parameters.isSome then some .body
  else if ← isFunctionHead? markers (view.at? g.indices) g.indices.length then some .body
  else if ← expectsBrace? markers (view.at? g.indices) g.indices.length then some (.goOn (g.push i))
  else some .unexpected

/-- The verdict on a semicolon outside all brackets. -/
def semicolon? (markers : Bool) (view : View) (g : Gathered) (i : Nat) : Option PlacedVerdict :=
  if g.parameters.isSome then some (.goOn (g.add i))
  else do
    match ← parameterDeclarations? markers (view.at? g.indices) g.indices.length with
    | some first => some (.goOn { g.add i with parameters := some first })
    | none => some .ends

/-- The verdict on a closing bracket. -/
def closing? (view : View) (g : Gathered) (i : Nat) (t : Token) : Option PlacedVerdict :=
  match g.opened with
  | opening :: outer => do
    let u ← view opening
    some (if t.kind.closes u.kind then .goOn { g.add i with opened := outer } else .unbalanced outer)
  | [] => some (.unbalanced [])

/-- The verdict on the token at position `i`. -/
def verdict? (markers : Bool) (view : View) (g : Gathered) (i : Nat) (t : Token) : Option PlacedVerdict :=
  match t.kind with
  | .eof => some .endOfText
  | .directive _ | .lineComment | .blockComment => some (.goOn (g.pass i t))
  | .opening bracket =>
    if bracket = .brace && g.opened.isEmpty then brace? markers view g i else some (.goOn (g.push i))
  | .closing _ => closing? view g i t
  | .punct .semi => if g.opened.isEmpty then semicolon? markers view g i else some (.goOn (g.add i))
  | _ => some (.goOn (g.add i))

/-- Between the positions `start` and `i` is collected by position what is collected of the tokens. -/
structure Stands (view : View) (start i : Nat) (g : Gathered) (c : Collected) : Prop where
  met : view.Shows start c.met.reverse
  reached : start + c.met.length = i
  indices : g.indices.map view = c.tokens.reverse.map some
  increasing : g.indices.Pairwise (· < ·)
  within : ∀ k ∈ g.indices ++ g.conditionals, k < i
  opened : g.opened.map view = c.opened.map some
  conditionals : g.conditionals.map view = c.conditionals.reverse.map some
  parameters : g.parameters = c.head.map List.length

end Gathered

/-- The same verdict, by position or not. -/
inductive PlacedVerdict.Agrees (view : View) (start i : Nat) (c : Collected) : PlacedVerdict → Verdict → Prop
  | goOn {g : Gathered} {c' : Collected} (stands : g.Stands view start (i + 1) c') : Agrees view start i c (.goOn g) (.goOn c')
  | ends : Agrees view start i c .ends .ends
  | body : Agrees view start i c .body .body
  | unexpected : Agrees view start i c .unexpected .unexpected
  | unbalanced {opened : List Nat} (opened_map : opened.map view = c.opened.tail.map some) :
      Agrees view start i c (.unbalanced opened) .unbalanced
  | endOfText : Agrees view start i c .endOfText .endOfText

section Verdict

variable {view : View} {start i : Nat} {g : Gathered} {c : Collected} {t : Token} {markers : Bool}

/-- One more token of the construct. -/
theorem Gathered.Stands.add (h : g.Stands view start i c) (ht : view i = some t) :
    (g.add i).Stands view start (i + 1) (c.add t) := by
  have hlength : (c.add t).met.length = c.met.length + 1 := rfl
  refine ⟨?_, ?_, ?_, ?_, ?_, h.opened, h.conditionals, h.parameters⟩
  · rw [Collected.add, List.reverse_cons, View.shows_append, List.length_reverse, h.reached]
    exact ⟨h.met, ht, trivial⟩
  · rw [hlength, ← Nat.add_assoc, h.reached]
  · rw [Gathered.add, Collected.add, List.map_append, List.reverse_cons, List.map_append, h.indices, List.map_singleton, ht,
      List.map_singleton]
  · refine List.pairwise_append.2 ⟨h.increasing, List.pairwise_singleton _ _, fun k hk j hj => ?_⟩
    rw [List.mem_singleton.1 hj]
    exact h.within k (List.mem_append_left _ hk)
  · intro k hk
    simp only [Gathered.add, List.append_assoc, List.mem_append, List.mem_singleton] at hk
    rcases hk with hk | rfl | hk
    · exact Nat.lt_succ_of_lt (h.within k (List.mem_append_left _ hk))
    · exact Nat.lt_succ_self k
    · exact Nat.lt_succ_of_lt (h.within k (List.mem_append_right _ hk))

theorem Gathered.Stands.push (h : g.Stands view start i c) (ht : view i = some t) :
    (g.push i).Stands view start (i + 1) (c.push t) :=
  { h.add ht with
    opened := by
      rw [Gathered.push, Collected.push, List.map_cons, List.map_cons, ht]
      exact congrArg _ h.opened }

/-- A comment or a directive between the tokens. -/
theorem Gathered.Stands.pass (h : g.Stands view start i c) (ht : view i = some t) :
    (g.pass i t).Stands view start (i + 1) (c.pass t) := by
  have hmet : view.Shows start (c.pass t).met.reverse ∧ start + (c.pass t).met.length = i + 1 :=
    ⟨(h.add ht).met, (h.add ht).reached⟩
  have hbelow : ∀ k ∈ g.indices ++ g.conditionals, k < i + 1 := fun k hk => Nat.lt_succ_of_lt (h.within k hk)
  by_cases hconditional : t.directive?.any (·.kind.isConditional) = true
  · rw [Gathered.pass, if_pos hconditional]
    refine ⟨hmet.1, hmet.2, h.indices, h.increasing, ?_, h.opened, ?_, h.parameters⟩
    · intro k hk
      rw [← List.append_assoc] at hk
      rcases List.mem_append.1 hk with hk | hk
      · exact hbelow k hk
      · exact List.mem_singleton.1 hk ▸ Nat.lt_succ_self i
    · simp only [Collected.pass, if_pos hconditional, List.reverse_cons, List.map_append, h.conditionals, List.map_singleton, ht]
  · rw [Gathered.pass, if_neg hconditional]
    refine ⟨hmet.1, hmet.2, h.indices, h.increasing, hbelow, h.opened, ?_, h.parameters⟩
    simp only [Collected.pass, if_neg hconditional, h.conditionals]

theorem Gathered.Stands.length_indices (h : g.Stands view start i c) : g.indices.length = c.tokens.reverse.length := by
  simpa using congrArg List.length h.indices

theorem Gathered.Stands.isEmpty_opened (h : g.Stands view start i c) : g.opened.isEmpty = c.opened.isEmpty := by
  have hlength := congrArg List.length h.opened
  rw [List.length_map, List.length_map] at hlength
  rw [Bool.eq_iff_iff, List.isEmpty_iff_length_eq_zero, List.isEmpty_iff_length_eq_zero, hlength]

theorem Gathered.Stands.brace?_agrees (h : g.Stands view start i c) (hdivided : c.Divided markers) (ht : view i = some t) :
    ∃ v, g.brace? markers view i = some v ∧ v.Agrees view start i c
      (if c.head.isSome || Shape.isFunctionHead markers t c.tokens.reverse then .body
       else if Shape.expectsBrace markers t c.tokens.reverse then .goOn (c.push t) else .unexpected) := by
  have hfits : Nesting.Fits c.tokens.reverse := ⟨[], c.opened, hdivided.opened⟩
  have hshows := View.at?_shows h.indices
  rw [Gathered.brace?, h.length_indices, isFunctionHead?_eq markers t hshows hfits, expectsBrace?_eq markers t hshows, h.parameters]
  simp only [Option.isSome_map, Option.bind_eq_bind, Option.bind_some]
  cases c.head.isSome
  · cases Shape.isFunctionHead markers t c.tokens.reverse
    · cases Shape.expectsBrace markers t c.tokens.reverse
      · exact ⟨_, rfl, .unexpected⟩
      · exact ⟨_, rfl, .goOn (h.push ht)⟩
    · exact ⟨_, rfl, .body⟩
  · exact ⟨_, rfl, .body⟩

theorem Gathered.Stands.semicolon?_agrees (h : g.Stands view start i c) (ht : view i = some t) :
    ∃ v, g.semicolon? markers view i = some v ∧ v.Agrees view start i c
      (if c.head.isNone then
        match Shape.parameterDeclarations? markers c.tokens.reverse with
        | some parameters =>
          .goOn { c.add t with head := some (c.tokens.reverse.take (c.tokens.reverse.length - parameters.length)) }
        | none => .ends
       else .goOn (c.add t)) := by
  have hshows := View.at?_shows h.indices
  rw [Gathered.semicolon?, h.length_indices, parameterDeclarations?_eq markers hshows, h.parameters]
  cases hhead : c.head with
  | some head => exact ⟨_, rfl, .goOn (h.add ht)⟩
  | none =>
    cases hbegun : Shape.parameterDeclarations? markers c.tokens.reverse with
    | none => exact ⟨_, rfl, .ends⟩
    | some parameters =>
      refine ⟨_, rfl, .goOn { h.add ht with parameters := ?_ }⟩
      simp only [Option.map_some, List.length_take, Option.some.injEq]
      omega

theorem Gathered.Stands.closing?_agrees (h : g.Stands view start i c) (ht : view i = some t) :
    ∃ v, g.closing? view i t = some v ∧ v.Agrees view start i c
      (if c.opened.head?.any (t.kind.closes ·.kind) then .goOn { c.add t with opened := c.opened.tail } else .unbalanced) := by
  have hopened := h.opened
  rw [Gathered.closing?]
  cases hg : g.opened with
  | nil =>
    obtain hc : c.opened = [] := by simpa [hg] using hopened
    rw [hc]
    exact ⟨_, rfl, .unbalanced (by simp [hc])⟩
  | cons opening outer =>
    rw [hg, List.map_cons] at hopened
    obtain ⟨u, us, hc, hu, hus⟩ := List.map_eq_cons_iff.1 hopened.symm
    have hany : c.opened.head?.any (t.kind.closes ·.kind) = t.kind.closes u.kind := by
      rw [hc]
      rfl
    simp only [← hu, Option.bind_eq_bind, Option.bind_some]
    by_cases hcloses : t.kind.closes u.kind = true
    · rw [if_pos hcloses, if_pos (hany.trans hcloses)]
      exact ⟨_, rfl, .goOn { h.add ht with opened := by rw [hc, List.tail_cons, hus] }⟩
    · rw [if_neg hcloses, if_neg (hany ▸ hcloses)]
      exact ⟨_, rfl, .unbalanced (by rw [hc, List.tail_cons, hus])⟩

theorem Gathered.Stands.verdict?_agrees (h : g.Stands view start i c) (hdivided : c.Divided markers) (ht : view i = some t) :
    ∃ v, g.verdict? markers view i t = some v ∧ v.Agrees view start i c (c.verdict markers t) := by
  unfold Gathered.verdict? Collected.verdict
  rw [h.isEmpty_opened]
  cases hkind : t.kind with
  | eof => exact ⟨_, rfl, .endOfText⟩
  | directive _ | lineComment | blockComment => exact ⟨_, rfl, .goOn (h.pass ht)⟩
  | punct p =>
    cases p with
    | opening bracket =>
      simp only
      cases bracket = .brace && c.opened.isEmpty
      · exact ⟨_, rfl, .goOn (h.push ht)⟩
      · exact h.brace?_agrees hdivided ht
    | closing bracket =>
      have hclosing := h.closing?_agrees ht
      rw [hkind] at hclosing
      exact hclosing
    | semi =>
      simp only
      cases c.opened.isEmpty
      · exact ⟨_, rfl, .goOn (h.add ht)⟩
      · exact h.semicolon?_agrees ht
    | _ => exact ⟨_, rfl, .goOn (h.add ht)⟩
  | _ => exact ⟨_, rfl, .goOn (h.add ht)⟩

end Verdict

/-! ### Whole constructs -/

/-- A construct by position. -/
structure PlacedConstruct where
  /-- The tokens before the body, with the semicolon at the end if there is one. -/
  indices : List Nat
  /-- The braces of a function body. -/
  body : Option (Nat × Nat)
  /-- Where among the tokens the parameter declarations of a definition in the old style begin. -/
  parameters : Option Nat
  conditionals : List Nat
  deriving DecidableEq, Repr

/-- A run of tokens at top level, by position. -/
inductive PlacedItem
  | directive (i : Nat)
  | skipped (start stop : Nat)
  | construct (start stop : Nat) (construct : PlacedConstruct)
  /-- The fault is found at the position `middle`. -/
  | malformed (start middle stop : Nat) (fault : Diagnostic)
  deriving DecidableEq, Repr

namespace Gathered

/-- The construct that ends here. -/
def finish (g : Gathered) (body : Option (Nat × Nat)) : PlacedConstruct :=
  ⟨g.indices, body, g.parameters, g.conditionals⟩

/-- The fault of a construct that the end of the text, at position `i`, cuts off. -/
def endFault? (view : View) (g : Gathered) (i : Nat) : Option Diagnostic :=
  match g.opened with
  | opening :: _ => do
    let t ← view opening
    some (.ofIssue (.delimiterNeverClosed t.kind) t)
  | [] => do
    let t ← view (g.indices.head?.getD i)
    some (.ofIssue .missingSemicolon t)

/-- The run at the token `t`, at position `i`, that does not go on with the construct begun at `start`; the position
behind it comes second. -/
def stop? (tokens : List Token) (start : Nat) (g : Gathered) (i : Nat) (t : Token) :
    PlacedVerdict → Option (PlacedItem × Nat)
  | .ends => some (.construct start (i + 1) ((g.add i).finish none), i + 1)
  | .body => do
    match ← bodyEnd? tokens 1 (i + 1) with
    | .ok close => some (.construct start (close + 1) (g.finish (some (i, close))), close + 1)
    | .error stop => some (.malformed start stop stop (.ofIssue (.bodyNeverClosed t.line) t), stop)
  | .unexpected => do
    let stop ← recover? tokens 0 i
    some (.malformed start i stop (.ofIssue .unexpectedBrace t), stop)
  | .unbalanced opened => do
    let brackets ← opened.mapM (token? tokens)
    let stop ← recover? tokens (openBraces brackets) (i + 1)
    some (.malformed start i stop (.ofIssue (.unbalanced t.kind) t), stop)
  | _ => do
    let fault ← g.endFault? (token? tokens) i
    some (.malformed start i i fault, i)

end Gathered

/-- Collect the construct begun at `start` from position `i` on; the run that it makes, and the position behind it. -/
def collect? (markers : Bool) (tokens : List Token) (start : Nat) (g : Gathered) (i : Nat) : Option (PlacedItem × Nat) := do
  let t ← token? tokens i
  match ← g.verdict? markers (token? tokens) i t with
  | .goOn g => if _ : i < tokens.length then collect? markers tokens start g (i + 1) else none
  | verdict => g.stop? tokens start i t verdict
termination_by tokens.length - i

/-- The semicolon that a construct ends with. -/
def semicolon (c : Construct) : List Token :=
  match c.ending with
  | .semicolon t => [t]
  | .body _ _ => []

/-- The braces of the body that a construct ends with. -/
def braces? (c : Construct) : Option (Token × Token) :=
  match c.ending with
  | .semicolon _ => none
  | .body opening closing => some (opening, closing)

/-- A construct by position and by tokens. The positions are those of the tokens, before the one that ends the text, and
its brackets fit. -/
structure PlacedConstruct.Stands (tokens : List Token) (placed : PlacedConstruct) (c : Construct) : Prop where
  indices : placed.indices.map (token? tokens) = (c.head ++ c.parameters ++ semicolon c).map some
  increasing : placed.indices.Pairwise (· < ·)
  within : ∀ k ∈ placed.indices ++ placed.conditionals, k + 1 < tokens.length
  body : placed.body.map (fun (opening, close) => (token? tokens opening, token? tokens close)) =
    (braces? c).map fun (opening, close) => (some opening, some close)
  behind : ∀ braces ∈ placed.body, (∀ k ∈ placed.indices, k < braces.1) ∧ braces.1 < braces.2 ∧ braces.2 + 1 < tokens.length
  parameters : placed.parameters = if c.parameters = [] then none else some c.head.length
  conditionals : placed.conditionals.map (token? tokens) = c.conditionals.map some
  nonempty : c.head ≠ []
  plain : c.parameters = [] ∨ c.hasBody = true
  semi : ∀ t ∈ semicolon c, t.kind = .punct .semi
  fits : Nesting.Fits c.head
  closed : c.parameters = [] → Nesting.openBehind? [] c.head = some []
  whole : c.parameters = [] → Nesting.Outside (·.kind ≠ .punct .semi) 0 c.head

/-- A run by position and by tokens. -/
inductive PlacedItem.Stands (tokens : List Token) : PlacedItem → Item → Prop
  | directive {i : Nat} {t : Token} (shows : token? tokens i = some t) : Stands tokens (.directive i) (.directive t)
  | skipped {start stop : Nat} {ts : List Token} (between : Between tokens start stop ts) :
      Stands tokens (.skipped start stop) (.skipped ts)
  | construct {start stop : Nat} {ts : List Token} {placed : PlacedConstruct} {c : Construct}
      (between : Between tokens start stop ts) (stands : placed.Stands tokens c) :
      Stands tokens (.construct start stop placed) (.construct ts c)
  | malformed {start middle stop : Nat} {before behind : List Token} {fault : Diagnostic}
      (first : Between tokens start middle before) (second : Between tokens middle stop behind) :
      Stands tokens (.malformed start middle stop fault) (.malformed before fault behind)

section Collect

variable {tokens ts : List Token} {start i : Nat} {g : Gathered} {c : Collected} {t first : Token} {markers : Bool}

/-- Nothing is open where a construct ends. -/
theorem opened_of_ends {ending : Ending} {behind : List Token} (h : c.Ends markers ending behind) : c.opened = [] := by
  cases h with
  | semicolon verdict => exact (Collected.of_verdict_eq_ends verdict).2.1
  | body _ _ verdict => exact (Collected.of_verdict_eq_body verdict).2.1

/-- Where a construct ends, what is collected by position is the construct. -/
theorem Gathered.Stands.finish {placed : PlacedConstruct} {ending : Ending} {behind : List Token}
    (h : g.Stands (token? tokens) start i c) (hdivided : c.Divided markers) (hbegins : c.Begins first)
    (hends : c.Ends markers ending behind) (hparameters : placed.parameters = g.parameters) (hconditionals : placed.conditionals = g.conditionals)
    (hindices : placed.indices.map (token? tokens) = (c.tokens.reverse ++ semicolon (c.finish ending)).map some)
    (hincreasing : placed.indices.Pairwise (· < ·)) (hwithin : ∀ k ∈ placed.indices ++ placed.conditionals, k + 1 < tokens.length)
    (hbody : placed.body.map (fun (opening, close) => (token? tokens opening, token? tokens close)) =
      (braces? (c.finish ending)).map fun (opening, close) => (some opening, some close))
    (hbehind : ∀ braces ∈ placed.body,
      (∀ k ∈ placed.indices, k < braces.1) ∧ braces.1 < braces.2 ∧ braces.2 + 1 < tokens.length) :
    placed.Stands tokens (c.finish ending) := by
  obtain ⟨htext, hshape⟩ := hdivided.finish hends
  have hclosed := hdivided.opened
  rw [opened_of_ends hends] at hclosed
  refine ⟨by rw [htext, hindices], hincreasing, hwithin, hbody, hbehind, ?_, ?_, ?_, ?_, ?_, ?_, fun hnone => ?_, fun hnone => ?_⟩
  · rw [hparameters, h.parameters]
    cases hhead : c.head with
    | none => simp [Collected.finish, hhead]
    | some head =>
      obtain ⟨begun, semi, between, hsplit, -⟩ := hdivided.parts head hhead
      simp [Collected.finish, hhead, hsplit]
  · rw [hconditionals, h.conditionals]
    rfl
  · exact List.ne_nil_of_mem (List.mem_of_head? (hbegins.finish ending))
  · exact hshape.imp (·.parameters) (·.hasBody)
  · cases hends with
    | semicolon verdict => simp [semicolon, Collected.finish, (Collected.of_verdict_eq_ends verdict).1]
    | body => simp [semicolon, Collected.finish]
  · exact Nesting.Fits.of_infix ⟨[], [], hclosed⟩ (htext ▸ List.prefix_append _ _ : _ <+: c.tokens.reverse).isInfix
  · rw [hnone, List.append_nil] at htext
    rwa [htext]
  · rcases hshape with hundivided | hold
    · exact hundivided.whole
    · obtain ⟨begun, semi, between, hparts, -⟩ := hold.parts
      simp [hparts] at hnone

theorem Gathered.Stands.finish_semicolon (h : g.Stands (token? tokens) start i c) (hdivided : c.Divided markers)
    (hbegins : c.Begins first) (hi : i + 1 < tokens.length) (ht : token? tokens i = some t)
    (hverdict : c.verdict markers t = .ends) : ((g.add i).finish none).Stands tokens (c.finish (.semicolon t)) := by
  have hadd := h.add ht
  refine h.finish hdivided hbegins (.semicolon hverdict) rfl rfl ?_ hadd.increasing (fun k hk => ?_) rfl (by simp [Gathered.finish])
  · rw [Gathered.finish, hadd.indices, Collected.add, List.reverse_cons]
    rfl
  · exact Nat.lt_of_le_of_lt (hadd.within k hk) hi

theorem Gathered.Stands.finish_body (inside : List Token) {close : Token} {k : Nat}
    (h : g.Stands (token? tokens) start i c) (hdivided : c.Divided markers) (hbegins : c.Begins first)
    (hi : i < k) (hk : k + 1 < tokens.length) (ht : token? tokens i = some t) (hverdict : c.verdict markers t = .body)
    (hclose : token? tokens k = some close) :
    (g.finish (some (i, k))).Stands tokens (c.finish (.body t close)) := by
  refine h.finish hdivided hbegins (.body inside close hverdict) rfl rfl ?_ h.increasing (fun j hj => ?_) ?_ ?_
  · rw [Gathered.finish, h.indices, semicolon]
    simp [Collected.finish]
  · have := h.within j hj
    omega
  · simp [Gathered.finish, braces?, Collected.finish, ht, hclose]
  · rintro _ ⟨⟩
    exact ⟨fun j hj => h.within j (List.mem_append_left _ hj), hi, hk⟩

/-- What is found of a run by position is the run, and what remains there is what the run leaves. -/
def Found (tokens : List Token) (found : Option (PlacedItem × Nat)) (run : Item × List Token) : Prop :=
  ∃ item next, found = some (item, next) ∧ item.Stands tokens run.1 ∧ Remains tokens next run.2

theorem Gathered.Stands.function_found (h : g.Stands (token? tokens) start i c) (hdivided : c.Divided markers)
    (hbegins : c.Begins first) (hremains : Remains tokens i (t :: ts)) (hverdict : c.verdict markers t = .body) :
    Found tokens (g.stop? tokens start i t .body) (Outline.function c t ts) := by
  obtain ⟨hbrace, -⟩ := Collected.of_verdict_eq_body hverdict
  have hmet : Between tokens start i c.met.reverse := ⟨h.met, by rw [List.length_reverse, h.reached]⟩
  have ht : Between tokens i (i + 1) [t] := ⟨⟨hremains.shows.1, trivial⟩, rfl⟩
  have hbehind := hremains.next (by simp [hbrace])
  rw [Gathered.stop?, bodyEnd?_eq 0 hbehind, Outline.function]
  simp only [Option.bind_eq_bind, Option.bind_some]
  cases hbody : Outline.body? 0 ts with
  | none =>
    obtain ⟨hinside, hrest⟩ := hbehind.cut (Outline.untilEnd_prefix ts) fun _ => Outline.kind_of_mem_untilEnd
    exact ⟨_, _, rfl, .malformed (hmet.append (ht.append hinside)) ⟨trivial, rfl⟩, hrest⟩
  | some found =>
    obtain ⟨inside, close⟩ := found
    obtain ⟨⟨rest, rfl⟩, hkinds⟩ := Outline.eq_append_of_body? hbody
    have hsplit : inside ++ close :: rest = inside ++ [close] ++ rest := by simp
    have hclose := (View.shows_append.1 hbehind.shows).2.1
    rw [hsplit] at hbehind ⊢
    obtain ⟨hinside, hrest⟩ := hbehind.cut (List.prefix_append _ _) hkinds
    rw [List.length_append, List.length_singleton, ← Nat.add_assoc] at hinside hrest
    refine ⟨_, _, rfl, .construct (hmet.append (ht.append hinside)) ?_, hrest⟩
    have hlength := hrest.length
    have hne := List.length_pos_iff.2 hrest.ne_nil
    exact h.finish_body inside hdivided hbegins (by omega) (by omega) hremains.shows.1 hverdict hclose

theorem Gathered.Stands.endFault?_eq (h : g.Stands (token? tokens) start i c) (hbegins : c.Begins first) :
    g.endFault? (token? tokens) i = some (c.endFault first) := by
  have hopened := h.opened
  have hindices := h.indices
  rw [Gathered.endFault?, Collected.endFault]
  cases hc : c.opened with
  | nil =>
    obtain hg : g.opened = [] := by simpa [hc] using hopened
    obtain ⟨rest, hrest⟩ : ∃ rest, c.tokens.reverse = first :: rest := by
      rw [← List.head?_eq_some_iff, List.head?_reverse, hbegins.tokens]
    rw [hrest] at hindices
    obtain ⟨k, indices, hk, hfirst, -⟩ := List.map_eq_cons_iff.1 hindices
    simp [hg, hk, hfirst]
  | cons u us =>
    rw [hc] at hopened
    obtain ⟨k, opened, hk, hu, -⟩ := List.map_eq_cons_iff.1 hopened
    simp [hk, hu]

/-- Where a token does not go on with a construct, the same run is made by position. -/
theorem Gathered.Stands.stop?_found (h : g.Stands (token? tokens) start i c) (hdivided : c.Divided markers)
    (hbegins : c.Begins first) (hremains : Remains tokens i (t :: ts)) {v : PlacedVerdict}
    (hv : v.Agrees (token? tokens) start i c (c.verdict markers t)) (hstops : ∀ c', c.verdict markers t ≠ .goOn c') :
    Found tokens (g.stop? tokens start i t v) (c.stop first t ts (c.verdict markers t)) := by
  have ht := hremains.shows.1
  have hmet : Between tokens start i c.met.reverse := ⟨h.met, by rw [List.length_reverse, h.reached]⟩
  generalize hverdict : c.verdict markers t = verdict at *
  cases hv with
  | goOn => exact absurd rfl (hstops _)
  | ends =>
    obtain ⟨hsemi, -⟩ := Collected.of_verdict_eq_ends hverdict
    have hrest := hremains.next (by simp [hsemi])
    have hlength := hrest.length
    have hne := List.length_pos_iff.2 hrest.ne_nil
    refine ⟨_, _, rfl, .construct ?_ (h.finish_semicolon hdivided hbegins (by omega) ht hverdict), hrest⟩
    exact ⟨(h.add ht).met, by rw [List.length_reverse]; exact (h.add ht).reached⟩
  | body => exact h.function_found hdivided hbegins hremains hverdict
  | unexpected =>
    obtain ⟨hbehind, hrest⟩ := hremains.cut (Outline.prefix_recovery 0 (t :: ts)) fun _ => Outline.kind_of_mem_recovery
    rw [Gathered.stop?, recover?_eq hremains]
    exact ⟨_, _, rfl, .malformed hmet hbehind, hrest⟩
  | unbalanced hopened =>
    have heof : t.kind ≠ .eof := by
      rintro heof
      rw [Collected.verdict_eq_endOfText_iff.2 heof] at hverdict
      cases hverdict
    have hnext := hremains.next heof
    obtain ⟨hbehind, hrest⟩ := hnext.cut (Outline.prefix_recovery (openBraces c.opened.tail) ts) fun _ => Outline.kind_of_mem_recovery
    rw [Gathered.stop?, mapM_of_map hopened]
    simp only [Option.bind_eq_bind, Option.bind_some, recover?_eq hnext]
    have hbracket : Between tokens i (i + 1) [t] := ⟨⟨ht, trivial⟩, rfl⟩
    exact ⟨_, _, rfl, .malformed hmet (hbracket.append hbehind), hrest⟩
  | endOfText =>
    simp only [Gathered.stop?, h.endFault?_eq hbegins, Option.bind_eq_bind, Option.bind_some]
    exact ⟨_, _, rfl, .malformed hmet ⟨trivial, rfl⟩, hremains⟩

/-- What is collected from a position on is what is collected of the tokens that remain there. -/
theorem Gathered.Stands.collect?_found (h : g.Stands (token? tokens) start i c) (hdivided : c.Divided markers)
    (hbegins : c.Begins first) (hremains : Remains tokens i ts) :
    Found tokens (collect? markers tokens start g i) (Outline.collect markers first c ts) := by
  induction ts generalizing g c i with
  | nil => exact absurd rfl hremains.ne_nil
  | cons t ts ih =>
    obtain ⟨v, hv, hagrees⟩ := h.verdict?_agrees hdivided hremains.shows.1
    rw [collect?, hremains.shows.1, Outline.collect_cons]
    simp only [Option.bind_eq_bind, Option.bind_some, hv]
    cases hverdict : c.verdict markers t with
    | goOn c' =>
      rw [hverdict] at hagrees
      cases hagrees with
      | goOn stands =>
        have hgrows := Collected.grows_of_verdict hverdict
        have heof : t.kind ≠ .eof := by
          rintro heof
          rw [Collected.verdict_eq_endOfText_iff.2 heof] at hverdict
          cases hverdict
        simp only [dif_pos hremains.lt]
        exact ih stands (hdivided.grows hgrows) (hgrows.begins hbegins) (hremains.next heof)
    | _ =>
      have hfound := h.stop?_found hdivided hbegins hremains hagrees (by simp [hverdict])
      rw [hverdict] at hagrees hfound
      cases hagrees
      exact hfound

end Collect

end CHeader.Checked
