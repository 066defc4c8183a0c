import CHeader.Proofs.Checked.Generation

/-!
# A parser at work

The parser is a loop at top level that hands over to three others: one collects a construct, one goes through the body
of a function, and one goes on to a place from which reading can start again. They share one position. `Parsing.step?` is
one iteration of the loop that is running, and an `Iteration` says what that may do to the position: it goes forward,
except where a loop is entered, where a brace that nothing asks for is stepped back to, and where a loop returns at the
end of the text. So the position never passes the end (`EndsAt.run?_within`), every turn of the loop at top level takes it
forward (`EndsAt.turn_advances`), and the parser ends (`EndsAt.run?_ends`). The position is the one between two iterations,
where the next token is read: a step over a token that is taken back in the same iteration does not count.
-/

namespace CHeader.Checked

open Outline (Collected openBraces)

/-- The loop that is running. -/
inductive Loop
  /-- Between constructs. -/
  | top
  /-- In the construct that begins with `first`. -/
  | collecting (site : Site) (first : Token) (c : Collected)
  /-- In the body behind `brace`, with `depth` braces open. -/
  | body (site : Site) (c : Collected) (brace : Token) (depth : Nat)
  /-- On the way to a place from which reading can start again, with `depth` braces open. -/
  | recovering (depth : Nat)

/-- A loop without its variables. -/
inductive Phase
  | top
  | collecting
  | body
  | recovering
  deriving DecidableEq, Repr

def Loop.phase : Loop → Phase
  | top => .top
  | collecting .. => .collecting
  | body .. => .body
  | recovering _ => .recovering

/-- A parser at work. -/
structure Parsing where
  loop : Loop
  pos : Nat
  /-- The `extern` blocks that are open. -/
  linkage : Nat
  surveying : Surveying

/-- What an iteration comes to. -/
inductive Outcome
  | goesOn (p : Parsing)
  | ends (answer : Except (List Diagnostic) Survey)

/-- Go on, unless the conditionals are at fault. -/
def Outcome.after (followed : Except (List Diagnostic) Surveying) (next : Surveying → Parsing) : Outcome :=
  match followed with
  | .ok surveying => .goesOn (next surveying)
  | .error errors => .ends (.error errors)

namespace Parsing

/-- Before the first token. -/
def start (markers : Bool) : Parsing :=
  ⟨.top, 0, 0, { tracker := { recognizeBlocks := markers } }⟩

/-! ### Iterations -/

/-- Go on behind the token at the position. -/
def pass (p : Parsing) (loop : Loop) (surveying : Surveying) : Parsing :=
  { p with loop, pos := p.pos + 1, surveying }

/-- Go on with the token at the position. -/
def stay (p : Parsing) (loop : Loop) (surveying : Surveying) : Parsing :=
  { p with loop, surveying }

@[simp] theorem pass_mk (loop loop' : Loop) (pos linkage : Nat) (surveying surveying' : Surveying) :
    pass ⟨loop, pos, linkage, surveying⟩ loop' surveying' = ⟨loop', pos + 1, linkage, surveying'⟩ := rfl

@[simp] theorem stay_mk (loop loop' : Loop) (pos linkage : Nat) (surveying surveying' : Surveying) :
    stay ⟨loop, pos, linkage, surveying⟩ loop' surveying' = ⟨loop', pos, linkage, surveying'⟩ := rfl

/-- Between constructs, at the token `t`. -/
def top? (source : List Char) (markers : Bool) (tokens : List Token) (p : Parsing) (t : Token) : Option Outcome :=
  match t.kind with
  | .eof => some (.ends p.surveying.finish)
  | .directive _ => some (.after (p.surveying.step source markers (.directive t)) (p.pass .top))
  | _ => do
    match ← skipped? tokens p.linkage p.pos t with
    | some (next, linkage) => do
      let followed ← follow? tokens p.surveying p.pos next
      some (.after followed fun surveying => { p with pos := next, linkage, surveying })
    | none =>
      if t.kind.canStartDeclaration then
        let tracker := p.surveying.tracker
        let site : Site := { source, markers, guard := tracker.guardPath, block := tracker.interfaceBlock }
        some (.goesOn (p.stay (.collecting site t { met := [], tokens := [] }) p.surveying))
      else
        let fault := .ofIssue (.expectedDeclaration t.kind) t
        some (.goesOn (p.stay (.recovering 0) (p.surveying.recordAll [.issue fault])))

/-- In a construct, at the token `t`. -/
def collecting (markers : Bool) (p : Parsing) (site : Site) (first : Token) (c : Collected) (t : Token) : Outcome :=
  .after (p.surveying.follow [t]) fun surveying =>
    match c.verdict markers t with
    | .goOn c => p.pass (.collecting site first c) surveying
    | .ends => p.pass .top (surveying.recordAll ((c.finish (.semicolon t)).entries site))
    | .body => p.pass (.body site c t 1) surveying
    -- The brace belongs to what is passed over.
    | .unexpected => p.stay (.recovering 0) (surveying.recordAll [.issue (.ofIssue .unexpectedBrace t)])
    | .unbalanced =>
      p.pass (.recovering (openBraces c.opened.tail)) (surveying.recordAll [.issue (.ofIssue (.unbalanced t.kind) t)])
    | .endOfText => p.stay .top (surveying.recordAll [.issue (c.endFault first)])

/-- In a body, at the token `t`. -/
def body (p : Parsing) (site : Site) (c : Collected) (brace : Token) (depth : Nat) (t : Token) : Outcome :=
  .after (p.surveying.follow [t]) fun surveying =>
    match t.kind with
    | .eof => p.stay .top (surveying.recordAll [.issue (.ofIssue (.bodyNeverClosed brace.line) brace)])
    | .opening .brace => p.pass (.body site c brace (depth + 1)) surveying
    | .closing .brace =>
      if depth ≤ 1 then p.pass .top (surveying.recordAll ((c.finish (.body brace t)).entries site))
      else p.pass (.body site c brace (depth - 1)) surveying
    | _ => p.pass (.body site c brace depth) surveying

/-- On the way to a place from which reading can start again, at the token `t`. -/
def recovering (p : Parsing) (depth : Nat) (t : Token) : Outcome :=
  .after (p.surveying.follow [t]) fun surveying =>
    match t.kind with
    | .eof => p.stay .top surveying
    | .punct .semi => p.pass (if depth = 0 then .top else .recovering depth) surveying
    | .opening .brace => p.pass (.recovering (depth + 1)) surveying
    | .closing .brace => p.pass (if depth ≤ 1 then .top else .recovering (depth - 1)) surveying
    | _ => p.pass (.recovering depth) surveying

/-- One iteration of the loop that is running. -/
def step? (source : List Char) (markers : Bool) (tokens : List Token) (p : Parsing) : Option Outcome := do
  let t ← token? tokens p.pos
  match p.loop with
  | .top => p.top? source markers tokens t
  | .collecting site first c => some (p.collecting markers site first c t)
  | .body site c brace depth => some (p.body site c brace depth t)
  | .recovering depth => some (p.recovering depth t)

/-- Some iterations, or fewer if the parser ends before. -/
def run? (source : List Char) (markers : Bool) (tokens : List Token) : Nat → Parsing → Option Outcome
  | 0, p => some (.goesOn p)
  | n + 1, p => do
    match ← p.step? source markers tokens with
    | .goesOn p => run? source markers tokens n p
    | .ends answer => some (.ends answer)

end Parsing

/-! ### The position -/

/-- The only token that ends a text is its last, at the position `stop`. -/
structure EndsAt (tokens : List Token) (stop : Nat) : Prop where
  split : ∃ body last, tokens = body ++ [last] ∧ body.length = stop ∧ last.kind = .eof ∧ ∀ t ∈ body, t.kind ≠ .eof

theorem EndsAt.remains {tokens : List Token} {stop i : Nat} (h : EndsAt tokens stop) (hi : i ≤ stop) :
    ∃ t ts, Remains tokens i (t :: ts) ∧ (t.kind = .eof ↔ i = stop) := by
  obtain ⟨body, last, rfl, rfl, hlast, hbody⟩ := h.split
  have hwhole : Remains (body ++ [last]) 0 (body.take i ++ (body.drop i ++ [last])) := by
    rw [← List.append_assoc, List.take_append_drop]
    exact ⟨⟨[], rfl, rfl⟩, body, last, rfl, hlast⟩
  have hbehind := hwhole.behind fun t ht => hbody t (List.mem_of_mem_take ht)
  rw [List.length_take_of_le hi, Nat.zero_add] at hbehind
  cases hdrop : body.drop i with
  | nil =>
    rw [hdrop] at hbehind
    exact ⟨last, [], hbehind, iff_of_true hlast (Nat.le_antisymm hi (List.drop_eq_nil_iff.1 hdrop))⟩
  | cons t ts =>
    rw [hdrop] at hbehind
    refine ⟨t, ts ++ [last], hbehind, iff_of_false (hbody t ?_) ?_⟩
    · exact List.mem_of_mem_drop (hdrop ▸ List.mem_cons_self)
    · rintro rfl
      simp at hdrop

/-- What remains behind some positions is not behind the end. -/
theorem EndsAt.le {tokens ts : List Token} {stop i : Nat} (h : EndsAt tokens stop) (hremains : Remains tokens i ts) : i ≤ stop := by
  obtain ⟨body, last, rfl, rfl, -, -⟩ := h.split
  have hlength := hremains.length
  have hpos := List.length_pos_iff.2 hremains.ne_nil
  simp only [List.length_append, List.length_singleton] at hlength
  omega

/-- What an iteration may do to the position, where the text ends at the position `stop`. -/
inductive Iteration (stop : Nat) (p p' : Parsing) : Prop
  | forward (advances : p.pos < p'.pos) (within : p'.pos ≤ stop)
  /-- A loop is entered from the one at top level. -/
  | enters (top : p.loop.phase = .top) (inner : p'.loop.phase ≠ .top) (still : p'.pos = p.pos) (before : p.pos < stop)
  /-- The position goes back to the brace that it stood at. -/
  | back (collecting : p.loop.phase = .collecting) (recovering : p'.loop.phase = .recovering) (still : p'.pos = p.pos)
      (before : p.pos < stop)
  /-- A loop returns where the text ends. -/
  | returns (inner : p.loop.phase ≠ .top) (top : p'.loop.phase = .top) (still : p'.pos = p.pos) (atEnd : p.pos = stop)

theorem Outcome.after_eq_goesOn_iff {followed : Except (List Diagnostic) Surveying} {next : Surveying → Parsing} {p : Parsing} :
    Outcome.after followed next = .goesOn p ↔ ∃ surveying, followed = .ok surveying ∧ next surveying = p := by
  cases followed <;> simp [Outcome.after]

namespace Iteration

variable {stop : Nat} {p p' : Parsing}

theorem pass (hp : p.pos < stop) (loop : Loop) (surveying : Surveying) : Iteration stop p (p.pass loop surveying) :=
  .forward (Nat.lt_succ_self _) hp

theorem within (h : Iteration stop p p') (hp : p.pos ≤ stop) : p'.pos ≤ stop := by
  cases h with
  | forward _ within => exact within
  | enters _ _ still | back _ _ still | returns _ _ still => rwa [still]

theorem monotone (h : Iteration stop p p') : p.pos ≤ p'.pos := by
  cases h with
  | forward advances => exact Nat.le_of_lt advances
  | enters _ _ still | back _ _ still | returns _ _ still => exact still.ge

/-- A loop that goes on takes the position forward. -/
theorem advances (h : Iteration stop p p') (hphase : p'.loop.phase = p.loop.phase) : p.pos < p'.pos := by
  cases h with
  | forward advances => exact advances
  | enters top inner => exact absurd (hphase.trans top) inner
  | back collecting recovering => simp [collecting, recovering] at hphase
  | returns inner top => exact absurd (hphase.symm.trans top) inner

end Iteration

section Step

variable {source : List Char} {markers : Bool} {tokens ts : List Token} {stop : Nat} {p p' : Parsing} {t : Token}

theorem iteration_top (h : EndsAt tokens stop) (hremains : Remains tokens p.pos (t :: ts)) (heof : t.kind = .eof ↔ p.pos = stop)
    (hloop : p.loop = .top) :
    ∃ outcome, p.top? source markers tokens t = some outcome ∧ ∀ p', outcome = .goesOn p' → Iteration stop p p' := by
  have hle := h.le hremains
  unfold Parsing.top?
  split
  case h_1 => exact ⟨_, rfl, by simp⟩
  case h_2 directive hkind =>
    refine ⟨_, rfl, fun p' hp' => ?_⟩
    obtain ⟨surveying, -, rfl⟩ := Outcome.after_eq_goesOn_iff.1 hp'
    have hne : p.pos ≠ stop := fun hstop => by simp [heof.2 hstop] at hkind
    exact .pass (by omega) _ _
  case h_3 hnot _ =>
    have hne : p.pos < stop := Nat.lt_of_le_of_ne hle fun hstop => hnot (heof.2 hstop)
    rw [skipped?_eq hremains hnot]
    simp only [Option.bind_eq_bind, Option.bind_some]
    cases hskipped : Outline.skipped? p.linkage t ts with
    | some found =>
      obtain ⟨n, linkage⟩ := found
      obtain ⟨hbetween, hrest⟩ := hremains.skipped hnot hskipped
      simp only [Option.map_some, follow?_eq hbetween, Option.bind_some]
      refine ⟨_, rfl, fun p' hp' => ?_⟩
      obtain ⟨surveying, -, rfl⟩ := Outcome.after_eq_goesOn_iff.1 hp'
      exact .forward (by simp; omega) (h.le hrest)
    | none =>
      simp only [Option.map_none]
      split_ifs with hstart
      · refine ⟨_, rfl, ?_⟩
        rintro p' ⟨⟩
        exact .enters (by rw [hloop]; rfl) (by simp [Parsing.stay, Loop.phase]) rfl hne
      · refine ⟨_, rfl, ?_⟩
        rintro p' ⟨⟩
        exact .enters (by rw [hloop]; rfl) (by simp [Parsing.stay, Loop.phase]) rfl hne

theorem iteration_collecting {site : Site} {first : Token} {c : Collected} (hle : p.pos ≤ stop)
    (heof : t.kind = .eof ↔ p.pos = stop) (hloop : p.loop = .collecting site first c)
    (hp' : p.collecting markers site first c t = .goesOn p') : Iteration stop p p' := by
  obtain ⟨surveying, -, rfl⟩ := Outcome.after_eq_goesOn_iff.1 hp'
  have hphase : p.loop.phase = .collecting := by rw [hloop]; rfl
  have hlt (hverdict : c.verdict markers t ≠ .endOfText) : p.pos < stop :=
    Nat.lt_of_le_of_ne hle fun hstop => hverdict (Collected.verdict_eq_endOfText_iff.2 (heof.2 hstop))
  cases hverdict : c.verdict markers t with
  | goOn | ends | body | unbalanced => exact .pass (hlt (by simp [hverdict])) _ _
  | unexpected => exact .back hphase rfl rfl (hlt (by simp [hverdict]))
  | endOfText =>
    exact .returns (by simp [hphase]) rfl rfl (heof.1 (Collected.verdict_eq_endOfText_iff.1 hverdict))

theorem iteration_body {site : Site} {c : Collected} {brace : Token} {depth : Nat} (hle : p.pos ≤ stop)
    (heof : t.kind = .eof ↔ p.pos = stop) (hloop : p.loop = .body site c brace depth)
    (hp' : p.body site c brace depth t = .goesOn p') : Iteration stop p p' := by
  obtain ⟨surveying, -, rfl⟩ := Outcome.after_eq_goesOn_iff.1 hp'
  have hphase : p.loop.phase = .body := by rw [hloop]; rfl
  have hlt (hkind : t.kind ≠ .eof) : p.pos < stop := Nat.lt_of_le_of_ne hle fun hstop => hkind (heof.2 hstop)
  split
  case h_1 hkind => exact .returns (by simp [hphase]) rfl rfl (heof.1 hkind)
  case h_2 hkind => exact .pass (hlt (by simp [hkind])) _ _
  case h_3 hkind => split_ifs <;> exact .pass (hlt (by simp [hkind])) _ _
  case h_4 hkind _ _ => exact .pass (hlt hkind) _ _

theorem iteration_recovering {depth : Nat} (hle : p.pos ≤ stop) (heof : t.kind = .eof ↔ p.pos = stop)
    (hloop : p.loop = .recovering depth) (hp' : p.recovering depth t = .goesOn p') : Iteration stop p p' := by
  obtain ⟨surveying, -, rfl⟩ := Outcome.after_eq_goesOn_iff.1 hp'
  have hphase : p.loop.phase = .recovering := by rw [hloop]; rfl
  have hlt (hkind : t.kind ≠ .eof) : p.pos < stop := Nat.lt_of_le_of_ne hle fun hstop => hkind (heof.2 hstop)
  split
  case h_1 hkind => exact .returns (by simp [hphase]) rfl rfl (heof.1 hkind)
  case h_2 hkind | h_3 hkind | h_4 hkind => exact .pass (hlt (by simp [hkind])) _ _
  case h_5 hkind _ _ _ => exact .pass (hlt hkind) _ _

/-- Up to the end of the text every iteration comes to something, and it moves the position as an iteration may. -/
theorem iteration_of_step? (h : EndsAt tokens stop) (hp : p.pos ≤ stop) :
    ∃ outcome, p.step? source markers tokens = some outcome ∧ ∀ p', outcome = .goesOn p' → Iteration stop p p' := by
  obtain ⟨t, ts, hremains, heof⟩ := h.remains hp
  rw [Parsing.step?, hremains.shows.1]
  simp only [Option.bind_eq_bind, Option.bind_some]
  cases hloop : p.loop with
  | top => exact iteration_top h hremains heof hloop
  | collecting => exact ⟨_, rfl, fun p' hp' => iteration_collecting hp heof hloop hp'⟩
  | body => exact ⟨_, rfl, fun p' hp' => iteration_body hp heof hloop hp'⟩
  | recovering => exact ⟨_, rfl, fun p' hp' => iteration_recovering hp heof hloop hp'⟩

end Step

/-! ### Runs -/

/-- More of the iterations that leave the position where it is are left to a loop with a higher rank. -/
def Phase.rank : Phase → Nat
  | top => 3
  | collecting => 2
  | body | recovering => 1

/-- A bound of the iterations that are left before the one that ends the parser. -/
def Parsing.rank (stop : Nat) (p : Parsing) : Nat :=
  if p.pos = stop ∧ p.loop.phase = .top then 0 else 3 * (stop - p.pos) + p.loop.phase.rank

theorem Phase.one_le_rank (phase : Phase) : 1 ≤ phase.rank := by
  cases phase <;> decide

theorem Phase.rank_le (phase : Phase) : phase.rank ≤ 3 := by
  cases phase <;> decide

theorem Parsing.rank_of_lt {stop : Nat} {p : Parsing} (hp : p.pos < stop) :
    p.rank stop = 3 * (stop - p.pos) + p.loop.phase.rank :=
  if_neg fun h => absurd h.1 (Nat.ne_of_lt hp)

theorem Parsing.rank_le (stop : Nat) (p : Parsing) : p.rank stop ≤ 3 * (stop - p.pos) + 3 := by
  have hthree := p.loop.phase.rank_le
  unfold rank
  split_ifs <;> omega

theorem Iteration.rank_lt {stop : Nat} {p p' : Parsing} (h : Iteration stop p p') : p'.rank stop < p.rank stop := by
  cases h with
  | forward advances within =>
    have hone := p.loop.phase.one_le_rank
    have hrank' := p'.rank_le stop
    rw [Parsing.rank_of_lt (lt_of_lt_of_le advances within)]
    omega
  | enters top inner still before =>
    have hinner : p'.loop.phase.rank < 3 := by cases hphase : p'.loop.phase <;> simp_all [Phase.rank]
    rw [Parsing.rank_of_lt before, Parsing.rank_of_lt (still ▸ before), still, top]
    exact Nat.add_lt_add_left hinner _
  | back collecting recovering still before =>
    rw [Parsing.rank_of_lt before, Parsing.rank_of_lt (still ▸ before), still, collecting, recovering]
    exact Nat.lt_succ_self _
  | returns inner top still atEnd =>
    have hone := p.loop.phase.one_le_rank
    rw [Parsing.rank, if_pos ⟨still.trans atEnd, top⟩, Parsing.rank, if_neg fun h => inner h.2]
    omega

section Run

variable {source : List Char} {markers : Bool} {tokens : List Token} {stop n : Nat} {p p' : Parsing}
  {answer : Except (List Diagnostic) Survey}

/-- What every iteration keeps holds behind all of them. -/
theorem Parsing.run?_keeps {P : Parsing → Prop} (hstep : ∀ {p p'}, P p → p.step? source markers tokens = some (.goesOn p') → P p')
    (hp : P p) (hrun : run? source markers tokens n p = some (.goesOn p')) : P p' := by
  induction n generalizing p with
  | zero =>
    cases hrun
    exact hp
  | succ n ih =>
    rw [run?] at hrun
    obtain ⟨outcome, houtcome, hrest⟩ := Option.bind_eq_some_iff.1 hrun
    cases outcome with
    | goesOn q => exact ih (hstep hp houtcome) hrest
    | ends answer => cases hrest

theorem EndsAt.iteration (h : EndsAt tokens stop) (hp : p.pos ≤ stop)
    (hstep : p.step? source markers tokens = some (.goesOn p')) : Iteration stop p p' := by
  obtain ⟨outcome, houtcome, hiteration⟩ := iteration_of_step? h hp
  rw [houtcome] at hstep
  exact hiteration p' (Option.some.inj hstep)

theorem EndsAt.run?_within (h : EndsAt tokens stop) (hp : p.pos ≤ stop)
    (hrun : p.run? source markers tokens n = some (.goesOn p')) : p'.pos ≤ stop :=
  Parsing.run?_keeps (fun hp hstep => (h.iteration hp hstep).within hp) hp hrun

/-- In a turn of the loop at top level that began at the position `start`. Until the position has gone forward, another
loop is running before the end of the text, so it cannot return. -/
structure InTurn (stop start : Nat) (p : Parsing) : Prop where
  within : p.pos ≤ stop
  place : start < p.pos ∨ p.pos = start ∧ p.loop.phase ≠ .top ∧ start < stop

theorem Iteration.inTurn (h : Iteration stop p p') (hp : p.pos ≤ stop) (htop : p.loop.phase = .top) : InTurn stop p.pos p' := by
  refine ⟨h.within hp, ?_⟩
  cases h with
  | forward advances => exact .inl advances
  | enters _ inner still before => exact .inr ⟨still, inner, before⟩
  | back collecting => simp [htop] at collecting
  | returns inner => exact absurd htop inner

theorem InTurn.next {start : Nat} (h : InTurn stop start p) (hnext : Iteration stop p p') : InTurn stop start p' := by
  refine ⟨hnext.within h.within, ?_⟩
  obtain hadvanced | ⟨hstill, hinner, hbefore⟩ := h.place
  · exact .inl (lt_of_lt_of_le hadvanced hnext.monotone)
  · cases hnext with
    | forward advances => exact .inl (hstill ▸ advances)
    | enters top => exact absurd top hinner
    | back _ recovering still => exact .inr ⟨still.trans hstill, by simp [recovering], hbefore⟩
    | returns _ _ _ atEnd => omega

/-- A turn of the loop at top level takes the position forward, whatever runs in between. -/
theorem EndsAt.turn_advances (h : EndsAt tokens stop) (hp : p.pos ≤ stop) (htop : p.loop.phase = .top)
    (hrun : p.run? source markers tokens (n + 1) = some (.goesOn p')) (htop' : p'.loop.phase = .top) : p.pos < p'.pos := by
  rw [Parsing.run?] at hrun
  obtain ⟨outcome, hstep, hrest⟩ := Option.bind_eq_some_iff.1 hrun
  cases outcome with
  | ends answer => cases hrest
  | goesOn q =>
    have hfirst : InTurn stop p.pos q := (h.iteration hp hstep).inTurn hp htop
    have hlast : InTurn stop p.pos p' :=
      Parsing.run?_keeps (fun hq hstep => hq.next (h.iteration hq.within hstep)) hfirst hrest
    obtain hadvanced | ⟨-, hinner, -⟩ := hlast.place
    · exact hadvanced
    · exact absurd htop' hinner

/-- Since every iteration lowers the rank, the parser ends. -/
theorem EndsAt.run?_ends (h : EndsAt tokens stop) (hp : p.pos ≤ stop) :
    ∃ n ≤ p.rank stop + 1, ∃ answer, p.run? source markers tokens n = some (.ends answer) := by
  induction hrank : p.rank stop using Nat.strong_induction_on generalizing p with
  | _ rank ih =>
    obtain ⟨outcome, hstep, hiteration⟩ := @iteration_of_step? source markers _ _ _ h hp
    cases outcome with
    | ends answer =>
      refine ⟨1, by omega, answer, ?_⟩
      rw [Parsing.run?, hstep]
      rfl
    | goesOn q =>
      have hmoves := hiteration q rfl
      have hlt := hmoves.rank_lt
      obtain ⟨n, hn, answer, hrun⟩ := ih (q.rank stop) (hrank ▸ hlt) (hmoves.within hp) rfl
      refine ⟨n + 1, by omega, answer, ?_⟩
      rw [Parsing.run?, hstep]
      exact hrun

/-- Behind its end, a parser does nothing more. -/
theorem Parsing.run?_of_le {m : Nat} (hle : n ≤ m) (hrun : p.run? source markers tokens n = some (.ends answer)) :
    p.run? source markers tokens m = some (.ends answer) := by
  induction n generalizing p m with
  | zero => cases hrun
  | succ n ih =>
    obtain ⟨m, rfl⟩ := Nat.exists_eq_add_one_of_ne_zero (show m ≠ 0 by omega)
    rw [run?] at hrun ⊢
    obtain ⟨outcome, hstep, hrest⟩ := Option.bind_eq_some_iff.1 hrun
    rw [hstep]
    cases outcome with
    | ends => exact hrest
    | goesOn q => exact ih (Nat.le_of_succ_le_succ hle) hrest

/-- Three steps a token and one more are enough from every position. -/
theorem EndsAt.exists_answer (h : EndsAt tokens stop) (hp : p.pos ≤ stop) :
    ∃ answer, p.run? source markers tokens (3 * tokens.length + 1) = some (.ends answer) := by
  obtain ⟨n, hn, answer, hrun⟩ := @EndsAt.run?_ends source markers _ _ _ h hp
  refine ⟨answer, Parsing.run?_of_le ?_ hrun⟩
  have hrank := p.rank_le stop
  obtain ⟨body, last, rfl, rfl, -, -⟩ := h.split
  simp only [List.length_append, List.length_singleton]
  omega

end Run

/-- The tokens of a text are of this kind. -/
theorem endsAt_of_tokenize {source : String} {tokens : List Token} (h : tokenize source = .ok tokens) :
    EndsAt tokens (tokens.length - 1) := by
  obtain ⟨body, last, rfl, hlast, hbody, -⟩ := tokenized_of_tokenize h
  exact ⟨body, last, rfl, by simp, hlast, hbody⟩

end CHeader.Checked
