import CHeader.Proofs.Checked.Iterations

/-!
# The end of a parser

Each loop of the parser takes in what the `Outline` takes off the tokens that remain: the tokens up to a place from which
reading can start again (`leads_recovering`), a body (`leads_body`), a construct (`leads_collecting`). Put together, the
iterations come to the survey of the text (`leads_survey`), within three steps a token and one more (`parsing_goes_on`).
-/

namespace CHeader

namespace Surveying

variable {t : Token}

theorem follow_append (s : Surveying) (first rest : List Token) :
    s.follow (first ++ rest) = s.follow first >>= fun s => s.follow rest := by
  simp only [follow, Tracker.passAll_append]
  cases s.tracker.passAll first <;> rfl

@[simp] theorem follow_nil (s : Surveying) : s.follow [] = .ok s := rfl

theorem follow_of_directive?_eq_none (h : t.directive? = none) (s : Surveying) : s.follow [t] = .ok s := by
  rw [follow, Tracker.passAll_singleton, Tracker.pass_of_directive?_eq_none h]

theorem follow_cons_of_directive?_eq_none (h : t.directive? = none) (s : Surveying) (ts : List Token) :
    s.follow (t :: ts) = s.follow ts := by
  rw [← List.singleton_append, follow_append, follow_of_directive?_eq_none h]
  rfl

end Surveying

/-- The tokens of a run that are taken in before its fault is found. -/
def Item.front : Item → List Token
  | directive token => [token]
  | skipped tokens => tokens
  | construct tokens _ => tokens
  | malformed before _ _ => before

/-- A run fails where the conditionals at its front do. -/
theorem Surveying.step_of_follow_eq_error {source : List Char} {markers : Bool} {s : Surveying} {item : Item}
    {front : List Token} {errors : List Diagnostic} (hfront : front <+: item.front) (h : s.follow front = .error errors) :
    s.step source markers item = .error errors := by
  obtain ⟨rest, hrest⟩ := hfront
  have herror : s.follow item.front = .error errors := by
    rw [← hrest, follow_append, h]
    rfl
  cases item with
  | skipped => exact herror
  | directive | construct | malformed =>
    simp only [Item.front] at herror
    simp only [step, herror]
    rfl

namespace Outline

open Collected

variable {markers : Bool} {first : Token} {c : Collected} {ts : List Token}

/-- What is met of a construct is at the front of the run that it makes. -/
theorem prefix_front_of_collect : c.met.reverse <+: (collect markers first c ts).1.front := by
  induction ts generalizing c with
  | nil => exact List.prefix_rfl
  | cons t ts ih =>
    rw [collect_cons]
    cases hverdict : c.verdict markers t with
    | goOn c' =>
      have hmet := (grows_of_verdict hverdict).met
      refine List.IsPrefix.trans ?_ ih
      rw [hmet, List.reverse_cons]
      exact List.prefix_append _ _
    | ends =>
      simp only [stop, Item.front, List.reverse_cons]
      exact List.prefix_append _ _
    | body =>
      simp only [stop, function]
      split <;> exact List.prefix_append _ _
    | unexpected | unbalanced | endOfText => exact List.prefix_rfl

/-- A token that does not go on with a construct is no directive. -/
theorem directive?_of_verdict {t : Token} (h : ∀ c', c.verdict markers t ≠ .goOn c') : t.directive? = none := by
  cases hkind : t.kind with
  | directive d => exact absurd (show c.verdict markers t = .goOn (c.pass t) by simp only [verdict, hkind]) (h _)
  | _ => simp [Token.directive?, hkind]

/-- A construct begins with the token that it is to begin with. -/
theorem verdict_of_canStartDeclaration (h : first.kind.canStartDeclaration = true) :
    verdict markers { met := [], tokens := [] } first = .goOn (start first) := by
  unfold TokenKind.canStartDeclaration at h
  unfold verdict
  split at h <;> simp_all [add, start]

end Outline

namespace Checked

open Outline (Collected openBraces recovery untilEnd)

variable {source : List Char} {markers : Bool} {tokens ts : List Token} {i linkage depth : Nat} {t first brace : Token}
  {p q : Parsing} {s start : Surveying} {site : Site} {c : Collected}

theorem Outcome.after_map (followed : Except (List Diagnostic) Surveying) (f : Surveying → Surveying)
    (next : Surveying → Parsing) : Outcome.after (followed >>= fun s => .ok (f s)) next = .after followed fun s => next (f s) := by
  cases followed <;> rfl

/-- Some iterations come to an outcome. -/
def Leads (source : List Char) (markers : Bool) (tokens : List Token) (p : Parsing) (outcome : Outcome) : Prop :=
  ∃ n, p.run? source markers tokens n = some outcome

namespace Leads

variable {outcome : Outcome} {followed : Except (List Diagnostic) Surveying} {next next' : Surveying → Parsing}

theorem of_step? (h : p.step? source markers tokens = some outcome) : Leads source markers tokens p outcome := by
  refine ⟨1, ?_⟩
  rw [Parsing.run?, h]
  cases outcome <;> rfl

theorem trans (h : Leads source markers tokens p (.goesOn q)) (hq : Leads source markers tokens q outcome) :
    Leads source markers tokens p outcome := by
  obtain ⟨n, hn⟩ := h
  obtain ⟨m, hm⟩ := hq
  induction n generalizing p with
  | zero =>
    cases hn
    exact ⟨m, hm⟩
  | succ n ih =>
    rw [Parsing.run?] at hn
    obtain ⟨between, hstep, hn⟩ := Option.bind_eq_some_iff.1 hn
    cases between with
    | ends => cases hn
    | goesOn between =>
      obtain ⟨k, hk⟩ := ih hn
      refine ⟨k + 1, ?_⟩
      rw [Parsing.run?, hstep]
      exact hk

/-- Behind what is followed goes what is followed next. -/
theorem after {more : Surveying → Except (List Diagnostic) Surveying} (h : Leads source markers tokens p (.after followed next))
    (hnext : ∀ s, followed = .ok s → Leads source markers tokens (next s) (.after (more s) next')) :
    Leads source markers tokens p (.after (followed >>= more) next') := by
  cases followed with
  | error errors => exact h
  | ok s => exact trans h (hnext s rfl)

/-- Behind what is followed the parser ends. -/
theorem ends {answer : Surveying → Except (List Diagnostic) Survey} (h : Leads source markers tokens p (.after followed next))
    (hnext : ∀ s, followed = .ok s → Leads source markers tokens (next s) (.ends (answer s))) :
    Leads source markers tokens p (.ends (followed >>= answer)) := by
  cases followed with
  | error errors => exact h
  | ok s => exact trans h (hnext s rfl)

/-- A loop that passes the first of some tokens, and then takes in the others. `record` is what it says at their end. -/
theorem pass {loop loop' : Loop} {record : Surveying → Surveying}
    (hstep : Parsing.step? source markers tokens ⟨loop, i, linkage, s⟩ =
      some (.after (s.follow [t]) fun s => ⟨loop', i + 1, linkage, s⟩))
    (hnext : ∀ s, Leads source markers tokens ⟨loop', i + 1, linkage, s⟩
      (.after (s.follow ts) fun s => ⟨.top, i + 1 + ts.length, linkage, record s⟩)) :
    Leads source markers tokens ⟨loop, i, linkage, s⟩
      (.after (s.follow (t :: ts)) fun s => ⟨.top, i + (t :: ts).length, linkage, record s⟩) := by
  rw [add_length_cons, ← List.singleton_append, Surveying.follow_append]
  exact (of_step? hstep).after fun s _ => hnext s

/-- One iteration on the way to a place from which reading can start again. -/
theorem recovering (hremains : Remains tokens i (t :: ts)) (depth : Nat) (s : Surveying) :
    Leads source markers tokens ⟨.recovering depth, i, linkage, s⟩
      (Parsing.recovering ⟨.recovering depth, i, linkage, s⟩ depth t) :=
  of_step? (by simp [Parsing.step?, hremains.shows.1])

/-- One iteration in a body. -/
theorem body (hremains : Remains tokens i (t :: ts)) (depth : Nat) (s : Surveying) :
    Leads source markers tokens ⟨.body site c brace depth, i, linkage, s⟩
      (Parsing.body ⟨.body site c brace depth, i, linkage, s⟩ site c brace depth t) :=
  of_step? (by simp [Parsing.step?, hremains.shows.1])

/-- One iteration in a construct. -/
theorem collecting (hremains : Remains tokens i (t :: ts)) (s : Surveying) :
    Leads source markers tokens ⟨.collecting site first c, i, linkage, s⟩
      (Parsing.collecting markers ⟨.collecting site first c, i, linkage, s⟩ site first c t) :=
  of_step? (by simp [Parsing.step?, hremains.shows.1])

end Leads

/-- The position behind some of the tokens that remain. -/
theorem Remains.place_drop {front : List Token} (h : Remains tokens i ts) (hfront : front <+: ts) :
    tokens.length - (ts.drop front.length).length = i + front.length := by
  have hlength := h.length
  have hle := hfront.length_le
  rw [List.length_drop]
  omega

/-! ### Inner loops -/

theorem leads_recovering (hremains : Remains tokens i ts) :
    Leads source markers tokens ⟨.recovering depth, i, linkage, s⟩
      (.after (s.follow (recovery depth ts)) fun s => ⟨.top, i + (recovery depth ts).length, linkage, s⟩) := by
  fun_induction recovery depth ts generalizing i s with
  | case1 => exact absurd rfl hremains.ne_nil
  | case2 depth t ts hkind =>
    have hfirst := @Leads.recovering source markers _ _ _ linkage _ hremains depth s
    simpa [Parsing.recovering, hkind, Surveying.follow_of_directive?_eq_none, Token.directive?] using hfirst
  | case3 t ts hkind =>
    have hfirst := @Leads.recovering source markers _ _ _ linkage _ hremains 0 s
    simpa [Parsing.recovering, hkind] using hfirst
  | case6 depth t ts hkind hdepth =>
    have hfirst := @Leads.recovering source markers _ _ _ linkage _ hremains depth s
    simpa [Parsing.recovering, hkind, hdepth] using hfirst
  | case4 depth t ts hkind hdepth ih | case7 depth t ts hkind hdepth ih =>
    exact .pass (by simp [Parsing.step?, hremains.shows.1, Parsing.recovering, hkind, hdepth])
      fun s => ih (hremains.next (by simp [hkind]))
  | case5 depth t ts hkind ih =>
    exact .pass (by simp [Parsing.step?, hremains.shows.1, Parsing.recovering, hkind])
      fun s => ih (hremains.next (by simp [hkind]))
  | case8 depth t ts heof hsemi hopening hclosing ih =>
    exact .pass (by simp [Parsing.step?, hremains.shows.1, Parsing.recovering]) fun s => ih (hremains.next heof)

/-- The tokens taken in before a body is found to end, or not to. -/
def bodyTaken (ts : List Token) : Option (List Token × Token) → List Token
  | some (inside, close) => inside ++ [close]
  | none => untilEnd ts

/-- What a function says with its body, or without an end of it. -/
def bodyEntries (site : Site) (c : Collected) (brace : Token) : Option (List Token × Token) → List Entry
  | some (_, close) => (c.finish (.body brace close)).entries site
  | none => [.issue (.ofIssue (.bodyNeverClosed brace.line) brace)]

theorem bodyTaken_cons (ht : t.kind ≠ .eof) (found : Option (List Token × Token)) :
    bodyTaken (t :: ts) (found.map fun (inside, close) => (t :: inside, close)) = t :: bodyTaken ts found := by
  cases found with
  | none => exact Outline.untilEnd_cons ht
  | some => rfl

theorem bodyEntries_cons (found : Option (List Token × Token)) :
    bodyEntries site c brace (found.map fun (inside, close) => (t :: inside, close)) = bodyEntries site c brace found := by
  cases found <;> rfl

theorem prefix_bodyTaken (depth : Nat) (ts : List Token) : bodyTaken ts (Outline.body? depth ts) <+: ts := by
  cases hbody : Outline.body? depth ts with
  | none => exact Outline.untilEnd_prefix ts
  | some found =>
    obtain ⟨rest, rfl⟩ := (Outline.eq_append_of_body? hbody).1
    exact ⟨rest, by simp [bodyTaken]⟩

/-- What a function adds to the survey, and what it leaves of the text. -/
theorem step_function (hmet : start.follow c.met.reverse = .ok s) (hbrace : brace.directive? = none)
    (hsite : site = ⟨source, markers, start.tracker.guardPath, start.tracker.interfaceBlock⟩) (ts : List Token) :
    start.step source markers (Outline.function c brace ts).1 =
        (s.follow (bodyTaken ts (Outline.body? 0 ts)) >>= fun s => .ok (s.recordAll (bodyEntries site c brace (Outline.body? 0 ts)))) ∧
      (Outline.function c brace ts).2 = ts.drop (bodyTaken ts (Outline.body? 0 ts)).length := by
  have hfollow (inside : List Token) : start.follow (c.met.reverse ++ brace :: inside) = s.follow inside := by
    rw [Surveying.follow_append, hmet]
    exact Surveying.follow_cons_of_directive?_eq_none hbrace s inside
  rw [Outline.function]
  cases Outline.body? 0 ts with
  | none =>
    simp only [Surveying.step, hfollow, bodyTaken]
    exact ⟨rfl, trivial⟩
  | some found =>
    subst hsite
    simp only [Surveying.step, hfollow, bodyTaken, List.length_append, List.length_singleton]
    exact ⟨rfl, trivial⟩

theorem leads_body (hremains : Remains tokens i ts) :
    Leads source markers tokens ⟨.body site c brace (depth + 1), i, linkage, s⟩
      (.after (s.follow (bodyTaken ts (Outline.body? depth ts))) fun s =>
        ⟨.top, i + (bodyTaken ts (Outline.body? depth ts)).length, linkage,
          s.recordAll (bodyEntries site c brace (Outline.body? depth ts))⟩) := by
  fun_induction Outline.body? depth ts generalizing i s with
  | case1 => exact absurd rfl hremains.ne_nil
  | case2 depth t ts hkind =>
    have hfirst := @Leads.body source markers _ _ _ linkage _ brace site c hremains (depth + 1) s
    simpa [Parsing.body, hkind, Surveying.follow_of_directive?_eq_none, Token.directive?, bodyTaken, bodyEntries,
      Outline.untilEnd_cons_eof] using hfirst
  | case3 depth t ts inside hkind =>
    rename_i ih
    have ht : t.kind ≠ .eof := by simp [hkind]
    rw [bodyTaken_cons ht, bodyEntries_cons]
    exact .pass (by simp [Parsing.step?, hremains.shows.1, Parsing.body, hkind]) fun s => ih (depth + 1) (hremains.next ht)
  | case4 t ts hkind =>
    have hfirst := @Leads.body source markers _ _ _ linkage _ brace site c hremains 1 s
    simpa [Parsing.body, hkind, bodyTaken, bodyEntries] using hfirst
  | case5 depth t ts inside hkind hdepth =>
    rename_i ih
    have ht : t.kind ≠ .eof := by simp [hkind]
    obtain ⟨outer, rfl⟩ := Nat.exists_eq_add_one_of_ne_zero hdepth
    rw [bodyTaken_cons ht, bodyEntries_cons]
    exact .pass (by simp [Parsing.step?, hremains.shows.1, Parsing.body, hkind]) fun s => ih outer (hremains.next ht)
  | case6 depth t ts inside heof hopening hclosing =>
    rename_i ih
    rw [bodyTaken_cons heof, bodyEntries_cons]
    exact .pass (by simp [Parsing.step?, hremains.shows.1, Parsing.body]) fun s => ih depth (hremains.next heof)

/-! ### Constructs -/

/-- A construct that a token does not go on with. What was met of it was followed from the state `start` on. -/
theorem leads_stop (hremains : Remains tokens i (t :: ts)) (hmet : start.follow c.met.reverse = .ok s)
    (hsite : site = ⟨source, markers, start.tracker.guardPath, start.tracker.interfaceBlock⟩)
    (hstops : ∀ c', c.verdict markers t ≠ .goOn c') :
    Leads source markers tokens ⟨.collecting site first c, i, linkage, s⟩
      (.after (start.step source markers (c.stop first t ts (c.verdict markers t)).1) fun s =>
        ⟨.top, tokens.length - (c.stop first t ts (c.verdict markers t)).2.length, linkage, s⟩) := by
  have hlength := hremains.length
  rw [add_length_cons] at hlength
  have hplain := Outline.directive?_of_verdict hstops
  have hfollow := Surveying.follow_of_directive?_eq_none hplain s
  have hstep := @Leads.collecting source markers _ _ _ linkage _ first site c hremains s
  simp only [Parsing.collecting, hfollow] at hstep
  cases hverdict : c.verdict markers t with
  | goOn c' => exact absurd hverdict (hstops c')
  | ends =>
    have hall : start.follow (t :: c.met).reverse = .ok s := by
      rw [List.reverse_cons, Surveying.follow_append, hmet]
      exact hfollow
    have hplace : tokens.length - ts.length = i + 1 := by omega
    simp only [hverdict, Parsing.pass_mk] at hstep
    simp only [Collected.stop, Surveying.step, hall, hplace]
    rw [← hsite]
    exact hstep
  | body =>
    have heof : t.kind ≠ .eof := by simp [(Collected.of_verdict_eq_body hverdict).1]
    have hbody := @leads_body source markers _ _ _ linkage 0 t s site c (hremains.next heof)
    obtain ⟨hfunction, hrest⟩ := step_function hmet hplain hsite ts
    have hplace := (hremains.next heof).place_drop (prefix_bodyTaken 0 ts)
    simp only [hverdict, Parsing.pass_mk] at hstep
    simp only [Collected.stop, hfunction, hrest, hplace]
    rw [Outcome.after_map]
    exact hstep.trans hbody
  | unexpected =>
    have hplace := hremains.place_drop (Outline.prefix_recovery 0 (t :: ts))
    simp only [hverdict, Parsing.stay_mk] at hstep
    simp only [Collected.stop, Collected.malformed, Surveying.step, hmet, hplace]
    exact hstep.trans (leads_recovering hremains)
  | unbalanced =>
    have heof : t.kind ≠ .eof := fun heof => by simp [Collected.verdict_eq_endOfText_iff.2 heof] at hverdict
    have hplace := (hremains.next heof).place_drop (Outline.prefix_recovery (openBraces c.opened.tail) ts)
    simp only [hverdict, Parsing.pass_mk] at hstep
    simp only [Collected.stop, Collected.malformed, Surveying.step, hmet, hplace]
    have hrecovering := hstep.trans (leads_recovering (hremains.next heof))
    rwa [← Surveying.follow_cons_of_directive?_eq_none hplain] at hrecovering
  | endOfText =>
    have hplace : tokens.length - (t :: ts).length = i := by
      rw [List.length_cons]
      omega
    simp only [hverdict, Parsing.stay_mk] at hstep
    simp only [Collected.stop, Collected.malformed, Surveying.step, hmet, hplace]
    exact hstep

/-- From its first token on, or from a later one, a construct is collected as from the tokens that remain. -/
theorem leads_collecting (hremains : Remains tokens i ts) (hmet : start.follow c.met.reverse = .ok s)
    (hsite : site = ⟨source, markers, start.tracker.guardPath, start.tracker.interfaceBlock⟩) :
    Leads source markers tokens ⟨.collecting site first c, i, linkage, s⟩
      (.after (start.step source markers (Outline.collect markers first c ts).1) fun s =>
        ⟨.top, tokens.length - (Outline.collect markers first c ts).2.length, linkage, s⟩) := by
  induction ts generalizing i s c with
  | nil => exact absurd rfl hremains.ne_nil
  | cons t ts ih =>
    rw [Outline.collect_cons]
    cases hverdict : c.verdict markers t with
    | goOn c' =>
      have hgrows := Collected.grows_of_verdict hverdict
      have heof : t.kind ≠ .eof := fun heof => by simp [Collected.verdict_eq_endOfText_iff.2 heof] at hverdict
      have hmet' : start.follow c'.met.reverse = s.follow [t] := by
        rw [hgrows.met, List.reverse_cons, Surveying.follow_append, hmet]
        rfl
      have hstep := @Leads.collecting source markers _ _ _ linkage _ first site c hremains s
      simp only [Parsing.collecting, hverdict, Parsing.pass_mk] at hstep
      cases hfollow : s.follow [t] with
      | error errors =>
        rw [hfollow] at hstep hmet'
        simp only [Surveying.step_of_follow_eq_error Outline.prefix_front_of_collect hmet']
        exact hstep
      | ok s' =>
        rw [hfollow] at hstep hmet'
        exact hstep.trans (ih (hremains.next heof) hmet')
    | _ =>
      have hstop := @leads_stop source markers _ _ _ linkage _ first _ _ _ _ hremains hmet hsite (by simp [hverdict])
      rwa [hverdict] at hstop

/-! ### The whole text -/

/-- At top level, the run of a construct that should begin with the token at the position. -/
theorem leads_external (hremains : Remains tokens i (t :: ts)) (heof : t.kind ≠ .eof)
    (hdirective : ∀ directive, t.kind ≠ .directive directive) (hskipped : Outline.skipped? linkage t ts = none) :
    Leads source markers tokens ⟨.top, i, linkage, s⟩
      (.after (s.step source markers (Outline.external markers t ts).1) fun s =>
        ⟨.top, tokens.length - (Outline.external markers t ts).2.length, linkage, s⟩) := by
  let site : Site := ⟨source, markers, s.tracker.guardPath, s.tracker.interfaceBlock⟩
  let fault := Diagnostic.ofIssue (.expectedDeclaration t.kind) t
  have hstep : Parsing.step? source markers tokens ⟨.top, i, linkage, s⟩ =
      some (.goesOn (if t.kind.canStartDeclaration then ⟨.collecting site t { met := [], tokens := [] }, i, linkage, s⟩
        else ⟨.recovering 0, i, linkage, s.recordAll [.issue fault]⟩)) := by
    simp only [Parsing.step?, hremains.shows.1, Option.bind_eq_bind, Option.bind_some]
    unfold Parsing.top?
    split
    case h_1 hkind => exact absurd hkind heof
    case h_2 directive hkind => exact absurd hkind (hdirective directive)
    case h_3 =>
      simp only [skipped?_eq hremains heof, hskipped, Option.bind_eq_bind, Option.bind_some, Option.map_none, Parsing.stay_mk]
      split_ifs <;> rfl
  rw [Outline.external]
  split_ifs at hstep ⊢ with hstart
  · have hcollecting := @leads_collecting source markers _ _ _ linkage t s s site { met := [], tokens := [] } hremains rfl rfl
    rw [Outline.collect_cons, Outline.verdict_of_canStartDeclaration hstart] at hcollecting
    exact (Leads.of_step? hstep).trans hcollecting
  · obtain ⟨behind, hrecovery⟩ := Outline.recovery_cons 0 heof ts
    have hplace : tokens.length - (ts.drop ((recovery 0 (t :: ts)).length - 1)).length = i + (recovery 0 (t :: ts)).length := by
      rw [← hremains.place_drop (Outline.prefix_recovery 0 (t :: ts)), hrecovery]
      rfl
    simp only [Surveying.step, Surveying.follow_nil, hplace]
    exact (Leads.of_step? hstep).trans (leads_recovering hremains)

theorem leads_directive {directive : Directive} (hremains : Remains tokens i (t :: ts)) (hkind : t.kind = .directive directive) :
    Leads source markers tokens ⟨.top, i, linkage, s⟩
      (.after (s.step source markers (.directive t)) fun s => ⟨.top, i + 1, linkage, s⟩) := by
  refine .of_step? ?_
  simp only [Parsing.step?, hremains.shows.1, Option.bind_eq_bind, Option.bind_some, Parsing.top?, hkind]
  rfl

/-- At top level, tokens that say nothing. -/
theorem leads_skipped {n linkage' : Nat} (hremains : Remains tokens i (t :: ts)) (heof : t.kind ≠ .eof)
    (hdirective : ∀ directive, t.kind ≠ .directive directive) (hskipped : Outline.skipped? linkage t ts = some (n, linkage')) :
    Leads source markers tokens ⟨.top, i, linkage, s⟩
      (.after (s.step source markers (.skipped (t :: ts.take n))) fun s => ⟨.top, i + 1 + n, linkage', s⟩) := by
  obtain ⟨hbetween, -⟩ := hremains.skipped heof hskipped
  refine .of_step? ?_
  simp only [Parsing.step?, hremains.shows.1, Option.bind_eq_bind, Option.bind_some]
  unfold Parsing.top?
  split
  case h_1 hkind => exact absurd hkind heof
  case h_2 directive hkind => exact absurd hkind (hdirective directive)
  case h_3 =>
    simp only [skipped?_eq hremains heof, hskipped, Option.bind_eq_bind, Option.bind_some, Option.map_some, follow?_eq hbetween]
    rfl

/-- From any place at top level the parser comes to the survey of what remains. -/
theorem leads_survey (hremains : Remains tokens i ts) :
    Leads source markers tokens ⟨.top, i, linkage, s⟩
      (.ends ((outline markers linkage ts).foldlM (Surveying.step source markers) s >>= Surveying.finish)) := by
  fun_induction outline markers linkage ts generalizing i s with
  | case1 => exact absurd rfl hremains.ne_nil
  | case2 linkage t ts heof =>
    refine .of_step? ?_
    simp only [Parsing.step?, hremains.shows.1, Option.bind_eq_bind, Option.bind_some, Parsing.top?, heof]
    rfl
  | case3 linkage t ts directive hkind ih =>
    rw [List.foldlM_cons, bind_assoc]
    exact (leads_directive hremains hkind).ends fun s _ => ih (hremains.next (by simp [hkind]))
  | case4 linkage t ts n linkage' hskipped heof hdirective ih =>
    obtain ⟨-, hrest⟩ := hremains.skipped heof hskipped
    rw [List.foldlM_cons, bind_assoc]
    exact (leads_skipped hremains heof hdirective hskipped).ends fun s _ => ih hrest
  | case5 linkage t ts hskipped run heof hdirective =>
    rename_i ih
    obtain ⟨item, next, -, -, hrest⟩ := external?_found markers hremains heof
    have hnext : next = tokens.length - (Outline.external markers t ts).2.length := by
      have hlength := hrest.length
      omega
    subst hnext
    rw [List.foldlM_cons, bind_assoc]
    exact (leads_external hremains heof hdirective hskipped).ends fun s _ => ih hrest

/-- A parser always goes on, and never past the end. Where the only token that ends a text is its last, at the position
`stop`, every iteration from a position up to there comes to something and leaves the position there or before; it takes
the position forward, except where it enters a loop, goes back to a brace that nothing asks for, or returns at the end of the
text, and a loop that goes on always takes it forward. Every turn of the loop at top level takes it forward, with all
iterations of the other loops in between. So from everywhere the parser comes to an end, within three steps a token and one
more, and from the start it ends with the survey of the text. -/
theorem parsing_goes_on {markers : Bool} {source : String} {tokens : List Token} {stop : Nat} (h : EndsAt tokens stop) :
    (∀ p : Parsing, p.pos ≤ stop → ∃ outcome, p.step? source.toList markers tokens = some outcome ∧
      ∀ p', outcome = .goesOn p' →
        p'.pos ≤ stop ∧ Iteration stop p p' ∧ (p'.loop.phase = p.loop.phase → p.pos < p'.pos)) ∧
      (∀ (p p' : Parsing) (n : Nat), p.pos ≤ stop → p.run? source.toList markers tokens n = some (.goesOn p') → p'.pos ≤ stop) ∧
      (∀ (p p' : Parsing) (n : Nat), p.pos ≤ stop → p.loop.phase = .top →
        p.run? source.toList markers tokens (n + 1) = some (.goesOn p') → p'.loop.phase = .top → p.pos < p'.pos) ∧
      (∀ p : Parsing, p.pos ≤ stop →
        ∃ answer, p.run? source.toList markers tokens (3 * tokens.length + 1) = some (.ends answer)) ∧
      (Parsing.start markers).run? source.toList markers tokens (3 * tokens.length + 1) =
        some (.ends (survey markers source tokens)) := by
  refine ⟨fun p hp => ?_, fun p p' n => h.run?_within, fun p p' n => h.turn_advances, fun p => h.exists_answer, ?_⟩
  · obtain ⟨outcome, houtcome, hiteration⟩ := iteration_of_step? h hp
    refine ⟨outcome, houtcome, fun p' hp' => ?_⟩
    have hmoves := hiteration p' hp'
    exact ⟨hmoves.within hp, hmoves, hmoves.advances⟩
  · obtain ⟨body, last, rfl, rfl, hlast, -⟩ := h.split
    have hremains : Remains (body ++ [last]) 0 (body ++ [last]) := ⟨⟨[], rfl, rfl⟩, body, last, rfl, hlast⟩
    obtain ⟨n, hn⟩ : Leads source.toList markers (body ++ [last]) (.start markers) (.ends (survey markers source _)) :=
      leads_survey hremains
    obtain ⟨answer, hanswer⟩ := @EndsAt.exists_answer source.toList markers _ _ (.start markers) h (Nat.zero_le _)
    -- Both ends are the end of the longer of the two runs.
    have hlonger := Parsing.run?_of_le (Nat.le_max_left n (3 * (body ++ [last]).length + 1)) hn
    rw [Parsing.run?_of_le (Nat.le_max_right n _) hanswer] at hlonger
    rwa [← Option.some.inj hlonger]

/-- Three ways to stop in the middle of a construct: at a brace that nothing asks for, at a bracket that closes nothing, and
at the end of the text in a body. -/
theorem parsing_goes_on_broken :
    let source := "int a \x7b 1 \x7d\nint b];\nint c;\nint f(void) \x7b"
    ∃ tokens result, tokenize source = .ok tokens ∧
      (Parsing.start true).run? source.toList true tokens 58 = some (.ends (.ok result)) ∧
      result.errors.map (·.cause) =
        [.construct .unexpectedBrace, .construct (.unbalanced (.closing .square)), .construct (.bodyNeverClosed 4)] := by
  intro source
  let tokens := (tokenize source).toOption.getD []
  have htokens : tokenize source = .ok tokens := by decide +kernel
  have hlength : 3 * tokens.length + 1 = 58 := by decide +kernel
  have hcauses : (survey true source tokens).toOption.map (·.errors.map (·.cause)) =
      some [.construct .unexpectedBrace, .construct (.unbalanced (.closing .square)), .construct (.bodyNeverClosed 4)] := by
    decide +kernel
  obtain ⟨-, -, -, -, hends⟩ := @parsing_goes_on true source tokens _ (endsAt_of_tokenize htokens)
  rw [hlength] at hends
  cases hsurvey : survey true source tokens with
  | error errors => simp [hsurvey, Except.toOption] at hcauses
  | ok result =>
    rw [hsurvey] at hends hcauses
    exact ⟨tokens, result, htokens, hends, Option.some.inj hcauses⟩

end Checked

end CHeader
