import CHeader.Proofs.Checked.Collecting

/-!
# The outline by position

The runs of a text, found from position to position with checked look-ups (`outline?`). They are the runs of
`outline`, each by the positions of its parts.
-/

namespace CHeader.Checked

open Outline (Collected)

/-- The position behind the brace of `extern "C" {`, where `extern` stands at position `i`. -/
def linkageEnd? (tokens : List Token) (i : Nat) : Option (Option Nat) := do
  let literal ← nextSignificant? tokens (i + 1)
  let brace ← nextSignificant? tokens (literal + 1)
  let t ← token? tokens literal
  match t.kind with
  | .stringLiteral _ => do
    let u ← token? tokens brace
    some (if u.kind = .opening .brace then some (brace + 1) else none)
  | _ => some none

/-- The position behind the tokens that declare nothing with `t`, which stands at position `i`, and the `extern` blocks
that are open there; none if a construct should begin here. -/
def skipped? (tokens : List Token) (linkage i : Nat) (t : Token) : Option (Option (Nat × Nat)) :=
  match t.kind with
  | .lineComment | .blockComment | .punct .semi => some (some (i + 1, linkage))
  | .closing .brace =>
    if 0 < linkage then do
      let outer ← sub? linkage 1
      some (some (i + 1, outer))
    else some none
  | .keyword .externKw => do
    let stop ← linkageEnd? tokens i
    some (stop.map (·, linkage + 1))
  | _ => some none

/-- The run of a construct that should begin with `t` at position `i`, and the position behind it. -/
def external? (markers : Bool) (tokens : List Token) (i : Nat) (t : Token) : Option (PlacedItem × Nat) :=
  if t.kind.canStartDeclaration then collect? markers tokens i {} i
  else do
    let stop ← recover? tokens 0 i
    some (.malformed i i stop (.ofIssue (.expectedDeclaration t.kind) t), stop)

/-- The runs from position `i` on, inside `linkage` blocks of the form `extern "C" { … }`. -/
def outline? (markers : Bool) (tokens : List Token) (linkage i : Nat) : Option (List PlacedItem) := do
  let t ← token? tokens i
  match t.kind with
  | .eof => some []
  | .directive _ =>
    if _ : i < tokens.length then do
      let behind ← outline? markers tokens linkage (i + 1)
      some (.directive i :: behind)
    else none
  | _ =>
    match ← skipped? tokens linkage i t with
    | some (next, linkage) =>
      if _ : i < tokens.length ∧ i < next then do
        let behind ← outline? markers tokens linkage next
        some (.skipped i next :: behind)
      else none
    | none => do
      let (item, next) ← external? markers tokens i t
      if _ : i < tokens.length ∧ i < next then do
        let behind ← outline? markers tokens linkage next
        some (item :: behind)
      else none
termination_by tokens.length - i

section Outline

variable {tokens ts : List Token} {i linkage : Nat} {t : Token} {markers : Bool}

/-- From its first token on, a construct is collected by position as by tokens. -/
theorem collect?_found (hstart : t.kind.canStartDeclaration = true) (hremains : Remains tokens i (t :: ts)) :
    Found tokens (collect? markers tokens i {} i) (Outline.collect markers t (.start t) ts) := by
  have hempty : Gathered.Stands (token? tokens) i i {} { met := [], tokens := [] } :=
    ⟨trivial, rfl, rfl, .nil, by simp, rfl, rfl, rfl⟩
  have hadd : (Gathered.add {} i).Stands (token? tokens) i (i + 1) (.start t) := hempty.add hremains.shows.1
  have hverdict : Gathered.verdict? markers (token? tokens) {} i t = some (.goOn (Gathered.add {} i)) ∧ t.kind ≠ .eof := by
    unfold TokenKind.canStartDeclaration at hstart
    unfold Gathered.verdict?
    split at hstart <;> simp_all
  have hfound := hadd.collect?_found (Collected.divided_start hstart markers) (Collected.begins_start t) (hremains.next hverdict.2)
  rw [collect?, hremains.shows.1]
  simpa only [Option.bind_eq_bind, Option.bind_some, hverdict.1, dif_pos hremains.lt] using hfound

theorem linkageEnd?_eq (hremains : Remains tokens i (t :: ts)) (ht : t.kind ≠ .eof) :
    linkageEnd? tokens i = some ((Outline.linkageLength? ts).map (i + 1 + ·)) := by
  have hbehind := hremains.next ht
  obtain ⟨passed, u, rest, rfl, hpassed, hu, hliteral⟩ := nextSignificant?_eq hbehind
  have hinsignificant : ∀ v ∈ passed, v.kind ≠ .eof := by
    intro v hv heof
    simpa [Token.isSignificant, heof] using hpassed v hv
  have hrest := hbehind.behind hinsignificant
  rw [linkageEnd?, hliteral]
  simp only [Option.bind_eq_bind, Option.bind_some, hrest.shows.1]
  have hdrop := Outline.dropWhile_insignificant_append hpassed hu rest
  have hbrace : ∃ brace, nextSignificant? tokens (i + 1 + passed.length + 1) = some brace := by
    by_cases hnil : rest = []
    · have hlength := hrest.length
      rw [hnil, List.length_singleton] at hlength
      exact ⟨_, hlength ▸ nextSignificant?_length hrest⟩
    · obtain ⟨_, _, _, -, -, -, hbrace⟩ := nextSignificant?_eq (hrest.tail hnil)
      exact ⟨_, hbrace⟩
  obtain ⟨kind, text, span, line, spaced⟩ := u
  cases kind with
  | stringLiteral spelling =>
    obtain ⟨second, v, rest', rfl, hsecond, hv, hbrace⟩ := nextSignificant?_eq (hrest.next (by simp))
    have hdrop' := Outline.dropWhile_insignificant_append hsecond hv rest'
    have hshows := (View.shows_append.1 (hrest.next (by simp)).shows).2.1
    simp only [Outline.linkageLength?, hdrop, hdrop', hbrace, Option.bind_some, hshows]
    by_cases hopening : v.kind = .opening .brace
    · obtain ⟨kind', _, _, _, _⟩ := v
      obtain rfl : kind' = .opening .brace := hopening
      simp only [if_true, Option.map_some, Option.some.injEq, List.length_append, List.length_cons]
      omega
    · obtain ⟨kind', _, _, _, _⟩ := v
      rw [if_neg hopening]
      split
      · simp_all
      · rfl
  | _ =>
    obtain ⟨brace, hbrace⟩ := hbrace
    simp only [Outline.linkageLength?, hdrop, hbrace, Option.bind_some, Option.map_none]

theorem skipped?_eq (hremains : Remains tokens i (t :: ts)) (ht : t.kind ≠ .eof) :
    skipped? tokens linkage i t =
      some ((Outline.skipped? linkage t ts).map fun (n, linkage) => (i + 1 + n, linkage)) := by
  unfold skipped? Outline.skipped?
  cases t.kind with
  | keyword k =>
    cases k with
    | externKw =>
      simp only [linkageEnd?_eq hremains ht, Option.bind_eq_bind, Option.bind_some, Option.map_map]
      rfl
    | _ => rfl
  | punct p =>
    cases p with
    | closing bracket =>
      cases bracket with
      | brace =>
        by_cases hlinkage : 0 < linkage
        · simp [hlinkage, sub?_of_le (show 1 ≤ linkage from hlinkage)]
        · simp [hlinkage]
      | _ => rfl
    | _ => rfl
  | _ => rfl

theorem le_of_skipped? {n linkage' : Nat} (h : Outline.skipped? linkage t ts = some (n, linkage')) : n ≤ ts.length := by
  unfold Outline.skipped? at h
  split at h
  case h_5 =>
    obtain ⟨n', hlength, heq⟩ := Option.map_eq_some_iff.1 h
    cases heq
    obtain ⟨first, string, second, brace, rest, rfl, -, -, -, rfl⟩ := Outline.linkageLength?_eq_some_iff.1 hlength
    simp only [List.length_append, List.length_cons]
    omega
  case h_4 =>
    split_ifs at h
    cases h
    exact Nat.zero_le _
  case h_6 => cases h
  all_goals
    cases h
    exact Nat.zero_le _

/-- What is passed over without a construct, and what remains behind it. -/
theorem Remains.skipped {n linkage' : Nat} (hremains : Remains tokens i (t :: ts)) (heof : t.kind ≠ .eof)
    (hskipped : Outline.skipped? linkage t ts = some (n, linkage')) :
    Between tokens i (i + 1 + n) (t :: ts.take n) ∧ Remains tokens (i + 1 + n) (ts.drop n) := by
  have htaken : t :: ts.take n <+: t :: ts := (List.prefix_cons_inj t).2 (List.take_prefix n ts)
  obtain ⟨hbetween, hrest⟩ := hremains.cut htaken (Outline.kind_of_mem_skipped heof hskipped)
  have hlength : i + (t :: ts.take n).length = i + 1 + n := by
    rw [add_length_cons, List.length_take_of_le (le_of_skipped? hskipped)]
  rw [hlength] at hbetween hrest
  rw [List.length_cons, List.drop_succ_cons, List.length_take_of_le (le_of_skipped? hskipped)] at hrest
  exact ⟨hbetween, hrest⟩

theorem external?_found (markers : Bool) (hremains : Remains tokens i (t :: ts)) (ht : t.kind ≠ .eof) :
    Found tokens (external? markers tokens i t) (Outline.external markers t ts) := by
  rw [external?, Outline.external]
  split_ifs with hstart
  · exact collect?_found hstart hremains
  · obtain ⟨hbehind, hrest⟩ := hremains.cut (Outline.prefix_recovery 0 (t :: ts)) fun _ => Outline.kind_of_mem_recovery
    obtain ⟨behind, hrecovery⟩ := Outline.recovery_cons 0 ht ts
    rw [recover?_eq hremains]
    refine ⟨_, _, rfl, .malformed ⟨trivial, rfl⟩ hbehind, ?_⟩
    rw [hrecovery] at hrest ⊢
    exact hrest

/-- The runs from a position on are those of the tokens that remain there. -/
theorem outline?_stands (hremains : Remains tokens i ts) :
    ∃ items, outline? markers tokens linkage i = some items ∧
      List.Forall₂ (PlacedItem.Stands tokens) items (outline markers linkage ts) := by
  fun_induction outline markers linkage ts generalizing i with
  | case1 => exact absurd rfl hremains.ne_nil
  | case2 linkage t ts heof =>
    rw [outline?, hremains.shows.1]
    exact ⟨[], by simp [heof], .nil⟩
  | case3 linkage t ts directive hkind ih =>
    obtain ⟨items, hitems, hstands⟩ := ih (hremains.next (by simp [hkind]))
    rw [outline?, hremains.shows.1]
    refine ⟨_, ?_, .cons (.directive hremains.shows.1) hstands⟩
    simp [hkind, hremains.lt, hitems]
  | case4 linkage t ts n linkage' hskipped heof hdirective ih =>
    obtain ⟨hbetween, hrest⟩ := hremains.skipped heof hskipped
    obtain ⟨items, hitems, hstands⟩ := ih hrest
    rw [outline?, hremains.shows.1]
    refine ⟨_, ?_, .cons (.skipped hbetween) hstands⟩
    simp only [Option.bind_eq_bind, Option.bind_some, skipped?_eq hremains heof, hskipped, Option.map_some]
    rw [dif_pos ⟨hremains.lt, by omega⟩, hitems]
    rfl
  | case5 linkage t ts hskipped run heof hdirective =>
    rename_i ih
    obtain ⟨item, next, hfound, hitem, hrest⟩ := external?_found markers hremains heof
    obtain ⟨items, hitems, hstands⟩ := ih hrest
    have hnext : i < next := by
      have hle := Outline.length_external_le markers t ts
      have hlength := hremains.length
      have hlength' := hrest.length
      rw [add_length_cons] at hlength
      omega
    rw [outline?, hremains.shows.1]
    refine ⟨_, ?_, .cons hitem hstands⟩
    simp only [Option.bind_eq_bind, Option.bind_some, skipped?_eq hremains heof, hskipped, Option.map_none, hfound]
    rw [dif_pos ⟨hremains.lt, hnext⟩, hitems]
    rfl

end Outline

end CHeader.Checked
