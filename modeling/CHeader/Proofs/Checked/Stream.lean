import CHeader.Proofs.Checked.Groups
import CHeader.Proofs.Partition

/-!
# The tokens of a text by position

The tokens of a text are looked up by position, and behind the last of them that one is found again (`token?`). From
a position the next token that counts is looked for, the end of a function body, and the place from which reading can
start again. What is found there is what the `Outline` takes off the tokens that remain (`Remains`).
-/

namespace CHeader.Checked

open Outline (recovery untilEnd)

/-- The token at a position of a text. Behind the last one, that is found again. -/
def token? (tokens : List Token) : View := fun i => do
  let last ← sub? tokens.length 1
  tokens[min i last]?

/-- The position of the next token from `i` on that is neither comment nor directive. -/
def nextSignificant? (tokens : List Token) (i : Nat) : Option Nat := do
  let t ← token? tokens i
  if t.isSignificant then some i
  else if _ : i < tokens.length then nextSignificant? tokens (i + 1) else none
termination_by tokens.length - i

/-- The position from which reading can start again, with `depth` braces open. -/
def recover? (tokens : List Token) (depth i : Nat) : Option Nat := do
  let t ← token? tokens i
  if _ : i < tokens.length then
    match t.kind with
    | .eof => some i
    | .punct .semi => if depth = 0 then some (i + 1) else recover? tokens depth (i + 1)
    | .opening .brace => recover? tokens (depth + 1) (i + 1)
    | .closing .brace =>
      if depth ≤ 1 then some (i + 1)
      else do
        let outer ← sub? depth 1
        recover? tokens outer (i + 1)
    | _ => recover? tokens depth (i + 1)
  else none
termination_by tokens.length - i

/-- The position of the brace that closes the outermost of `depth` open ones; that of the end of the text as an
error. -/
def bodyEnd? (tokens : List Token) (depth i : Nat) : Option (Except Nat Nat) := do
  let t ← token? tokens i
  if _ : i < tokens.length then
    match t.kind with
    | .eof => some (.error i)
    | .opening .brace => bodyEnd? tokens (depth + 1) (i + 1)
    | .closing .brace => do
      let outer ← sub? depth 1
      if outer = 0 then some (.ok i) else bodyEnd? tokens outer (i + 1)
    | _ => bodyEnd? tokens depth (i + 1)
  else none
termination_by tokens.length - i

/-- From position `i` on stand the tokens `ts`, the last of which ends the text. -/
structure Remains (tokens : List Token) (i : Nat) (ts : List Token) : Prop where
  split : ∃ before, tokens = before ++ ts ∧ before.length = i
  ends : ∃ inside last, ts = inside ++ [last] ∧ last.kind = .eof

section Remains

variable {tokens ts : List Token} {i : Nat} {t : Token}

theorem Remains.length (h : Remains tokens i ts) : i + ts.length = tokens.length := by
  obtain ⟨before, rfl, rfl⟩ := h.split
  rw [List.length_append]

theorem Remains.ne_nil (h : Remains tokens i ts) : ts ≠ [] := by
  obtain ⟨inside, last, rfl, -⟩ := h.ends
  simp

theorem token?_of_lt (h : i < tokens.length) : token? tokens i = tokens[i]? := by
  rw [token?, sub?_of_le (by omega)]
  simp only [Option.bind_eq_bind, Option.bind_some]
  rw [Nat.min_eq_left (by omega)]

theorem Remains.shows (h : Remains tokens i ts) : (token? tokens).Shows i ts := by
  obtain ⟨before, rfl, rfl⟩ := h.split
  clear h
  induction ts generalizing before with
  | nil => trivial
  | cons t ts ih =>
    refine ⟨?_, ?_⟩
    · rw [token?_of_lt (by simp)]
      simp
    · have hrest := ih (before ++ [t])
      rwa [List.append_assoc, List.length_append] at hrest

theorem Remains.lt (h : Remains tokens i (t :: ts)) : i < tokens.length := by
  rw [← h.length]
  simp

/-- Behind a token that others follow. -/
theorem Remains.tail (h : Remains tokens i (t :: ts)) (hts : ts ≠ []) : Remains tokens (i + 1) ts := by
  obtain ⟨before, hsplit, hlength⟩ := h.split
  obtain ⟨inside, last, hinside, hlast⟩ := h.ends
  refine ⟨⟨before ++ [t], by simpa using hsplit, by simpa using hlength⟩, ?_⟩
  cases inside with
  | nil => exact absurd (List.cons.inj hinside).2 hts
  | cons u inside => exact ⟨inside, last, (List.cons.inj hinside).2, hlast⟩

/-- Behind a token that does not end the text. -/
theorem Remains.next (h : Remains tokens i (t :: ts)) (ht : t.kind ≠ .eof) : Remains tokens (i + 1) ts := by
  refine h.tail ?_
  rintro rfl
  obtain ⟨inside, last, hinside, hlast⟩ := h.ends
  cases List.append_eq_singleton_iff.1 hinside.symm with
  | inl h => exact ht ((List.cons.inj h.2).1 ▸ hlast)
  | inr h => cases h.2

/-- Behind tokens that do not end the text. -/
theorem Remains.behind {taken rest : List Token} (h : Remains tokens i (taken ++ rest)) (htaken : ∀ t ∈ taken, t.kind ≠ .eof) :
    Remains tokens (i + taken.length) rest := by
  induction taken generalizing i with
  | nil => exact h
  | cons t taken ih =>
    rw [add_length_cons]
    exact ih (h.next (htaken t List.mem_cons_self)) fun u hu => htaken u (List.mem_cons_of_mem t hu)

theorem recover?_eq {depth : Nat} (h : Remains tokens i ts) :
    recover? tokens depth i = some (i + (recovery depth ts).length) := by
  fun_induction recovery depth ts generalizing i with
  | case1 => exact absurd rfl h.ne_nil
  | case2 depth t ts hkind =>
    rw [recover?, h.shows.1]
    simp [h.lt, hkind]
  | case3 t ts hkind =>
    rw [recover?, h.shows.1]
    simp [h.lt, hkind]
  | case4 depth t ts hkind hdepth ih =>
    rw [recover?, h.shows.1]
    simp only [Option.bind_eq_bind, Option.bind_some, dif_pos h.lt, hkind, if_neg hdepth]
    rw [ih (h.next (by simp [hkind])), add_length_cons]
  | case5 depth t ts hkind ih =>
    rw [recover?, h.shows.1]
    simp only [Option.bind_eq_bind, Option.bind_some, dif_pos h.lt, hkind]
    rw [ih (h.next (by simp [hkind])), add_length_cons]
  | case6 depth t ts hkind hdepth =>
    rw [recover?, h.shows.1]
    simp [h.lt, hkind, hdepth]
  | case7 depth t ts hkind hdepth ih =>
    rw [recover?, h.shows.1]
    simp only [Option.bind_eq_bind, Option.bind_some, dif_pos h.lt, hkind, if_neg hdepth, sub?_of_le (show 1 ≤ depth by omega)]
    rw [ih (h.next (by simp [hkind])), add_length_cons]
  | case8 depth t ts heof hsemi hopening hclosing ih =>
    rw [recover?, h.shows.1]
    simp only [Option.bind_eq_bind, Option.bind_some, dif_pos h.lt]
    rw [ih (h.next heof), add_length_cons]

/-- Where a body ends that is looked for from position `i` on: at the brace that closes it, or with the text. -/
def bodyPlace (i : Nat) (ts : List Token) : Option (List Token × Token) → Except Nat Nat
  | some (inside, _) => .ok (i + inside.length)
  | none => .error (i + (untilEnd ts).length)

theorem bodyPlace_succ (ht : t.kind ≠ .eof) (found : Option (List Token × Token)) :
    bodyPlace (i + 1) ts found = bodyPlace i (t :: ts) (found.map fun (inside, close) => (t :: inside, close)) := by
  cases found with
  | none => rw [Option.map_none, bodyPlace, bodyPlace, Outline.untilEnd_cons ht, add_length_cons]
  | some found => rw [Option.map_some, bodyPlace, bodyPlace, add_length_cons]

theorem bodyEnd?_eq (depth : Nat) (h : Remains tokens i ts) :
    bodyEnd? tokens (depth + 1) i = some (bodyPlace i ts (Outline.body? depth ts)) := by
  fun_induction Outline.body? depth ts generalizing i with
  | case1 => exact absurd rfl h.ne_nil
  | case2 depth t ts hkind ih =>
    rw [bodyEnd?, h.shows.1]
    simp [h.lt, hkind, bodyPlace, Outline.untilEnd_cons_eof hkind]
  | case3 depth t ts inside hkind =>
    rename_i ih
    have ht : t.kind ≠ .eof := by simp [hkind]
    rw [bodyEnd?, h.shows.1]
    simp only [Option.bind_eq_bind, Option.bind_some, dif_pos h.lt, hkind]
    rw [ih (depth + 1) (h.next ht), bodyPlace_succ ht]
  | case4 t ts hkind ih =>
    rw [bodyEnd?, h.shows.1]
    simp [h.lt, hkind, sub?_of_le, bodyPlace]
  | case5 depth t ts inside hkind hdepth =>
    rename_i ih
    have ht : t.kind ≠ .eof := by simp [hkind]
    obtain ⟨outer, rfl⟩ := Nat.exists_eq_add_one_of_ne_zero hdepth
    rw [bodyEnd?, h.shows.1]
    simp only [Option.bind_eq_bind, Option.bind_some, dif_pos h.lt, hkind, sub?_of_le (show 1 ≤ outer + 1 + 1 by omega),
      Nat.add_sub_cancel, if_neg hdepth]
    rw [ih outer (h.next ht), bodyPlace_succ ht]
  | case6 depth t ts inside heof hopening hclosing =>
    rename_i ih
    rw [bodyEnd?, h.shows.1]
    simp only [Option.bind_eq_bind, Option.bind_some, dif_pos h.lt]
    rw [ih depth (h.next heof), bodyPlace_succ heof]

theorem nextSignificant?_eq (h : Remains tokens i ts) :
    ∃ passed t rest, ts = passed ++ t :: rest ∧ (∀ u ∈ passed, u.isSignificant = false) ∧ t.isSignificant = true ∧
      nextSignificant? tokens i = some (i + passed.length) := by
  induction ts generalizing i with
  | nil => exact absurd rfl h.ne_nil
  | cons t ts ih =>
    rw [nextSignificant?, h.shows.1]
    simp only [Option.bind_eq_bind, Option.bind_some, dif_pos h.lt]
    by_cases ht : t.isSignificant = true
    · exact ⟨[], t, ts, rfl, by simp, ht, by rw [if_pos ht]; rfl⟩
    · have heof : t.kind ≠ .eof := by
        rintro heof
        simp [Token.isSignificant, heof] at ht
      obtain ⟨passed, u, rest, rfl, hpassed, hu, hnext⟩ := ih (h.next heof)
      refine ⟨t :: passed, u, rest, rfl, ?_, hu, ?_⟩
      · exact List.forall_mem_cons.2 ⟨by simpa using ht, hpassed⟩
      · rw [if_neg ht, hnext, add_length_cons]

/-- Behind the end of the text, the end is found again. -/
theorem nextSignificant?_length (hremains : Remains tokens i ts) : nextSignificant? tokens tokens.length = some tokens.length := by
  obtain ⟨before, rfl, -⟩ := hremains.split
  obtain ⟨inside, last, rfl, hlast⟩ := hremains.ends
  have hsignificant : last.isSignificant = true := by simp [Token.isSignificant, hlast]
  rw [nextSignificant?, token?, sub?_of_le (by simp; omega)]
  simp [hsignificant, ← Nat.add_assoc]

/-- The tokens between two positions. -/
structure Between (tokens : List Token) (start stop : Nat) (ts : List Token) : Prop where
  shows : (token? tokens).Shows start ts
  length : start + ts.length = stop

theorem Between.append {start middle stop : Nat} {before behind : List Token} (hbefore : Between tokens start middle before)
    (hbehind : Between tokens middle stop behind) : Between tokens start stop (before ++ behind) := by
  obtain ⟨hshows, rfl⟩ := hbefore
  obtain ⟨hshows', rfl⟩ := hbehind
  exact ⟨View.shows_append.2 ⟨hshows, hshows'⟩, by rw [List.length_append, Nat.add_assoc]⟩

/-- Some of the tokens that remain, none of which ends the text, and what remains behind them. -/
theorem Remains.cut {taken : List Token} (h : Remains tokens i ts) (hfront : taken <+: ts) (htaken : ∀ t ∈ taken, t.kind ≠ .eof) :
    Between tokens i (i + taken.length) taken ∧ Remains tokens (i + taken.length) (ts.drop taken.length) := by
  obtain ⟨rest, rfl⟩ := hfront
  rw [List.drop_left]
  exact ⟨⟨(View.shows_append.1 h.shows).1, rfl⟩, h.behind htaken⟩

end Remains

/-! ### Lists of positions -/

/-- What a list of positions shows. -/
def View.at? (view : View) (indices : List Nat) : View := fun k => do
  let i ← indices[k]?
  view i

section

variable {view : View} {indices : List Nat} {ts : List Token}

theorem View.at?_eq (h : indices.map view = ts.map some) :
    view.at? indices = fun k => ts[k]? := by
  funext k
  have hk := congrArg (·[k]?) h
  simp only [List.getElem?_map] at hk
  rw [View.at?]
  cases hindex : indices[k]? <;> cases htoken : ts[k]? <;> simp_all

theorem View.at?_shows (h : indices.map view = ts.map some) :
    (view.at? indices).Shows 0 ts := by
  rw [View.at?_eq h]
  exact View.shows_list ts

theorem mapM_of_map (h : indices.map view = ts.map some) :
    indices.mapM view = some ts := by
  induction indices generalizing ts with
  | nil =>
    obtain rfl : ts = [] := by simpa using h.symm
    rfl
  | cons i indices ih =>
    obtain ⟨t, ts', rfl, ht, hts⟩ := List.map_eq_cons_iff.1 (List.map_cons .. ▸ h.symm)
    rw [List.mapM_cons, ← ht, ih hts.symm]
    rfl

end

end CHeader.Checked
