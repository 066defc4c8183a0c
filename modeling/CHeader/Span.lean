/-!
# Spans of a source text

A source text is read as a list of characters; places in it are counted in bytes of its UTF-8
encoding. `byteLength` measures a list of characters, and `Span.slice?` cuts the characters of a
half-open byte range out of a text. A range that ends inside a character, runs backwards or
leaves the text has no slice, so a slice is always a run of whole characters.
-/

namespace CHeader

/-- The bytes that `cs` takes in UTF-8. -/
def byteLength : List Char → Nat
  | [] => 0
  | c :: cs => c.utf8Size + byteLength cs

@[simp] theorem byteLength_nil : byteLength [] = 0 := rfl

@[simp] theorem byteLength_cons (c : Char) (cs : List Char) :
    byteLength (c :: cs) = c.utf8Size + byteLength cs := rfl

@[simp] theorem byteLength_append (as bs : List Char) :
    byteLength (as ++ bs) = byteLength as + byteLength bs := by
  induction as with
  | nil => simp
  | cons c as ih => simp [ih, Nat.add_assoc]

/-- A half-open range of bytes. -/
structure Span where
  start : Nat
  stop : Nat
  deriving DecidableEq, Repr, Inhabited

/-- Split `cs` behind its first `n` bytes, if a character ends there. -/
def splitBytes? : Nat → List Char → Option (List Char × List Char)
  | 0, cs => some ([], cs)
  | _ + 1, [] => none
  | n + 1, c :: cs =>
    if c.utf8Size ≤ n + 1 then
      (splitBytes? (n + 1 - c.utf8Size) cs).map fun (taken, rest) => (c :: taken, rest)
    else none

/-- A split loses nothing and falls exactly `n` bytes from the start. -/
theorem eq_append_of_splitBytes? {n : Nat} {cs taken rest : List Char}
    (h : splitBytes? n cs = some (taken, rest)) : cs = taken ++ rest ∧ byteLength taken = n := by
  fun_induction splitBytes? n cs generalizing taken rest with
  | case1 cs => simp_all
  | case2 => simp at h
  | case3 n c cs hc ih =>
    obtain ⟨⟨t, r⟩, hs, he⟩ := Option.map_eq_some_iff.1 h
    obtain ⟨rfl, rfl⟩ := Prod.mk.inj he
    obtain ⟨rfl, hl⟩ := ih hs
    exact ⟨rfl, by simp [hl]; omega⟩
  | case4 => simp at h

/-- Every split into whole characters is found at its byte offset. -/
theorem splitBytes?_append (taken rest : List Char) :
    splitBytes? (byteLength taken) (taken ++ rest) = some (taken, rest) := by
  induction taken with
  | nil => cases rest <;> rfl
  | cons c taken ih =>
    have hc := Char.utf8Size_pos c
    obtain ⟨m, hm⟩ : ∃ m, c.utf8Size + byteLength taken = m + 1 :=
      ⟨c.utf8Size + byteLength taken - 1, by omega⟩
    rw [byteLength_cons, hm, List.cons_append, splitBytes?, if_pos (by omega),
      show m + 1 - c.utf8Size = byteLength taken by omega, ih]
    rfl

/-- The characters of `text` in the range, if it begins and ends at characters of the text. -/
def Span.slice? (span : Span) (text : List Char) : Option (List Char) :=
  if span.start ≤ span.stop then do
    let (_, rest) ← splitBytes? span.start text
    let (taken, _) ← splitBytes? (span.stop - span.start) rest
    some taken
  else none

/-- The slice between two cuts of a text is what stands between them. -/
theorem Span.slice?_append (before taken rest : List Char) :
    Span.slice? ⟨byteLength before, byteLength before + byteLength taken⟩ (before ++ taken ++ rest) =
      some taken := by
  simp [Span.slice?, splitBytes?_append]

end CHeader
