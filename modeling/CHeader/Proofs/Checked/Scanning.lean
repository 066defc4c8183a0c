import CHeader.Proofs.Checked.Bytes
import CHeader.Tokens

/-!
# Scanning by bytes

The scanner measures comments, literals and directives in bytes and goes on behind as many of them. Where a character
does not end there, or where the scanner does not go on, the reading fails (`tokenize?`). It never does: what is read is
the items of the text (`tokenize?_eq`).
-/

namespace CHeader.Checked

open Lexeme (Reading commentLength? quotedLength? lineLength directiveExtent)

/-- The characters of the next `n` bytes, if one ends there. -/
def bump? (n : Nat) (cs : List Char) : Option (List Char) :=
  (splitBytes? n cs).map (·.1)

/-- The byte offset of the first character with the property `p`. -/
def findChar? (p : Char → Bool) : List Char → Option Nat
  | [] => none
  | c :: cs => if p c then some 0 else (findChar? p cs).map (c.utf8Size + ·)

/-- The text before the first character with the property `p`, and the text from there on. -/
def splitBefore? (p : Char → Bool) (cs : List Char) : Option (List Char × List Char) :=
  splitBytes? ((findChar? p cs).getD (byteLength cs)) cs

/-! ### Lexemes -/

/-- Read the text of a directive. -/
def parse? (raw : String) : Option Directive := do
  let (keyword, args) ← splitBefore? (!Directive.isKeywordChar ·) (Directive.body raw.toList)
  some { kind := .ofKeyword (String.ofList keyword), args := String.ofList (Text.trim args) }

/-- The name that a `#define` or `#undef` begins its arguments with. -/
def macroName? (directive : Directive) : Option (Option String) := do
  let (name, _) ← splitBefore? (!Directive.isNameChar ·) directive.args.toList
  some (if name.isEmpty then none else some (String.ofList name))

/-- A directive, whose `#` stands before `cs`. -/
def directive? (cs : List Char) : Option Reading := do
  let (stop, unclosed) ← directiveFrom? (bytes cs) 0
  let taken ← bump? stop cs
  if unclosed then some ⟨.error .unterminatedComment, taken.length⟩
  else do
    let directive ← parse? (String.ofList ('#' :: taken))
    some ⟨.ok (.directive directive), taken.length⟩

/-- A block comment, whose slash stands before `cs`. -/
def blockComment? (cs : List Char) : Option Reading :=
  let rest := cs.drop 1
  match find? '*'.toUInt8 ['/'.toUInt8] (bytes rest) with
  | some stop => do
    let taken ← bump? (stop + 2) rest
    some ⟨.ok .blockComment, 1 + taken.length⟩
  | none => do
    let taken ← bump? (bytes rest).length rest
    some ⟨.error .unterminatedComment, 1 + taken.length⟩

/-- A literal whose opening quote ends the first `opening + 1` characters of `c :: cs`. -/
def literal? (quote : Char) (kind : String → TokenKind) (fault : LexicalFault) (c : Char) (opening : Nat) (cs : List Char) :
    Option Reading :=
  let rest := cs.drop opening
  match quotedLen? quote.toUInt8 false (bytes rest) with
  | some stop => do
    let taken ← bump? stop rest
    some ⟨.ok (kind (String.ofList (c :: cs.take opening ++ taken))), opening + taken.length⟩
  | none => do
    let taken ← bump? ((find? '\n'.toUInt8 [] (bytes rest)).getD (bytes rest).length) rest
    some ⟨.error fault, opening + taken.length⟩

/-- A character literal. -/
def charLiteral? := literal? '\'' .charLiteral .unterminatedChar

/-- A string literal. -/
def stringLiteral? := literal? '"' .stringLiteral .unterminatedString

/-- A word, or the literal that it is the beginning of. -/
def word? (c : Char) (cs : List Char) : Option Reading :=
  let n := Lexeme.wordLength cs
  if Lexeme.isLiteralPrefix (String.ofList (c :: cs.take n)) then
    match cs.drop n with
    | '\'' :: _ => charLiteral? c (n + 1) cs
    | '"' :: _ => stringLiteral? c (n + 1) cs
    | _ => some (Lexeme.word c cs)
  else some (Lexeme.word c cs)

/-- What the text `c :: cs`, which starts with no gap, starts with. -/
def lexeme? (c : Char) (cs : List Char) : Option Reading :=
  if Lexeme.isWordStart c then word? c cs
  else if c.isDigit || (c = '.' && Lexeme.startsWithDigit cs) then some (Lexeme.number c cs)
  else if c = '\'' then charLiteral? c 0 cs
  else if c = '"' then stringLiteral? c 0 cs
  else if c = '#' then directive? cs
  else if c = '/' && cs.head? = some '/' then some ⟨.ok .lineComment, lineLength cs⟩
  else if c = '/' && cs.head? = some '*' then blockComment? cs
  else some (Lexeme.punct c cs)

/-! ### Items -/

/-- Read the lexeme `c :: cs` at the place `s`, behind a gap if `spaced`. -/
def readLexeme? (s : Scanner) (spaced : Bool) (c : Char) (cs : List Char) : Option (Except Diagnostic Token × Scanner) := do
  let reading ← lexeme? c cs
  let behind := s.advance (reading.tail + 1)
  let span : Span := ⟨s.offset, behind.offset⟩
  let line := s.lines.lineOf s.offset
  match reading.outcome with
  | .ok kind => some (.ok ⟨kind, String.ofList (c :: cs.take reading.tail), span, line, spaced⟩, behind)
  | .error fault => some (.error ⟨.lexical fault, line, span⟩, behind)

/-- The next token or fault, and the place behind it. -/
def next? (s : Scanner) : Option (Except Diagnostic Token × Scanner) :=
  let place := s.skipGap
  match place.rest with
  | [] => some (.ok (.endOfText place.offset (place.lines.lineOf place.offset)), place)
  | c :: cs => readLexeme? place (s.offset < place.offset) c cs

/-- Whether what was read is the end of the text. -/
def isEnd : Except Diagnostic Token → Bool
  | .ok token => token.kind = .eof
  | .error _ => false

/-- Everything up to the token of the end, which comes last. A reading that does not go on fails. -/
def items? (s : Scanner) : Option (List (Except Diagnostic Token)) := do
  let (item, behind) ← next? s
  if isEnd item then some [item]
  else if _ : behind.rest.length < s.rest.length then do
    let later ← items? behind
    some (item :: later)
  else none
termination_by s.rest.length

/-- The tokens of a text, the token of the end last; every fault of the text if it has one. -/
def tokenize? (source : String) : Option (Except (List Diagnostic) (List Token)) := do
  let items ← items? (Scanner.ofText source.toList)
  match faults items with
  | [] => some (.ok (goodTokens items))
  | errors => some (.error errors)

section Scanning

variable {c quote : Char} {cs : List Char}

theorem splitBytes?_take (cs : List Char) (n : Nat) : splitBytes? (byteLength (cs.take n)) cs = some (cs.take n, cs.drop n) := by
  have hsplit := splitBytes?_append (cs.take n) (cs.drop n)
  rwa [List.take_append_drop] at hsplit

theorem bump?_take (cs : List Char) (n : Nat) : bump? (byteLength (cs.take n)) cs = some (cs.take n) := by
  rw [bump?, splitBytes?_take, Option.map_some]

theorem bump?_all (cs : List Char) : bump? (bytes cs).length cs = some cs := by
  rw [length_bytes]
  simpa using bump?_take cs cs.length

theorem splitBefore?_eq (p : Char → Bool) (cs : List Char) :
    splitBefore? (!p ·) cs = some (cs.takeWhile p, cs.dropWhile p) := by
  have hlength : (findChar? (!p ·) cs).getD (byteLength cs) = byteLength (cs.takeWhile p) := by
    induction cs with
    | nil => rfl
    | cons c cs ih =>
      rw [findChar?, List.takeWhile_cons]
      cases hp : p c with
      | false => simp
      | true =>
        rw [if_pos rfl, byteLength_cons, byteLength_cons, ← ih]
        cases findChar? (!p ·) cs <;> simp
  have hsplit := splitBytes?_append (cs.takeWhile p) (cs.dropWhile p)
  rw [splitBefore?, hlength]
  rwa [List.takeWhile_append_dropWhile] at hsplit

theorem parse?_eq (raw : String) : parse? raw = some (.parse raw) := by
  simp only [parse?, splitBefore?_eq, Option.bind_eq_bind, Option.bind_some, Directive.parse]

theorem macroName?_eq (directive : Directive) : macroName? directive = some directive.macroName? := by
  simp only [macroName?, splitBefore?_eq, Option.bind_eq_bind, Option.bind_some, Directive.macroName?]
  cases directive.args.toList.takeWhile Directive.isNameChar <;> rfl

theorem directive?_eq (cs : List Char) : directive? cs = some (Lexeme.directive cs) := by
  have hread := reads_directiveExtent cs []
  rw [List.nil_append, List.length_nil, Nat.zero_add] at hread
  have hlength : (cs.take (directiveExtent cs).length).length = (directiveExtent cs).length :=
    List.length_take_of_le (Lexeme.directiveExtent_le cs)
  simp only [directive?, hread, bump?_take, parse?_eq, hlength, Option.bind_eq_bind, Option.bind_some, Lexeme.directive]
  split_ifs <;> rfl

theorem blockComment?_eq (hne : cs ≠ []) : blockComment? cs = some (Lexeme.blockComment cs) := by
  have hfind := find?_comment (cs.drop 1)
  rw [blockComment?, Lexeme.blockComment]
  cases hstop : find? '*'.toUInt8 ['/'.toUInt8] (bytes (cs.drop 1)) with
  | none =>
    rw [hstop] at hfind
    obtain hnone : commentLength? (cs.drop 1) = none := by simpa using hfind.symm
    have hlength : 1 + (cs.drop 1).length = cs.length := by
      have := List.length_pos_iff.2 hne
      rw [List.length_drop]
      omega
    simp only [hnone, bump?_all, Option.bind_eq_bind, Option.bind_some, hlength]
  | some stop =>
    rw [hstop] at hfind
    obtain ⟨n, hn, hbytes⟩ := Option.map_eq_some_iff.1 hfind.symm
    simp only at hbytes
    simp only [hn, ← hbytes, bump?_take, Option.bind_eq_bind, Option.bind_some, List.length_take_of_le (Lexeme.commentLength?_le hn)]

theorem literal?_eq (hquote : Ascii quote) (kind : String → TokenKind) (fault : LexicalFault) (c : Char) (opening : Nat)
    (cs : List Char) : literal? quote kind fault c opening cs = some (Lexeme.literal quote kind fault c opening cs) := by
  rw [literal?, Lexeme.literal]
  simp only [quotedLen?_bytes hquote]
  cases hn : quotedLength? quote (cs.drop opening) with
  | none =>
    simp only [Option.map_none, find?_newline, bump?_take, Option.bind_eq_bind, Option.bind_some,
      List.length_take_of_le (Lexeme.lineLength_le (cs.drop opening))]
  | some n =>
    simp only [Option.map_some, bump?_take, Option.bind_eq_bind, Option.bind_some,
      List.length_take_of_le (Lexeme.quotedLength?_le hn), List.take_add, List.cons_append]

theorem word?_eq (c : Char) (cs : List Char) : word? c cs = some (Lexeme.word c cs) := by
  simp only [word?]
  split_ifs with hliteral
  · have hchar : charLiteral? c = fun n cs => some (Lexeme.charLiteral c n cs) := by
      funext n cs
      exact literal?_eq (by decide) _ _ c n cs
    have hstring : stringLiteral? c = fun n cs => some (Lexeme.stringLiteral c n cs) := by
      funext n cs
      exact literal?_eq (by decide) _ _ c n cs
    rw [hchar, hstring]
    simp only [Lexeme.word, hliteral, if_true]
    split <;> simp_all
  · rfl

/-- A lexeme is read by bytes as by characters. -/
theorem lexeme?_eq (c : Char) (cs : List Char) : lexeme? c cs = some (Lexeme.lexeme c cs) := by
  rw [lexeme?, Lexeme.lexeme]
  split_ifs with hword hnumber hchar hstring hdirective hline hblock
  · exact word?_eq c cs
  · rfl
  · exact literal?_eq (by decide) _ _ c 0 cs
  · exact literal?_eq (by decide) _ _ c 0 cs
  · exact directive?_eq cs
  · rfl
  · refine blockComment?_eq ?_
    rintro rfl
    simp at hblock
  · rfl

theorem next?_eq (s : Scanner) : next? s = some s.next := by
  rw [next?, Scanner.next]
  cases s.skipGap.rest with
  | nil => rfl
  | cons c cs =>
    simp only [readLexeme?, lexeme?_eq, Option.bind_eq_bind, Option.bind_some, Scanner.readLexeme]
    cases (Lexeme.lexeme c cs).outcome <;> rfl

/-- The end of the text is read where nothing but a gap is left, and only there. -/
theorem isEnd_next (s : Scanner) : isEnd s.next.1 = s.atEnd := by
  rw [Scanner.next, Scanner.atEnd]
  cases s.skipGap.rest with
  | nil => rfl
  | cons c cs =>
    have hkind := Lexeme.lexeme_outcome_ne_eof c cs
    simp only [Scanner.readLexeme]
    cases houtcome : (Lexeme.lexeme c cs).outcome with
    | error fault => rfl
    | ok kind =>
      rw [houtcome] at hkind
      simpa [isEnd] using hkind

theorem items?_eq (s : Scanner) : items? s = some s.items := by
  fun_induction Scanner.items s with
  | case1 s hend =>
    rw [items?, next?_eq]
    simp [isEnd_next, hend]
  | case2 s hend ih =>
    rw [items?, next?_eq]
    simp [isEnd_next, hend, Scanner.length_next_lt hend, ih]

/-- Nothing fails in reading a text, and what is read is its tokens or its faults. -/
theorem tokenize?_eq (source : String) : tokenize? source = some (tokenize source) := by
  simp only [tokenize?, items?_eq, Option.bind_eq_bind, Option.bind_some, tokenize]
  cases faults (Scanner.ofText source.toList).items <;> rfl

end Scanning

end CHeader.Checked
