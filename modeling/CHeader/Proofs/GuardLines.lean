import CHeader.Emission
import CHeader.Conditional
import Mathlib.Data.List.TakeWhile

/-!
# Guard lines read as directives

A header writes its guards as directive lines: `#`, a keyword, and behind one space the condition.
Such a line is read back as the directive that it was written for, provided the condition is what a
directive's arguments are: not empty, and without white space at its ends (`Text.Trimmed`). The
conditions of a guard are of this kind if it is `Guard.WellFormed`, and a `Tracker` keeps only such
guards.
-/

namespace CHeader

/-- A text that trimming leaves as it is, and that is not empty. -/
def Text.Trimmed (text : String) : Prop :=
  text ≠ "" ∧ Text.trim text.toList = text.toList

/-- A guard whose conditions can be written on lines of their own. -/
structure Guard.WellFormed (guard : Guard) : Prop where
  condition : Text.Trimmed guard.condition
  elifs : ∀ condition ∈ guard.elifs, Text.Trimmed condition

/-! ### Trimming -/

namespace Text

theorem trimEnd_eq_self {cs : List Char} (h : ∀ c ∈ cs.getLast?, isBlank c = false) : trimEnd cs = cs := by
  rcases List.eq_nil_or_concat cs with rfl | ⟨init, c, rfl⟩
  · rfl
  · have hc : isBlank c = false := h c (by simp)
    simp [trimEnd, hc]

theorem trim_eq_self {cs : List Char} (hhead : ∀ c ∈ cs.head?, isBlank c = false)
    (hlast : ∀ c ∈ cs.getLast?, isBlank c = false) : trim cs = cs := by
  have hdrop : cs.dropWhile isBlank = cs := by
    cases cs with
    | nil => rfl
    | cons c cs => simp [hhead c rfl]
  rw [trim, hdrop, trimEnd_eq_self hlast]

/-- Nothing but blanks stands behind the end that trimming finds. -/
theorem trimEnd_append (cs : List Char) : ∃ blanks, cs = trimEnd cs ++ blanks ∧ ∀ c ∈ blanks, isBlank c = true := by
  refine ⟨(cs.reverse.takeWhile isBlank).reverse, ?_, ?_⟩
  · rw [trimEnd, ← List.reverse_append, List.takeWhile_append_dropWhile, List.reverse_reverse]
  · intro c hc
    exact List.mem_takeWhile_imp (List.mem_reverse.1 hc)

theorem trimEnd_getLast? (cs : List Char) : ∀ c ∈ (trimEnd cs).getLast?, isBlank c = false := by
  intro c hc
  rw [trimEnd, List.getLast?_reverse] at hc
  have := List.head?_dropWhile_not isBlank cs.reverse
  rw [hc] at this
  simpa using this

theorem trim_getLast? (cs : List Char) : ∀ c ∈ (trim cs).getLast?, isBlank c = false :=
  trimEnd_getLast? _

theorem trim_head? (cs : List Char) : ∀ c ∈ (trim cs).head?, isBlank c = false := by
  intro c hc
  obtain ⟨blanks, hsplit, -⟩ := trimEnd_append (cs.dropWhile isBlank)
  have hhead : (cs.dropWhile isBlank).head? = some c := by
    rw [hsplit, List.head?_append]
    have hc' : (trimEnd (cs.dropWhile isBlank)).head? = some c := hc
    rw [hc']
    rfl
  have := List.head?_dropWhile_not isBlank cs
  rw [hhead] at this
  simpa using this

theorem trim_trim (cs : List Char) : trim (trim cs) = trim cs :=
  trim_eq_self (trim_head? cs) (trim_getLast? cs)

/-- A blank before a text is trimmed away. -/
theorem trim_cons_of_isBlank {c : Char} (h : isBlank c = true) (cs : List Char) : trim (c :: cs) = trim cs := by
  simp [trim, h]

end Text

/-! ### Directive lines -/

namespace Directive

/-- The arguments of a directive are trimmed. -/
theorem trimmed_args_parse (raw : String) (h : (parse raw).args ≠ "") : Text.Trimmed (parse raw).args :=
  ⟨h, by simp [parse, Text.trim_trim]⟩

/-- A keyword behind `#` is read up to the first character that cannot continue it. -/
theorem parse_keyword {word : String} {args : List Char} (hword : ∀ c ∈ word.toList, isKeywordChar c = true)
    (hargs : ∀ c ∈ args.head?, isKeywordChar c = false) (hne : word ≠ "") :
    parse (String.ofList ('#' :: word.toList ++ args)) = ⟨.ofKeyword word, String.ofList (Text.trim args)⟩ := by
  have htake : (word.toList ++ args).takeWhile isKeywordChar = word.toList := by
    rw [List.takeWhile_append_of_pos hword]
    cases args with
    | nil => simp
    | cons c cs => simp [hargs c rfl]
  have hdrop : (word.toList ++ args).dropWhile isKeywordChar = args := by
    rw [List.dropWhile_append_of_pos hword]
    cases args with
    | nil => simp
    | cons c cs => simp [hargs c rfl]
  have hbody : body ('#' :: word.toList ++ args) = word.toList ++ args := by
    cases hw : word.toList with
    | nil => exact absurd (String.toList_eq_nil_iff.1 hw) hne
    | cons c cs =>
      have hc : isKeywordChar c = true := hword c (by simp [hw])
      have hblank : c ≠ ' ' ∧ c ≠ '\t' := by
        constructor <;> rintro rfl <;> revert hc <;> decide
      simp [body, hblank]
  simp only [parse, String.toList_ofList, hbody, htake, hdrop, String.ofList_toList]

/-- A line of `#`, a keyword, a space and trimmed arguments is read as it was written. -/
theorem parse_line {word args : String} (hword : ∀ c ∈ word.toList, isKeywordChar c = true) (hne : word ≠ "")
    (hargs : Text.Trimmed args) : parse ("#" ++ word ++ " " ++ args) = ⟨.ofKeyword word, args⟩ := by
  have hline : "#" ++ word ++ " " ++ args = String.ofList ('#' :: word.toList ++ ' ' :: args.toList) := by
    apply String.toList_inj.1
    simp
  have hspace : ∀ c ∈ (' ' :: args.toList).head?, isKeywordChar c = false := by
    rintro c ⟨⟩
    decide
  rw [hline, parse_keyword hword hspace hne, Text.trim_cons_of_isBlank rfl, hargs.2, String.ofList_toList]

end Directive

namespace Guard

theorem keyword_isKeywordChar (opening : Opening) : ∀ c ∈ opening.keyword.toList, Directive.isKeywordChar c = true := by
  apply List.all_eq_true.1
  cases opening <;> rfl

theorem ofKeyword_keyword (opening : Opening) : DirectiveKind.ofKeyword opening.keyword = .opening opening := by
  cases opening <;> rfl

/-- The line that opens a guard opens it again. -/
theorem parse_openingLine (guard : Guard) (h : Text.Trimmed guard.condition) :
    Directive.parse guard.openingLine = ⟨.opening guard.opening, guard.condition⟩ := by
  have hne : guard.opening.keyword ≠ "" := by cases guard.opening <;> decide
  rw [openingLine, Directive.parse_line (keyword_isKeywordChar _) hne h, ofKeyword_keyword]

theorem parse_elifLine {condition : String} (h : Text.Trimmed condition) :
    Directive.parse ("#elif " ++ condition) = ⟨.elif, condition⟩ :=
  @Directive.parse_line "elif" condition (List.all_eq_true.1 rfl) (by decide) h

theorem parse_elseLine : Directive.parse "#else" = ⟨.otherwise, ""⟩ := by
  decide +kernel

theorem parse_endifLine : Directive.parse "#endif" = ⟨.endif, ""⟩ := by
  decide +kernel

end Guard

end CHeader
