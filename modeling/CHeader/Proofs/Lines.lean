import CHeader.Proofs.Reading
import CHeader.Survey
import Mathlib.Data.List.Forall2

/-!
# Texts of several lines

A text that is one run wherever it stands (`ReadsAs`) stays one behind and before other lines, unless it
takes the next one with it (`EndsItsLine`). So what is written line by line is read line by line: one run for
each of the texts (`reads_lines`), whatever directives, comments and line breaks they hold themselves.
-/

namespace CHeader

open Lexed (allChars)
open Lexeme (runsOn)

/-- In any place of a larger text, `text` is one run, of which `P` holds. `P` is told the larger text. -/
def ReadsAs (text : List Char) (P : List Char → Item → Prop) : Prop :=
  ∃ ls, allChars ls = text ∧ Reads ls [] ∧ ∀ before behind ts, Stands (byteLength before) ls ts →
    ∃ item, P (before ++ text ++ behind) item ∧ ∀ linkage, ∃ linkage', ∀ more,
      outline true linkage (ts ++ more) = item :: outline true linkage' more

theorem ReadsAs.imp {text : List Char} {P Q : List Char → Item → Prop} (h : ReadsAs text P)
    (himp : ∀ source item, P source item → Q source item) : ReadsAs text Q := by
  obtain ⟨ls, hchars, hreads, hruns⟩ := h
  refine ⟨ls, hchars, hreads, fun before behind ts hts => ?_⟩
  obtain ⟨item, hitem, houtline⟩ := hruns before behind ts hts
  exact ⟨item, himp _ _ hitem, houtline⟩

/-- Before a next line, the text is read as it is at the end. -/
def EndsItsLine (text : List Char) : Prop :=
  ∀ ls, allChars ls = text → Reads ls [] → ∀ more, Reads ls ('\n' :: more)

theorem EndsItsLine.of_runsOn {text : List Char} (h : runsOn text = false) : EndsItsLine text := by
  rintro ls rfl hreads more
  exact hreads.append_newline (by rwa [List.append_nil]) more

/-- Texts that are runs, and that end their lines but for the last, are read one after another. -/
theorem reads_lines {α : Type} {P : α → List Char → Item → Prop} {text : α → List Char} {lines : List α}
    (h : ∀ line ∈ lines, ReadsAs (text line) (P line)) (hends : ∀ line ∈ lines.dropLast, EndsItsLine (text line)) :
    ∃ ls rest, ['\n'].intercalate (lines.map text) = allChars ls ++ rest ∧ Reads ls rest ∧ IsGap rest ∧
      ∀ before behind ts, Stands (byteLength before) ls ts →
        ∃ items, List.Forall₂ (fun line item => P line (before ++ ['\n'].intercalate (lines.map text) ++ behind) item)
            lines items ∧
          ∀ linkage, ∃ linkage', ∀ more, outline true linkage (ts ++ more) = items ++ outline true linkage' more := by
  induction lines with
  | nil =>
    refine ⟨[], [], rfl, trivial, rfl, fun before behind ts hts => ?_⟩
    cases hts
    exact ⟨[], .nil, fun linkage => ⟨linkage, fun more => rfl⟩⟩
  | cons line lines ih =>
    obtain ⟨ls, hchars, hreads, houtline⟩ := h line List.mem_cons_self
    cases lines with
    | nil =>
      refine ⟨ls, [], by simp [hchars], hreads, rfl, fun before behind ts hts => ?_⟩
      obtain ⟨item, hitem, houtline⟩ := houtline before behind ts hts
      exact ⟨[item], .cons (by simpa using hitem) .nil, houtline⟩
    | cons next lines =>
      obtain ⟨ms, rest, hjoined, hreads', hgap, houtline'⟩ :=
        ih (fun l hl => h l (List.mem_cons_of_mem _ hl)) fun l hl => hends l (by simp_all)
      have hline := hends line (by simp) ls hchars hreads
      obtain ⟨gap, hall, hboth, hgap'⟩ := @reads_join ls ms [] rest hline rfl hreads' hgap
      have htext : ['\n'].intercalate ((line :: next :: lines).map text) =
          text line ++ '\n' :: ['\n'].intercalate ((next :: lines).map text) := by simp
      refine ⟨_, gap, ?_, hboth, hgap', fun before behind ts hts => ?_⟩
      · rw [htext, hjoined, ← hall, hchars, List.append_nil]
      · obtain ⟨first, second, rfl, hfirst, hsecond⟩ := hts.split
        rw [stands_widen] at hsecond
        obtain ⟨item, hitem, hrun⟩ := houtline before ('\n' :: ['\n'].intercalate ((next :: lines).map text) ++ behind) first hfirst
        obtain ⟨items, hitems, hrest⟩ := houtline' (before ++ text line ++ ['\n']) behind second
          (by simpa [hchars, Nat.add_assoc] using hsecond)
        refine ⟨item :: items, .cons ?_ ?_, fun linkage => ?_⟩
        · simpa [htext] using hitem
        · simpa [htext] using hitems
        · obtain ⟨between, hbetween⟩ := hrun linkage
          obtain ⟨last, hlast⟩ := hrest between
          exact ⟨last, fun more => by rw [List.append_assoc, hbetween, hlast, List.cons_append]⟩

/-- The runs of a text that is written in such lines are those of the lines. -/
theorem outline_lines {α : Type} {P : α → List Char → Item → Prop} {text : α → List Char} {lines : List α}
    (h : ∀ line ∈ lines, ReadsAs (text line) (P line)) (hends : ∀ line ∈ lines.dropLast, EndsItsLine (text line))
    {source : String} (hsource : source.toList = ['\n'].intercalate (lines.map text)) :
    ∃ tokens, tokenize source = .ok tokens ∧
      List.Forall₂ (fun line item => P line source.toList item) lines (outline true 0 tokens) := by
  obtain ⟨ls, rest, hjoined, hreads, hgap, houtline⟩ := reads_lines h hends
  obtain ⟨body, last, htokens, hstands, hlast⟩ := tokenize_of_reads (hsource.trans hjoined) hreads hgap
  obtain ⟨items, hitems, hrun⟩ := houtline [] [] body hstands
  obtain ⟨linkage', hmore⟩ := hrun 0
  have hend : outline true linkage' [last] = [] := by rw [outline, hlast]
  refine ⟨body ++ [last], htokens, ?_⟩
  rw [hmore [last], hend, List.append_nil]
  simpa [← hsource] using hitems

end CHeader
