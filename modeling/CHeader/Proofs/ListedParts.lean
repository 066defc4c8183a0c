import CHeader.Proofs.DeclaratorRows

/-!
# Lists of parts of a text

Texts that a mark may follow are put one behind the other, with commas or semicolons between them (`listRow`), or each
with the same text in front of it (`eachRow`). The lexemes of such a text are those of its parts, so the tokens of one
part are the same at all its places, but for where they stand (`FarApart.exists_respaces`).
-/

namespace CHeader

open Lexed (allChars widen)
open Nesting (Piece)

/-! ### The lexemes of lists -/

/-- A text as the lexemes that it is read as and the gap behind them. -/
structure Part where
  row : List Lexed
  gap : List Char

namespace Part

def chars (part : Part) : List Char :=
  allChars part.row ++ part.gap

/-- It is no gap alone, and read so up to a mark. -/
structure Readable (part : Part) : Prop where
  nonempty : part.row ≠ []
  reads : ReadsUpTo part.chars part.row part.gap

/-- The lexemes of the part behind a gap, and of a mark. -/
def before (gap : List Char) (part : Part) (c : Char) (p : Punct) : List Lexed :=
  widen gap part.row ++ [⟨part.gap, .punct p, [c]⟩]

end Part

theorem allChars_widen {ls : List Lexed} (hne : ls ≠ []) (gap : List Char) : allChars (widen gap ls) = gap ++ allChars ls := by
  obtain ⟨l, ls, rfl⟩ := List.exists_cons_of_ne_nil hne
  simp [widen]

theorem Gap.reads_widen {gap rest : List Char} {ls : List Lexed} (hgap : Gap gap) (h : Reads ls rest) :
    Reads (widen gap ls) rest := by
  cases ls with
  | nil => trivial
  | cons l ls =>
    obtain ⟨⟨hlength, hlexeme⟩, hreads⟩ := h
    refine ⟨⟨?_, hlexeme⟩, hreads⟩
    simpa [List.append_assoc, hgap.gapLength_append] using hlength

namespace Part.Readable

variable {part : Part} {gap : List Char} {c : Char} {p : Punct}

theorem chars_before (h : part.Readable) (gap : List Char) (c : Char) (p : Punct) :
    allChars (part.before gap c p) = gap ++ part.chars ++ [c] := by
  simp [Part.before, Part.chars, allChars_widen h.nonempty]

theorem reads_before (h : part.Readable) (hgap : Gap gap) (hc : IsMark c p) (more : List Char) :
    Reads (part.before gap c p) more := by
  refine reads_append.2 ⟨hgap.reads_widen ?_, (hc.alone _).of_gap h.reads.isGap, trivial⟩
  have hreads := h.reads.before hc.separator hc.ne_newline more
  simpa using hreads

end Part.Readable

/-- The lexemes of declarators behind a gap, with commas between them and a semicolon behind the last. -/
def listRow (gap : List Char) : List Part → List Lexed
  | [] => []
  | [part] => part.before gap ';' .semi
  | part :: next :: parts => part.before gap ',' .comma ++ listRow [' '] (next :: parts)

/-- The lexemes of declarations, each with the same specifiers and one declarator. -/
def eachRow (gap : List Char) (specifiers : Part) : List Part → List Lexed
  | [] => []
  | part :: parts =>
    widen gap specifiers.row ++ part.before specifiers.gap ';' .semi ++ eachRow [' '] specifiers parts

theorem chars_listRow {gap : List Char} {part : Part} {parts : List Part} (h : ∀ p ∈ part :: parts, p.Readable) :
    allChars (listRow gap (part :: parts)) = gap ++ [',', ' '].intercalate ((part :: parts).map Part.chars) ++ [';'] := by
  induction parts generalizing part gap with
  | nil => simp [listRow, (h part List.mem_cons_self).chars_before]
  | cons next parts ih =>
    obtain ⟨hpart, hparts⟩ := List.forall_mem_cons.1 h
    rw [listRow, Lexed.allChars_append, ih hparts, hpart.chars_before]
    simp [List.intercalate_cons_cons]

theorem chars_eachRow {gap : List Char} {specifiers part : Part} {parts : List Part} (hspecifiers : specifiers.Readable)
    (h : ∀ p ∈ part :: parts, p.Readable) :
    allChars (eachRow gap specifiers (part :: parts)) =
      gap ++ [' '].intercalate ((part :: parts).map fun p => specifiers.chars ++ p.chars ++ [';']) := by
  induction parts generalizing part gap with
  | nil =>
    simp [eachRow, (h part List.mem_cons_self).chars_before, allChars_widen hspecifiers.nonempty, Part.chars]
  | cons next parts ih =>
    obtain ⟨hpart, hparts⟩ := List.forall_mem_cons.1 h
    rw [eachRow, Lexed.allChars_append, ih hparts, Lexed.allChars_append, hpart.chars_before,
      allChars_widen hspecifiers.nonempty]
    simp [Part.chars, List.intercalate_cons_cons]

theorem gap_blank : Gap [' '] :=
  .blank (by simp) .nil

theorem reads_listRow {gap : List Char} {parts : List Part} (hgap : Gap gap) (h : ∀ p ∈ parts, p.Readable) :
    Reads (listRow gap parts) [] := by
  fun_induction listRow gap parts with
  | case1 => trivial
  | case2 gap part => exact (h part List.mem_cons_self).reads_before hgap isMark_semicolon []
  | case3 gap part next parts ih =>
    obtain ⟨hpart, hparts⟩ := List.forall_mem_cons.1 h
    exact reads_append.2 ⟨hpart.reads_before hgap isMark_comma _, ih gap_blank hparts⟩

theorem reads_eachRow {gap : List Char} {specifiers : Part} {parts : List Part} (hspecifiers : specifiers.Readable)
    (hne : specifiers.gap ≠ []) (hgap : Gap gap) (h : ∀ p ∈ parts, p.Readable) :
    Reads (eachRow gap specifiers parts) [] := by
  fun_induction eachRow gap specifiers parts with
  | case1 => trivial
  | case2 gap part parts ih =>
    obtain ⟨hpart, hparts⟩ := List.forall_mem_cons.1 h
    refine reads_append.2 ⟨reads_append.2 ⟨hgap.reads_widen ?_, ?_⟩, ih gap_blank hparts⟩
    · rw [hpart.chars_before, List.append_assoc, List.append_assoc]
      exact hspecifiers.reads.behindGap hne _
    · exact hpart.reads_before hspecifiers.reads.isGap isMark_semicolon _

/-! ### The same tokens at other places -/

/-- Two places of a row of lexemes. -/
theorem Stands.forall₂_shifted {place place' : Nat} {ls : List Lexed} {ts us : List Token} (h : Stands place ls ts)
    (h' : Stands place' ls us) :
    List.Forall₂ (fun t u : Token => (u.kind = t.kind ∧ u.text = t.text) ∧
      u.span.start + place = t.span.start + place' ∧ u.span.stop + place = t.span.stop + place') ts us := by
  induction h generalizing place' us with
  | nil =>
    cases h'
    exact .nil
  | @cons place stop l ls t ts kind text span next rest ih =>
    obtain _ | ⟨kind', text', span', next', rest'⟩ := h'
    refine .cons ⟨⟨kind'.trans kind.symm, text'.trans text.symm⟩, ?_, ?_⟩ ((ih rest').imp ?_)
    · simp only [span, span']
      omega
    · simp only [span, span']
      omega
    · rintro t u ⟨hsame, hstart, hstop⟩
      exact ⟨hsame, by omega, by omega⟩

/-- Specifiers and a declarator at two places, with white space between them at both. -/
structure FarApart (ls ms : List Lexed) (here there : Nat) (ss es : List Token) : Prop where
  far : here + byteLength (allChars ls) < there
  specifiers : Stands here ls ss
  declarator : Stands there ms es

namespace FarApart

variable {ls ms : List Lexed} {rest rest' : List Char} {here there here' there' : Nat} {ss es ss' es' : List Token}

theorem lt (h : FarApart ls ms here there ss es) {t u : Token} (ht : t ∈ ss) (hu : u ∈ es) : t.span.stop < u.span.start := by
  have hstop := h.specifiers.stop_le t ht
  have hstart := h.declarator.le_start u hu
  have hfar := h.far
  omega

theorem ordered (h : FarApart ls ms here there ss es) (hls : Reads ls rest) (hms : Reads ms rest') : Ordered (ss ++ es) := by
  have hss := h.specifiers.ordered hls
  have hes := h.declarator.ordered hms
  refine ⟨List.pairwise_append.2 ⟨hss.pairwise, hes.pairwise, fun t ht u hu => (h.lt ht hu).le⟩, fun t ht => ?_⟩
  rcases List.mem_append.1 ht with ht | ht
  · exact hss.positive t ht
  · exact hes.positive t ht

/-- They are spelled with the same blanks. -/
theorem exists_respaces (h : FarApart ls ms here there ss es) (h' : FarApart ls ms here' there' ss' es')
    (hls : Reads ls rest) (hms : Reads ms rest') : ∃ f, Respaces f (ss ++ es) ∧ ss' = ss.map f ∧ es' = es.map f := by
  have hordered := h.ordered hls hms
  have hspecifiers := h.specifiers.forall₂_shifted h'.specifiers
  have hdeclarator := h.declarator.forall₂_shifted h'.declarator
  have hsame : List.Forall₂ (fun t u : Token => u.kind = t.kind ∧ u.text = t.text) (ss ++ es) (ss' ++ es') :=
    List.rel_append (hspecifiers.imp fun _ _ hsame => hsame.1) (hdeclarator.imp fun _ _ hsame => hsame.1)
  obtain ⟨f, hf, hmap⟩ := exists_map_of_forall₂ (fun t => ⟨t, rfl, rfl⟩) hordered.nodup hsame
  rw [List.map_append] at hmap
  obtain ⟨rfl, rfl⟩ := List.append_inj hmap (by rw [List.length_map, hspecifiers.length_eq])
  have hss : ∀ t ∈ ss, (f t).span.start + here = t.span.start + here' ∧ (f t).span.stop + here = t.span.stop + here' :=
    List.forall₂_same.1 ((List.forall₂_map_right_iff.1 hspecifiers).imp fun _ _ hsame => hsame.2)
  have hes : ∀ t ∈ es, (f t).span.start + there = t.span.start + there' ∧ (f t).span.stop + there = t.span.stop + there' :=
    List.forall₂_same.1 ((List.forall₂_map_right_iff.1 hdeclarator).imp fun _ _ hsame => hsame.2)
  have hordered' : Ordered ((ss ++ es).map f) := by
    rw [List.map_append]
    exact h'.ordered hls hms
  refine ⟨f, ⟨fun t => (hf t).1, fun t => (hf t).2, hordered, hordered', List.pairwise_append.2 ⟨?_, ?_, ?_⟩⟩, rfl, rfl⟩
  · refine List.pairwise_of_forall_mem_list fun t ht u hu => ?_
    have hfirst := hss t ht
    have hsecond := hss u hu
    omega
  · refine List.pairwise_of_forall_mem_list fun t ht u hu => ?_
    have hfirst := hes t ht
    have hsecond := hes u hu
    omega
  · intro t ht u hu
    exact iff_of_true (h.lt ht hu) (h'.lt (List.mem_map_of_mem ht) (List.mem_map_of_mem hu))

end FarApart

/-! ### The tokens of lists -/

/-- The tokens of a part with the mark behind it. -/
theorem Part.exists_of_stands {part : Part} {place : Nat} {gap : List Char} {c : Char} {p : Punct} {ts : List Token}
    (h : Stands place (part.before gap c p) ts) :
    ∃ piece : Piece, ts = piece.tokens ++ [piece.stop] ∧ piece.stop.kind = .punct p ∧
      Stands (place + byteLength gap) part.row piece.tokens := by
  obtain ⟨us, marks, rfl, hus, hmarks⟩ := h.split
  obtain _ | ⟨hkind, -, -, -, hnone⟩ := hmarks
  obtain _ | _ := hnone
  exact ⟨⟨us, _⟩, rfl, hkind, stands_widen.1 hus⟩

theorem exists_of_listRow {place : Nat} {gap : List Char} {part : Part} {parts : List Part} {ts : List Token}
    (hparts : ∀ p ∈ part :: parts, p.Readable) (h : Stands place (listRow gap (part :: parts)) ts) :
    ∃ init last, ts = listed (init ++ [last]) ∧ (∀ piece ∈ init, piece.stop.kind = .punct .comma) ∧
      last.stop.kind = .punct .semi ∧
      List.Forall₂ (fun (part : Part) (piece : Piece) =>
        ∃ here, place + byteLength gap ≤ here ∧ Stands here part.row piece.tokens) (part :: parts) (init ++ [last]) := by
  induction parts generalizing place gap part ts with
  | nil =>
    obtain ⟨last, rfl, hlast, hstands⟩ := Part.exists_of_stands h
    exact ⟨[], last, by simp [listed], by simp, hlast, .cons ⟨_, Nat.le_refl _, hstands⟩ .nil⟩
  | cons next parts ih =>
    obtain ⟨us, vs, rfl, hus, hvs⟩ := h.split
    obtain ⟨piece, rfl, hcomma, hstands⟩ := Part.exists_of_stands hus
    obtain ⟨hpart, hparts⟩ := List.forall_mem_cons.1 hparts
    obtain ⟨init, last, rfl, hinit, hlast, hrest⟩ := ih hparts hvs
    refine ⟨piece :: init, last, by simp [listed], List.forall_mem_cons.2 ⟨hcomma, hinit⟩, hlast,
      .cons ⟨_, Nat.le_refl _, hstands⟩ (hrest.imp ?_)⟩
    rintro part piece ⟨here, hle, hstands⟩
    refine ⟨here, ?_, hstands⟩
    rw [hpart.chars_before, byteLength_append, byteLength_append] at hle
    omega

/-- Specifiers with one declarator, and what ends it. -/
structure Single where
  specifiers : List Token
  declarator : Piece

def Single.tokens (single : Single) : List Token :=
  single.specifiers ++ listed [single.declarator]

theorem exists_of_eachRow {place : Nat} {gap : List Char} {specifiers : Part} {parts : List Part} {ts : List Token}
    (hspecifiers : specifiers.Readable) (hne : specifiers.gap ≠ []) (h : Stands place (eachRow gap specifiers parts) ts) :
    ∃ singles : List Single, ts = singles.flatMap Single.tokens ∧
      List.Forall₂ (fun (part : Part) (single : Single) => single.declarator.stop.kind = .punct .semi ∧
        ∃ here there, FarApart specifiers.row part.row here there single.specifiers single.declarator.tokens) parts singles := by
  induction parts generalizing place gap ts with
  | nil =>
    obtain _ | _ := h
    exact ⟨[], rfl, .nil⟩
  | cons part parts ih =>
    obtain ⟨us, vs, rfl, hus, hvs⟩ := h.split
    obtain ⟨ss, es, rfl, hss, hes⟩ := hus.split
    obtain ⟨piece, rfl, hsemi, hstands⟩ := Part.exists_of_stands hes
    obtain ⟨singles, rfl, hsingles⟩ := ih hvs
    refine ⟨⟨ss, piece⟩ :: singles, by simp [Single.tokens, listed], .cons ⟨hsemi, _, _, ?_, stands_widen.1 hss, hstands⟩ hsingles⟩
    have hpositive := byteLength_pos hne
    rw [allChars_widen hspecifiers.nonempty, byteLength_append]
    omega

/-! ### The tokens of texts -/

section Texts

variable {front : Part} {parts : List Part} {source : String}

theorem exists_tokens_of_list (hfront : front.Readable) (hgap : front.gap ≠ []) (hparts : ∀ part ∈ parts, part.Readable)
    (hne : parts ≠ []) (hsource : source.toList = front.chars ++ [',', ' '].intercalate (parts.map Part.chars) ++ [';']) :
    ∃ ss init last stop, tokenize source = .ok (ss ++ listed (init ++ [last]) ++ [stop]) ∧
      (∀ piece ∈ init, piece.stop.kind = .punct .comma) ∧ last.stop.kind = .punct .semi ∧ stop.kind = .eof ∧
      Stands 0 front.row ss ∧ List.Forall₂ (fun (part : Part) (piece : Piece) =>
        ∃ there, FarApart front.row part.row 0 there ss piece.tokens) parts (init ++ [last]) := by
  obtain ⟨part, parts, rfl⟩ := List.exists_cons_of_ne_nil hne
  have hchars : source.toList = allChars (front.row ++ listRow front.gap (part :: parts)) ++ [] := by
    rw [hsource, Lexed.allChars_append, chars_listRow hparts, Part.chars]
    simp
  have hreads : Reads (front.row ++ listRow front.gap (part :: parts)) [] := by
    refine reads_append.2 ⟨?_, reads_listRow hfront.reads.isGap hparts⟩
    rw [chars_listRow hparts, List.append_assoc, List.append_assoc]
    exact hfront.reads.behindGap hgap _
  obtain ⟨body, stop, htokens, hbody, hstop⟩ := tokenize_of_reads hchars hreads rfl
  obtain ⟨ss, es, rfl, hss, hes⟩ := hbody.split
  obtain ⟨init, last, rfl, hinit, hlast, hpieces⟩ := exists_of_listRow hparts hes
  refine ⟨ss, init, last, stop, htokens, hinit, hlast, hstop, hss, hpieces.imp ?_⟩
  rintro part piece ⟨there, hle, hpiece⟩
  have hpositive := byteLength_pos hgap
  exact ⟨there, by omega, hss, hpiece⟩

theorem exists_tokens_of_singles (hfront : front.Readable) (hgap : front.gap ≠ []) (hparts : ∀ part ∈ parts, part.Readable)
    (hne : parts ≠ []) (hsource : source.toList = [' '].intercalate (parts.map fun part => front.chars ++ part.chars ++ [';'])) :
    ∃ singles stop, tokenize source = .ok (singles.flatMap Single.tokens ++ [stop]) ∧ stop.kind = .eof ∧
      List.Forall₂ (fun (part : Part) (single : Single) => single.declarator.stop.kind = .punct .semi ∧
        ∃ here there, FarApart front.row part.row here there single.specifiers single.declarator.tokens) parts singles := by
  obtain ⟨part, parts, rfl⟩ := List.exists_cons_of_ne_nil hne
  have hchars : source.toList = allChars (eachRow [] front (part :: parts)) ++ [] := by
    rw [hsource, chars_eachRow hfront hparts, List.nil_append, List.append_nil]
  obtain ⟨body, stop, htokens, hbody, hstop⟩ := tokenize_of_reads hchars (reads_eachRow hfront hgap .nil hparts) rfl
  obtain ⟨singles, rfl, hsingles⟩ := exists_of_eachRow hfront hgap hbody
  exact ⟨singles, stop, htokens, hstop, hsingles⟩

end Texts

end CHeader
