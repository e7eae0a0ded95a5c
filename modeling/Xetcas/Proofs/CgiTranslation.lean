import Xetcas.Proofs.CgiOutput
import Xetcas.Routes.GitCgi

namespace Xetcas.Proofs.CgiTranslation
open Lib Routes.Git CgiOutput

/-- A field of a CGI header: a name and a value on one line of ASCII. -/
structure CgiField where
  name : List Char
  value : List Char
  ascii : ∀ c ∈ name ++ value, c.toNat < 128 := by simp
  oneLine : ∀ c ∈ name ++ value, c ≠ '\n' ∧ c ≠ '\r' := by simp
  uncolon : ':' ∉ name := by decide
  trimmed : trim name = name ∧ trim value = value := by decide

namespace CgiField

def line (f : CgiField) : List Char := f.name ++ ':' :: ' ' :: f.value

def isStatus (f : CgiField) : Bool := eqIgnoreAsciiCase f.name "Status".toList

def header (http : HeaderSyntax) (f : CgiField) : Except String (String × String) := do
  let name ← http.name f.name
  let value ← http.value f.value
  .ok (name, value)

end CgiField

/-- What a CGI program writes: fields, a line end and another one, and a body. -/
def output (eol : List Char) (fields : List CgiField) (body : Bytes) : Bytes :=
  asciiBytes (joinLines eol (fields.map CgiField.line) ++ eol ++ eol) ++ body

def statusOf (fields : List CgiField) : Nat :=
  (((fields.filter CgiField.isStatus).getLast?).map (fun f => statusCode f.value)).getD 200

def headersOf (http : HeaderSyntax) (fields : List CgiField) : Builder :=
  (fields.filter (fun f => !f.isStatus)).mapM (CgiField.header http)

section Fields

theorem translateLine_field (http : HeaderSyntax) (f : CgiField) (so : Nat × Builder) :
    translateLine http so f.line = if f.isStatus then (statusCode f.value, so.2)
    else (so.1, so.2.header http f.name f.value) := by
  have hblank : Blank [' '] := by simp [Blank, isWhiteSpace]
  have hvalue := trim_around hblank .nil f.value
  rw [List.append_nil, f.trimmed.2, List.singleton_append] at hvalue
  rw [translateLine, CgiField.line, splitOnce_append _ f.uncolon]
  simp only [f.trimmed.1, hvalue]
  rfl

theorem header_field (http : HeaderSyntax) (builder : Builder) (f : CgiField) :
    builder.header http f.name f.value = (do
      let headers ← builder
      let header ← f.header http
      .ok (headers ++ [header])) := by
  unfold Builder.header CgiField.header
  cases builder with
  | error e => rfl
  | ok headers =>
    cases http.name f.name with
    | error e => rfl
    | ok name =>
      cases http.value f.value with
      | error e => rfl
      | ok value => rfl

theorem headersOf_status (http : HeaderSyntax) {f : CgiField} (h : f.isStatus = true)
    (fields : List CgiField) : headersOf http (f :: fields) = headersOf http fields := by
  simp [headersOf, h]

theorem headersOf_header (http : HeaderSyntax) {f : CgiField} (h : f.isStatus = false)
    (fields : List CgiField) :
    headersOf http (f :: fields) = (do
      let header ← f.header http
      let more ← headersOf http fields
      .ok (header :: more)) := by
  unfold headersOf
  rw [List.filter_cons_of_pos (by simp [h]), List.mapM_cons]
  rfl

/-- The loop sets the status from the last of its fields, and adds the others
to the headers until one is not taken. -/
theorem foldl_fields (http : HeaderSyntax) (fields : List CgiField) (status : Nat)
    (builder : Builder) :
    (fields.map CgiField.line).foldl (translateLine http) (status, builder) =
      ((((fields.filter CgiField.isStatus).getLast?).map (fun f => statusCode f.value)).getD status,
        do
          let headers ← builder
          let more ← headersOf http fields
          .ok (headers ++ more)) := by
  induction fields generalizing status builder with
  | nil =>
    cases builder with
    | error e => rfl
    | ok headers => simp [headersOf, bind, Except.bind, pure, Except.pure]
  | cons f fields ih =>
    rw [List.map_cons, List.foldl_cons, translateLine_field]
    cases hstatus : f.isStatus with
    | true =>
      rw [if_pos rfl, ih, headersOf_status http hstatus]
      simp [hstatus, List.getLast?_cons, Option.getD_map]
    | false =>
      have hfilter : (f :: fields).filter CgiField.isStatus = fields.filter CgiField.isStatus := by
        simp [hstatus]
      rw [if_neg (by simp), ih, hfilter, header_field, headersOf_header http hstatus]
      congr 1
      cases builder with
      | error e => rfl
      | ok headers =>
        cases f.header http with
        | error e => rfl
        | ok header =>
          cases headersOf http fields with
          | error e => rfl
          | ok more => simp [bind, Except.bind]

end Fields

section Ends
variable {text : List Char} {c d : Char}

def Plain (c : Char) : Prop := c ≠ '\n' ∧ c ≠ '\r'

/-- A text in which no header block ends: something else follows every line feed. -/
structure Calm (text : List Char) : Prop where
  feed : ∀ i, text[i]? = some '\n' → ∃ c, text[i + 1]? = some c ∧ Plain c
  return_ : ∀ i, text[i]? = some '\r' → i + 1 < text.length

theorem Calm.nil : Calm [] := ⟨by simp, by simp⟩

theorem Calm.cons (h : Calm text) (hc : Plain c) : Calm (c :: text) := by
  refine ⟨?_, ?_⟩
  · intro i hi
    cases i with
    | zero => exact absurd (Option.some.inj hi) hc.1
    | succ i => exact h.feed i hi
  · intro i hi
    cases i with
    | zero => exact absurd (Option.some.inj hi) hc.2
    | succ i => exact Nat.succ_lt_succ (h.return_ i hi)

theorem Calm.newline (h : Calm (c :: text)) (hc : Plain c) : Calm ('\n' :: c :: text) := by
  refine ⟨?_, ?_⟩
  · intro i hi
    cases i with
    | zero => exact ⟨c, rfl, hc⟩
    | succ i => exact h.feed i hi
  · intro i hi
    cases i with
    | zero => cases hi
    | succ i => exact Nat.succ_lt_succ (h.return_ i hi)

theorem Calm.return_newline (h : Calm ('\n' :: text)) : Calm ('\r' :: '\n' :: text) := by
  refine ⟨?_, ?_⟩
  · intro i hi
    cases i with
    | zero => cases hi
    | succ i => exact h.feed i hi
  · intro i hi
    cases i with
    | zero => simp
    | succ i => exact Nat.succ_lt_succ (h.return_ i hi)

theorem Calm.append {line : List Char} (h : Calm text) (hline : ∀ c ∈ line, Plain c) :
    Calm (line ++ text) := by
  induction line with
  | nil => exact h
  | cons c line ih =>
    rw [List.forall_mem_cons] at hline
    exact (ih hline.2).cons hline.1

theorem calm_joinLines {eol : List Char} (heol : IsEol eol) {ls : List (List Char)}
    (hne : ∀ l ∈ ls, l ≠ []) (hplain : ∀ l ∈ ls, ∀ c ∈ l, Plain c) : Calm (joinLines eol ls) := by
  induction ls with
  | nil => exact .nil
  | cons line ls ih =>
    rw [List.forall_mem_cons] at hne hplain
    cases ls with
    | nil =>
      have hline := Calm.nil.append hplain.1
      rwa [List.append_nil] at hline
    | cons next rest =>
      have hrest := ih hne.2 hplain.2
      -- the next line begins with something
      obtain ⟨c, more, hnext⟩ : ∃ c more, joinLines eol (next :: rest) = c :: more ∧ Plain c := by
        obtain ⟨c, cs, rfl⟩ := List.exists_cons_of_ne_nil (hne.2 next (by simp))
        have hc := hplain.2 (c :: cs) (by simp) c (by simp)
        cases rest with
        | nil => exact ⟨c, cs, rfl, hc⟩
        | cons after rest => exact ⟨c, _, rfl, hc⟩
      rw [joinLines, List.append_assoc]
      apply Calm.append _ hplain.1
      rw [hnext.1] at hrest ⊢
      rcases heol with rfl | rfl
      · exact hrest.newline hnext.2
      · exact (hrest.newline hnext.2).return_newline

end Ends

theorem mem_joinLines {eol : List Char} {ls : List (List Char)} {c : Char}
    (h : c ∈ joinLines eol ls) : c ∈ eol ∨ ∃ l ∈ ls, c ∈ l := by
  induction ls with
  | nil => cases h
  | cons line ls ih =>
    cases ls with
    | nil => exact .inr ⟨line, by simp, h⟩
    | cons next rest =>
      rw [joinLines, List.mem_append, List.mem_append] at h
      rcases h with (hline | heol) | hrest
      · exact .inr ⟨line, by simp, hline⟩
      · exact .inl heol
      · rcases ih hrest with heol | ⟨l, hl, hc⟩
        · exact .inl heol
        · exact .inr ⟨l, List.mem_cons_of_mem _ hl, hc⟩

section Output
variable {eol : List Char} {fields : List CgiField} {body : Bytes}

def headOf (eol : List Char) (fields : List CgiField) : List Char :=
  joinLines eol (fields.map CgiField.line)

theorem CgiField.mem_line {f : CgiField} {c : Char} (h : c ∈ f.line) :
    c.toNat < 128 ∧ Plain c := by
  rw [CgiField.line, List.mem_append, List.mem_cons, List.mem_cons] at h
  rcases h with hname | rfl | rfl | hvalue
  · exact ⟨f.ascii c (by simp [hname]), f.oneLine c (by simp [hname])⟩
  · exact ⟨by decide, by decide, by decide⟩
  · exact ⟨by decide, by decide, by decide⟩
  · exact ⟨f.ascii c (by simp [hvalue]), f.oneLine c (by simp [hvalue])⟩

theorem headOf_ascii (heol : IsEol eol) : ∀ c ∈ headOf eol fields, c.toNat < 128 := by
  intro c hc
  rcases mem_joinLines hc with hend | ⟨l, hl, hmem⟩
  · rcases heol with rfl | rfl
    · rw [List.mem_singleton.mp hend]
      decide
    · rcases List.mem_cons.mp hend with rfl | hend
      · decide
      · rw [List.mem_singleton.mp hend]
        decide
  · obtain ⟨f, _, rfl⟩ := List.mem_map.mp hl
    exact (CgiField.mem_line hmem).1

theorem lines_nonempty : ∀ l ∈ fields.map CgiField.line, l ≠ [] := by
  intro l hl
  obtain ⟨f, _, rfl⟩ := List.mem_map.mp hl
  simp [CgiField.line]

theorem headOf_calm (heol : IsEol eol) : Calm (headOf eol fields) := by
  refine calm_joinLines heol lines_nonempty ?_
  intro l hl c hc
  obtain ⟨f, _, rfl⟩ := List.mem_map.mp hl
  exact (CgiField.mem_line hc).2

theorem lines_headOf (heol : IsEol eol) :
    lines (fromUtf8Lossy (asciiBytes (headOf eol fields))) = fields.map CgiField.line := by
  rw [fromUtf8Lossy_ascii (headOf_ascii heol)]
  refine lines_joinLines heol lines_nonempty ?_
  intro l hl
  obtain ⟨f, _, rfl⟩ := List.mem_map.mp hl
  exact ⟨fun h => (CgiField.mem_line h).2.1 rfl, fun h => (CgiField.mem_line h).2.2 rfl⟩

theorem output_eq : output eol fields body =
    asciiBytes (headOf eol fields) ++ (asciiBytes (eol ++ eol) ++ body) := by
  simp [output, headOf, asciiBytes]

/-- The bytes of the header block are its characters. -/
theorem output_byte (heol : IsEol eol) {i : Nat} (hi : i < (headOf eol fields).length) {d : Char}
    (hd : d.toNat < 128)
    (hbyte : (output eol fields body)[i]? = some (UInt8.ofNat d.toNat)) :
    (headOf eol fields)[i]? = some d := by
  rw [output_eq, List.getElem?_append_left (by simpa [asciiBytes] using hi), asciiBytes,
    List.getElem?_map, List.getElem?_eq_getElem hi, Option.map_some, Option.some.injEq] at hbyte
  rw [List.getElem?_eq_getElem hi, Option.some.injEq]
  have hsmall := headOf_ascii heol _ (List.getElem_mem hi)
  have hsame := congrArg UInt8.toNat hbyte
  rw [UInt8.toNat_ofNat', UInt8.toNat_ofNat'] at hsame
  exact Char.toNat_inj.mp (by omega)

/-- An output's header block ends where the fields do. -/
theorem output_firstEnd (heol : IsEol eol) : FirstEnd (output eol fields body)
    (headOf eol fields).length (asciiBytes (eol ++ eol)) := by
  have hlength : (asciiBytes (headOf eol fields)).length = (headOf eol fields).length := by
    simp [asciiBytes]
  refine ⟨⟨?_, ?_⟩, ?_⟩
  · rcases heol with rfl | rfl
    · exact .inr rfl
    · exact .inl rfl
  · rw [output_eq, ← hlength, List.drop_left]
    exact List.prefix_append _ _
  · intro j t hends
    by_contra hlt
    have hj := Nat.lt_of_not_le hlt
    have hcalm : Calm (headOf eol fields) := headOf_calm heol
    have hlf : '\n'.toNat < 128 := by decide
    have hcr : '\r'.toNat < 128 := by decide
    rcases hends.1 with rfl | rfl
    · -- CR LF CR LF: what follows the first LF is in the header block, and no CR
      have hfirst := output_byte heol hj hcr (hends.byte (i := 0) (by decide))
      have hsecond := output_byte heol (hcalm.return_ j hfirst) hlf (hends.byte (i := 1) (by decide))
      obtain ⟨c, hc, hplain⟩ := hcalm.feed _ hsecond
      have hthird := output_byte heol (List.getElem?_eq_some_iff.mp hc).1 hcr
        (hends.byte (i := 2) (by decide))
      rw [hc] at hthird
      exact hplain.2 (Option.some.inj hthird)
    · have hfirst := output_byte heol hj hlf (hends.byte (i := 0) (by decide))
      obtain ⟨c, hc, hplain⟩ := hcalm.feed _ hfirst
      have hsecond := output_byte heol (List.getElem?_eq_some_iff.mp hc).1 hlf
        (hends.byte (i := 1) (by decide))
      rw [hc] at hsecond
      exact hplain.1 (Option.some.inj hsecond)

end Output

/-- However an output arrives, it is cut where its header block ends. -/
theorem splitOutput_at {chunks : List Bytes} {k : Nat} {t : Bytes} (hne : ∀ c ∈ chunks, c ≠ [])
    (h : FirstEnd chunks.flatten k t) : ∃ body : List Bytes,
    splitOutput (chunks.map .ok) = .ok (chunks.flatten.take k, body.map .ok) ∧
      body.flatten = chunks.flatten.drop (k + t.length) := by
  obtain ⟨buffered, split, left, hread, hsplits⟩ := readHead_splits [] chunks hne
  rw [List.nil_append] at hsplits
  have hfound : split = some (k, k + t.length) :=
    hsplits.found.trans (findHeaderEnd_eq_some.mpr ⟨t, h, rfl⟩)
  subst hfound
  obtain ⟨t', hfirst, hbody⟩ := findHeaderEnd_some (hsplits.inside rfl)
  have hfits : k + t.length ≤ buffered.length := by
    have hlength := hfirst.ends.length.2
    simp only at hbody hlength
    omega
  refine ⟨buffered.drop (k + t.length) :: left, ?_, ?_⟩
  · rw [splitOutput, hread, ← hsplits.whole,
      List.take_append_of_le_length (Nat.le_of_add_right_le hfits)]
    rfl
  · rw [← hsplits.whole, List.drop_append_of_le_length hfits, List.flatten_cons]

section Translation
variable {eol : List Char} {fields : List CgiField} {body : Bytes} {chunks : List Bytes}

/-- Whatever a CGI program writes, in whatever pieces it arrives, is answered:
the status of its `Status` field or 200, its other fields as headers in their
order, and its body. A field that is no header is an internal error. -/
theorem git_output_translated (http : HeaderSyntax) (heol : IsEol eol)
    (hchunks : ∀ c ∈ chunks, c ≠ []) (hout : chunks.flatten = output eol fields body) :
    (∀ headers, headersOf http fields = .ok headers → ∃ reads : List Bytes,
      cgi http (chunks.map .ok) = .ok ⟨statusOf fields, headers, reads.map .ok⟩ ∧
      reads.flatten = body) ∧
    (∀ e, headersOf http fields = .error e →
      cgi http (chunks.map .ok) = .error (.internal s!"build git response: {e}")) := by
  have hfirst : FirstEnd chunks.flatten (headOf eol fields).length (asciiBytes (eol ++ eol)) := by
    rw [hout]
    exact output_firstEnd heol
  obtain ⟨reads, hsplit, hreads⟩ := splitOutput_at hchunks hfirst
  have hlength : (asciiBytes (headOf eol fields)).length = (headOf eol fields).length := by
    simp [asciiBytes]
  rw [hout, output_eq, ← hlength, List.take_left] at hsplit
  have hbody : reads.flatten = body := by
    rw [hreads, hout, output_eq, ← List.append_assoc, ← hlength, ← List.length_append,
      List.drop_left]
  have hloop := foldl_fields http fields 200 (.ok [])
  refine ⟨?_, ?_⟩
  · intro headers hheaders
    refine ⟨reads, ?_, hbody⟩
    rw [cgi, hsplit]
    simp only [bind, Except.bind, lines_headOf heol, hloop, hheaders]
    rfl
  · intro e he
    rw [cgi, hsplit]
    simp only [bind, Except.bind, lines_headOf heol, hloop, he]

end Translation

/-- Names are tokens and kept in lower case; values are visible. -/
def tokenSyntax : HeaderSyntax where
  name s :=
    if s.all (fun c => c.isAlphanum || c == '-') && !s.isEmpty then
      .ok (String.ofList (s.map Char.toLower))
    else .error "invalid HTTP header name"
  value s :=
    if s.all (fun c => 32 ≤ c.toNat && c.toNat < 127 || c == '\t') then .ok (String.ofList s)
    else .error "failed to parse header value"

def statusField : CgiField := { name := "Status".toList, value := "404 Not Found".toList }

def typeField : CgiField := { name := "Content-Type".toList, value := "text/plain".toList }

/-- A missing repository, in two pieces. -/
theorem missing_repository_translated : ∃ reads : List Bytes,
    cgi tokenSyntax ([asciiBytes "Content-Type: text/plain\r\nStatus: 404 No".toList,
      asciiBytes "t Found\r\n\r\nno such".toList].map .ok) =
      .ok ⟨404, [("content-type", "text/plain")], reads.map .ok⟩ ∧
    reads.flatten = asciiBytes "no such".toList := by
  have hout : [asciiBytes "Content-Type: text/plain\r\nStatus: 404 No".toList,
      asciiBytes "t Found\r\n\r\nno such".toList].flatten =
      output "\r\n".toList [typeField, statusField] (asciiBytes "no such".toList) := by decide
  have hheaders : headersOf tokenSyntax [typeField, statusField] =
      .ok [("content-type", "text/plain")] := by decide
  exact (git_output_translated tokenSyntax (.inr rfl) (by decide) hout).1 _ hheaders

end Xetcas.Proofs.CgiTranslation
