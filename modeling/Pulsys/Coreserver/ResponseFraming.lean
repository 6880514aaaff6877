import Pulsys.Coreserver.Message
import Pulsys.Coreserver.ResponseText

/-!
# When a slow-path response is one message

The response writer trusts the handler, and `Exchange.Fits` is what the handler has to get
right. For header maps whose names are tokens and whose values hold no line end it is also
necessary (`Exchange.isMessage_text_iff`).
-/

namespace Coreserver

open Bytes Bufio

/-! ## The chunks of a body -/

variable {body payload : Bytes} {k : HeaderName} {ls : List (Bytes × Bytes)}

theorem Chunked.cons_write (p : Bytes) (h : Chunked payload body) :
    Chunked (chunkText p ++ payload) (p ++ body) := by
  unfold chunkText chunkPieces
  by_cases hp : p = []
  · simpa [hp] using h
  · rw [if_neg hp]
    have hhex : ∀ c ∈ Numeral.format 16 p.length, Numeral.isHexDigit c = true := by
      intro c hc
      obtain ⟨d, hd, rfl⟩ := Numeral.exists_of_mem_format (by omega) hc
      exact Numeral.isHexDigit_digit hd
    have hval : Numeral.value 16 (Numeral.format 16 p.length) = p.length :=
      Numeral.value_format (by omega) le_rfl
    simpa using Chunked.chunk (Numeral.format_ne_nil _) hhex hval hp h

theorem chunked_writes (ws : List Bytes) :
    Chunked ((ws.map chunkText).flatten ++ ascii "0\r\n\r\n") ws.flatten := by
  induction ws with
  | nil => exact Chunked.last
  | cons p ws ih =>
    rw [List.map_cons, List.flatten_cons, List.append_assoc, List.flatten_cons]
    exact ih.cons_write p

theorem statusText_text (code : ℤ) : ∀ c ∈ statusText code, TextByte c :=
  validHeaderValue_iff.mp (validHeaderValue_statusText code)

theorem sp_notMem_of_digits {b : Bytes} (h : ∀ c ∈ b, Text.isDigit c = true) : SP ∉ b :=
  fun hc => absurd (h SP hc) (by decide)

theorem itoa_digits_iff {code : ℤ} :
    ((itoa code).length = 3 ∧ ∀ c ∈ itoa code, Text.isDigit c = true)
      ↔ 100 ≤ code ∧ code ≤ 999 := by
  unfold itoa
  split
  · next hneg =>
    refine ⟨fun ⟨_, h⟩ => absurd (h 45 List.mem_cons_self) (by decide), fun h => ?_⟩
    omega
  · next hpos =>
    rw [and_iff_left (fun c hc => Numeral.isDigit_of_mem_format hc), Numeral.length_format_eq_three]
    omega

theorem decimal_itoa {code : ℤ} (h : 100 ≤ code) : Text.decimal (itoa code) = code.toNat := by
  unfold itoa
  rw [if_neg (by omega), Numeral.decimal_eq_value (fun c hc => Numeral.isDigit_of_mem_format hc),
    Numeral.value_format (by omega) (by omega)]
  omega

/-! ## Header lines -/

def WellFormedLine (l : Bytes × Bytes) : Prop :=
  validHeaderName l.1 = true ∧ validHeaderValue l.2 = true

instance (l : Bytes × Bytes) : Decidable (WellFormedLine l) :=
  inferInstanceAs (Decidable (_ ∧ _))

def lineValue (v : Bytes) : Bytes := (trimSpace ⟨0, v⟩).data

def valuesOf (k : HeaderName) (ls : List (Bytes × Bytes)) : List Bytes :=
  (ls.filter (headerName ·.1 = k)).map (lineValue ·.2)

theorem valuesOf_append (k : HeaderName) (ls ls' : List (Bytes × Bytes)) :
    valuesOf k (ls ++ ls') = valuesOf k ls ++ valuesOf k ls' := by
  simp [valuesOf]

theorem valuesOf_eq_nil_iff : valuesOf k ls = [] ↔ ∀ l ∈ ls, headerName l.1 ≠ k := by
  simp [valuesOf, List.filter_eq_nil_iff]

theorem valuesOf_filter_ne {key : Bytes} (h : headerName key ≠ k) (ls : List (Bytes × Bytes)) :
    valuesOf k (ls.filter (·.1 ≠ key)) = valuesOf k ls := by
  unfold valuesOf
  rw [List.filter_filter]
  refine congrArg (List.map _) (List.filter_congr (fun l _ => ?_))
  have : headerName l.1 = k → l.1 ≠ key := by
    rintro hk rfl
    exact h hk
  simpa using this

theorem valuesOf_singleton_ne {key : Bytes} (h : headerName key ≠ k) (v : Bytes) :
    valuesOf k [(key, v)] = [] :=
  valuesOf_eq_nil_iff.mpr (fun l hl => by rwa [List.mem_singleton.mp hl])

def linesText (ls : List (Bytes × Bytes)) : Bytes :=
  (ls.flatMap (fun l => [l.1, ascii ": ", l.2, crlf])).flatten

theorem WellFormedLine.exists_field {l : Bytes × Bytes} (h : WellFormedLine l) :
    ∃ f : Field, f.render = l.1 ++ (ascii ": " ++ l.2) ∧ f.name = l.1
      ∧ f.value = lineValue l.2 := by
  obtain ⟨name, v⟩ := l
  obtain ⟨hne, htoken⟩ := validHeaderName_iff.mp h.1
  have htext := validHeaderValue_iff.mp h.2
  obtain ⟨lead, value, trail, hv, hlead, htrail, htrim, hnil, hdata⟩ := exists_trimmed v
  have hlead' : ∀ c ∈ SP :: lead, isBlank c = true := by
    intro c hc
    rcases List.mem_cons.mp hc with rfl | hc
    · rfl
    · exact hlead c hc
  have hvalue : ∀ c ∈ value, TextByte c := fun c hc => htext c (by simp [hv, hc])
  refine ⟨⟨name, SP :: lead, value, trail, hne, htoken, hlead', htrail, hvalue, htrim, hnil⟩,
    ?_, rfl, (hdata 0).symm⟩
  show name ++ COLON :: (SP :: lead ++ (value ++ trail)) = name ++ (ascii ": " ++ v)
  rw [hv]
  rfl

theorem exists_fields (h : ∀ l ∈ ls, WellFormedLine l) :
    ∃ fs : List Field, renderLines fs = linesText ls
      ∧ ∀ k, (named k fs).map Field.value = valuesOf k ls := by
  induction ls with
  | nil => exact ⟨[], rfl, fun _ => rfl⟩
  | cons l ls ih =>
    obtain ⟨fs, htext, hvals⟩ := ih (fun l' hl' => h l' (List.mem_cons_of_mem _ hl'))
    obtain ⟨f, hrender, hname, hvalue⟩ := (h l List.mem_cons_self).exists_field
    refine ⟨f :: fs, ?_, fun k => ?_⟩
    · rw [renderLines, htext, hrender]
      simp [linesText]
    · have hk : f.kind = headerName l.1 := by rw [Field.kind, hname]
      have := hvals k
      unfold named valuesOf at this ⊢
      rw [List.filter_cons, List.filter_cons, hk]
      split
      · rw [List.map_cons, List.map_cons, this, hvalue]
      · exact this

/-! ## One message -/

def AnnouncesBy (code : ℕ) (codings lengths : List Bytes) (payload body : Bytes) : Prop :=
  if bodyless code then payload = [] ∧ body = []
  else if codings = [] then
    lengths ≠ [] ∧ (∀ v ∈ lengths, IsLength payload.length v) ∧ body = payload
  else
    (∃ v, codings = [v] ∧ asciiEqualFold v (ascii "chunked") = true)
      ∧ lengths = [] ∧ Chunked payload body

theorem ResponseHead.announces_iff {hd : ResponseHead} :
    hd.Announces payload body
      ↔ AnnouncesBy hd.code ((named .transferEncoding hd.fields).map Field.value)
        ((named .contentLength hd.fields).map Field.value) payload body := by
  unfold ResponseHead.Announces AnnouncesBy
  have hone : (∃ f, named .transferEncoding hd.fields = [f]
        ∧ asciiEqualFold f.value (ascii "chunked") = true)
      ↔ ∃ v, (named .transferEncoding hd.fields).map Field.value = [v]
        ∧ asciiEqualFold v (ascii "chunked") = true := by
    constructor
    · rintro ⟨f, hf, hv⟩
      exact ⟨f.value, by rw [hf, List.map_singleton], hv⟩
    · rintro ⟨v, hv, hfold⟩
      obtain ⟨f, hf, rfl⟩ := List.map_eq_singleton_iff.mp hv
      exact ⟨f, hf, hfold⟩
  rw [hone]
  simp only [List.map_eq_nil_iff, ne_eq, List.forall_mem_map]

theorem AnnouncesBy.perm {code : ℕ} {ls' : List (Bytes × Bytes)} (h : ls.Perm ls') :
    AnnouncesBy code (valuesOf .transferEncoding ls) (valuesOf .contentLength ls) payload body
      ↔ AnnouncesBy code (valuesOf .transferEncoding ls') (valuesOf .contentLength ls')
        payload body := by
  have hperm : ∀ k, (valuesOf k ls).Perm (valuesOf k ls') := fun k => (h.filter _).map _
  have hnil : ∀ k, valuesOf k ls = [] ↔ valuesOf k ls' = [] := fun k =>
    ⟨fun hk => (hk ▸ hperm k).nil_eq.symm, fun hk => (hk ▸ (hperm k).symm).nil_eq.symm⟩
  have hone : ∀ v, valuesOf .transferEncoding ls = [v] ↔ valuesOf .transferEncoding ls' = [v] :=
    fun v => ⟨fun hk => List.perm_singleton.mp (hk ▸ (hperm _).symm),
      fun hk => List.perm_singleton.mp (hk ▸ hperm _)⟩
  unfold AnnouncesBy
  simp only [hnil, hone, ne_eq, (hperm .contentLength).mem_iff]

namespace Exchange

variable (x : Exchange)

def sentLines : List (Bytes × Bytes) := (sentHeader x.header x.keepAlive).lines

def WellFormed : Prop := ∀ l ∈ x.header.lines, WellFormedLine l

instance : Decidable x.WellFormed := inferInstanceAs (Decidable (∀ l ∈ _, _))

def writtenLines : List (Bytes × Bytes) :=
  Header.linesOf (x.order.order (sentHeader x.header x.keepAlive).entries)

theorem writtenLines_perm : x.writtenLines.Perm x.sentLines :=
  (x.order.perm _).flatMap_right _

theorem text_eq : x.text = httpVersion ++ (itoa x.code ++ SP :: (statusText x.code
    ++ CR :: LF :: (linesText x.writtenLines ++ (crlf ++ x.payload)))) := by
  simp [text, headText, headPieces, linesText, writtenLines, httpVersion, crlf]

theorem WellFormed.sentLines {x : Exchange} (h : x.WellFormed) :
    ∀ l ∈ x.sentLines, WellFormedLine l := by
  have hte : WellFormedLine (transferEncodingKey, ascii "chunked") := by decide +kernel
  have hconn : ∀ keep : Bool, WellFormedLine
      (connectionKey, if keep then ascii "keep-alive" else ascii "close") := by decide +kernel
  intro l hl
  unfold Exchange.sentLines sentHeader at hl
  simp only [Header.lines_set, Header.lines_del, List.mem_append, List.mem_filter,
    List.mem_singleton] at hl
  rcases hl with ⟨⟨hl, -⟩, -⟩ | rfl
  · split at hl
    · exact h l hl
    · simp only [Header.lines_set, Header.lines_del, List.mem_append, List.mem_filter,
        List.mem_singleton] at hl
      rcases hl with ⟨⟨hl, -⟩, -⟩ | rfl
      · exact h l hl
      · exact hte
  · exact hconn _

theorem isMessage_text_iff {x : Exchange} (h : x.WellFormed) {body : Bytes} :
    IsMessage x.text body ↔ (100 ≤ x.code ∧ x.code ≤ 999)
      ∧ AnnouncesBy x.code.toNat (valuesOf .transferEncoding x.sentLines)
        (valuesOf .contentLength x.sentLines) x.payload body := by
  have hwf : ∀ l ∈ x.writtenLines, WellFormedLine l := fun l hl =>
    h.sentLines l (x.writtenLines_perm.mem_iff.mp hl)
  obtain ⟨fs, hfs, hvals⟩ := exists_fields hwf
  rw [← AnnouncesBy.perm x.writtenLines_perm]
  simp only [← hvals]
  constructor
  · rintro ⟨hd, payload, htext, hann⟩
    rw [text_eq, ResponseHead.render] at htext
    simp only [List.append_assoc, List.cons_append, crlf, List.nil_append] at htext
    -- the status, the reason and the lines are cut off one after the other
    obtain ⟨hcode, hrest⟩ := cut_unique (notMem_itoa (by decide) (by decide) _)
      (sp_notMem_of_digits hd.digits_digit) (List.append_cancel_left htext)
    obtain ⟨hreason, hrest⟩ := cut_unique (cr_notMem_of_text (statusText_text _))
      (cr_notMem_of_text hd.reason_text) hrest
    rw [← hfs] at hrest
    obtain ⟨rfl, rfl⟩ := renderLines_injective (List.cons_injective.eq_iff.mp hrest)
    have hrange : 100 ≤ x.code ∧ x.code ≤ 999 := itoa_digits_iff.mp (by
      rw [hcode]
      exact ⟨hd.digits_length, hd.digits_digit⟩)
    have hcode' : hd.code = x.code.toNat := by
      rw [ResponseHead.code, ← hcode, decimal_itoa hrange.1]
    exact ⟨hrange, hcode' ▸ ResponseHead.announces_iff.mp hann⟩
  · rintro ⟨hrange, hann⟩
    obtain ⟨hlen, hdig⟩ := itoa_digits_iff.mpr hrange
    refine ⟨⟨itoa x.code, statusText x.code, fs, hlen, hdig, statusText_text _⟩, x.payload,
      ?_, ?_⟩
    · rw [text_eq, ResponseHead.render, hfs]
      simp [crlf]
    · refine ResponseHead.announces_iff.mpr ?_
      rw [ResponseHead.code, decimal_itoa hrange.1]
      exact hann

/-! ## What the handler has to get right -/

def Fits : Prop :=
  (100 ≤ x.code ∧ x.code ≤ 999)
    ∧ if bodyless x.code.toNat then (announced x.header).isSome ∧ x.written = []
      else if (announced x.header).isSome then
        ∀ l ∈ x.header.lines, headerName l.1 ≠ .transferEncoding
          ∧ (headerName l.1 = .contentLength → IsLength x.written.length (lineValue l.2))
      else
        ∀ l ∈ x.header.lines, (headerName l.1 = .transferEncoding → l.1 = transferEncodingKey)
          ∧ (headerName l.1 = .contentLength → l.1 = contentLengthKey)

instance : Decidable x.Fits := by
  unfold Fits
  infer_instance

theorem valuesOf_sentLines {k : HeaderName} (hk : k ≠ .connection) :
    valuesOf k x.sentLines = valuesOf k (if (announced x.header).isSome then x.header
      else (x.header.del contentLengthKey).set transferEncodingKey (ascii "chunked")).lines := by
  have hconn : headerName connectionKey ≠ k := by
    have : headerName connectionKey = .connection := by decide +kernel
    rw [this]
    exact hk.symm
  unfold sentLines sentHeader
  rw [Header.lines_set, Header.lines_del, valuesOf_append, valuesOf_singleton_ne hconn,
    List.append_nil, valuesOf_filter_ne hconn, valuesOf_filter_ne hconn]

theorem headerName_contentLengthKey : headerName contentLengthKey = .contentLength := by
  decide +kernel

theorem headerName_transferEncodingKey : headerName transferEncodingKey = .transferEncoding := by
  decide +kernel

theorem valuesOf_contentLength_ne_nil (h : (announced x.header).isSome = true) :
    valuesOf .contentLength x.header.lines ≠ [] := by
  have hget : x.header.get contentLengthKey ≠ [] := by
    intro hnil
    rw [announced, if_pos hnil] at h
    cases h
  rw [ne_eq, valuesOf_eq_nil_iff, not_forall]
  refine ⟨(contentLengthKey, x.header.get contentLengthKey), fun hall => ?_⟩
  exact hall (Header.mem_lines_of_get hget) headerName_contentLengthKey

theorem valuesOf_filter_ne_nil_iff {k : HeaderName} {key : Bytes}
    {ls : List (Bytes × Bytes)} :
    valuesOf k (ls.filter (·.1 ≠ key)) = [] ↔ ∀ l ∈ ls, headerName l.1 = k → l.1 = key := by
  rw [valuesOf_eq_nil_iff]
  simp only [List.mem_filter, decide_eq_true_eq]
  exact ⟨fun h l hl hk => by_contra fun hne => h l ⟨hl, hne⟩ hk,
    fun h l hl hk => hl.2 (h l hl.1 hk)⟩

theorem announcesBy_length_iff (hb : ¬ bodyless x.code.toNat)
    (ha : (announced x.header).isSome = true) :
    AnnouncesBy x.code.toNat (valuesOf .transferEncoding x.sentLines)
        (valuesOf .contentLength x.sentLines) x.payload x.written
      ↔ ∀ l ∈ x.header.lines, headerName l.1 ≠ .transferEncoding
        ∧ (headerName l.1 = .contentLength → IsLength x.written.length (lineValue l.2)) := by
  have hpayload : x.payload = x.written := by rw [payload, if_pos ha]
  have hcl := x.valuesOf_contentLength_ne_nil ha
  rw [x.valuesOf_sentLines (by decide), x.valuesOf_sentLines (by decide), if_pos ha, hpayload,
    AnnouncesBy, if_neg hb]
  by_cases hte : valuesOf .transferEncoding x.header.lines = []
  · rw [if_pos hte, and_iff_right hcl, and_iff_left rfl]
    rw [valuesOf_eq_nil_iff] at hte
    simp only [valuesOf, List.forall_mem_map, List.mem_filter, decide_eq_true_eq, and_imp]
    exact forall₂_congr (fun l hl => (and_iff_right (hte l hl)).symm)
  · rw [if_neg hte]
    refine ⟨fun h => absurd h.2.1 hcl, fun h => absurd ?_ hte⟩
    exact valuesOf_eq_nil_iff.mpr (fun l hl => (h l hl).1)

theorem announcesBy_chunked_iff (hb : ¬ bodyless x.code.toNat)
    (ha : ¬ (announced x.header).isSome = true) :
    AnnouncesBy x.code.toNat (valuesOf .transferEncoding x.sentLines)
        (valuesOf .contentLength x.sentLines) x.payload x.written
      ↔ ∀ l ∈ x.header.lines, (headerName l.1 = .transferEncoding → l.1 = transferEncodingKey)
        ∧ (headerName l.1 = .contentLength → l.1 = contentLengthKey) := by
  have hcl : headerName contentLengthKey ≠ .transferEncoding := by
    rw [headerName_contentLengthKey]
    decide
  have hte : headerName transferEncodingKey ≠ .contentLength := by
    rw [headerName_transferEncodingKey]
    decide
  have hone : valuesOf .transferEncoding [(transferEncodingKey, ascii "chunked")]
      = [ascii "chunked"] := by decide +kernel
  have hfold : asciiEqualFold (ascii "chunked") (ascii "chunked") = true := by decide +kernel
  have hchunks : Chunked x.payload x.written := by
    rw [payload, if_neg ha]
    exact chunked_writes x.writes
  rw [x.valuesOf_sentLines (by decide), x.valuesOf_sentLines (by decide), if_neg ha,
    Header.lines_set, Header.lines_del, valuesOf_append, valuesOf_append, hone,
    valuesOf_singleton_ne hte, List.append_nil, valuesOf_filter_ne hte, AnnouncesBy, if_neg hb,
    if_neg (by simp)]
  have hsingle : ∀ vs : List Bytes, (∃ v, vs ++ [ascii "chunked"] = [v]
      ∧ asciiEqualFold v (ascii "chunked") = true) ↔ vs = [] := by
    intro vs
    constructor
    · rintro ⟨v, hv, -⟩
      simpa using congrArg List.length hv
    · rintro rfl
      exact ⟨_, rfl, hfold⟩
  rw [hsingle, valuesOf_filter_ne_nil_iff, valuesOf_filter_ne_nil_iff]
  simp only [List.mem_filter, decide_eq_true_eq, hchunks, and_true, and_imp]
  refine ⟨fun h l hl => ⟨fun hk => h.1 l hl ?_ hk, h.2 l hl⟩,
    fun h => ⟨fun l hl _ => (h l hl).1, fun l hl => (h l hl).2⟩⟩
  rintro hcl'
  exact hcl (hcl' ▸ hk)

theorem fits_iff : x.Fits ↔ (100 ≤ x.code ∧ x.code ≤ 999)
    ∧ AnnouncesBy x.code.toNat (valuesOf .transferEncoding x.sentLines)
        (valuesOf .contentLength x.sentLines) x.payload x.written := by
  unfold Fits
  refine and_congr_right (fun _ => ?_)
  by_cases hb : bodyless x.code.toNat
  · rw [if_pos hb, AnnouncesBy, if_pos hb, payload]
    by_cases ha : (announced x.header).isSome = true
    · simp [ha]
    · have hne : ∀ b : Bytes, b ++ ascii "0\r\n\r\n" ≠ [] := fun b h =>
        absurd (List.append_eq_nil_iff.mp h).2 (by decide +kernel)
      simp [ha, hne]
  · rw [if_neg hb]
    by_cases ha : (announced x.header).isSome = true
    · rw [if_pos ha, x.announcesBy_length_iff hb ha]
    · rw [if_neg ha, x.announcesBy_chunked_iff hb ha]

def Framed : Prop := x.continues = true → IsMessage x.sent x.written

/-- **A slow-path response is framed** if the connection ends with it or if it fits
well-formed header lines; among these no others are. -/
theorem framed_iff :
    (x.keepAlive = false ∨ x.Refused ∨ (x.WellFormed ∧ x.Fits) → x.Framed)
      ∧ (x.WellFormed → (x.Framed ↔ x.keepAlive = false ∨ x.Refused ∨ x.Fits)) := by
  have hsent : x.continues = true → x.sent = x.text := by
    intro h
    refine sent_eq_text ?_
    rw [Bool.eq_false_iff, ne_eq, err_finished_iff]
    exact (x.continues_iff.mp h).1
  have hfits : x.WellFormed → (IsMessage x.text x.written ↔ x.Fits) := fun hwf =>
    (isMessage_text_iff hwf).trans x.fits_iff.symm
  have hcont := x.continues_iff
  unfold Framed
  refine ⟨?_, fun hwf => ⟨fun h => ?_, ?_⟩⟩
  · rintro (hk | hr | ⟨hwf, hf⟩) h
    · exact absurd (hcont.mp h).2 (by simp [hk])
    · exact absurd hr (hcont.mp h).1
    · rw [hsent h]
      exact (hfits hwf).mpr hf
  · by_cases hc : x.continues = true
    · refine .inr (.inr ((hfits hwf).mp ?_))
      rw [← hsent hc]
      exact h hc
    · -- a connection that is not read again was refused or not kept
      by_cases hk : x.keepAlive = true
      · exact .inr (.inl (not_not.mp fun hr => hc (hcont.mpr ⟨hr, hk⟩)))
      · exact .inl (by simpa using hk)
  · rintro (hk | hr | hf) h
    · exact absurd (hcont.mp h).2 (by simp [hk])
    · exact absurd hr (hcont.mp h).1
    · rw [hsent h]
      exact (hfits hwf).mpr hf

end Exchange

def lengthExchange (length : Bytes) : Exchange where
  keepAlive := true
  calls := [.header (Header.empty.set contentLengthKey length), .write (ascii "abc")]
  order := ⟨id, fun _ => .refl _⟩
  bufSize := 4096
  limit := none

theorem framed_iff_abc : (lengthExchange (ascii "3")).WellFormed
    ∧ (lengthExchange (ascii "3")).Fits ∧ (lengthExchange (ascii "3")).Framed := by
  have hwf : (lengthExchange (ascii "3")).WellFormed := by decide +kernel
  have hfits : (lengthExchange (ascii "3")).Fits := by decide +kernel
  exact ⟨hwf, hfits, (lengthExchange (ascii "3")).framed_iff.1 (.inr (.inr ⟨hwf, hfits⟩))⟩

/-- **A response that is cut short is not framed.** -/
theorem short_response_not_framed : ¬ (lengthExchange (ascii "5")).Framed := by
  have hwf : (lengthExchange (ascii "5")).WellFormed := by decide +kernel
  have hfits : ¬ (lengthExchange (ascii "5")).Fits := by decide +kernel
  have hsent : (lengthExchange (ascii "5")).continues = true
      ∧ (lengthExchange (ascii "5")).sent = (lengthExchange (ascii "5")).text := by
    decide +kernel
  intro h
  have := (Exchange.isMessage_text_iff hwf).mp (hsent.2 ▸ h hsent.1)
  exact hfits ((lengthExchange (ascii "5")).fits_iff.mpr this)

end Coreserver
