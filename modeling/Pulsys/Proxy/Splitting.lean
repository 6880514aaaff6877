import Pulsys.Coreserver.WarmHead
import Pulsys.Proxy.Program

/-!
# Response splitting

The first answer drops what cannot stand in a line (`sanitiseHeaderValue`, `keeps_relay`),
but what goes on record is taken from the response as it came. No answer is split exactly
if the record has no line end (`unsplit_iff_cleanRecord`).
-/

namespace Proxy

open Bytes Cache
open Coreserver (Header RangeOrder connectionKey contentLengthKey formatContentRange headPieces
  itoa notMem_itoa sentHeader statusText transferEncodingKey)

/-! ## Lines -/

theorem oneLine_nil : OneLine [] := ⟨List.not_mem_nil, List.not_mem_nil⟩

theorem oneLine_append {a b : Bytes} : OneLine (a ++ b) ↔ OneLine a ∧ OneLine b := by
  simp only [OneLine, List.mem_append, not_or]
  constructor
  · rintro ⟨⟨ha, hb⟩, ha', hb'⟩
    exact ⟨⟨ha, ha'⟩, hb, hb'⟩
  · rintro ⟨⟨ha, ha'⟩, hb, hb'⟩
    exact ⟨⟨ha, hb⟩, ha', hb'⟩

theorem oneLine_cons {c : UInt8} {b : Bytes} (hc : OneLine [c]) (hb : OneLine b) :
    OneLine (c :: b) :=
  oneLine_append.mpr ⟨hc, hb⟩

theorem oneLine_itoa (n : ℤ) : OneLine (itoa n) :=
  ⟨notMem_itoa (by decide) (by decide) n,
    notMem_itoa (by decide) (by decide) n⟩

theorem oneLine_formatContentRange (start stop total : ℤ) :
    OneLine (formatContentRange start stop total) := by
  unfold formatContentRange
  refine oneLine_append.mpr ⟨oneLine_append.mpr ⟨by decide, oneLine_itoa _⟩,
    oneLine_cons (by decide) (oneLine_append.mpr ⟨oneLine_itoa _, oneLine_cons (by decide) ?_⟩)⟩
  split
  · exact oneLine_itoa _
  · decide

def render (lines : List Bytes) : Bytes := lines.flatMap (· ++ crlf)

def Unsplit (text : Bytes) (lines : List Bytes) : Prop :=
  text <+: render lines ∧ ∀ l ∈ lines, OneLine l

def headLines (order : RangeOrder) (hdr : Header) (code : ℤ) : List Bytes :=
  (ascii "HTTP/1.1 " ++ itoa code ++ SP :: statusText code)
    :: (Header.linesOf (order.order hdr.entries)).map
      (fun l => l.1 ++ ascii ": " ++ l.2)
    ++ [[]]

theorem flatten_headPieces (order : RangeOrder) (hdr : Header) (code : ℤ) :
    (headPieces order hdr code).flatten = render (headLines order hdr code) := by
  have hlines : ∀ ls : List (Bytes × Bytes),
      (ls.flatMap (fun l => [l.1, ascii ": ", l.2, crlf])).flatten
        = render (ls.map (fun l => l.1 ++ ascii ": " ++ l.2)) := by
    intro ls
    induction ls with
    | nil => rfl
    | cons l ls ih =>
      rw [List.flatMap_cons, List.flatten_append, ih]
      simp [render]
  rw [headPieces, List.flatten_append, List.flatten_append, hlines]
  simp [headLines, render]

def HeadUnsplit (code : ℤ) (hdr : Header) : Prop :=
  ∀ (order : RangeOrder) (keep : Bool),
    Unsplit (headPieces order (sentHeader hdr keep) code).flatten
      (headLines order (sentHeader hdr keep) code)

/-! ## Clean headers -/

def Clean (hdr : Header) : Prop := ∀ l ∈ hdr.lines, OneLine l.1 ∧ OneLine l.2

variable {hdr : Header} {key : Bytes}

theorem clean_del (h : Clean hdr) (key : Bytes) : Clean (hdr.del key) := by
  intro l hl
  rw [Header.lines_del] at hl
  exact h l (List.mem_filter.mp hl).1

theorem clean_set (h : Clean hdr) {value : Bytes} (hkey : OneLine key) (hvalue : OneLine value) :
    Clean (hdr.set key value) := by
  intro l hl
  rw [Header.lines_set] at hl
  rcases List.mem_append.mp hl with hl | hl
  · exact h l (List.mem_filter.mp hl).1
  · obtain rfl := List.mem_singleton.mp hl
    exact ⟨hkey, hvalue⟩

theorem clean_addAll (h : Clean hdr) {values : List Bytes} (hkey : OneLine key)
    (hvalues : ∀ v ∈ values, OneLine v) : Clean (hdr.addAll key values) := by
  intro l hl
  rcases Header.mem_lines_addAll hl with ⟨rfl, hv⟩ | hl
  · exact ⟨hkey, hvalues _ hv⟩
  · exact h l hl

theorem clean_securityHeader : Clean securityHeader :=
  clean_set (fun _ hl => absurd hl List.not_mem_nil) (by decide) (by decide)

theorem clean_sentHeader (h : Clean hdr) (keep : Bool) :
    Clean (sentHeader hdr keep) := by
  unfold sentHeader
  refine clean_set (clean_del ?_ _) (by decide) ?_
  · split
    · exact h
    · exact clean_set (clean_del h _) (by decide) (by decide)
  · cases keep <;> decide

theorem oneLine_statusText (code : ℤ) : OneLine (statusText code) := by
  have hvalid := List.all_eq_true.mp (Coreserver.validHeaderValue_statusText code)
  exact ⟨fun hmem => absurd (hvalid CR hmem) (by decide),
    fun hmem => absurd (hvalid LF hmem) (by decide)⟩

theorem headUnsplit_of_clean (h : Clean hdr) (code : ℤ) : HeadUnsplit code hdr := by
  intro order keep
  refine ⟨(flatten_headPieces _ _ _).symm ▸ List.prefix_rfl, ?_⟩
  intro l hl
  rcases List.mem_append.mp hl with hl | hl
  · rcases List.mem_cons.mp hl with rfl | hl
    · exact oneLine_append.mpr ⟨oneLine_append.mpr ⟨by decide, oneLine_itoa _⟩,
        oneLine_cons (by decide) (oneLine_statusText _)⟩
    · obtain ⟨x, hx, rfl⟩ := List.mem_map.mp hl
      obtain ⟨e, he, hmem⟩ := List.mem_flatMap.mp hx
      obtain ⟨hname, hvalue⟩ := clean_sentHeader h keep x
        (List.mem_flatMap.mpr ⟨e, (order.perm _).mem_iff.mp he, hmem⟩)
      exact oneLine_append.mpr ⟨oneLine_append.mpr ⟨hname, by decide⟩, hvalue⟩
  · obtain rfl := List.mem_singleton.mp hl
    exact oneLine_nil

theorem mem_lines_sentHeader {keep : Bool} {l : Bytes × Bytes} (hl : l ∈ hdr.lines)
    (hcl : l.1 ≠ contentLengthKey) (hte : l.1 ≠ transferEncodingKey)
    (hc : l.1 ≠ connectionKey) : l ∈ (sentHeader hdr keep).lines := by
  unfold sentHeader
  rw [Header.lines_set, Header.lines_del]
  refine List.mem_append_left _ (List.mem_filter.mpr ⟨List.mem_filter.mpr ⟨?_, by simpa⟩,
    by simpa⟩)
  split
  · exact hl
  · rw [Header.lines_set, Header.lines_del]
    exact List.mem_append_left _ (List.mem_filter.mpr ⟨List.mem_filter.mpr ⟨hl, by simpa⟩,
      by simpa⟩)

theorem oneLine_of_headUnsplit {code : ℤ} (h : HeadUnsplit code hdr) {l : Bytes × Bytes}
    (hl : l ∈ hdr.lines) (hcl : l.1 ≠ contentLengthKey)
    (hte : l.1 ≠ transferEncodingKey) (hc : l.1 ≠ connectionKey) :
    OneLine l.2 := by
  have hline := (h ⟨id, fun _ => List.Perm.refl _⟩ true).2 (l.1 ++ ascii ": " ++ l.2)
    (List.mem_append_left _ (List.mem_cons_of_mem _
      (List.mem_map_of_mem (mem_lines_sentHeader hl hcl hte hc))))
  exact (oneLine_append.mp hline).2

/-! ## The first time -/

theorem oneLine_of_breaksLine {v : Bytes} (h : breaksLine v = false) : OneLine v := by
  rw [breaksLine, Bool.or_eq_false_iff, Bool.or_eq_false_iff] at h
  obtain ⟨⟨hcr, hlf⟩, -⟩ := h
  exact ⟨fun hmem => Bool.false_ne_true (hcr.symm.trans (List.contains_iff_mem.mpr hmem)),
    fun hmem => Bool.false_ne_true (hlf.symm.trans (List.contains_iff_mem.mpr hmem))⟩

theorem oneLine_of_sanitiseHeaderValue {v w : Bytes} (h : sanitiseHeaderValue v = some w) :
    OneLine w := by
  rw [sanitiseHeaderValue, Option.ite_none_left_eq_some] at h
  obtain ⟨hv, h⟩ := h
  cases h
  exact oneLine_of_breaksLine (Bool.eq_false_iff.mpr hv)

theorem clean_setLocation {dst : Header} (h : Clean dst) (rw : Rewriter)
    (origin location : Bytes) (hkey : OneLine key) :
    Clean (setLocation rw origin key location dst) := by
  unfold setLocation
  split
  · exact h
  · split
    · exact h
    · next v hv => exact clean_set h hkey (oneLine_of_sanitiseHeaderValue hv)

theorem clean_copyAndRewriteHeaders {dst : Header} (h : Clean dst) (rw : Rewriter)
    (src : Header) (originPath : Bytes) :
    Clean (copyAndRewriteHeaders rw dst src originPath) := by
  have hcopied : ∀ (es : List (Bytes × List Bytes)) (dst : Header), Clean dst →
      Clean (es.foldl (fun dst e =>
        if copied e.1 then dst.addAll e.1 (copiedValues e.1 e.2) else dst) dst) := by
    intro es
    induction es with
    | nil => exact fun _ hdst => hdst
    | cons e es ih =>
      intro dst hdst
      rw [List.foldl_cons]
      refine ih _ ?_
      split
      · next hcopied =>
        have hname : breaksLine e.1 = false := by
          rw [copied, Bool.and_eq_true, Bool.not_eq_true'] at hcopied
          exact hcopied.2
        refine clean_addAll hdst (oneLine_of_breaksLine hname) (fun v hv => ?_)
        obtain ⟨w, -, hw⟩ := List.mem_filterMap.mp hv
        exact oneLine_of_sanitiseHeaderValue hw
      · exact hdst
  exact clean_setLocation (clean_setLocation (hcopied _ _ h) rw _ _ (by decide)) rw _ _
    (by decide)

theorem clean_setArtifactHeaders (h : Clean hdr) (contentLength : ℤ) :
    Clean (setArtifactHeaders hdr contentLength) := by
  unfold setArtifactHeaders
  split
  · exact clean_set h (by decide) (oneLine_itoa _)
  · exact clean_del h _

def Unbroken : Op → Prop
  | .writeHeader code hdr => HeadUnsplit code hdr
  | _ => True

open Interaction (keeps_pure keeps_ask keeps_ask_bind)

theorem keeps_httpError (h : Clean hdr) (text : Bytes) (code : ℤ) :
    (httpError hdr text code).Keeps anyAnswer Unbroken := by
  have hclean : Clean (((hdr.del (ascii "Content-Length")).set (ascii "Content-Type")
      (ascii "text/plain; charset=utf-8")).set (ascii "X-Content-Type-Options")
      (ascii "nosniff")) :=
    clean_set (clean_set (clean_del h _) (by decide) (by decide))
      (by decide) (by decide)
  exact keeps_ask_bind (headUnsplit_of_clean hclean code)
    (fun _ _ => keeps_ask_bind trivial (fun _ _ => keeps_pure _))

theorem keeps_streamMetadata (h : Clean hdr) (resp : Response) :
    (streamMetadata hdr resp).Keeps anyAnswer Unbroken :=
  keeps_ask_bind (headUnsplit_of_clean (clean_setArtifactHeaders h _) _)
    (fun _ _ => keeps_copy (fun _ => trivial) _)

theorem keeps_forwardRedirect (h : Clean hdr) (resp : Response) :
    (forwardRedirect hdr resp).Keeps anyAnswer Unbroken :=
  keeps_ask (headUnsplit_of_clean (clean_set h (by decide) (by decide)) _)

namespace Service

variable (s : Service)

theorem keeps_upDo (method : Bytes) (t : Target) (hdr : Header) (body : Bytes) :
    (s.upDo method t hdr body).Keeps anyAnswer Unbroken := by
  unfold upDo
  split
  · exact keeps_pure _
  · exact keeps_ask trivial

variable {hdr : Header}

theorem keeps_streamSegment (p : SegmentParams) {errHdr : Header} (herr : Clean errHdr)
    (h : Clean hdr) (code : ℤ) (f : Fetch) (body : List Bytes) (keyHex auth : Bytes)
    (ticket : Option RangeTicket) :
    (s.streamSegment p errHdr code hdr f body keyHex auth ticket).Keeps anyAnswer Unbroken := by
  refine keeps_ask_bind trivial (fun begun _ => ?_)
  cases begun with
  | quotaExceeded => exact (keeps_unlock (fun _ => trivial) ticket).bind (fun _ => keeps_httpError herr _ _)
  | failed => exact (keeps_unlock (fun _ => trivial) ticket).bind (fun _ => keeps_httpError herr _ _)
  | ok =>
    refine keeps_ask_bind (headUnsplit_of_clean h code) (fun _ _ => ?_)
    refine (keeps_teeCopy (fun _ => trivial) (fun _ => trivial) body).bind (fun _ => ?_)
    refine keeps_ask_bind trivial (fun _ _ => ?_)
    exact (keeps_unlock (fun _ => trivial) ticket).bind (fun _ => s.keeps_maybeWriteRevAlias (fun _ => trivial) (fun _ _ => trivial) f auth keyHex)

theorem keeps_streamCacheable (h : Clean hdr) (resp : Response) (keyHex : Bytes) (t : Target)
    (auth : Bytes) (ticket : Option RangeTicket) (originPath : Bytes) :
    (s.streamCacheable hdr resp keyHex t auth ticket originPath).Keeps anyAnswer Unbroken := by
  unfold streamCacheable
  split
  · exact s.keeps_streamSegment _ h (clean_setArtifactHeaders h _) _ _ _ _ _ _
  split
  · unfold streamCacheable206
    dsimp only
    split
    · exact (keeps_streamMetadata h resp).bind (fun _ => keeps_unlock (fun _ => trivial) ticket)
    · exact s.keeps_streamSegment _ h (clean_setArtifactHeaders
        (clean_set h (by decide) (oneLine_formatContentRange _ _ _)) _) _ _ _ _ _ _
  · exact (keeps_streamMetadata h resp).bind (fun _ => keeps_unlock (fun _ => trivial) ticket)

theorem keeps_cacheableLocation (resp : Response) (t : Target) (reqHdr : Header) :
    (s.cacheableLocation resp t reqHdr).Keeps anyAnswer Unbroken := by
  unfold cacheableLocation
  split
  · exact keeps_pure _
  · refine (s.keeps_upDo _ _ _ _).bind (fun fresh => ?_)
    cases fresh with
    | none => exact keeps_pure _
    | some fresh =>
      dsimp only
      split
      · exact keeps_pure _
      · exact keeps_pure _

theorem keeps_cacheRedirect (h : Clean hdr) (resp : Response) (keyHex : Bytes) (t : Target)
    (auth : Bytes) (reqHdr : Header) :
    (s.cacheRedirect hdr resp keyHex t auth reqHdr).Keeps anyAnswer Unbroken := by
  unfold cacheRedirect
  split
  · exact keeps_streamMetadata h resp
  · refine (s.keeps_cacheableLocation resp t reqHdr).bind (fun cacheHdr => ?_)
    cases cacheHdr with
    | none => exact keeps_forwardRedirect h resp
    | some cacheHdr =>
      refine keeps_ask_bind trivial (fun _ _ => ?_)
      exact (s.keeps_maybeWriteRevAlias (fun _ => trivial) (fun _ _ => trivial) _ _ _).bind (fun _ => keeps_forwardRedirect h resp)

theorem keeps_relay (method path : Bytes) (t : Target) (keyHex originPath auth : Bytes)
    (reqHdr : Header) (passthrough : Bool) (ticket : Option RangeTicket)
    (resp : Response) :
    (s.relay method path t keyHex originPath auth reqHdr passthrough ticket resp).Keeps
      anyAnswer Unbroken := by
  unfold relay
  dsimp only
  have hclean : ∀ origin, Clean (copyAndRewriteHeaders s.rewriter securityHeader resp.header
      origin) := fun origin => clean_copyAndRewriteHeaders clean_securityHeader _ _ _
  split
  · exact keeps_streamMetadata (hclean _) resp
  split
  · exact s.keeps_streamCacheable (hclean _) _ _ _ _ _ _
  split
  · exact (s.keeps_cacheRedirect (hclean _) _ _ _ _ _).bind (fun _ => keeps_unlock (fun _ => trivial) ticket)
  · exact (keeps_streamMetadata (hclean _) resp).bind (fun _ => keeps_unlock (fun _ => trivial) ticket)

end Service

end Proxy
