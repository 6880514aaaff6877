import Pulsys.Base.Parties
import Pulsys.Cache.SlotSound
import Pulsys.Proxy.Splitting

/-!
# What a replay is made of

Every later answer is made from what is on record of the responses to a key
(`Cache.Slot`). Among others that are clean, no answer is split by a response exactly if it
would leave nothing on record that has a line end (`unsplit_iff_cleanRecord`).
-/

namespace Proxy

open Bytes Cache
open Coreserver (Header WarmPlan connectionKey connectionLine contentLengthKey contentLengthLine
  contentMeta itoa optionalLine transferEncodingKey)

/-! ## Locations -/

theorem oneLine_queryEscape (b : Bytes) : OneLine (queryEscape b) := by
  have hbyte : ∀ c, OneLine (queryEscape [c]) := forall_byte (by decide +kernel)
  induction b with
  | nil => exact oneLine_nil
  | cons c b ih =>
    rw [queryEscape_cons]
    exact oneLine_append.mpr ⟨hbyte c, ih⟩

namespace Rewriter

variable (rw : Rewriter)

theorem oneLine_of_locationToProxyWithOrigin {location origin v : Bytes}
    (h : rw.locationToProxyWithOrigin location origin = some v) : OneLine v := by
  obtain ⟨u, joined, hu, -, -, -, rfl⟩ := exists_of_locationToProxyWithOrigin h
  have hquery := rw.net.parse_rawQuery _ _ hu
  have hmark : OneLine (originQueryParam ++ 61 :: queryEscape origin) :=
    oneLine_append.mpr ⟨by decide, oneLine_cons (by decide) (oneLine_queryEscape _)⟩
  refine rw.net.withQuery_oneLine _ _ ?_
  unfold markQuery
  split
  · exact hquery
  · split
    · exact hmark
    · exact oneLine_append.mpr ⟨hquery, oneLine_cons (by decide) hmark⟩

theorem isSome_locationToProxyWithOrigin (location origin : Bytes) :
    (rw.locationToProxyWithOrigin location origin).isSome
      = (rw.locationToProxyWithOrigin location []).isSome := by
  unfold locationToProxyWithOrigin
  split
  · rfl
  · split
    · rfl
    · split
      · rfl
      · dsimp only
        split
        · rfl
        · split
          · rfl
          · rfl

def Replayable (location : Bytes) : Prop :=
  OneLine location ∨ (rw.locationToProxyWithOrigin location []).isSome = true

theorem oneLine_location_iff (location origin : Bytes) :
    OneLine (rw.location location origin) ↔ rw.Replayable location := by
  rw [Replayable, ← isSome_locationToProxyWithOrigin rw location origin, Rewriter.location]
  cases h : rw.locationToProxyWithOrigin location origin with
  | none => simp
  | some v => simpa using rw.oneLine_of_locationToProxyWithOrigin h

end Rewriter

/-! ## What is on record -/

structure CleanValues (eTag contentType : Bytes) (extra : List (Bytes × Bytes)) : Prop where
  eTag : OneLine eTag
  contentType : OneLine contentType
  extra : ∀ e ∈ extra, OneLine e.1 ∧ OneLine e.2

theorem CleanValues.merge {t t' c c' : Bytes} {x x' : List (Bytes × Bytes)}
    (hold : CleanValues t c x) (hnew : CleanValues t' c' x') :
    CleanValues (if t' = [] then t else t') (if c' = [] then c else c')
      (mergeExtraHeaders x x') where
  eTag := by split; exacts [hold.eTag, hnew.eTag]
  contentType := by split; exacts [hold.contentType, hnew.contentType]
  extra := forall_mem_mergeExtraHeaders hold.extra hnew.extra

structure CleanEntry (rw : Rewriter) (m : Meta) : Prop where
  values : CleanValues m.eTag m.contentType m.extraHeaders
  location : rw.Replayable m.location

abbrev CleanParams (p : SegmentParams) : Prop :=
  CleanValues p.eTag p.contentType p.extraHeaders

structure CleanRedirect (rw : Rewriter) (r : Redirect) : Prop where
  values : CleanValues r.eTag r.contentType r.extraHeaders
  location : rw.Replayable r.location

theorem cleanValues_nil : CleanValues [] [] [] :=
  ⟨oneLine_nil, oneLine_nil, fun _ he => absurd he List.not_mem_nil⟩

variable {rw : Rewriter}

theorem replayable_nil : rw.Replayable [] := .inl oneLine_nil

variable {p : SegmentParams} {old : Option Meta} {m : Meta} {key : Bytes} {interval : ℤ}
  {hdr : Header} {extra : List (Bytes × Bytes)}

theorem cleanEntry_owned (hp : CleanParams p) (hold : ∀ m ∈ old, CleanEntry rw m) :
    CleanEntry rw (p.owned old) := by
  cases old with
  | none =>
    exact ⟨⟨hp.eTag, hp.contentType, fun _ he => absurd he List.not_mem_nil⟩, replayable_nil⟩
  | some m => exact ⟨(hold m rfl).values, (hold m rfl).location⟩

theorem cleanEntry_commitMeta (hp : CleanParams p) (hold : ∀ m ∈ old, CleanEntry rw m)
    (written : ℕ) : CleanEntry rw (p.commitMeta written old) :=
  ⟨(cleanEntry_owned hp hold).values.merge hp, (cleanEntry_owned hp hold).location⟩

theorem cleanEntry_checkpointMeta (hp : CleanParams p) (hold : ∀ m ∈ old, CleanEntry rw m)
    (written : ℕ) : CleanEntry rw (p.checkpointMeta written old) := by
  have howned := cleanEntry_owned hp hold
  exact ⟨⟨howned.values.eTag, howned.values.contentType,
    forall_mem_mergeExtraHeaders howned.values.extra hp.extra⟩, howned.location⟩

theorem cleanEntry_redirectMeta {r : Redirect} (hr : CleanRedirect rw r)
    (hold : ∀ m ∈ old, CleanEntry rw m) : CleanEntry rw (redirectMeta r old) := by
  have hbase : CleanEntry rw (old.getD { version := 1 }) := by
    cases old with
    | none => exact ⟨cleanValues_nil, replayable_nil⟩
    | some m => exact hold m rfl
  exact ⟨hbase.values.merge hr.values, hr.location⟩

theorem cleanEntry_aliasMeta {a : Alias} (h : aliasMeta a old = some m) : CleanEntry rw m := by
  obtain rfl := eq_newMeta_of_aliasMeta h
  exact ⟨cleanValues_nil, replayable_nil⟩

/-! ## What happens to a key -/

def CleanEvent (rw : Rewriter) : Event → Prop
  | .beginSegment p => CleanParams p
  | .redirect r => CleanRedirect rw r
  | _ => True

structure CleanSlot (rw : Rewriter) (s : Slot) : Prop where
  entry : ∀ m ∈ s.entry, CleanEntry rw m
  params : ∀ id, CleanParams (s.params id)
  trims : ∀ t tr, s.trims t = some tr → CleanEntry rw tr.entry

theorem cleanSlot_empty : CleanSlot rw Slot.empty where
  entry := fun _ h => by cases h
  params := fun _ => cleanValues_nil
  trims := fun _ _ h => by cases h

theorem CleanSlot.step {s s' : Slot} {e : Event} (h : CleanSlot rw s) (he : CleanEvent rw e)
    (hs : s.step key interval e = some s') : CleanSlot rw s' := by
  cases Slot.steps_of_step hs with
  | beginSegment hv =>
    next p =>
    refine ⟨h.entry, fun id => ?_, h.trims⟩
    show CleanParams (Function.update s.responses s.nextResponse ⟨p, []⟩ id).params
    by_cases hid : id = s.nextResponse
    · subst hid
      rw [Function.update_self]
      exact he
    · rw [Function.update_of_ne hid]
      exact h.params id
  | cut hw hr => exact ⟨h.entry, h.params, h.trims⟩
  | cutFails hw hr => exact ⟨h.entry, h.params, h.trims⟩
  | write hw hr hf hn hmax =>
    refine ⟨h.entry, fun id => ?_, h.trims⟩
    rw [Slot.params_writeBody]
    exact h.params id
  | checkpoint hw hr hpos =>
    refine ⟨fun m hm => ?_, h.params, h.trims⟩
    cases hm
    exact cleanEntry_checkpointMeta (h.params _) h.entry _
  | commit hw hr =>
    refine ⟨fun m hm => ?_, h.params, h.trims⟩
    cases hm
    exact cleanEntry_commitMeta (h.params _) h.entry _
  | abandon hw => exact ⟨h.entry, h.params, h.trims⟩
  | redirect hv =>
    refine ⟨fun m hm => ?_, h.params, h.trims⟩
    cases hm
    exact cleanEntry_redirectMeta he h.entry
  | storeAlias hne =>
    refine ⟨fun m hm => ?_, h.params, h.trims⟩
    rcases Option.or_eq_some_iff.mp hm with ha | ⟨-, hold⟩
    · exact cleanEntry_aliasMeta ha
    · exact h.entry m hold
  | trimRead hm => exact ⟨h.entry, h.params, Parties.each_change h.trims (h.entry _ hm)⟩
  | trimWrite ht =>
    refine ⟨fun m hm => ?_, h.params, Parties.each_leave h.trims⟩
    cases hm
    exact ⟨(h.trims _ _ ht).values, (h.trims _ _ ht).location⟩
  | purgeRead hm => exact ⟨h.entry, h.params, h.trims⟩
  | remove hr =>
    refine ⟨fun m hm => ?_, h.params, h.trims⟩
    cases hm

/-! ## Answers from a clean record -/

theorem clean_withEntry (h : Clean hdr) (hm : CleanValues m.eTag m.contentType m.extraHeaders) :
    Clean (withEntry hdr m) := by
  have hextra : ∀ (extra : List (Bytes × Bytes)) (hdr : Header), Clean hdr →
      (∀ e ∈ extra, OneLine e.1 ∧ OneLine e.2) → Clean (applyExtraHeaders hdr extra) := by
    intro extra
    induction extra with
    | nil => exact fun _ h _ => h
    | cons e extra ih =>
      intro hdr h he
      refine ih _ ?_ (fun e' he' => he e' (List.mem_cons_of_mem _ he'))
      obtain ⟨hname, hvalue⟩ := he e List.mem_cons_self
      dsimp only
      split
      · exact h
      · exact clean_set h hname hvalue
  refine hextra _ _ ?_ hm.extra
  have htype : Clean (if m.contentType = [] then hdr
      else hdr.set (ascii "Content-Type") m.contentType) := by
    split
    · exact h
    · exact clean_set h (by decide) hm.contentType
  split
  · exact htype
  · exact clean_set htype (by decide) hm.eTag

theorem clean_cachedHeader (hm : CleanValues m.eTag m.contentType m.extraHeaders) :
    Clean (cachedHeader m) :=
  withEntry_securityHeader m ▸ clean_withEntry clean_securityHeader hm

theorem clean_hitHead (s : Service) (hm : CleanEntry s.rewriter m) {acquireBody : Bytes → Bool}
    {rangeHdr : Bytes} {headOnly : Bool} {hit : Hit}
    (h : serveEntry acquireBody rangeHdr headOnly key m = some hit) :
    Clean (s.hitHead rangeHdr hit).2 := by
  have hcached := clean_cachedHeader hm.values
  cases answers_of_serveEntry h with
  | redirect hstatus hloc =>
    refine clean_set (clean_withEntry (clean_set clean_securityHeader (by decide) ?_)
      hm.values) (by decide) (by decide)
    exact (s.rewriter.oneLine_location_iff _ _).mpr hm.location
  | head =>
    show Clean (headHeader m)
    unfold headHeader
    split
    · split
      · exact clean_set hcached (by decide) (oneLine_itoa _)
      · exact hcached
    · exact hcached
  | body hcov =>
    have hlength : ∀ n, Clean ((cachedHeader m).set (ascii "Content-Length")
        (itoa n)) :=
      fun n => clean_set hcached (by decide) (oneLine_itoa n)
    show Clean (bodyHeader rangeHdr m _ _)
    unfold bodyHeader
    dsimp only
    split
    · exact hlength _
    · exact clean_set (hlength _) (by decide) (oneLine_formatContentRange _ _ _)

theorem render_append (a b : List Bytes) : render (a ++ b) = render a ++ render b :=
  List.flatMap_append

def optionalLines (name value : Bytes) : List Bytes := if value = [] then [] else [name ++ value]

theorem render_optionalLines (name value : Bytes) :
    render (optionalLines name value) = optionalLine name value := by
  unfold optionalLines optionalLine
  split
  · rfl
  · simp [render]

theorem oneLine_of_mem_optionalLines {name value l : Bytes} (hname : OneLine name)
    (hvalue : OneLine value) (hl : l ∈ optionalLines name value) : OneLine l := by
  unfold optionalLines at hl
  split at hl
  · exact absurd hl List.not_mem_nil
  · obtain rfl := List.mem_singleton.mp hl
    exact oneLine_append.mpr ⟨hname, hvalue⟩

def warmLines (p : WarmPlan) (range : Bytes) (keepAlive : Bool) : List Bytes :=
  (if range = [] then ascii "HTTP/1.1 200 OK" else ascii "HTTP/1.1 206 Partial Content")
    :: (optionalLines (ascii "Content-Type: ") p.entry.contentType
      ++ optionalLines (ascii "ETag: ") p.entry.eTag
      ++ optionalLines (ascii "Content-Range: ")
        (if range = [] then []
          else Coreserver.formatContentRange p.wantStart p.wantEnd (p.entry.total.getD (-1)))
      ++ [ascii "Content-Length: " ++ itoa (p.wantEnd - p.wantStart),
        if keepAlive then ascii "Connection: keep-alive" else ascii "Connection: close", []])

theorem head_eq_render (p : WarmPlan) (range : Bytes) (keepAlive : Bool) :
    p.head range keepAlive = render (warmLines p range keepAlive) := by
  have hconn : connectionLine keepAlive
      = (if keepAlive then ascii "Connection: keep-alive" else ascii "Connection: close")
        ++ crlf := by
    cases keepAlive <;> decide
  have htail : render [ascii "Content-Length: " ++ itoa (p.wantEnd - p.wantStart),
        if keepAlive then ascii "Connection: keep-alive" else ascii "Connection: close", []]
      = contentLengthLine (p.wantEnd - p.wantStart)
        ++ connectionLine keepAlive ++ crlf := by
    simp [render, contentLengthLine, hconn]
  have hcons : ∀ (l : Bytes) (ls : List Bytes), render (l :: ls) = l ++ crlf ++ render ls :=
    fun _ _ => List.flatMap_cons
  rw [warmLines, hcons, render_append, render_append, render_append, render_optionalLines,
    render_optionalLines, render_optionalLines, htail, WarmPlan.head]
  by_cases hr : range = []
  · have h200 : ascii "HTTP/1.1 200 OK\r\n" = ascii "HTTP/1.1 200 OK" ++ crlf := by
      decide
    simp only [hr, if_true, Coreserver.warmHead200, contentMeta, h200,
      optionalLine, List.append_assoc, List.nil_append]
  · have h206 : ascii "HTTP/1.1 206 Partial Content\r\n"
        = ascii "HTTP/1.1 206 Partial Content" ++ crlf := by decide
    simp only [hr, if_false, Coreserver.warmHead206, contentMeta, h206,
      optionalLine, WarmPlan.formatContentRange_ne_nil, List.append_assoc]

theorem oneLine_warmLines {p : WarmPlan}
    (h : CleanValues p.entry.eTag p.entry.contentType p.entry.extraHeaders) (range : Bytes)
    (keepAlive : Bool) : ∀ l ∈ warmLines p range keepAlive, OneLine l := by
  intro l hl
  rcases List.mem_cons.mp hl with rfl | hl
  · split <;> decide
  · rcases List.mem_append.mp hl with hl | hl
    · rcases List.mem_append.mp hl with hl | hl
      · rcases List.mem_append.mp hl with hl | hl
        · exact oneLine_of_mem_optionalLines (by decide) h.contentType hl
        · exact oneLine_of_mem_optionalLines (by decide) h.eTag hl
      · refine oneLine_of_mem_optionalLines (by decide) ?_ hl
        split
        · exact oneLine_nil
        · exact oneLine_formatContentRange _ _ _
    · simp only [List.mem_cons, List.not_mem_nil, or_false] at hl
      rcases hl with rfl | rfl | rfl
      · exact oneLine_append.mpr ⟨by decide, oneLine_itoa _⟩
      · split <;> decide
      · exact oneLine_nil

structure ReplaysUnsplit (s : Service) (m : Meta) : Prop where
  handler : ∀ (acquireBody : Bytes → Bool) (rangeHdr : Bytes) (headOnly : Bool) (key : Bytes)
    (hit : Hit), serveEntry acquireBody rangeHdr headOnly key m = some hit →
    HeadUnsplit (s.hitHead rangeHdr hit).1 (s.hitHead rangeHdr hit).2
  warm : ∀ (p : WarmPlan) (range : Bytes) (keepAlive fused : Bool), p.entry = m →
    Unsplit (p.wire range keepAlive fused []) (warmLines p range keepAlive)

theorem replaysUnsplit_of_clean {s : Service} (hm : CleanEntry s.rewriter m) :
    ReplaysUnsplit s m where
  handler := fun _ _ _ _ _ h => headUnsplit_of_clean (clean_hitHead s hm h) _
  warm := by
    rintro p range keepAlive fused rfl
    refine ⟨?_, oneLine_warmLines hm.values range keepAlive⟩
    rw [WarmPlan.wire, List.append_nil, ← head_eq_render]
    split
    · exact List.take_prefix _ _
    · exact List.prefix_rfl

/-! ## What an answer shows of the record -/

theorem mem_lines_set_self (hdr : Header) (key value : Bytes) :
    (key, value) ∈ (hdr.set key value).lines := by
  rw [Header.lines_set]
  exact List.mem_append_right _ List.mem_cons_self

theorem mem_lines_set_of_ne {l : Bytes × Bytes} (hl : l ∈ hdr.lines) (hne : l.1 ≠ key)
    (value : Bytes) : l ∈ (hdr.set key value).lines := by
  rw [Header.lines_set]
  exact List.mem_append_left _ (List.mem_filter.mpr ⟨hl, by simpa using hne⟩)

theorem mem_lines_applyExtraHeaders_of_notMem {l : Bytes × Bytes}
    (hnot : l.1 ∉ extra.map Prod.fst) {hdr : Header} (hl : l ∈ hdr.lines) :
    l ∈ (applyExtraHeaders hdr extra).lines := by
  induction extra generalizing hdr with
  | nil => exact hl
  | cons e extra ih =>
    rw [List.map_cons, List.mem_cons, not_or] at hnot
    refine ih hnot.2 ?_
    dsimp only
    split
    · exact hl
    · exact mem_lines_set_of_ne hl hnot.1 _

theorem mem_lines_applyExtraHeaders {e : Bytes × Bytes} (hnodup : (extra.map Prod.fst).Nodup)
    (he : e ∈ extra) (hvalue : e.2 ≠ []) (hdr : Header) :
    e ∈ (applyExtraHeaders hdr extra).lines := by
  induction extra generalizing hdr with
  | nil => exact absurd he List.not_mem_nil
  | cons x extra ih =>
    rw [List.map_cons, List.nodup_cons] at hnodup
    rcases List.mem_cons.mp he with rfl | he
    · refine mem_lines_applyExtraHeaders_of_notMem hnodup.1 ?_
      dsimp only
      rw [if_neg hvalue]
      exact mem_lines_set_self _ _ _
    · exact ih hnodup.2 he _

structure TidyEntry (m : Meta) : Prop where
  preserved : Preserved m
  nodup : (m.extraHeaders.map Prod.fst).Nodup

def recordNames : List Bytes := ascii "Content-Type" :: ascii "Etag" :: preservedResponseHeaders

theorem mem_recordNames {k : Bytes} (hk : k ∈ recordNames) :
    OneLine k ∧ k ≠ contentLengthKey ∧ k ≠ transferEncodingKey
      ∧ k ≠ connectionKey := by
  have hall : ∀ k ∈ recordNames, OneLine k ∧ k ≠ contentLengthKey
      ∧ k ≠ transferEncodingKey ∧ k ≠ connectionKey := by decide
  exact hall k hk

namespace TidyEntry

variable {m : Meta} (hm : TidyEntry m)

include hm

theorem notMem_extra {k : Bytes} (hk : k ∉ preservedResponseHeaders) :
    k ∉ m.extraHeaders.map Prod.fst := by
  intro hmem
  obtain ⟨e, he, rfl⟩ := List.mem_map.mp hmem
  exact hk (hm.preserved e he)

theorem mem_lines_withEntry {l : Bytes × Bytes} (hname : l.1 ∉ recordNames)
    {hdr : Header} (hl : l ∈ hdr.lines) : l ∈ (withEntry hdr m).lines := by
  simp only [recordNames, List.mem_cons, not_or] at hname
  obtain ⟨htype, htag, hpres⟩ := hname
  refine mem_lines_applyExtraHeaders_of_notMem (hm.notMem_extra hpres) ?_
  have hwith : l ∈ (if m.contentType = [] then hdr
      else hdr.set (ascii "Content-Type") m.contentType).lines := by
    split
    · exact hl
    · exact mem_lines_set_of_ne hl htype _
  split
  · exact hwith
  · exact mem_lines_set_of_ne hwith htag _

theorem values_mem_lines_withEntry (hdr : Header) :
    (m.contentType ≠ [] → (ascii "Content-Type", m.contentType) ∈ (withEntry hdr m).lines)
      ∧ (m.eTag ≠ [] → (ascii "Etag", m.eTag) ∈ (withEntry hdr m).lines)
      ∧ ∀ e ∈ m.extraHeaders, e.2 ≠ [] → e ∈ (withEntry hdr m).lines := by
  have hnames : ascii "Content-Type" ∉ preservedResponseHeaders
      ∧ ascii "Etag" ∉ preservedResponseHeaders := by decide
  refine ⟨fun hne => ?_, fun hne => ?_, fun e he hne => ?_⟩
  · refine mem_lines_applyExtraHeaders_of_notMem (hm.notMem_extra hnames.1) ?_
    rw [if_neg hne]
    split
    · exact mem_lines_set_self _ _ _
    · exact mem_lines_set_of_ne (mem_lines_set_self _ _ _) names_ne.1 _
  · refine mem_lines_applyExtraHeaders_of_notMem (hm.notMem_extra hnames.2) ?_
    rw [if_neg hne]
    exact mem_lines_set_self _ _ _
  · exact mem_lines_applyExtraHeaders hm.nodup he hne _

theorem cleanValues_of_headUnsplit {hdr hdr' : Header} {code : ℤ}
    (h : HeadUnsplit code hdr')
    (hsub : ∀ l ∈ (withEntry hdr m).lines, l.1 ∈ recordNames → l ∈ hdr'.lines) :
    CleanValues m.eTag m.contentType m.extraHeaders := by
  obtain ⟨htype, htag, hextra⟩ := hm.values_mem_lines_withEntry hdr
  have hline : ∀ l ∈ (withEntry hdr m).lines, l.1 ∈ recordNames → OneLine l.2 := by
    intro l hl hname
    obtain ⟨-, hcl, hte, hc⟩ := mem_recordNames hname
    exact oneLine_of_headUnsplit h (hsub l hl hname) hcl hte hc
  have hvalue : ∀ (k v : Bytes), k ∈ recordNames → (v ≠ [] → (k, v) ∈ (withEntry hdr m).lines) →
      OneLine v := by
    intro k v hk hmem
    by_cases hv : v = []
    · exact hv ▸ oneLine_nil
    · exact hline _ (hmem hv) hk
  refine ⟨hvalue _ _ (by decide) htag, hvalue _ _ (by decide) htype,
    fun e he => ?_⟩
  have hname : e.1 ∈ recordNames :=
    List.mem_cons_of_mem _ (List.mem_cons_of_mem _ (hm.preserved e he))
  exact ⟨(mem_recordNames hname).1, hvalue e.1 e.2 hname (hextra e he)⟩

end TidyEntry

/-! ## One response -/

def Fetch.CleanHeaders (f : Fetch) : Prop :=
  ∀ k ∈ recordNames, OneLine (f.response.header.get k)

instance (f : Fetch) : Decidable f.CleanHeaders :=
  inferInstanceAs (Decidable (∀ k ∈ recordNames, OneLine (f.response.header.get k)))

abbrev Fetch.CleanRecorded (f : Fetch) : Prop :=
  CleanValues (f.response.header.get (ascii "Etag")) (f.response.header.get (ascii "Content-Type"))
    (pickPreservedHeaders f.response.header)

theorem Fetch.cleanHeaders_iff (f : Fetch) : f.CleanHeaders ↔ f.CleanRecorded := by
  unfold CleanHeaders recordNames
  rw [List.forall_mem_cons, List.forall_mem_cons]
  constructor
  · rintro ⟨htype, htag, hpres⟩
    refine ⟨htag, htype, fun e he => ?_⟩
    obtain ⟨k, hk, rfl⟩ := List.mem_map.mp (List.mem_filter.mp he).1
    exact ⟨(mem_recordNames (List.mem_cons_of_mem _ (List.mem_cons_of_mem _ hk))).1, hpres k hk⟩
  · intro h
    refine ⟨h.contentType, h.eTag, fun k hk => ?_⟩
    by_cases hv : f.response.header.get k = []
    · exact hv ▸ oneLine_nil
    · exact (h.extra (k, f.response.header.get k) (List.mem_filter.mpr
        ⟨List.mem_map.mpr ⟨k, hk, rfl⟩, by simpa using hv⟩)).2

theorem mergeExtraHeaders_of_nodup {l : List (Bytes × Bytes)}
    (hnodup : ((l ++ extra).map Prod.fst).Nodup) (hne : ∀ e ∈ extra, e.2 ≠ []) :
    mergeExtraHeaders l extra = l ++ extra := by
  induction extra generalizing l with
  | nil => exact (List.append_nil l).symm
  | cons e extra ih =>
    have hnew : l.any (·.1 == e.1) = false := by
      rw [List.any_eq_false]
      intro x hx hxe
      rw [List.map_append, List.nodup_append] at hnodup
      exact hnodup.2.2 x.1 (List.mem_map_of_mem hx) e.1 List.mem_cons_self (beq_iff_eq.mp hxe)
    have hset : setHeader l e.1 e.2 = l ++ [e] := by
      rw [setHeader, hnew]
      rfl
    show mergeExtraHeaders (if e.2 = [] then l else setHeader l e.1 e.2) extra = _
    rw [if_neg (hne e List.mem_cons_self), hset, ih (by simpa using hnodup)
      (fun e' he' => hne e' (List.mem_cons_of_mem _ he'))]
    simp

theorem nodup_pickPreservedHeaders (src : Header) :
    ((pickPreservedHeaders src).map Prod.fst).Nodup := by
  have hmap : (preservedResponseHeaders.map (fun k => (k, src.get k))).map Prod.fst
      = preservedResponseHeaders := by
    rw [List.map_map]
    exact List.map_id _
  have hsub : ((pickPreservedHeaders src).map Prod.fst).Sublist preservedResponseHeaders :=
    hmap ▸ List.filter_sublist.map Prod.fst
  exact hsub.nodup (by decide)

theorem mergeExtraHeaders_pick (src : Header) :
    mergeExtraHeaders [] (pickPreservedHeaders src) = pickPreservedHeaders src :=
  mergeExtraHeaders_of_nodup (nodup_pickPreservedHeaders src)
    (fun e he => by simpa using (List.mem_filter.mp he).2)

theorem tidyEntry_of_pick {src : Header}
    (h : m.extraHeaders = mergeExtraHeaders [] (pickPreservedHeaders src)) : TidyEntry m := by
  rw [mergeExtraHeaders_pick] at h
  have hpick : ∀ e ∈ m.extraHeaders, e.1 ∈ preservedResponseHeaders := by
    intro e he
    rw [h] at he
    obtain ⟨k, hk, rfl⟩ := List.mem_map.mp (List.mem_filter.mp he).1
    exact hk
  exact ⟨hpick, h ▸ nodup_pickPreservedHeaders src⟩

def Fetch.Files (f : Fetch) : Event → Prop
  | .beginSegment p => f.segmentParams = some p
  | .redirect r => r = f.redirect
  | _ => False

structure Service.NeverSplit (s : Service) (f : Fetch) : Prop where
  first : ∀ {σ : Type} (env : (op : Op) → σ → op.Answer × σ) (x : σ)
    (method path keyHex auth : Bytes) (reqHdr : Header) (passthrough : Bool)
    (ticket : Option RangeTicket) (body : List Bytes),
    ∀ op ∈ ((s.relay method path f.target keyHex f.originPath auth reqHdr passthrough ticket
      ⟨f.response, body⟩).run env x).1, Unbroken op
  later : ∀ (key : Bytes) (interval : ℤ) (es : List Event) (slot : Slot),
    (∀ e ∈ es, f.Files e ∨ CleanEvent s.rewriter e) →
    Runs.run (Slot.step key interval) Slot.empty es = some slot →
    ∀ m ∈ slot.entry, ReplaysUnsplit s m

structure Service.CleanRecord (s : Service) (f : Fetch) : Prop where
  segment : ∀ key p, f.segmentParams = some p → validateSegmentParams key p = true →
    f.CleanHeaders
  redirect : f.redirect.valid = true →
    f.CleanHeaders ∧ s.rewriter.Replayable (f.response.header.get (ascii "Location"))

variable {s : Service} {f : Fetch}

theorem Service.CleanRecord.cleanEvent (h : s.CleanRecord f) {slot slot' : Slot} {e : Event}
    (he : f.Files e) (hs : slot.step key interval e = some slot') : CleanEvent s.rewriter e := by
  cases Slot.steps_of_step hs with
  | beginSegment hv =>
    have hclean := f.cleanHeaders_iff.mp (h.segment _ _ he hv)
    obtain ⟨-, start, length, total, rfl⟩ := Fetch.paramsAt_of_segmentParams he
    exact hclean
  | redirect hv =>
    obtain rfl := he
    obtain ⟨hclean, hloc⟩ := h.redirect hv
    exact ⟨f.cleanHeaders_iff.mp hclean, hloc⟩
  | cut => trivial
  | cutFails => trivial
  | write => trivial
  | checkpoint => trivial
  | commit => trivial
  | abandon => trivial
  | storeAlias => trivial
  | trimRead => trivial
  | trimWrite => trivial
  | purgeRead => trivial
  | remove => trivial

theorem Service.CleanRecord.cleanSlot (h : s.CleanRecord f) {es : List Event} {slot : Slot}
    (hes : ∀ e ∈ es, f.Files e ∨ CleanEvent s.rewriter e)
    (hrun : Runs.run (Slot.step key interval) Slot.empty es = some slot) :
    CleanSlot s.rewriter slot :=
  @Runs.invariant _ _ _ (fun _ e => (f.Files e ∨ CleanEvent s.rewriter e) ∧ True)
    (CleanSlot s.rewriter)
    (fun _ _ _ hslot hc hs => hslot.step (hc.1.elim (fun he => h.cleanEvent he hs) id) hs)
    _ _ _ cleanSlot_empty ((Runs.meets_true _ _).and_of_forall hes) hrun

theorem run_commit (hv : validateSegmentParams key p = true) :
    ∃ slot, Runs.run (Slot.step key 0) Slot.empty
        [.beginSegment p, .truncate 0 true, .commit 0] = some slot
      ∧ slot.entry = some (p.commitMeta 0 none) := by
  simp [Runs.run, Slot.step, hv, Slot.openBody, Slot.cutBody, Slot.empty, Slot.params]

theorem cleanValues_commitMeta_none {src : Header}
    (hextra : p.extraHeaders = pickPreservedHeaders src)
    (h : CleanValues (p.commitMeta 0 none).eTag (p.commitMeta 0 none).contentType
      (p.commitMeta 0 none).extraHeaders) : CleanParams p := by
  have htag : (p.commitMeta 0 none).eTag = p.eTag := ite_self _
  have htype : (p.commitMeta 0 none).contentType = p.contentType := ite_self _
  have hmerge : (p.commitMeta 0 none).extraHeaders = p.extraHeaders := by
    show mergeExtraHeaders [] p.extraHeaders = p.extraHeaders
    rw [hextra, mergeExtraHeaders_pick]
  rwa [htag, htype, hmerge] at h

theorem Service.NeverSplit.cleanHeaders (h : s.NeverSplit f) (hp : f.segmentParams = some p)
    (hv : validateSegmentParams key p = true) : f.CleanHeaders := by
  obtain ⟨slot, hrun, hentry⟩ := run_commit hv
  have hfiled : ∀ e ∈ [Event.beginSegment p, .truncate 0 true, .commit 0],
      f.Files e ∨ CleanEvent s.rewriter e := by
    simp only [List.forall_mem_cons]
    exact ⟨.inl hp, .inr trivial, .inr trivial, fun _ he => absurd he List.not_mem_nil⟩
  have hreplay := h.later key 0 _ slot hfiled hrun _ hentry
  obtain ⟨hstatus, start, length, total, rfl⟩ := Fetch.paramsAt_of_segmentParams hp
  have hcode : isCacheableRedirectStatus
      ((f.paramsAt start length total).commitMeta 0 none).statusCode = false := by
    have hsame : ((f.paramsAt start length total).commitMeta 0 none).statusCode
        = f.response.status := ite_self _
    rw [hsame]
    rcases hstatus with hstatus | hstatus <;> rw [hstatus] <;> rfl
  have hserve : Proxy.serveEntry (fun _ => true) [] true key
      ((f.paramsAt start length total).commitMeta 0 none)
      = some (.head ((f.paramsAt start length total).commitMeta 0 none)) := by
    rw [Proxy.serveEntry, if_neg (fun hred => Bool.false_ne_true (hcode.symm.trans hred.1)), if_pos rfl]
  have htidy : TidyEntry ((f.paramsAt start length total).commitMeta 0 none) :=
    tidyEntry_of_pick rfl
  -- the length is all that the answer adds
  have hsub : ∀ m : Meta, ∀ l ∈ (withEntry securityHeader m).lines, l.1 ∈ recordNames →
      l ∈ (headHeader m).lines := by
    intro m l hl hname
    unfold headHeader
    split
    · split
      · exact mem_lines_set_of_ne hl (mem_recordNames hname).2.1 _
      · exact hl
    · exact hl
  exact f.cleanHeaders_iff.mpr (cleanValues_commitMeta_none rfl
    (htidy.cleanValues_of_headUnsplit (hreplay.handler _ _ _ _ _ hserve) (hsub _)))

theorem Service.NeverSplit.cleanRedirect (h : s.NeverSplit f) (hv : f.redirect.valid = true) :
    f.CleanHeaders ∧ s.rewriter.Replayable (f.response.header.get (ascii "Location")) := by
  have hrun : Runs.run (Slot.step [] 0) Slot.empty [.redirect f.redirect]
      = some { Slot.empty with entry := some (redirectMeta f.redirect none) } := by
    simp [Runs.run, Slot.step, hv, Slot.empty]
  have hfiled : ∀ e ∈ [Event.redirect f.redirect], f.Files e ∨ CleanEvent s.rewriter e := by
    simp only [List.forall_mem_cons]
    exact ⟨.inl rfl, fun _ he => absurd he List.not_mem_nil⟩
  have hreplay := h.later [] 0 _ _ hfiled hrun _ rfl
  have hvalid : isCacheableRedirectStatus f.response.status = true
      ∧ f.response.header.get (ascii "Location") ≠ [] := by
    rw [Redirect.valid, Bool.and_eq_true, Bool.not_eq_true', List.isEmpty_eq_false_iff] at hv
    exact hv
  have hserve : Proxy.serveEntry (fun _ => true) [] true [] (redirectMeta f.redirect none)
      = some (.redirect (redirectMeta f.redirect none)) := by
    rw [Proxy.serveEntry, if_pos ⟨hvalid.1, hvalid.2⟩]
  have hhead := hreplay.handler _ _ _ _ _ hserve
  have htidy : TidyEntry (redirectMeta f.redirect none) := tidyEntry_of_pick rfl
  constructor
  · have hvalues := htidy.cleanValues_of_headUnsplit hhead
      (fun l hl hname => mem_lines_set_of_ne hl (mem_recordNames hname).2.1 _)
    have hmerge : (redirectMeta f.redirect none).extraHeaders
        = pickPreservedHeaders f.response.header := mergeExtraHeaders_pick _
    have htag : (redirectMeta f.redirect none).eTag = f.response.header.get (ascii "Etag") := by
      show (if f.redirect.eTag = [] then [] else f.redirect.eTag) = f.redirect.eTag
      split
      · next hnil => exact hnil.symm
      · rfl
    have htype : (redirectMeta f.redirect none).contentType
        = f.response.header.get (ascii "Content-Type") := by
      show (if f.redirect.contentType = [] then [] else f.redirect.contentType)
        = f.redirect.contentType
      split
      · next hnil => exact hnil.symm
      · rfl
    rw [hmerge, htag, htype] at hvalues
    exact f.cleanHeaders_iff.mpr hvalues
  · have hnames : ascii "Location" ∉ recordNames
        ∧ ascii "Location" ≠ contentLengthKey
        ∧ ascii "Location" ≠ transferEncodingKey
        ∧ ascii "Location" ≠ connectionKey := by decide
    obtain ⟨hrecord, hcl, hte, hc⟩ := hnames
    refine (s.rewriter.oneLine_location_iff _ (redirectMeta f.redirect none).path).mp ?_
    exact oneLine_of_headUnsplit hhead (mem_lines_set_of_ne
      (htidy.mem_lines_withEntry hrecord (mem_lines_set_self _ _ _)) hcl _) hcl hte hc

/-- **Response splitting**: no header block is split, first and later, exactly if what goes on
record has no line end. -/
theorem unsplit_iff_cleanRecord (s : Service) (f : Fetch) : s.NeverSplit f ↔ s.CleanRecord f := by
  constructor
  · exact fun h => ⟨fun _ _ hp hv => h.cleanHeaders hp hv, h.cleanRedirect⟩
  · intro h
    constructor
    · intro σ env x method path keyHex auth reqHdr passthrough ticket body
      exact (s.keeps_relay _ _ _ _ _ _ _ _ _ _).forall_mem_run (fun _ _ => trivial) x
    · intro key interval es slot hes hrun m hm
      exact replaysUnsplit_of_clean ((h.cleanSlot hes hrun).entry m hm)

private def forged : Fetch :=
  ⟨⟨ascii "huggingface.co", ascii "/m", []⟩,
    ⟨200, Header.empty.set (ascii "Etag") (ascii "x\r\nSet-Cookie: a=b"), 2⟩, []⟩

/-- **A header that upstream has made up reaches the client**, in the answer to a later HEAD.
-/
theorem forged_header_replayed :
    (∃ p ∈ forged.segmentParams, ∃ slot ∈ Runs.run (Slot.step [107] 0) Slot.empty
        [.beginSegment p, .truncate 0 true, .write 0 (ascii "ok") 2, .commit 0],
      ∃ m ∈ slot.entry, ∃ hit ∈ serveEntry (fun _ => true) [] true [107] m,
        (index (ascii "\r\nSet-Cookie: a=b\r\n") (Coreserver.headPieces
          ⟨id, fun _ => List.Perm.refl _⟩ (Coreserver.sentHeader
            (Service.plainService.hitHead [] hit).2 true) 200).flatten).isSome = true)
      ∧ ¬ Service.plainService.NeverSplit forged := by
  constructor
  · exact ⟨_, rfl, _, rfl, _, rfl, _, rfl, by decide⟩
  · intro h
    have hvalid : ∀ p ∈ forged.segmentParams, validateSegmentParams [107] p = true := by
      decide
    have hclean := h.cleanHeaders rfl (hvalid _ rfl)
    exact absurd hclean (by decide)

end Proxy
