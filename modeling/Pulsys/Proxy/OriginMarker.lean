import Pulsys.Proxy.Conduct
import Pulsys.Proxy.TargetKeys

/-!
# The origin marker

A rewritten redirect carries the request it is for as a segment `__pulsys_origin=` of its
query, and nothing else changes (`query_survives`). But a marker in which no origin is found
is used as it came, for key, upstream and record (`marker_hidden_iff`).
-/

namespace Proxy

open Bytes Cache

/-! ## Queries without the marker -/

def segmentName (seg : Bytes) : Bytes := seg.takeWhile (· ≠ 61)

def Unmarked (q : Bytes) : Prop := ∀ seg ∈ q.splitOn 38, segmentName seg ≠ originQueryParam

def NamesOrigin (q : Bytes) : Prop :=
  ∃ seg ∈ q.splitOn 38, ∃ v o, originValue seg = some v ∧ Percent.queryUnescape v = some o ∧ o ≠ []

variable {q seg v : Bytes}

theorem originValue_eq_some : originValue seg = some v ↔ seg = originQueryParam ++ 61 :: v := by
  unfold originValue
  constructor
  · intro h
    split at h
    · next hp =>
      obtain ⟨rest, rfl⟩ := List.isPrefixOf_iff_prefix.mp hp
      have hv : rest = v := Option.some.inj h
      rw [hv, List.append_assoc]
      rfl
    · cases h
  · rintro rfl
    exact if_pos (List.isPrefixOf_iff_prefix.mpr ⟨v, List.append_assoc _ _ _⟩)

theorem segmentName_append {l : Bytes} (h : 61 ∉ l) (r : Bytes) :
    segmentName (l ++ 61 :: r) = l := by
  have hl : ∀ c ∈ l, decide (c ≠ 61) = true := fun c hc =>
    decide_eq_true (fun heq => h (heq ▸ hc))
  rw [segmentName, List.takeWhile_append_of_pos hl, List.takeWhile_cons_of_neg (by decide),
    List.append_nil]

theorem segmentName_eq_self (h : 61 ∉ seg) : segmentName seg = seg :=
  List.takeWhile_eq_self_iff.mpr (fun _ hc => decide_eq_true (fun heq => h (heq ▸ hc)))

theorem isOriginSegment_iff : isOriginSegment seg = true ↔ segmentName seg = originQueryParam := by
  have hno : 61 ∉ originQueryParam := by decide
  rw [isOriginSegment, Bool.or_eq_true, beq_iff_eq]
  constructor
  · rintro (h | rfl)
    · obtain ⟨v, hv⟩ := Option.isSome_iff_exists.mp h
      rw [originValue_eq_some.mp hv, segmentName_append hno]
    · exact segmentName_eq_self hno
  · intro h
    cases hi : indexByte seg 61 with
    | none =>
      rw [segmentName_eq_self (indexByte_eq_none.mp hi)] at h
      exact .inr h
    | some i =>
      obtain ⟨l, r, rfl, hl, -⟩ := exists_of_indexByte hi
      rw [segmentName_append hl] at h
      exact .inl (Option.isSome_iff_exists.mpr ⟨r, originValue_eq_some.mpr (h ▸ rfl)⟩)

/-! ## What is taken out -/

def laterOrigin (origin seg : Bytes) : Bytes :=
  match originValue seg with
  | none => origin
  | some v => if origin = [] then (Percent.queryUnescape v).getD [] else origin

theorem extractAndStripOrigin_eq (h : ¬ (index originQueryParam q).isNone = true) :
    extractAndStripOrigin q = ((q.splitOn 38).foldl laterOrigin [],
      [38].intercalate ((q.splitOn 38).filter (fun seg => !isOriginSegment seg))) := if_neg h

theorem foldl_laterOrigin_ne_nil (segs : List Bytes) (origin : Bytes) :
    segs.foldl laterOrigin origin ≠ []
      ↔ origin ≠ [] ∨ ∃ seg ∈ segs, ∃ v o, originValue seg = some v
        ∧ Percent.queryUnescape v = some o ∧ o ≠ [] := by
  induction segs generalizing origin with
  | nil => simp
  | cons seg segs ih =>
    rw [List.foldl_cons, ih, laterOrigin]
    cases hv : originValue seg with
    | none => simp [hv]
    | some v =>
      by_cases horigin : origin = []
      · cases ho : Percent.queryUnescape v <;> simp [hv, ho, horigin]
      · simp [horigin]

theorem index_originQueryParam (h : seg ∈ q.splitOn 38) (hv : originValue seg = some v) :
    (index originQueryParam q).isNone = false := by
  obtain ⟨l, r, hq⟩ := (mem_splitOn h).2
  have hsome := @index_isSome originQueryParam l (61 :: v ++ r)
  rw [originValue_eq_some.mp hv] at hq
  rw [← hq, ← List.append_assoc, List.append_assoc (l ++ originQueryParam)]
  exact Option.isNone_eq_false_iff.mpr hsome

theorem origin_ne_nil_iff : (extractAndStripOrigin q).1 ≠ [] ↔ NamesOrigin q := by
  by_cases hindex : (index originQueryParam q).isNone = true
  · rw [extractAndStripOrigin, if_pos hindex]
    refine iff_of_false (fun h => h rfl) ?_
    rintro ⟨seg, hseg, v, o, hv, -⟩
    exact Bool.false_ne_true ((index_originQueryParam hseg hv).symm.trans hindex)
  · rw [extractAndStripOrigin_eq hindex, foldl_laterOrigin_ne_nil]
    simp [NamesOrigin]

theorem unmarked_filter (segs : List Bytes) (h : ∀ seg ∈ segs, 38 ∉ seg) :
    Unmarked ([38].intercalate (segs.filter (fun seg => !isOriginSegment seg))) := by
  intro seg hseg
  by_cases hnil : segs.filter (fun seg => !isOriginSegment seg) = []
  · rw [hnil, List.intercalate_nil, List.splitOn_nil, List.mem_singleton] at hseg
    subst hseg
    decide
  · rw [List.splitOn_intercalate 38 (fun l hl => h l (List.mem_filter.mp hl).1) hnil] at hseg
    have hkept := (List.mem_filter.mp hseg).2
    exact fun hname => by simp [isOriginSegment_iff.mpr hname] at hkept

theorem unmarked_cleanQuery_iff : Unmarked (cleanQuery q) ↔ Unmarked q ∨ NamesOrigin q := by
  by_cases h : (extractAndStripOrigin q).1 = []
  · rw [cleanQuery_eq_self h, ← origin_ne_nil_iff]
    simp [h]
  · have hindex : ¬ (index originQueryParam q).isNone = true := fun hyes =>
      h (by rw [extractAndStripOrigin, if_pos hyes])
    have hclean : Unmarked (cleanQuery q) := by
      rw [cleanQuery, if_neg h, extractAndStripOrigin_eq hindex]
      exact unmarked_filter _ (fun seg hseg => (mem_splitOn hseg).1)
    exact iff_of_true hclean (.inr (origin_ne_nil_iff.mp h))

/-! ## Where a query goes -/

def Op.query : Op → Option Bytes
  | .send out => some out.rawQuery
  | .beginSegment _ p => some p.rawQuery
  | .storeRedirect _ red => some red.rawQuery
  | .storeAlias _ a => some a.rawQuery
  | _ => none

namespace Service

variable {s : Service} {live : Prop} {r : Inbound} {t : Target} {keyHex : Bytes}

theorem query_of_conforms {l : Ledger} {op : Op} (h : s.Conforms live r t keyHex l op)
    (hq : op.query = some q) : q = t.rawQuery := by
  cases op with
  | send out =>
    obtain ⟨hdr, body, hout⟩ := h
    exact (Option.some.inj hq).symm.trans (NetClient.request_eq_ok hout).2.2.2.1
  | beginSegment key p => exact (Option.some.inj hq).symm.trans h
  | storeRedirect key red => exact (Option.some.inj hq).symm.trans h.2.1
  | storeAlias key a => exact (Option.some.inj hq).symm.trans h
  | _ => cases hq

theorem rawQuery_of_target (h : s.target r.url = .ok t) :
    t.rawQuery = cleanQuery r.url.rawQuery := by
  unfold Handler.target at h
  split at h
  · cases h
  · cases h
    rfl

theorem query_of_path {deeds : List Deed} {rest : Prog Unit}
    (hpath : Interaction.Path (s.serveHTTP r) deeds rest) {d : Deed} (hd : d ∈ deeds)
    (hq : d.1.query = some q) : q = cleanQuery r.url.rawQuery := by
  obtain ⟨t, ht, hquery⟩ : ∃ t : Target, (∀ t', s.target r.url = .ok t' → t' = t)
      ∧ t.rawQuery = cleanQuery r.url.rawQuery := by
    cases ht : s.target r.url with
    | error e => exact ⟨⟨[], [], cleanQuery r.url.rawQuery⟩, fun _ h => (nomatch h), rfl⟩
    | ok t => exact ⟨t, fun t' h => (Except.ok.inj h).symm, rawQuery_of_target ht⟩
  obtain ⟨before, after, rfl⟩ := List.append_of_mem hd
  obtain ⟨op, ans⟩ := d
  rcases conforms_of_path ht hpath with hquiet | ⟨_, _, -, hconforms⟩
  · cases op <;> first | exact hquiet.elim | cases hq
  · exact (query_of_conforms hconforms hq).trans hquery

end Service

/-- **Which queries do not show the marker**, to any handler and in any run: those without
one, and those with one in which an origin is found. -/
theorem marker_hidden_iff (q : Bytes) :
    (∀ (s : Service) (r : Inbound), r.url.rawQuery = q →
      (∀ t, s.target r.url = .ok t → Unmarked t.keyQuery)
        ∧ ∀ deeds rest, Interaction.Path (s.serveHTTP r) deeds rest →
          ∀ d ∈ deeds, ∀ q', d.1.query = some q' → Unmarked q')
      ↔ Unmarked q ∨ NamesOrigin q := by
  rw [← unmarked_cleanQuery_iff]
  constructor
  · intro h
    -- the keys of the default host have the query in them
    have htarget : Service.plainService.target ⟨ascii "/m", q⟩
        = .ok ⟨ascii "huggingface.co", ascii "/m", cleanQuery q⟩ := by
      rw [Handler.target, show Service.plainService.routeUpstream (ascii "/m")
        = .ok (ascii "huggingface.co", ascii "/m") by decide +kernel]
    have hhost : ¬ isContentAddressedHost (ascii "huggingface.co") = true := by decide +kernel
    have hkey := (h Service.plainService ⟨ascii "GET", ⟨ascii "/m", q⟩, .empty, none⟩ rfl).1 _
      htarget
    rwa [Target.keyQuery, if_neg hhost] at hkey
  · rintro h s r rfl
    refine ⟨fun t ht => ?_, fun deeds rest hpath d hd q' hq' => ?_⟩
    · unfold Target.keyQuery
      split
      · intro seg hseg
        rw [List.splitOn_nil, List.mem_singleton] at hseg
        subst hseg
        decide
      · rw [Service.rawQuery_of_target ht]
        exact h
    · rw [Service.query_of_path hpath hd hq']
      exact h

/-- **An empty marker shows.** -/
theorem empty_marker_shows :
    (Service.plainService.target ⟨ascii "/api/models/m",
        ascii "a=1&__pulsys_origin="⟩).toOption.map Target.keyQuery
        = some (ascii "a=1&__pulsys_origin=")
      ∧ ((Service.plainService.serveHTTP ⟨ascii "GET", ⟨ascii "/api/models/m",
        ascii "a=1&__pulsys_origin="⟩, .empty, none⟩).run Service.freshSurroundings ()).1.filterMap
        Op.query = [ascii "a=1&__pulsys_origin=", ascii "a=1&__pulsys_origin="] :=
  ⟨by decide +kernel, by decide +kernel⟩

/-! ## There and back -/

def urlQuery (url : Bytes) : Bytes :=
  let url := url.takeWhile (· ≠ 35)
  match indexByte url 63 with
  | none => []
  | some i => url.drop (i + 1)

structure NetURL.KeepsQuery (net : NetURL) : Prop where
  parse : ∀ s u, net.parse s = some u → 35 ∉ u.rawQuery
  withQuery : ∀ base elems joined q, net.joinPath base elems = some joined → q ≠ [] → 35 ∉ q →
    urlQuery (net.withQuery joined q) = q

theorem queryUnescape_queryEscape (b : Bytes) :
    Percent.queryUnescape (queryEscape b) = some b :=
  Percent.unescape_flatMap (forall_byte (by decide +kernel)) b

theorem notMem_queryEscape (b : Bytes) : 38 ∉ queryEscape b ∧ 35 ∉ queryEscape b := by
  have hbyte : ∀ c, 38 ∉ queryEscape [c] ∧ 35 ∉ queryEscape [c] :=
    forall_byte (by decide +kernel)
  induction b with
  | nil => decide
  | cons c b ih =>
    rw [queryEscape_cons]
    simp only [List.mem_append, not_or]
    exact ⟨⟨(hbyte c).1, ih.1⟩, (hbyte c).2, ih.2⟩

theorem splitOn_markQuery (q : Bytes) {origin : Bytes} (ho : origin ≠ []) :
    ∃ segs, (markQuery q origin).splitOn 38
        = segs ++ [originQueryParam ++ 61 :: queryEscape origin]
      ∧ [38].intercalate segs = q ∧ ∀ seg ∈ segs, seg ∈ q.splitOn 38 := by
  have hmark : (originQueryParam ++ 61 :: queryEscape origin).splitOn 38
      = [originQueryParam ++ 61 :: queryEscape origin] := by
    refine List.splitOn_eq_singleton (fun hmem => ?_)
    rcases List.mem_append.mp hmem with hmem | hmem
    · exact absurd hmem (by decide)
    · rcases List.mem_cons.mp hmem with h61 | hmem
      · exact absurd h61 (by decide)
      · exact (notMem_queryEscape origin).1 hmem
  rw [markQuery, if_neg ho]
  split
  · next hq => exact ⟨[], hmark, by rw [hq]; rfl, fun _ h => absurd h List.not_mem_nil⟩
  · refine ⟨q.splitOn 38, ?_, List.intercalate_splitOn 38, fun _ h => h⟩
    rw [← hmark]
    exact List.splitOnP_append_cons q _ (beq_self_eq_true 38)

theorem extractAndStripOrigin_markQuery (hq : Unmarked q) {origin : Bytes} (ho : origin ≠ []) :
    extractAndStripOrigin (markQuery q origin) = (origin, q) := by
  obtain ⟨segs, hsegs, hjoin, hmem⟩ := splitOn_markQuery q ho
  have hplain : ∀ seg ∈ segs, isOriginSegment seg = false := fun seg hseg =>
    Bool.eq_false_iff.mpr (fun h => hq seg (hmem seg hseg) (isOriginSegment_iff.mp h))
  have hvalue : originValue (originQueryParam ++ 61 :: queryEscape origin)
      = some (queryEscape origin) := originValue_eq_some.mpr rfl
  have hindex : ¬ (index originQueryParam (markQuery q origin)).isNone = true := by
    rw [index_originQueryParam (hsegs ▸ List.mem_append_right _ List.mem_cons_self) hvalue]
    exact Bool.false_ne_true
  have hnone := (foldl_laterOrigin_ne_nil segs []).not.mpr (by
    rintro (h | ⟨seg, hseg, v, -, hv, -⟩)
    · exact h rfl
    · have := hplain seg hseg
      simp [isOriginSegment, hv] at this)
  have hkept : segs.filter (fun seg => !isOriginSegment seg) = segs :=
    List.filter_eq_self.mpr (fun seg hseg => by simp [hplain seg hseg])
  have hdropped : (!isOriginSegment (originQueryParam ++ 61 :: queryEscape origin)) = false := by
    simp [isOriginSegment, hvalue]
  rw [extractAndStripOrigin_eq hindex, hsegs, List.foldl_append, not_not.mp hnone,
    List.filter_append, hkept, List.filter_singleton, hdropped]
  simp [laterOrigin, hvalue, queryUnescape_queryEscape, hjoin]

/-- **A query survives the hop byte for byte**: the one of a location that is
rewritten, whatever is in it but the marker. -/
theorem query_survives (rw : Rewriter) (hnet : rw.net.KeepsQuery) {location origin url : Bytes}
    {u : ParsedURL} (hu : rw.net.parse location = some u) (hq : Unmarked u.rawQuery)
    (ho : origin ≠ []) (hurl : rw.locationToProxyWithOrigin location origin = some url) :
    extractAndStripOrigin (urlQuery url) = (origin, u.rawQuery) := by
  obtain ⟨u', joined, hu', -, -, hjoined, rfl⟩ := Rewriter.exists_of_locationToProxyWithOrigin hurl
  cases hu.symm.trans hu'
  have hmark : 35 ∉ originQueryParam ++ 61 :: queryEscape origin := by
    simp only [List.mem_append, List.mem_cons, not_or]
    exact ⟨by decide, by decide, (notMem_queryEscape origin).2⟩
  have hset : markQuery u.rawQuery origin ≠ [] ∧ 35 ∉ markQuery u.rawQuery origin := by
    rw [markQuery, if_neg ho]
    split
    · exact ⟨by simp [originQueryParam, ascii], hmark⟩
    · refine ⟨by simp, ?_⟩
      simp only [List.mem_append, List.mem_cons, not_or] at hmark ⊢
      exact ⟨hnet.parse _ _ hu, by decide, hmark⟩
  rw [hnet.withQuery _ _ _ _ hjoined hset.1 hset.2]
  exact extractAndStripOrigin_markQuery hq ho

private def presigned : Rewriter where
  net :=
    { parse := fun _ => some ⟨ascii "https", ascii "cdn", ascii "cdn", ascii "/f",
        ascii "s=%2f&&s=%2F"⟩
      joinPath := fun _ _ => some []
      withQuery := fun _ q => 63 :: q
      parse_rawQuery := by
        rintro _ _ ⟨⟩
        decide
      withQuery_oneLine := fun _ q hq =>
        ⟨fun h => (List.mem_cons.mp h).elim (by decide) hq.1,
          fun h => (List.mem_cons.mp h).elim (by decide) hq.2⟩ }
  publicBase := []
  allow := fun _ => true

private theorem presigned_keepsQuery : presigned.net.KeepsQuery where
  parse := by
    rintro _ _ ⟨⟩
    decide
  withQuery := by
    rintro - - joined q - - hq
    have hplain : (63 :: q).takeWhile (· ≠ 35) = [] ++ 63 :: q := by
      refine List.takeWhile_eq_self_iff.mpr (fun c hc => decide_eq_true ?_)
      rintro rfl
      exact (List.mem_cons.mp hc).elim (by decide) hq
    show urlQuery (63 :: q) = q
    rw [urlQuery, hplain, indexByte_append List.not_mem_nil]
    rfl

theorem query_survives_presigned :
    presigned.locationToProxyWithOrigin [] (ascii "/o/m b")
        = some (ascii "?s=%2f&&s=%2F&__pulsys_origin=%2Fo%2Fm+b")
      ∧ extractAndStripOrigin (urlQuery (ascii "?s=%2f&&s=%2F&__pulsys_origin=%2Fo%2Fm+b"))
        = (ascii "/o/m b", ascii "s=%2f&&s=%2F") := by
  have hurl : presigned.locationToProxyWithOrigin [] (ascii "/o/m b")
      = some (ascii "?s=%2f&&s=%2F&__pulsys_origin=%2Fo%2Fm+b") := by
    decide +kernel
  have hu : presigned.net.parse [] = some ⟨ascii "https", ascii "cdn", ascii "cdn", ascii "/f",
      ascii "s=%2f&&s=%2F"⟩ := rfl
  have hq : Unmarked (ascii "s=%2f&&s=%2F") := by
    unfold Unmarked
    decide
  exact ⟨hurl, query_survives presigned presigned_keepsQuery hu hq (by decide) hurl⟩

end Proxy
