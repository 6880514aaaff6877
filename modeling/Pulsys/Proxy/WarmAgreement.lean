import Pulsys.Coreserver.WarmHead
import Pulsys.Proxy.TargetKeys

/-!
# The fast path and the handler

Server and handler look into one cache, but read the request and the entry differently.
`Agrees` says that the server sends what the handler would have answered, and
`AnswersAlike` is the exact condition for it.

They differ in the bytes as well, if the range is inverted: `sendfile` is asked for a negative
number of bytes and sends none, and the handler copies the file to its end.
-/

namespace Proxy

open Bytes Cache
open Coreserver (Block CacheAnswer Field Header Server TextByte Trimmed View WarmPlan artifactGET
  itoa named nil_blank trimmed_of_ends wanted)

/-! ## What the handler sends -/

def applyExtraHeaders (dst : Header) (extra : List (Bytes × Bytes)) :
    Header :=
  extra.foldl (fun dst e => if e.2 = [] then dst else dst.set e.1 e.2) dst

def cachedHeader (m : Meta) : Header :=
  let hdr := Header.empty.set (ascii "X-Content-Type-Options") (ascii "nosniff")
  let hdr := if m.contentType = [] then hdr else hdr.set (ascii "Content-Type") m.contentType
  let hdr := if m.eTag = [] then hdr else hdr.set (ascii "Etag") m.eTag
  applyExtraHeaders hdr m.extraHeaders

def bodyHeader (rangeHdr : Bytes) (m : Meta) (wantStart wantEnd : ℤ) : Header :=
  let hdr := (cachedHeader m).set (ascii "Content-Length") (itoa (wantEnd - wantStart))
  if rangeHdr = [] then hdr
  else hdr.set (ascii "Content-Range")
    (Coreserver.formatContentRange wantStart wantEnd (m.total.getD (-1)))

def seen (status length : ℤ) (hdr : Header) (body : Bytes) :
    CacheAnswer where
  status := status
  contentType := hdr.get (ascii "Content-Type")
  eTag := hdr.get (ascii "Etag")
  contentRange := hdr.get (ascii "Content-Range")
  length := length
  body := body

structure Store where
  loadMeta : Bytes → Option Meta
  acquireBody : Bytes → Bool
  file : Bytes → Bytes

def sectionBytes (file : Bytes) (wantStart wantEnd : ℤ) : Bytes :=
  if wantEnd < wantStart then file.drop wantStart.toNat
  else (file.drop wantStart.toNat).take (wantEnd - wantStart).toNat

def sendfileBytes (file : Bytes) (wantStart wantEnd : ℤ) : Bytes :=
  (file.drop wantStart.toNat).take (wantEnd - wantStart).toNat

theorem sectionBytes_eq_iff (file : Bytes) (wantStart wantEnd : ℤ) :
    sectionBytes file wantStart wantEnd = sendfileBytes file wantStart wantEnd
      ↔ wantStart ≤ wantEnd ∨ file.length ≤ wantStart.toNat := by
  unfold sectionBytes sendfileBytes
  by_cases h : wantEnd < wantStart
  · have hzero : (wantEnd - wantStart).toNat = 0 := by omega
    rw [if_pos h, hzero, List.take_zero, List.drop_eq_nil_iff, or_iff_right (not_le.mpr h)]
  · rw [if_neg h]
    exact iff_of_true rfl (.inl (not_lt.mp h))

def Hit.answer (st : Store) (rangeHdr : Bytes) : Hit → CacheAnswer
  | .redirect m => seen m.statusCode 0 (cachedHeader m) []
  | .head m => seen 200 (m.total.getD 0) (cachedHeader m) []
  | .body key m wantStart wantEnd =>
    seen (if rangeHdr = [] then 200 else 206) (wantEnd - wantStart)
      (bodyHeader rangeHdr m wantStart wantEnd)
      (sectionBytes (st.file key) wantStart wantEnd)

def Handler.answer (h : Handler) (st : Store) (blk : Block) :
    Option CacheAnswer :=
  match readRequest blk with
  | none => none
  | some r =>
    match h.serveHTTP st.loadMeta st.loadMeta st.acquireBody r with
    | .hit hit => some (hit.answer st r.range)
    | _ => none

/-! ## Extra headers -/

def Preserved (m : Meta) : Prop := ∀ e ∈ m.extraHeaders, e.1 ∈ preservedResponseHeaders

variable {key : Bytes} {m : Meta} {blk : Block} {s : Server} {st : Store}
  {plan : WarmPlan} {h : Handler}

theorem get_applyExtraHeaders {extra : List (Bytes × Bytes)}
    (hkey : key ∉ preservedResponseHeaders) (hextra : ∀ e ∈ extra, e.1 ∈ preservedResponseHeaders)
    (dst : Header) : (applyExtraHeaders dst extra).get key = dst.get key := by
  unfold applyExtraHeaders
  induction extra generalizing dst with
  | nil => rfl
  | cons e extra ih =>
    rw [List.foldl_cons, ih (fun e' he' => hextra e' (List.mem_cons_of_mem _ he'))]
    split
    · rfl
    · refine Header.get_set_of_ne _ ?_ _
      rintro rfl
      exact hkey (hextra e List.mem_cons_self)

theorem names_ne : ascii "Content-Type" ≠ ascii "Etag" ∧ ascii "Etag" ≠ ascii "Content-Type"
    ∧ ascii "Content-Range" ≠ ascii "Etag" ∧ ascii "Content-Range" ≠ ascii "Content-Type"
    ∧ ascii "Content-Type" ≠ ascii "Content-Range" ∧ ascii "Etag" ≠ ascii "Content-Range"
    ∧ ascii "Content-Type" ≠ ascii "Content-Length" ∧ ascii "Etag" ≠ ascii "Content-Length"
    ∧ ascii "Content-Range" ≠ ascii "Content-Length" := by
  decide +kernel

theorem get_cachedHeader (hm : Preserved m) :
    (cachedHeader m).get (ascii "Content-Type") = m.contentType
      ∧ (cachedHeader m).get (ascii "Etag") = m.eTag
      ∧ (cachedHeader m).get (ascii "Content-Range") = [] := by
  have hbase : ∀ key ∈ [ascii "Content-Type", ascii "Etag", ascii "Content-Range"],
      (Header.empty.set (ascii "X-Content-Type-Options") (ascii "nosniff")).get key
        = [] := by decide +kernel
  simp only [List.forall_mem_cons] at hbase
  obtain ⟨hct, hetag, hrange, -⟩ := hbase
  obtain ⟨hne1, hne2, hne3, hne4, -⟩ := names_ne
  unfold cachedHeader
  dsimp only
  rw [get_applyExtraHeaders (by decide +kernel) hm, get_applyExtraHeaders (by decide +kernel) hm,
    get_applyExtraHeaders (by decide +kernel) hm]
  by_cases hc : m.contentType = [] <;> by_cases he : m.eTag = []
  · simp only [hc, he, if_true, hct, hetag, hrange, and_self]
  · simp only [hc, he, if_true, if_false, Header.get_set,
      Header.get_set_of_ne _ hne1, Header.get_set_of_ne _ hne3, hct,
      hrange, and_self]
  · simp only [hc, he, if_true, if_false, Header.get_set,
      Header.get_set_of_ne _ hne2, Header.get_set_of_ne _ hne4, hetag,
      hrange, and_self]
  · simp only [hc, he, if_false, Header.get_set,
      Header.get_set_of_ne _ hne1, Header.get_set_of_ne _ hne3,
      Header.get_set_of_ne _ hne4, hrange, and_self]

theorem answer_body (st : Store) (rangeHdr key : Bytes) (hm : Preserved m) (wantStart wantEnd : ℤ) :
    (Hit.body key m wantStart wantEnd).answer st rangeHdr
      = (⟨key, m, wantStart, wantEnd⟩ : WarmPlan).answer rangeHdr
        (sectionBytes (st.file key) wantStart wantEnd) := by
  obtain ⟨hct, hetag, hrange⟩ := get_cachedHeader hm
  obtain ⟨-, -, -, -, hne5, hne6, hne7, hne8, hne9⟩ := names_ne
  unfold Hit.answer seen bodyHeader WarmPlan.answer
  by_cases hr : rangeHdr = []
  · simp only [hr, if_true, Header.get_set_of_ne _ hne7,
      Header.get_set_of_ne _ hne8, Header.get_set_of_ne _ hne9, hct, hetag,
      hrange]
  · simp only [hr, if_false, Header.get_set, Header.get_set_of_ne _ hne5,
      Header.get_set_of_ne _ hne6, Header.get_set_of_ne _ hne7,
      Header.get_set_of_ne _ hne8, hct, hetag]

/-! ## The two paths on one store -/

def Store.server (st : Store) (s : Server) : Server :=
  { s with loadMeta := st.loadMeta, acquireBody := st.acquireBody }

def blockView (blk : Block) : View := (blk.request {}).parsed

def firstRange (blk : Block) : Bytes :=
  ((named .range blk.fields).head?.map (·.value)).getD []

theorem path_blockView (blk : Block) :
    (blockView blk).path = Coreserver.targetPath blk.target := by
  show (blk.request {}).path.data = _
  rw [(blk.request_frame {}).2.2.1, (Coreserver.splitTarget_data blk.targetWindow).1]
  rfl

def Store.sent (st : Store) (plan : WarmPlan) : Bytes :=
  sendfileBytes (st.file plan.key) plan.wantStart plan.wantEnd

structure Agrees (h : Handler) (st : Store) (blk : Block)
    (plan : WarmPlan) (fused : Bool) : Prop where
  answer : h.answer st blk = some (plan.answer (blockView blk).range (st.sent plan))
  wire : plan.wire (blockView blk).range (blockView blk).keepAlive fused (st.sent plan)
    = (plan.answer (blockView blk).range (st.sent plan)).text (blockView blk).keepAlive

structure AnswersAlike (h : Handler) (st : Store) (blk : Block) (plan : WarmPlan)
    (fused : Bool) : Prop where
  target : h.PlainTarget blk.target
  coding : blk.http11 = true → named .transferEncoding blk.fields = []
  length : ∀ f ∈ named .contentLength blk.fields, Text.decimal f.value < 2 ^ 63
  noAlias : plan.entry.aliasOf = [] ∨ plan.entry.aliasOf = plan.key
  noRedirect : ¬ (isCacheableRedirectStatus plan.entry.statusCode = true
    ∧ plan.entry.location ≠ [])
  range : (firstRange blk = [] ↔ (blockView blk).range = [])
    ∧ wanted (firstRange blk) (plan.entry.total.getD (-1))
      = wanted (blockView blk).range (plan.entry.total.getD (-1))
  straight : plan.wantStart ≤ plan.wantEnd ∨ (st.file plan.key).length ≤ plan.wantStart.toNat
  head : fused = true → (plan.head (blockView blk).range (blockView blk).keepAlive).length
    ≤ Coreserver.headerBufSize

theorem readRequest_eq_some {r : Request} :
    readRequest blk = some r ↔ (∃ url, parseRequestURI blk.target = some url
        ∧ r = ⟨blk.method, url, firstRange blk⟩)
      ∧ (blk.http11 = true → named .transferEncoding blk.fields = [])
      ∧ ∀ f ∈ named .contentLength blk.fields, Text.decimal f.value < 2 ^ 63 := by
  unfold readRequest
  cases parseRequestURI blk.target with
  | none => simp
  | some url =>
    simp only [Option.ite_none_left_eq_some, Option.some.injEq, exists_eq_left', not_and,
      not_exists, not_le, ne_eq, not_not]
    constructor
    · rintro ⟨hte, hcl, rfl⟩
      exact ⟨rfl, hte, hcl⟩
    · rintro ⟨rfl, hte, hcl⟩
      exact ⟨hte, hcl, rfl⟩

theorem artifactGET_host (defaultHost host host' method path : Bytes) :
    artifactGET defaultHost host method path
      = artifactGET defaultHost host' method path := by
  unfold artifactGET
  simp only [ite_self]

theorem tryServeFromCache_of_isWarm {v : View} (hw : (st.server s).IsWarm v plan)
    {rangeHdr : Bytes} (halias : plan.entry.aliasOf = [] ∨ plan.entry.aliasOf = plan.key)
    (hred : ¬ (isCacheableRedirectStatus plan.entry.statusCode = true ∧ plan.entry.location ≠ []))
    (hrange : wanted rangeHdr (plan.entry.total.getD (-1))
      = wanted v.range (plan.entry.total.getD (-1))) :
    tryServeFromCache st.loadMeta st.loadMeta st.acquireBody rangeHdr plan.key false
      = some (.body plan.key plan.entry plan.wantStart plan.wantEnd) := by
  have hentry : st.loadMeta plan.key = some plan.entry := hw.entry
  have hbody : st.acquireBody plan.key = true := hw.body
  have hresolve : resolveEntry st.loadMeta st.loadMeta plan.key
      = some (plan.key, plan.entry) := by
    unfold resolveEntry
    rw [hentry]
    dsimp only
    by_cases hnil : plan.entry.aliasOf = []
    · rw [if_neg (by simp [hnil])]
    · rw [if_pos hnil, halias.resolve_left hnil, hentry]
      rfl
  have hserve : serveEntry st.acquireBody rangeHdr false plan.key plan.entry
      = some (.body plan.key plan.entry plan.wantStart plan.wantEnd) := by
    unfold serveEntry
    rw [if_neg hred, if_neg (by simp), if_neg hw.spans, hrange, hw.wanted]
    simp [hw.covers, hbody]
  rw [tryServeFromCache, hresolve]
  exact hserve

theorem agrees_of_answersAlike (hs : Handler.Fronts s h) (hinj : Function.Injective h.sha256)
    (hget : blk.method = ascii "GET") (hw : (st.server s).IsWarm (blockView blk) plan)
    (hpres : Preserved plan.entry) {fused : Bool} (hc : AnswersAlike h st blk plan fused) :
    Agrees h st blk plan fused := by
  refine ⟨?_, (plan.wire_eq_text_iff _ _ _ _).mpr hc.head⟩
  -- the request is routed to the key that the server has looked up
  obtain ⟨k, hk, -, -, hpath, -⟩ := Handler.lineLookup_of_plainTarget hget hc.target
  have hkey : k.key h.sha256 = plan.key := by
    have heq := (Handler.lookupKey_eq_iff_plainTarget hs hinj blk hget {}).mpr hc.target
    rw [hk, Option.map_some] at heq
    exact (Option.some.inj heq).trans hw.key.symm
  obtain ⟨url, hurl, hlookup⟩ := Option.bind_eq_some_iff.mp hk
  obtain ⟨hhealth, t, ht, rfl⟩ := Handler.lookup_eq_some.mp hlookup
  have hread : readRequest blk = some ⟨blk.method, url, firstRange blk⟩ :=
    readRequest_eq_some.mpr ⟨⟨url, hurl, rfl⟩, hc.coding, hc.length⟩
  have htkey : t.key h.sha256 = plan.key := by
    rw [← hkey, hget]
    rfl
  have hart : h.artifact (ascii "GET") t = true := by
    have hwart := hw.artifact
    rw [path_blockView, show (st.server s).defaultHost = h.defaultHost from hs.defaultHost,
      artifactGET_host _ _ t.host, ← hpath] at hwart
    exact Bool.or_eq_true_iff.mpr (.inl hwart)
  have hserve := tryServeFromCache_of_isWarm hw hc.noAlias hc.noRedirect hc.range.2
  have hreply : h.serveHTTP st.loadMeta st.loadMeta st.acquireBody
      ⟨blk.method, url, firstRange blk⟩
        = .hit (.body plan.key plan.entry plan.wantStart plan.wantEnd) := by
    unfold Handler.serveHTTP
    rw [hget, if_neg hhealth, ht]
    dsimp only
    rw [if_pos ⟨.inl rfl, .inl hart⟩, htkey,
      show (ascii "GET" == ascii "HEAD") = false by decide +kernel, hserve]
  unfold Handler.answer
  rw [hread]
  dsimp only
  rw [hreply]
  dsimp only
  rw [answer_body st _ _ hpres, (sectionBytes_eq_iff _ _ _).mpr hc.straight]
  have hempty : (firstRange blk = []) = ((blockView blk).range = []) := propext hc.range.1
  unfold WarmPlan.answer
  simp only [hempty]
  rfl

/-! ## What agreement takes -/

structure Store.SameAt (st st' : Store) (key : Bytes) : Prop where
  loadMeta : st'.loadMeta key = st.loadMeta key
  acquireBody : st'.acquireBody key = st.acquireBody key
  file : st'.file key = st.file key

def Store.only (st : Store) (key : Bytes) : Store :=
  { st with loadMeta := fun k => if k = key then st.loadMeta key else none }

theorem Store.sameAt_only (st : Store) (key : Bytes) : st.SameAt (st.only key) key :=
  ⟨if_pos rfl, rfl, rfl⟩

theorem serveEntry_some {acquireBody : Bytes → Bool} {rangeHdr : Bytes} {hit : Hit}
    (h : serveEntry acquireBody rangeHdr false key m = some hit) :
    ((isCacheableRedirectStatus m.statusCode = true ∧ m.location ≠ []) ∧ hit = .redirect m)
      ∨ (¬ (isCacheableRedirectStatus m.statusCode = true ∧ m.location ≠ [])
        ∧ ∃ a b, wanted rangeHdr (m.total.getD (-1)) = some (a, b)
          ∧ hit = .body key m a b) := by
  unfold serveEntry at h
  split at h
  · next hred => exact .inl ⟨hred, (Option.some.inj h).symm⟩
  · next hred =>
    simp only [Bool.false_eq_true, if_false] at h
    obtain ⟨-, h⟩ := Option.ite_none_left_eq_some.mp h
    split at h
    · cases h
    · next a b hwanted =>
      obtain ⟨-, h⟩ := Option.ite_none_left_eq_some.mp h
      obtain ⟨-, h⟩ := Option.ite_none_left_eq_some.mp h
      exact .inr ⟨hred, a, b, hwanted, (Option.some.inj h).symm⟩

theorem exists_of_answer {a : CacheAnswer} (ha : h.answer st blk = some a) :
    ∃ r, readRequest blk = some r ∧ ∃ hit,
      h.serveHTTP st.loadMeta st.loadMeta st.acquireBody r = .hit hit
        ∧ hit.answer st r.range = a := by
  unfold Handler.answer at ha
  split at ha
  · cases ha
  · next r hr =>
    split at ha
    · next hit hreply => exact ⟨r, hr, hit, hreply, Option.some.inj ha⟩
    · cases ha

theorem resolveEntry_only {key' : Bytes} {e : Bytes × Meta} (hm : st.loadMeta key = some m)
    (h : resolveEntry (st.only key).loadMeta (st.only key).loadMeta key' = some e) :
    key' = key ∧ e = (key, m) ∧ (m.aliasOf = [] ∨ m.aliasOf = key) := by
  have honly : ∀ k m', (st.only key).loadMeta k = some m' → k = key ∧ m' = m := by
    intro k m' hk
    obtain ⟨rfl, hk⟩ := Option.ite_none_right_eq_some.mp hk
    exact ⟨rfl, Option.some.inj (hk.symm.trans hm)⟩
  unfold resolveEntry at h
  cases hfirst : (st.only key).loadMeta key' with
  | none => simp [hfirst] at h
  | some m' =>
    obtain ⟨rfl, rfl⟩ := honly _ _ hfirst
    simp only [hfirst] at h
    split at h
    · obtain ⟨canonical, hcan, rfl⟩ := Option.map_eq_some_iff.mp h
      obtain ⟨halias, rfl⟩ := honly _ _ hcan
      exact ⟨rfl, Prod.ext halias rfl, .inr halias⟩
    · next hnil => exact ⟨rfl, (Option.some.inj h).symm, .inl (not_not.mp hnil)⟩

theorem nonneg_of_wanted {range : Bytes} {total a b : ℤ} (hne : range ≠ [])
    (h : wanted range total = some (a, b)) : 0 ≤ a := by
  unfold wanted at h
  rw [if_neg hne] at h
  split at h
  · cases h
  · next a' b' hparse =>
    obtain ⟨-, h⟩ := Option.ite_none_left_eq_some.mp h
    obtain ⟨rfl, -⟩ := Prod.mk.inj (Option.some.inj h)
    exact nonneg_of_parseSingleRange hparse

theorem wanted_eq_of_answer_eq {range range' body body' : Bytes} {a b a' b' : ℤ}
    (hw : wanted range (m.total.getD (-1)) = some (a, b))
    (hw' : wanted range' (m.total.getD (-1)) = some (a', b'))
    (h : (⟨key, m, a', b'⟩ : WarmPlan).answer range' body'
      = (⟨key, m, a, b⟩ : WarmPlan).answer range body) :
    (range' = [] ↔ range = []) ∧ wanted range' (m.total.getD (-1))
      = wanted range (m.total.getD (-1)) := by
  have hstatus : (if range' = [] then (200 : ℤ) else 206) = if range = [] then 200 else 206 :=
    congrArg CacheAnswer.status h
  have hcr := congrArg CacheAnswer.contentRange h
  unfold WarmPlan.answer at hcr
  dsimp only at hcr
  by_cases hr : range = [] <;> by_cases hr' : range' = []
  · rw [hr, hr']
    exact ⟨Iff.rfl, rfl⟩
  · rw [if_pos hr, if_neg hr'] at hstatus
    exact absurd hstatus (by decide)
  · rw [if_neg hr, if_pos hr'] at hstatus
    exact absurd hstatus (by decide)
  · rw [if_neg hr, if_neg hr'] at hcr
    obtain ⟨rfl, rfl⟩ := Coreserver.formatContentRange_inj (nonneg_of_wanted hr' hw')
      (nonneg_of_wanted hr hw) hcr
    exact ⟨iff_of_false hr' hr, hw'.trans hw.symm⟩

theorem answersAlike_of_agrees (hs : Handler.Fronts s h) (hinj : Function.Injective h.sha256)
    (hget : blk.method = ascii "GET") (hw : (st.server s).IsWarm (blockView blk) plan)
    (hpres : Preserved plan.entry) {fused : Bool}
    (hagree : Agrees h (st.only plan.key) blk plan fused) :
    AnswersAlike h st blk plan fused := by
  obtain ⟨hanswer, hwire⟩ := hagree
  obtain ⟨r, hread, hit, hreply, hhit⟩ := exists_of_answer hanswer
  obtain ⟨⟨url, hurl, rfl⟩, hcoding, hlength⟩ := readRequest_eq_some.mp hread
  obtain ⟨hhealth, t, ht, hserve⟩ := Handler.hit_of_serveHTTP hreply
  rw [show (blk.method == ascii "HEAD") = false by rw [hget]; decide +kernel] at hserve
  obtain ⟨⟨key, m⟩, hresolve, hserve⟩ := exists_of_tryServeFromCache hserve
  -- the answer is made from the one entry there is
  obtain ⟨hkey, hkm, halias⟩ := resolveEntry_only hw.entry hresolve
  obtain ⟨rfl, rfl⟩ := Prod.mk.inj hkm
  have hlookup : h.lineLookup blk.toRequestLine
      = some ⟨blk.method, t.host, t.path, t.keyQuery, []⟩ :=
    Option.bind_eq_some_iff.mpr
      ⟨url, hurl, Handler.lookup_eq_some.mpr ⟨hhealth, t, ht, rfl⟩⟩
  have htarget : h.PlainTarget blk.target := by
    refine Handler.plainTarget_of_key_eq hinj hlookup ?_
    rw [← Handler.lookupKey_eq hs blk {}]
    refine Eq.trans ?_ (hkey.trans hw.key)
    rw [hget]
    rfl
  rcases serveEntry_some hserve with ⟨hred, rfl⟩ | ⟨hred, a, b, hwanted, rfl⟩
  · -- a redirect has another status
    have hstatus : plan.entry.statusCode = if (blockView blk).range = [] then 200 else 206 :=
      congrArg CacheAnswer.status hhit
    have hcode := hred.1
    rw [hstatus] at hcode
    split at hcode <;> exact absurd hcode (by decide)
  · rw [answer_body _ _ _ hpres] at hhit
    have hrange := wanted_eq_of_answer_eq hw.wanted hwanted hhit
    -- the interval is the same, so the bytes are compared
    have hinterval : some (a, b) = some (plan.wantStart, plan.wantEnd) :=
      hwanted.symm.trans (hrange.2.trans hw.wanted)
    obtain ⟨rfl, rfl⟩ := Prod.mk.inj (Option.some.inj hinterval)
    exact ⟨htarget, hcoding, hlength, halias, hred, hrange,
      (sectionBytes_eq_iff _ _ _).mp (congrArg CacheAnswer.body hhit),
      (plan.wire_eq_text_iff _ _ _ _).mp hwire⟩

def rangeField (value : Bytes) (htext : ∀ c ∈ value, TextByte c)
    (htrim : Trimmed value) : Field where
  name := ascii "Range"
  lead := []
  value := value
  trail := []
  name_ne := by decide
  name_token := forall_mem_of_all (by decide)
  lead_blank := nil_blank
  trail_blank := nil_blank
  value_text := htext
  value_trimmed := htrim
  trail_nil := fun _ => rfl

def firstByte : Field :=
  rangeField (ascii "bytes=0-0") (forall_mem_of_all (by decide))
    (trimmed_of_ends (by decide) (by decide))

def otherBytes : Field :=
  rangeField (ascii "bytes=1-2") (forall_mem_of_all (by decide))
    (trimmed_of_ends (by decide) (by decide))

def twoRanges : Block where
  toRequestLine := lineA
  fields := [hostField, firstByte, otherBytes]
  one_host := by decide
  clen_le := by decide
  clen_ok := by decide
  te_ok := by decide
  te_clen := by decide

def entryOfThree : Meta :=
  { version := 1, spans := [⟨0, 3⟩], total := some 3, contentType := ascii "t",
    statusCode := 200 }

def storeOfThree : Store where
  loadMeta := fun k => if k = plainServer.lookupKey (blockView (bareBlock lineA))
    then some entryOfThree else none
  acquireBody := fun _ => true
  file := fun _ => ascii "abc"

def planOfThree : WarmPlan :=
  ⟨plainServer.lookupKey (blockView (bareBlock lineA)), entryOfThree, 0, 3⟩

end Proxy
