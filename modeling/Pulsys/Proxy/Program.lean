import Pulsys.Base.Interaction
import Pulsys.Proxy.Outbound
import Pulsys.Proxy.ResponseHeaders
import Pulsys.Proxy.RevAlias

/-!
# The handler as a program

Everything the handler does for one request, in its order (`Service.serveHTTP`); logs,
counters and the closing of upstream's bodies are left out. Requests that differ in the
credential only are the same program (`serveHTTP_withoutCredential`).
-/

namespace Proxy

open Bytes Cache

/-! ## Operations -/

structure Response extends Upstream where
  body : List Bytes

structure RangeTicket where
  key : Bytes
  start : ℤ
  stop : ℤ
  deriving DecidableEq, Repr

inductive Begun
  | ok | quotaExceeded | failed
  deriving DecidableEq, Repr

inductive Op
  | keyHex (k : Lookup)
  | loadMeta (key : Bytes)
  | acquireBody (key : Bytes)
  | readBody (key : Bytes) (start n : ℤ)
  | releaseBody (key : Bytes)
  | acquireRangeCtx (t : RangeTicket) (budget : ℤ)
  | acquireRange (t : RangeTicket)
  | unlock (t : RangeTicket)
  | send (out : Outbound)
  | beginSegment (key : Bytes) (p : SegmentParams)
  | writeSegment (key : Bytes) (b : Bytes)
  | closeSegment (key : Bytes)
  | storeRedirect (key : Bytes) (r : Redirect)
  | storeAlias (key : Bytes) (a : Alias)
  | writeHeader (code : ℤ) (hdr : Coreserver.Header)
  | write (b : Bytes)

@[reducible]
def Op.Answer : Op → Type
  | keyHex _ => Bytes
  | loadMeta _ => Option Meta
  | acquireBody _ => Bool
  | readBody _ _ _ => List Bytes
  | acquireRangeCtx _ _ => Bool
  | send _ => Option Response
  | beginSegment _ _ => Begun
  | writeSegment _ _ => Bool
  | write _ => Bool
  | _ => Unit

abbrev Prog (α : Type) : Type := Interaction Op Op.Answer α

abbrev perform (op : Op) : Prog op.Answer := Interaction.ask op

def copy : List Bytes → Prog Unit
  | [] => pure ()
  | b :: bs => do
    if ← perform (.write b) then copy bs else pure ()

def teeCopy (key : Bytes) : List Bytes → Prog Unit
  | [] => pure ()
  | b :: bs => do
    if ← perform (.writeSegment key b) then
      if ← perform (.write b) then teeCopy key bs else pure ()
    else
      let _ ← perform (.write b)
      pure ()

abbrev anyAnswer : (op : Op) → op.Answer → Prop := fun _ _ => True

open Interaction (keeps_pure keeps_ask keeps_ask_bind)

theorem keeps_copy {guarantee : Op → Prop} (hwrite : ∀ b, guarantee (.write b))
    (blocks : List Bytes) : (copy blocks).Keeps anyAnswer guarantee := by
  induction blocks with
  | nil => exact keeps_pure _
  | cons b bs ih =>
    refine keeps_ask_bind (hwrite b) (fun ok _ => ?_)
    cases ok with
    | true => exact ih
    | false => exact keeps_pure _

theorem keeps_teeCopy {guarantee : Op → Prop} {key : Bytes} (hwrite : ∀ b, guarantee (.write b))
    (hstore : ∀ b, guarantee (.writeSegment key b)) (blocks : List Bytes) :
    (teeCopy key blocks).Keeps anyAnswer guarantee := by
  induction blocks with
  | nil => exact keeps_pure _
  | cons b bs ih =>
    refine keeps_ask_bind (hstore b) (fun stored _ => ?_)
    cases stored with
    | true =>
      refine keeps_ask_bind (hwrite b) (fun ok _ => ?_)
      cases ok with
      | true => exact ih
      | false => exact keeps_pure _
    | false => exact keeps_ask_bind (hwrite b) (fun _ _ => keeps_pure _)

def httpError (hdr : Coreserver.Header) (text : Bytes) (code : ℤ) : Prog Unit := do
  let hdr := hdr.del (ascii "Content-Length")
  let hdr := hdr.set (ascii "Content-Type") (ascii "text/plain; charset=utf-8")
  let hdr := hdr.set (ascii "X-Content-Type-Options") (ascii "nosniff")
  perform (.writeHeader code hdr)
  let _ ← perform (.write (text ++ [LF]))

def respondOffline (hdr : Coreserver.Header) (host path rangeHdr keyHex : Bytes) (artifact : Bool)
    (method : Bytes) : Prog Unit := do
  let hdr := hdr.set (ascii "Content-Type") (ascii "text/plain; charset=utf-8")
  let hdr := hdr.set (ascii "X-Pulsys-Offline") (ascii "1")
  let hdr := hdr.set (ascii "X-Pulsys-Keyhex") keyHex
  perform (.writeHeader 504 hdr)
  let _ ← perform (.write (ascii "offline=1\nreason=cache-miss-in-offline-mode\n"
    ++ ascii "method=" ++ method ++ LF :: ascii "upstream_host=" ++ host
    ++ LF :: ascii "path=" ++ path ++ LF :: ascii "range=" ++ rangeHdr
    ++ LF :: ascii "key_hex=" ++ keyHex
    ++ LF :: ascii "artifact=" ++ (if artifact then ascii "true" else ascii "false") ++ [LF]))

def unlock : Option RangeTicket → Prog Unit
  | none => pure ()
  | some t => perform (.unlock t)

theorem keeps_unlock {guarantee : Op → Prop} (h : ∀ t, guarantee (.unlock t))
    (ticket : Option RangeTicket) : (unlock ticket).Keeps anyAnswer guarantee := by
  cases ticket with
  | none => exact keeps_pure _
  | some t => exact keeps_ask (h t)

def setArtifactHeaders (hdr : Coreserver.Header) (contentLength : ℤ) : Coreserver.Header :=
  if 0 ≤ contentLength then hdr.set (ascii "Content-Length") (Coreserver.itoa contentLength)
  else hdr.del (ascii "Content-Length")

def streamMetadata (hdr : Coreserver.Header) (resp : Response) : Prog Unit := do
  perform (.writeHeader resp.status (setArtifactHeaders hdr resp.contentLength))
  copy resp.body

def forwardRedirect (hdr : Coreserver.Header) (resp : Response) : Prog Unit :=
  perform (.writeHeader resp.status (hdr.set (ascii "Content-Length") (ascii "0")))

/-! ## The handler -/

structure Service extends Handler where
  upstreamHFToken : Bytes
  up : NetClient
  net : NetURL
  publicBase : Bytes
  inflightBudget : ℤ

structure Inbound where
  method : Bytes
  url : URL
  header : Coreserver.Header
  body : Option Bytes

def Target.lookup (t : Target) (method : Bytes) : Lookup :=
  ⟨method, t.host, t.path, t.keyQuery, []⟩

def Inbound.range (r : Inbound) : Bytes := r.header.get (ascii "Range")

def Inbound.reqBody (r : Inbound) : Bytes :=
  if r.method ≠ ascii "GET" ∧ r.method ≠ ascii "HEAD" then (r.body.getD []).take (256 * 2 ^ 20)
  else []

namespace Service

variable (s : Service)

def rewriter : Rewriter := ⟨s.net, s.publicBase, s.allowf⟩

def hitHead (rangeHdr : Bytes) : Hit → ℤ × Coreserver.Header
  | .redirect m => (m.statusCode, redirectHeader s.rewriter m)
  | .head m => (200, headHeader m)
  | .body _ m wantStart wantEnd =>
    (if rangeHdr = [] then 200 else 206, bodyHeader rangeHdr m wantStart wantEnd)

def writeHit (rangeHdr : Bytes) (hit : Hit) : Prog Unit :=
  perform (.writeHeader (s.hitHead rangeHdr hit).1 (s.hitHead rangeHdr hit).2)

def serveEntry (rangeHdr : Bytes) (headOnly : Bool) (keyHex : Bytes) (m : Meta) :
    Prog Bool := do
  if isCacheableRedirectStatus m.statusCode ∧ m.location ≠ [] then
    s.writeHit rangeHdr (.redirect m)
    pure true
  else if headOnly then
    s.writeHit rangeHdr (.head m)
    pure true
  else if m.spans = [] then pure false
  else
    match Coreserver.wanted rangeHdr (m.total.getD (-1)) with
    | none => pure false
    | some (wantStart, wantEnd) =>
      if !covers m.spans wantStart wantEnd then pure false
      else
        if ← perform (.acquireBody keyHex) then
          s.writeHit rangeHdr (.body keyHex m wantStart wantEnd)
          let blocks ← perform (.readBody keyHex wantStart (wantEnd - wantStart))
          copy blocks
          perform (.releaseBody keyHex)
          pure true
        else pure false

def tryServeFromCache (rangeHdr keyHex : Bytes) (headOnly : Bool) : Prog Bool := do
  match ← perform (.loadMeta keyHex) with
  | none => pure false
  | some m =>
    if m.aliasOf ≠ [] then
      match ← perform (.loadMeta m.aliasOf) with
      | none => pure false
      | some canonical => s.serveEntry rangeHdr headOnly m.aliasOf canonical
    else s.serveEntry rangeHdr headOnly keyHex m

def upDo (method : Bytes) (t : Target) (hdr : Coreserver.Header) (body : Bytes) :
    Prog (Option Response) :=
  match s.up.request method t.host t.path t.rawQuery hdr body with
  | .error _ => pure none
  | .ok out => perform (.send out)

def maybeWriteRevAlias (_s : Service) (f : Fetch) (_auth canonicalKey : Bytes) : Prog Unit :=
  match revAlias f canonicalKey with
  | none => pure ()
  | some a => do
    let aliasKey ← perform (.keyHex (Target.lookup { f.target with path := a.path } (ascii "GET")))
    if aliasKey = canonicalKey then pure () else perform (.storeAlias aliasKey a)

theorem keeps_maybeWriteRevAlias {guarantee : Op → Prop} (hkey : ∀ k, guarantee (.keyHex k))
    (halias : ∀ key a, guarantee (.storeAlias key a)) (f : Fetch) (auth canonicalKey : Bytes) :
    (s.maybeWriteRevAlias f auth canonicalKey).Keeps anyAnswer guarantee := by
  unfold maybeWriteRevAlias
  split
  · exact keeps_pure _
  · refine keeps_ask_bind (hkey _) (fun aliasKey _ => ?_)
    split
    · exact keeps_pure _
    · exact keeps_ask (halias _ _)

def streamSegment (p : SegmentParams) (errHdr : Coreserver.Header) (code : ℤ)
    (hdr : Coreserver.Header) (f : Fetch) (body : List Bytes) (keyHex auth : Bytes)
    (ticket : Option RangeTicket) : Prog Unit := do
  match ← perform (.beginSegment keyHex p) with
  | .quotaExceeded =>
    unlock ticket
    httpError errHdr (ascii "cache storage quota exceeded") 507
  | .failed =>
    unlock ticket
    httpError errHdr (ascii "cache write failed") 500
  | .ok =>
    perform (.writeHeader code hdr)
    teeCopy keyHex body
    perform (.closeSegment keyHex)
    unlock ticket
    s.maybeWriteRevAlias f auth keyHex

def streamCacheable200 (hdr : Coreserver.Header) (resp : Response) (keyHex : Bytes) (t : Target)
    (auth : Bytes) (ticket : Option RangeTicket) (originPath : Bytes) : Prog Unit :=
  let f : Fetch := ⟨t, resp.toUpstream, originPath⟩
  s.streamSegment (f.paramsAt 0 resp.contentLength resp.contentLength) hdr 200
    (setArtifactHeaders hdr resp.contentLength) f resp.body keyHex auth ticket

def streamCacheable206 (hdr : Coreserver.Header) (resp : Response) (keyHex : Bytes) (t : Target)
    (auth : Bytes) (ticket : Option RangeTicket) (originPath : Bytes) : Prog Unit :=
  let f : Fetch := ⟨t, resp.toUpstream, originPath⟩
  match parseContentRangeResponse (resp.header.get (ascii "Content-Range")) with
  | none => do
    streamMetadata hdr resp
    unlock ticket
  | some (start, stop, total) =>
    let length := Text.wrap64 (stop - start)
    s.streamSegment (f.paramsAt start length total) hdr 206
      (setArtifactHeaders (hdr.set (ascii "Content-Range")
        (Coreserver.formatContentRange start stop total)) length)
      f resp.body keyHex auth ticket

def streamCacheable (hdr : Coreserver.Header) (resp : Response) (keyHex : Bytes) (t : Target)
    (auth : Bytes) (ticket : Option RangeTicket) (originPath : Bytes) : Prog Unit :=
  if resp.status = 200 then s.streamCacheable200 hdr resp keyHex t auth ticket originPath
  else if resp.status = 206 then s.streamCacheable206 hdr resp keyHex t auth ticket originPath
  else do
    streamMetadata hdr resp
    unlock ticket

def cacheableLocation (resp : Response) (t : Target) (reqHdr : Coreserver.Header) :
    Prog (Option Coreserver.Header) := do
  if reqHdr.get (ascii "Range") = [] then pure (some resp.header)
  else
    match ← s.upDo (ascii "GET") t (reqHdr.del (ascii "Range")) [] with
    | none => pure none
    | some fresh =>
      if isCacheableRedirectStatus fresh.status ∧ fresh.header.get (ascii "Location") ≠ [] then
        pure (some fresh.header)
      else pure none

def cacheRedirect (hdr : Coreserver.Header) (resp : Response) (keyHex : Bytes) (t : Target)
    (auth : Bytes) (reqHdr : Coreserver.Header) : Prog Unit := do
  if resp.header.get (ascii "Location") = [] then streamMetadata hdr resp
  else
    match ← s.cacheableLocation resp t reqHdr with
    | none => forwardRedirect hdr resp
    | some cacheHdr =>
      let f : Fetch := ⟨t, { resp.toUpstream with header := cacheHdr }, []⟩
      perform (.storeRedirect keyHex f.redirect)
      s.maybeWriteRevAlias f auth keyHex
      forwardRedirect hdr resp

def relay (method path : Bytes) (t : Target) (keyHex originPath auth : Bytes)
    (reqHdr : Coreserver.Header) (passthrough : Bool) (ticket : Option RangeTicket)
    (resp : Response) : Prog Unit := do
  let outboundOrigin :=
    if originPath = [] ∧ hostPath.isPrefixOf path = false then path else originPath
  let hdr := copyAndRewriteHeaders s.rewriter securityHeader resp.header outboundOrigin
  if passthrough then streamMetadata hdr resp
  else if method = ascii "GET" ∧ (resp.status = 200 ∨ resp.status = 206) then
    s.streamCacheable hdr resp keyHex t auth ticket originPath
  else if method = ascii "GET" ∧ isCacheableRedirectStatus resp.status then
    s.cacheRedirect hdr resp keyHex t auth reqHdr
    unlock ticket
  else
    streamMetadata hdr resp
    unlock ticket

def fetch (r : Inbound) (t : Target) (keyHex originPath : Bytes) (passthrough : Bool)
    (ticket : Option RangeTicket) : Prog Unit := do
  let hdr := forwardHeader s.upstreamHFToken t.host r.header
  match ← s.upDo r.method t hdr r.reqBody with
  | none =>
    unlock ticket
    httpError securityHeader (ascii "upstream error") 502
  | some resp =>
    let auth := r.header.get authorizationKey
    s.relay r.method r.url.path t keyHex originPath auth hdr passthrough ticket resp

def forward (r : Inbound) (t : Target) (keyHex originPath : Bytes) (artifact : Bool) :
    Prog Unit := do
  if artifact = true ∧ r.method = ascii "GET" then
    let span := inflightRange r.range
    let ticket : RangeTicket := ⟨keyHex, span.start, span.stop⟩
    if 0 < s.inflightBudget then
      if ← perform (.acquireRangeCtx ticket s.inflightBudget) then
        if ← s.tryServeFromCache r.range keyHex false then perform (.unlock ticket)
        else s.fetch r t keyHex originPath false (some ticket)
      else
        if ← s.tryServeFromCache r.range keyHex false then pure ()
        else s.fetch r t keyHex originPath true none
    else
      perform (.acquireRange ticket)
      if ← s.tryServeFromCache r.range keyHex false then perform (.unlock ticket)
      else s.fetch r t keyHex originPath false (some ticket)
  else s.fetch r t keyHex originPath false none

def serveTarget (r : Inbound) (t : Target) (keyHex : Bytes) : Prog Unit := do
  let originPath := (extractAndStripOrigin r.url.rawQuery).1
  let isHead := r.method == ascii "HEAD"
  let artifact := s.artifact r.method t
  let served ←
    if (r.method = ascii "GET" ∨ isHead) ∧ (artifact ∨ s.offline) then do
      let lookupKey ←
        if isHead then perform (.keyHex (t.lookup (ascii "GET"))) else pure keyHex
      s.tryServeFromCache r.range lookupKey isHead
    else pure false
  if served then pure ()
  else if s.strictOffline then
    respondOffline securityHeader t.host t.path r.range keyHex artifact r.method
  else s.forward r t keyHex originPath artifact

def serveHTTP (r : Inbound) : Prog Unit := do
  if r.url.path = ascii "/healthz" then
    perform (.writeHeader 200 securityHeader)
    let _ ← perform (.write (ascii "ok"))
  else
    match s.target r.url with
    | .error e => httpError securityHeader e.text e.status
    | .ok t =>
      let keyHex ← perform (.keyHex (t.lookup r.method))
      s.serveTarget r t keyHex

end Service

/-! ## The credential -/

def isCredential (name : Bytes) : Bool := Text.toLower name == ascii "authorization"

def Inbound.withoutCredential (r : Inbound) : Inbound :=
  { r with header := r.header.keep (fun name => !isCredential name) }

end Proxy

namespace Coreserver.Header

theorem get_keep {h : Header} {p : Bytes → Bool} {key : Bytes} (hp : p key = true) :
    (h.keep p).get key = h.get key := by
  have hfind : (h.entries.filter (fun e => p e.1)).find? (·.1 = key)
      = h.entries.find? (·.1 = key) := by
    rw [List.find?_filter]
    congr 1
    funext e
    by_cases he : e.1 = key
    · simp [he, hp]
    · simp [he]
  rw [get, keep, hfind, get]

end Coreserver.Header

namespace Proxy

open Bytes Cache

theorem forwardHeader_withoutCredential (token host : Bytes) (r : Inbound) :
    forwardHeader token host r.withoutCredential.header = forwardHeader token host r.header := by
  have hboth : (fun name => !isCredential name && passesOn name) = passesOn := by
    funext name
    cases hc : isCredential name with
    | true =>
      have hname : Text.toLower name = ascii "authorization" := beq_iff_eq.mp hc
      simp [passesOn, hname]
    | false => rfl
  rw [forwardHeader, forwardHeader, Inbound.withoutCredential, Coreserver.Header.keep_keep, hboth]

theorem range_withoutCredential (r : Inbound) : r.withoutCredential.range = r.range :=
  Coreserver.Header.get_keep (by decide +kernel)

namespace Service

variable (s : Service)

theorem relay_auth (method path : Bytes) (t : Target) (keyHex originPath auth auth' : Bytes)
    (reqHdr : Coreserver.Header) (passthrough : Bool) (ticket : Option RangeTicket)
    (resp : Response) :
    s.relay method path t keyHex originPath auth reqHdr passthrough ticket resp
      = s.relay method path t keyHex originPath auth' reqHdr passthrough ticket resp := rfl

theorem fetch_withoutCredential (r : Inbound) (t : Target) (keyHex originPath : Bytes)
    (passthrough : Bool) (ticket : Option RangeTicket) :
    s.fetch r.withoutCredential t keyHex originPath passthrough ticket
      = s.fetch r t keyHex originPath passthrough ticket := by
  unfold fetch
  rw [forwardHeader_withoutCredential]
  refine bind_congr (fun resp => ?_)
  cases resp with
  | none => rfl
  | some resp => exact s.relay_auth _ _ _ _ _ _ _ _ _ _ _

theorem forward_withoutCredential (r : Inbound) (t : Target) (keyHex originPath : Bytes)
    (artifact : Bool) :
    s.forward r.withoutCredential t keyHex originPath artifact
      = s.forward r t keyHex originPath artifact := by
  unfold forward
  rw [range_withoutCredential]
  simp only [fetch_withoutCredential]
  rfl

theorem serveHTTP_withoutCredential (r : Inbound) :
    s.serveHTTP r.withoutCredential = s.serveHTTP r := by
  unfold serveHTTP serveTarget
  simp only [range_withoutCredential, forward_withoutCredential]
  rfl

/-- **The credential does not interfere.** Two requests that differ in it only do the same,
and so does the request without one. -/
theorem credential_does_not_interfere {σ : Type} (env : (op : Op) → σ → op.Answer × σ) (st : σ)
    {r r' : Inbound} (h : r.withoutCredential = r'.withoutCredential) :
    (s.serveHTTP r).run env st = (s.serveHTTP r').run env st
      ∧ (s.serveHTTP r).run env st = (s.serveHTTP r.withoutCredential).run env st := by
  have hsame : s.serveHTTP r = s.serveHTTP r' := by
    rw [← serveHTTP_withoutCredential, h, serveHTTP_withoutCredential]
  exact ⟨by rw [hsame], by rw [serveHTTP_withoutCredential]⟩

def plainService : Service where
  sha256 := id
  defaultHost := ascii "huggingface.co"
  allowf := fun _ => false
  offline := true
  strictOffline := false
  defaultHost_graph := huggingface_graph
  defaultHost_slash := huggingface_slash
  upstreamHFToken := ascii "hf_x"
  up := ⟨ascii "huggingface.co", fun _ => false, ascii "https", ⟨fun _ => true, fun _ => none⟩⟩
  net := ⟨fun _ => none, fun _ _ => none, fun _ _ => [],
    fun _ _ h => absurd h (Option.some_ne_none _).symm,
    fun _ _ _ => ⟨List.not_mem_nil, List.not_mem_nil⟩⟩
  publicBase := []
  inflightBudget := 0

private def askedBy (token : Bytes) : Inbound :=
  ⟨ascii "GET", ⟨ascii "/api/models/m", []⟩, Coreserver.Header.empty.set authorizationKey token,
    none⟩

private theorem askedBy_withoutCredential (token : Bytes) :
    (askedBy token).withoutCredential
      = ⟨ascii "GET", ⟨ascii "/api/models/m", []⟩, .empty, none⟩ := by
  have hcred : isCredential authorizationKey = true := by decide +kernel
  simp [Inbound.withoutCredential, askedBy, Coreserver.Header.keep, Coreserver.Header.set,
    Coreserver.Header.del, Coreserver.Header.empty, hcred]

def freshSurroundings : (op : Op) → Unit → op.Answer × Unit
  | .keyHex k, _ => (k.key id, ())
  | .loadMeta _, _ => (none, ())
  | .acquireBody _, _ => (false, ())
  | .readBody _ _ _, _ => ([], ())
  | .acquireRangeCtx _ _, _ => (true, ())
  | .send _, _ => (some ⟨⟨200, .empty, 2⟩, [ascii "ok"]⟩, ())
  | .beginSegment _ _, _ => (.ok, ())
  | .writeSegment _ _, _ => (true, ())
  | .write _, _ => (true, ())
  | .releaseBody _, _ => ((), ())
  | .acquireRange _, _ => ((), ())
  | .unlock _, _ => ((), ())
  | .closeSegment _, _ => ((), ())
  | .storeRedirect _ _, _ => ((), ())
  | .storeAlias _ _, _ => ((), ())
  | .writeHeader _ _, _ => ((), ())

private def sendsCredential (value : Bytes) : Op → Bool
  | .send out => out.header.get authorizationKey == value
  | _ => false

theorem credential_does_not_interfere_two :
    ((plainService.serveHTTP (askedBy (ascii "Bearer a"))).run freshSurroundings ()).1.any
        (sendsCredential (ascii "Bearer hf_x")) = true
      ∧ (plainService.serveHTTP (askedBy (ascii "Bearer a"))).run freshSurroundings ()
        = (plainService.serveHTTP (askedBy (ascii "Bearer b"))).run freshSurroundings () :=
  ⟨by decide +kernel, (@credential_does_not_interfere plainService Unit freshSurroundings ()
    (askedBy (ascii "Bearer a")) (askedBy (ascii "Bearer b"))
    (by rw [askedBy_withoutCredential, askedBy_withoutCredential])).1⟩

/-! ## On a store that does not change -/

structure AnswersFrom {σ : Type} (env : (op : Op) → σ → op.Answer × σ) (st : Store) : Prop where
  loadMeta : ∀ key x, (env (.loadMeta key) x).1 = st.loadMeta key
  acquireBody : ∀ key x, (env (.acquireBody key) x).1 = st.acquireBody key

def headOf : Op → Option (ℤ × Coreserver.Header)
  | .writeHeader code hdr => some (code, hdr)
  | _ => none

variable {σ : Type} {env : (op : Op) → σ → op.Answer × σ}

theorem filterMap_headOf_copy (blocks : List Bytes) (x : σ) :
    ((copy blocks).run env x).1.filterMap headOf = [] := by
  induction blocks generalizing x with
  | nil => rfl
  | cons b bs ih =>
    rw [copy, Interaction.run_ask_bind]
    dsimp only
    split
    · exact ih _
    · rfl

theorem run_serveEntry {st : Store} (h : AnswersFrom env st) (rangeHdr : Bytes) (headOnly : Bool)
    (keyHex : Bytes) (m : Meta) (x : σ) :
    ((s.serveEntry rangeHdr headOnly keyHex m).run env x).1.filterMap headOf
        = ((Proxy.serveEntry st.acquireBody rangeHdr headOnly keyHex m).map
          (s.hitHead rangeHdr)).toList
      ∧ ((s.serveEntry rangeHdr headOnly keyHex m).run env x).2.1
        = (Proxy.serveEntry st.acquireBody rangeHdr headOnly keyHex m).isSome := by
  unfold serveEntry Proxy.serveEntry
  by_cases hred : isCacheableRedirectStatus m.statusCode = true ∧ m.location ≠ []
  · rw [if_pos hred, if_pos hred]
    exact ⟨rfl, rfl⟩
  rw [if_neg hred, if_neg hred]
  cases headOnly with
  | true => exact ⟨rfl, rfl⟩
  | false =>
    simp only [Bool.false_eq_true, if_false]
    by_cases hspans : m.spans = []
    · rw [if_pos hspans, if_pos hspans]
      exact ⟨rfl, rfl⟩
    rw [if_neg hspans, if_neg hspans]
    cases Coreserver.wanted rangeHdr (m.total.getD (-1)) with
    | none => exact ⟨rfl, rfl⟩
    | some w =>
      obtain ⟨wantStart, wantEnd⟩ := w
      dsimp only
      by_cases hcov : (!covers m.spans wantStart wantEnd) = true
      · rw [if_pos hcov, if_pos hcov]
        exact ⟨rfl, rfl⟩
      rw [if_neg hcov, if_neg hcov, Interaction.run_ask_bind, h.acquireBody]
      cases st.acquireBody keyHex with
      | false => exact ⟨rfl, rfl⟩
      | true =>
        simp only [if_true, Bool.not_true, Bool.false_eq_true, if_false, writeHit,
          Interaction.run_bind, Interaction.run_pure, List.filterMap_cons,
          List.filterMap_append, filterMap_headOf_copy, headOf]
        exact ⟨rfl, rfl⟩

theorem run_tryServeFromCache {st : Store} (h : AnswersFrom env st) (rangeHdr keyHex : Bytes)
    (headOnly : Bool) (x : σ) :
    ((s.tryServeFromCache rangeHdr keyHex headOnly).run env x).1.filterMap headOf
        = ((Proxy.tryServeFromCache st.loadMeta st.loadMeta st.acquireBody rangeHdr keyHex
          headOnly).map (s.hitHead rangeHdr)).toList
      ∧ ((s.tryServeFromCache rangeHdr keyHex headOnly).run env x).2.1
        = (Proxy.tryServeFromCache st.loadMeta st.loadMeta st.acquireBody rangeHdr keyHex
          headOnly).isSome := by
  unfold tryServeFromCache Proxy.tryServeFromCache resolveEntry
  rw [Interaction.run_ask_bind, h.loadMeta]
  cases st.loadMeta keyHex with
  | none => exact ⟨rfl, rfl⟩
  | some m =>
    dsimp only
    by_cases halias : m.aliasOf ≠ []
    · rw [if_pos halias, if_pos halias, Interaction.run_ask_bind, h.loadMeta]
      cases st.loadMeta m.aliasOf with
      | none => exact ⟨rfl, rfl⟩
      | some canonical => exact s.run_serveEntry h _ _ _ _ _
    · rw [if_neg halias, if_neg halias]
      exact s.run_serveEntry h _ _ _ _ _

private def redirectEntry : Meta := { statusCode := 302, location := ascii "/l" }

private def redirecting : (op : Op) → Unit → op.Answer × Unit
  | .loadMeta _, _ => (some redirectEntry, ())
  | op, x => freshSurroundings op x

theorem run_tryServeFromCache_redirect :
    ((plainService.tryServeFromCache [] [] false).run redirecting ()).1.filterMap headOf
      = [plainService.hitHead [] (.redirect redirectEntry)] := by
  have h : AnswersFrom redirecting ⟨fun _ => some redirectEntry, fun _ => false, fun _ => []⟩ :=
    ⟨fun _ _ => rfl, fun _ _ => rfl⟩
  exact (run_tryServeFromCache plainService h [] [] false ()).1

end Service

end Proxy
