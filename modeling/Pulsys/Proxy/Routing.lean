import Pulsys.Base.Percent
import Pulsys.Coreserver.Block
import Pulsys.Proxy.Serve
import Pulsys.Proxy.Upstream

/-!
# Where a request goes

From the parsed request the handler makes the target upstream – a host, a path and a query
– and from that the key. `serveHTTP` is the dispatch: what can be had from the cache is
answered from it, and the rest is sent on.
-/

namespace Proxy

open Bytes Cache

/-! ## Requests -/

structure URL where
  path : Bytes
  rawQuery : Bytes
  deriving DecidableEq, Repr

def parseRequestURI (target : Bytes) : Option URL :=
  if target.head? ≠ some SLASH then none
  else (Percent.pathUnescape (Coreserver.targetPath target)).map
    (fun path => ⟨path, Coreserver.targetQuery target⟩)

structure Request where
  method : Bytes
  url : URL
  range : Bytes
  deriving DecidableEq, Repr

def readRequest (blk : Coreserver.Block) : Option Request :=
  match parseRequestURI blk.target with
  | none => none
  | some url =>
    if blk.http11 ∧ Coreserver.named .transferEncoding blk.fields ≠ [] then none
    else if ∃ f ∈ Coreserver.named .contentLength blk.fields,
      2 ^ 63 ≤ Text.decimal f.value then none
    else some
      { method := blk.method
        url := url
        range := ((Coreserver.named .range blk.fields).head?.map (·.value)).getD [] }

def originQueryParam : Bytes := ascii "__pulsys_origin"

def originValue (seg : Bytes) : Option Bytes :=
  if (originQueryParam ++ [61]).isPrefixOf seg then some (seg.drop 16) else none

def isOriginSegment (seg : Bytes) : Bool :=
  (originValue seg).isSome || seg == originQueryParam

def extractAndStripOrigin (rawQuery : Bytes) : Bytes × Bytes :=
  if (index originQueryParam rawQuery).isNone then ([], rawQuery)
  else
    let segs := rawQuery.splitOn 38
    let origin := segs.foldl (fun origin seg =>
      match originValue seg with
      | none => origin
      | some v => if origin = [] then (Percent.queryUnescape v).getD [] else origin) []
    (origin, [38].intercalate (segs.filter (fun seg => !isOriginSegment seg)))

def cleanQuery (rawQuery : Bytes) : Bytes :=
  if (extractAndStripOrigin rawQuery).1 = [] then rawQuery
  else (extractAndStripOrigin rawQuery).2

/-! ## The handler -/

structure Handler where
  sha256 : Bytes → Bytes
  defaultHost : Bytes
  allowf : Bytes → Bool
  offline : Bool
  strictOffline : Bool
  defaultHost_graph : ∀ c ∈ defaultHost, Text.isGraph c = true
  defaultHost_slash : SLASH ∉ defaultHost

inductive Refusal
  | badPath
  | hostNotAllowed
  deriving DecidableEq, Repr

def Refusal.status : Refusal → ℕ
  | .badPath => 400
  | .hostNotAllowed => 403

def Refusal.text : Refusal → Bytes
  | .badPath => ascii "bad /_p/ path"
  | .hostNotAllowed => ascii "host not allowed"

structure Lookup where
  method : Bytes
  host : Bytes
  path : Bytes
  query : Bytes
  auth : Bytes
  deriving DecidableEq, Repr

def Lookup.key (sha256 : Bytes → Bytes) (l : Lookup) : Bytes :=
  keyHex sha256 l.method l.host l.path l.query l.auth

def hostPath : Bytes := ascii "/_p/"

namespace Handler

def routeUpstream (h : Handler) (path : Bytes) : Except Refusal (Bytes × Bytes) :=
  if !hostPath.isPrefixOf path then .ok (Text.toLower (Text.trimSpace h.defaultHost), path)
  else
    let rest := path.drop 4
    match indexByte rest SLASH with
    | none => .error .badPath
    | some i =>
      if i = 0 ∨ i = rest.length - 1 then .error .badPath
      else
        let prefHost := Text.toLower (rest.take i)
        if !h.allowf prefHost then .error .hostNotAllowed
        else .ok (prefHost, rest.drop i)

def target (h : Handler) (url : URL) : Except Refusal Target :=
  match h.routeUpstream url.path with
  | .error e => .error e
  | .ok (host, path) => .ok ⟨host, path, cleanQuery url.rawQuery⟩

def lookup (h : Handler) (method : Bytes) (url : URL) : Option Lookup :=
  if url.path = ascii "/healthz" then none
  else
    match h.target url with
    | .error _ => none
    | .ok t => some ⟨method, t.host, t.path, t.keyQuery, []⟩

def lineLookup (h : Handler) (l : Coreserver.RequestLine) : Option Lookup :=
  (parseRequestURI l.target).bind (h.lookup l.method)

def artifact (h : Handler) (method : Bytes) (t : Target) : Bool :=
  Coreserver.artifactGET h.defaultHost t.host method t.path
    || (method == ascii "HEAD"
      && Coreserver.artifactGET h.defaultHost t.host (ascii "GET") t.path)

end Handler

inductive Reply
  | healthz
  | refused (e : Refusal)
  | hit (hit : Hit)
  | offline (t : Target)
  | forward (t : Target) (artifact : Bool) (originPath : Bytes)
  deriving DecidableEq, Repr

def Handler.serveHTTP (h : Handler) (first second : Bytes → Option Meta)
    (acquireBody : Bytes → Bool) (r : Request) : Reply :=
  if r.url.path = ascii "/healthz" then .healthz
  else
    match h.target r.url with
    | .error e => .refused e
    | .ok t =>
      let cached :=
        if (r.method = ascii "GET" ∨ r.method = ascii "HEAD")
            ∧ (h.artifact r.method t ∨ h.offline)
        then tryServeFromCache first second acquireBody r.range (t.key h.sha256)
          (r.method == ascii "HEAD")
        else none
      match cached with
      | some hit => .hit hit
      | none =>
        if h.strictOffline then .offline t
        else .forward t (h.artifact r.method t) (extractAndStripOrigin r.url.rawQuery).1

theorem Handler.hit_of_serveHTTP {h : Handler} {first second : Bytes → Option Meta}
    {acquireBody : Bytes → Bool} {r : Request} {hit : Hit}
    (hr : h.serveHTTP first second acquireBody r = .hit hit) :
    r.url.path ≠ ascii "/healthz" ∧ ∃ t, h.target r.url = .ok t
      ∧ tryServeFromCache first second acquireBody r.range (t.key h.sha256)
        (r.method == ascii "HEAD") = some hit := by
  unfold serveHTTP at hr
  split at hr
  · cases hr
  · next hhealth =>
    split at hr
    · cases hr
    · next t ht =>
      dsimp only at hr
      split at hr
      · next hit' hcached =>
        obtain rfl := Reply.hit.inj hr
        split at hcached
        · exact ⟨hhealth, t, ht, hcached⟩
        · cases hcached
      · split at hr <;> cases hr

theorem Handler.lookup_eq_some {h : Handler} {method : Bytes} {url : URL} {k : Lookup} :
    h.lookup method url = some k ↔ url.path ≠ ascii "/healthz"
      ∧ ∃ t, h.target url = .ok t ∧ k = ⟨method, t.host, t.path, t.keyQuery, []⟩ := by
  unfold lookup
  rw [Option.ite_none_left_eq_some]
  refine and_congr_right (fun _ => ?_)
  cases h.target url with
  | error e => simp
  | ok t => simp [eq_comm]

end Proxy
