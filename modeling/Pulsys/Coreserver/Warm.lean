import Pulsys.Cache.Meta
import Pulsys.Coreserver.Parser

/-!
# Warm hits

A warm hit: the path is one of an artifact, the store has metadata for its key, and the
spans cover what is asked for. `warmPlan` decides from the bytes the engine reads at that
moment, which is why it takes a `View` and not a `Request`.
-/

namespace Coreserver

open Bytes

/-! ## What is read of a request -/

structure View where
  method : Bytes
  requestURI : Bytes
  path : Bytes
  query : Bytes
  host : Bytes
  auth : Bytes
  range : Bytes
  raw : Bytes
  contentLen : ℤ
  keepAlive : Bool
  http11 : Bool
  deriving DecidableEq, Repr

def Request.view (req : Request) (mem : Bytes) : View where
  method := req.method.reload mem
  requestURI := req.requestURI.reload mem
  path := req.path.reload mem
  query := req.query.reload mem
  host := req.host.reload mem
  auth := req.auth.reload mem
  range := req.range.reload mem
  raw := req.raw.reload mem
  contentLen := req.contentLen
  keepAlive := req.keepAlive
  http11 := req.http11

def Request.parsed (req : Request) : View where
  method := req.method.data
  requestURI := req.requestURI.data
  path := req.path.data
  query := req.query.data
  host := req.host.data
  auth := req.auth.data
  range := req.range.data
  raw := req.raw.data
  contentLen := req.contentLen
  keepAlive := req.keepAlive
  http11 := req.http11

def containsLower (haystack needleLower : Bytes) : Bool :=
  (index needleLower (Text.toLower haystack)).isSome

def containsLowerPrefix (haystack prefixLower : Bytes) : Bool :=
  prefixLower.isPrefixOf (Text.toLower haystack)

def equalFoldHost (a b : Bytes) : Bool :=
  Text.toLower (Text.trimSpace a) == Text.toLower (Text.trimSpace b)

def artifactGET (defaultHost upstreamHost method path : Bytes) : Bool :=
  if method ≠ ascii "GET" then false
  else if (ascii "/_p/").isPrefixOf path then true
  else if containsLower path (ascii "/resolve/") then true
  else if containsLower path (ascii "/info/lfs/") then true
  else if containsLower path (ascii "/resolve%2f") then true
  else if containsLowerPrefix path (ascii "/api/resolve-cache/") then true
  else if !equalFoldHost upstreamHost defaultHost then
    !containsLowerPrefix path (ascii "/api/")
  else !containsLowerPrefix path (ascii "/api/")

/-! ## The decision -/

structure Server where
  sha256 : Bytes → Bytes
  defaultHost : Bytes
  authGate : Option (Bytes → Bytes → ℕ)
  requireAuth : Bool
  loadMeta : Bytes → Option Cache.Meta
  acquireBody : Bytes → Bool

def Server.cold (defaultHost : Bytes) : Server where
  sha256 := id
  defaultHost := defaultHost
  authGate := none
  requireAuth := false
  loadMeta _ := none
  acquireBody _ := false

structure WarmPlan where
  key : Bytes
  entry : Cache.Meta
  wantStart : ℤ
  wantEnd : ℤ
  deriving DecidableEq, Repr

def wanted (range : Bytes) (total : ℤ) : Option (ℤ × ℤ) :=
  if range = [] then if total < 0 then none else some (0, total)
  else
    match Cache.parseSingleRange range total with
    | none => none
    | some (wantStart, wantEnd) => if wantEnd < 0 then none else some (wantStart, wantEnd)

def Server.lookupKey (s : Server) (v : View) : Bytes :=
  let keyQuery := if Cache.isContentAddressedHost s.defaultHost then [] else v.query
  Cache.keyHex s.sha256 (ascii "GET") s.defaultHost v.path keyQuery []

def Server.warmPlan (s : Server) (v : View) : Option WarmPlan :=
  if v.method ≠ ascii "GET" then none
  else if !artifactGET s.defaultHost s.defaultHost (ascii "GET") v.path then none
  else
    match s.loadMeta (s.lookupKey v) with
    | none => none
    | some m =>
      if m.spans = [] then none
      else
        match wanted v.range (m.total.getD (-1)) with
        | none => none
        | some (wantStart, wantEnd) =>
          if !Cache.covers m.spans wantStart wantEnd then none
          else if !s.acquireBody (s.lookupKey v) then none
          else some ⟨s.lookupKey v, m, wantStart, wantEnd⟩

structure Server.IsWarm (s : Server) (v : View) (plan : WarmPlan) : Prop where
  artifact : artifactGET s.defaultHost s.defaultHost (ascii "GET") v.path = true
  key : plan.key = s.lookupKey v
  entry : s.loadMeta plan.key = some plan.entry
  spans : plan.entry.spans ≠ []
  wanted : wanted v.range (plan.entry.total.getD (-1)) = some (plan.wantStart, plan.wantEnd)
  covers : Cache.covers plan.entry.spans plan.wantStart plan.wantEnd = true
  body : s.acquireBody plan.key = true

theorem Server.isWarm_of_warmPlan {s : Server} {v : View} {plan : WarmPlan}
    (h : s.warmPlan v = some plan) : s.IsWarm v plan := by
  unfold warmPlan at h
  rw [Option.ite_none_left_eq_some, Option.ite_none_left_eq_some] at h
  obtain ⟨-, hart, h⟩ := h
  split at h
  · cases h
  · next m hm =>
    rw [Option.ite_none_left_eq_some] at h
    obtain ⟨hspans, h⟩ := h
    split at h
    · cases h
    · next wantStart wantEnd hwanted =>
      rw [Option.ite_none_left_eq_some, Option.ite_none_left_eq_some] at h
      obtain ⟨hcov, hbody, h⟩ := h
      cases h
      exact ⟨by simpa using hart, rfl, hm, hspans, hwanted, by simpa using hcov,
        by simpa using hbody⟩

theorem Server.covered_of_warmPlan {s : Server} {v : View} {plan : WarmPlan}
    (h : s.warmPlan v = some plan) : s.loadMeta plan.key = some plan.entry
      ∧ ∀ o, plan.wantStart ≤ o → o < plan.wantEnd → Cache.Covered plan.entry.spans o := by
  have hw := isWarm_of_warmPlan h
  exact ⟨hw.entry, fun o hlo hhi => Cache.covered_of_covers hw.covers ⟨hlo, hhi⟩⟩

def Server.gateAdmit (s : Server) (v : View) : Bool :=
  match s.authGate with
  | none => !s.requireAuth
  | some check => check v.auth v.path == 0

end Coreserver
