import Pulsys.Coreserver.Response
import Pulsys.Cache.Meta

/-!
# What upstream answers, and where it is filed

A body is filed as a segment of the key's body, a redirect as an entry. This module has the
parameters of a segment and the fields of a redirect, read off the response.
-/

namespace Proxy

open Bytes Cache

structure Target where
  host : Bytes
  path : Bytes
  rawQuery : Bytes
  deriving DecidableEq, Repr

def Target.keyQuery (t : Target) : Bytes :=
  if isContentAddressedHost t.host then [] else t.rawQuery

def Target.key (sha256 : Bytes → Bytes) (t : Target) : Bytes :=
  keyHex sha256 (ascii "GET") t.host t.path t.keyQuery []

def wholeFile : Span := ⟨0, 2 ^ 63 - 1⟩

def inflightRange (rangeHdr : Bytes) : Span :=
  if rangeHdr = [] then wholeFile
  else
    match parseSingleRange rangeHdr (-1) with
    | some (start, stop) => if start < stop then ⟨start, stop⟩ else wholeFile
    | none => wholeFile

structure Upstream where
  status : ℤ
  header : Coreserver.Header
  contentLength : ℤ

def preservedResponseHeaders : List Bytes :=
  [ascii "X-Repo-Commit", ascii "X-Linked-Etag", ascii "X-Linked-Size", ascii "X-Xet-Hash",
    ascii "Accept-Ranges"]

def pickPreservedHeaders (src : Coreserver.Header) : List (Bytes × Bytes) :=
  (preservedResponseHeaders.map (fun k => (k, src.get k))).filter (·.2 ≠ [])

def parseContentRangeResponse (s : Bytes) : Option (ℤ × ℤ × ℤ) :=
  let s := Text.trimSpace s
  if !(ascii "bytes ").isPrefixOf (Text.toLower s) then none
  else
    let s := s.drop 6
    match indexByte s SLASH with
    | none => none
    | some slash =>
      -- the text is to have two parts, so a second slash is an error
      if SLASH ∈ s.drop (slash + 1) then none
      else
        let se := Text.trimSpace (s.take slash)
        let totalStr := Text.trimSpace (s.drop (slash + 1))
        match indexByte se 45 with
        | none => none
        | some dash =>
          match Text.parseInt (se.take dash), Text.parseInt (se.drop (dash + 1)) with
          | some a, some b =>
            if a < 0 ∨ b < a then none
            else if totalStr = ascii "*" then some (a, Text.wrap64 (b + 1), -1)
            else
              match Text.parseInt totalStr with
              | none => none
              | some t => if t < 0 then none else some (a, Text.wrap64 (b + 1), t)
          | _, _ => none

structure Fetch where
  target : Target
  response : Upstream
  originPath : Bytes

namespace Fetch

def key (sha256 : Bytes → Bytes) (f : Fetch) : Bytes := f.target.key sha256

def commit (f : Fetch) : Bytes := f.response.header.get (ascii "X-Repo-Commit")

def paramsAt (f : Fetch) (start length total : ℤ) : SegmentParams where
  status := f.response.status
  upstreamHost := f.target.host
  path := f.target.path
  rawQuery := f.target.rawQuery
  eTag := f.response.header.get (ascii "Etag")
  contentType := f.response.header.get (ascii "Content-Type")
  start := start
  length := length
  total := total
  extraHeaders := pickPreservedHeaders f.response.header
  originPath := f.originPath

def segmentParams (f : Fetch) : Option SegmentParams :=
  if f.response.status = 200 then
    some (f.paramsAt 0 f.response.contentLength f.response.contentLength)
  else if f.response.status = 206 then
    match parseContentRangeResponse (f.response.header.get (ascii "Content-Range")) with
    | none => none
    | some (start, stop, total) => some (f.paramsAt start (Text.wrap64 (stop - start)) total)
  else none

theorem paramsAt_of_segmentParams {f : Fetch} {p : SegmentParams} (h : f.segmentParams = some p) :
    (f.response.status = 200 ∨ f.response.status = 206)
      ∧ ∃ start length total, p = f.paramsAt start length total := by
  unfold segmentParams at h
  split at h
  · next hstatus => exact ⟨.inl hstatus, _, _, _, (Option.some.inj h).symm⟩
  · split at h
    · next hstatus =>
      split at h
      · cases h
      · exact ⟨.inr hstatus, _, _, _, (Option.some.inj h).symm⟩
    · cases h

def redirect (f : Fetch) : Redirect where
  status := f.response.status
  host := f.target.host
  path := f.target.path
  rawQuery := f.target.rawQuery
  location := f.response.header.get (ascii "Location")
  contentType := f.response.header.get (ascii "Content-Type")
  eTag := f.response.header.get (ascii "Etag")
  extraHeaders := pickPreservedHeaders f.response.header

end Fetch

end Proxy
