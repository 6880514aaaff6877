import Pulsys.Base.JSONText
import Pulsys.Base.Numeral
import Pulsys.Cache.Spans

/-!
# The metadata of a cached object

The record of an object, and the pure functions that make a new one out of the old: what a
download, a redirect and an alias put on record.

The record is kept in a file `meta.json`. Its texts come from requests and responses and need
not be in UTF-8, and those that are not come back altered from the file (`Meta.reread`). The
copy that is kept in memory is the record as it was before it was written.
-/

namespace Cache

open Bytes JSONText Text

/-! ## Keys -/

def contentAddressedHosts : List Bytes :=
  [ascii "cas-bridge.xethub.hf.co", ascii "cas-server.xethub.hf.co",
    ascii "cdn-lfs.huggingface.co", ascii "cdn-lfs-us-1.hf.co",
    ascii "cdn-lfs-us-2.hf.co", ascii "cdn-lfs-eu-1.hf.co", ascii "lfs.huggingface.co",
    ascii "us.aws.cdn.hf.co", ascii "eu.aws.cdn.hf.co", ascii "ap.aws.cdn.hf.co"]

def isContentAddressedHost (host : Bytes) : Bool :=
  contentAddressedHosts.contains (toLower (Text.trimSpace host))

def hexEncode (b : Bytes) : Bytes :=
  let digit : ℕ → UInt8 := fun d => (if d < 10 then 48 + d else 87 + d).toUInt8
  b.flatMap (fun c => [digit (c.toNat / 16), digit (c.toNat % 16)])

section
variable (sha256 : Bytes → Bytes)

def authBucket (auth : Bytes) : Bytes :=
  if Text.trimSpace auth = [] then ascii "anon"
  else hexEncode ((sha256 (Text.trimSpace auth)).take 8)

def keyMaterial (method host path rawQuery auth : Bytes) : Bytes :=
  let path := if Text.trimSpace path = [] then [SLASH] else Text.trimSpace path
  toUpper (Text.trimSpace method) ++ 124 :: (toLower (Text.trimSpace host)
    ++ 124 :: (path ++ 124 :: (rawQuery ++ 124 :: authBucket sha256 auth)))

def keyHex (method host path rawQuery auth : Bytes) : Bytes :=
  hexEncode (sha256 (keyMaterial sha256 method host path rawQuery auth))

end

/-! ## The record -/

structure Meta where
  version : ℕ := 0
  upstreamHost : Bytes := []
  path : Bytes := []
  rawQuery : Bytes := []
  spans : List Span := []
  total : Option ℤ := none
  eTag : Bytes := []
  contentType : Bytes := []
  statusCode : ℤ := 0
  location : Bytes := []
  extraHeaders : List (Bytes × Bytes) := []
  aliasOf : Bytes := []
  originPath : Bytes := []
  originPaths : List Bytes := []
  deriving DecidableEq, Repr

def Meta.reread (m : Meta) : Meta :=
  { m with
    upstreamHost := coerce m.upstreamHost
    path := coerce m.path
    rawQuery := coerce m.rawQuery
    eTag := coerce m.eTag
    contentType := coerce m.contentType
    location := coerce m.location
    extraHeaders := m.extraHeaders.map (fun e => (coerce e.1, coerce e.2))
    aliasOf := coerce m.aliasOf
    originPath := coerce m.originPath
    originPaths := m.originPaths.map coerce }

structure SegmentParams where
  status : ℤ
  upstreamHost : Bytes := []
  path : Bytes := []
  rawQuery : Bytes := []
  eTag : Bytes := []
  contentType : Bytes := []
  start : ℤ
  length : ℤ
  total : ℤ
  extraHeaders : List (Bytes × Bytes) := []
  originPath : Bytes := []
  deriving DecidableEq, Repr

def validateSegmentParams (key : Bytes) (p : SegmentParams) : Bool :=
  !key.isEmpty && decide (0 ≤ p.start) && decide (-1 ≤ p.length) && decide (-1 ≤ p.total)
    && (p.status == 200 || p.status == 206)

def maxOriginPaths : ℕ := 64

def searchStrings (owners : List Bytes) (x : Bytes) : ℕ → ℕ → ℕ → ℕ
  | 0, i, _ => i
  | n + 1, i, j =>
    if j ≤ i then i
    else
      let h := (i + j) / 2
      if (owners.getD h []) < x then searchStrings owners x n (h + 1) j
      else searchStrings owners x n i h

def appendOwner (owners : List Bytes) (owner : Bytes) : List Bytes :=
  if owner = [] then owners
  else
    let i := searchStrings owners owner (owners.length + 1) 0 owners.length
    if owners[i]? = some owner then owners
    else if maxOriginPaths ≤ owners.length then owners
    else owners.insertIdx i owner

def setHeader (m : List (Bytes × Bytes)) (k v : Bytes) : List (Bytes × Bytes) :=
  if m.any (·.1 == k) then m.map (fun e => if e.1 = k then (k, v) else e)
  else m ++ [(k, v)]

def mergeExtraHeaders (m extra : List (Bytes × Bytes)) : List (Bytes × Bytes) :=
  extra.foldl (fun m e => if e.2 = [] then m else setHeader m e.1 e.2) m

theorem mem_setHeader {l : List (Bytes × Bytes)} {k v : Bytes} {e : Bytes × Bytes}
    (h : e ∈ setHeader l k v) : e = (k, v) ∨ e ∈ l := by
  unfold setHeader at h
  split at h
  · obtain ⟨e', he', rfl⟩ := List.mem_map.mp h
    split
    · exact .inl rfl
    · exact .inr he'
  · rcases List.mem_append.mp h with h | h
    · exact .inr h
    · exact .inl (List.mem_singleton.mp h)

theorem forall_mem_mergeExtraHeaders {P : Bytes × Bytes → Prop} {l extra : List (Bytes × Bytes)}
    (hl : ∀ e ∈ l, P e) (hextra : ∀ e ∈ extra, P e) :
    ∀ e ∈ mergeExtraHeaders l extra, P e := by
  unfold mergeExtraHeaders
  induction extra generalizing l with
  | nil => exact hl
  | cons x extra ih =>
    rw [List.foldl_cons]
    refine ih (fun e he => ?_) (fun e he => hextra e (List.mem_cons_of_mem _ he))
    split at he
    · exact hl e he
    · rcases mem_setHeader he with rfl | he
      · exact hextra x List.mem_cons_self
      · exact hl e he

/-! ## What is put on record -/

namespace SegmentParams

def newMeta (p : SegmentParams) : Meta :=
  { version := 1
    upstreamHost := p.upstreamHost
    path := p.path
    rawQuery := p.rawQuery
    eTag := p.eTag
    contentType := p.contentType
    statusCode := p.status
    originPath := p.originPath }

def owned (p : SegmentParams) (old : Option Meta) : Meta :=
  let m := old.getD p.newMeta
  { m with
    originPath := if m.originPath = [] then p.originPath else m.originPath
    originPaths :=
      if p.originPath = [] then m.originPaths else appendOwner m.originPaths p.originPath }

def span (p : SegmentParams) (written : ℕ) : Span := ⟨p.start, p.start + written⟩

def checkpointMeta (p : SegmentParams) (written : ℕ) (old : Option Meta) : Meta :=
  let m := p.owned old
  { m with
    spans := mergeSpans (m.spans ++ [p.span written])
    total := if 0 < p.total then some p.total else m.total
    extraHeaders := mergeExtraHeaders m.extraHeaders p.extraHeaders }

def commitTotal (p : SegmentParams) (written : ℕ) (old : Option ℤ) : Option ℤ :=
  if 0 < p.total then some p.total
  else if p.status = 200 ∧ p.start = 0 ∧ p.length < 0 ∧ 0 < written then some written
  else old

def commitMeta (p : SegmentParams) (written : ℕ) (old : Option Meta) : Meta :=
  let m := p.owned old
  { m with
    spans := if 0 < written then mergeSpans (m.spans ++ [p.span written]) else m.spans
    total := p.commitTotal written m.total
    statusCode :=
      if p.status ≠ 0 ∧ (m.statusCode = 0 ∨ (p.status = 200 ∧ m.statusCode = 206))
      then p.status else m.statusCode
    eTag := if p.eTag = [] then m.eTag else p.eTag
    contentType := if p.contentType = [] then m.contentType else p.contentType
    upstreamHost := if m.upstreamHost = [] then p.upstreamHost else m.upstreamHost
    path := if m.path = [] then p.path else m.path
    rawQuery := if m.rawQuery = [] then p.rawQuery else m.rawQuery
    extraHeaders := mergeExtraHeaders m.extraHeaders p.extraHeaders }

end SegmentParams

def isCacheableRedirectStatus (status : ℤ) : Bool :=
  status == 301 || status == 302 || status == 303 || status == 307 || status == 308

structure Redirect where
  status : ℤ
  host : Bytes := []
  path : Bytes := []
  rawQuery : Bytes := []
  location : Bytes
  contentType : Bytes := []
  eTag : Bytes := []
  extraHeaders : List (Bytes × Bytes) := []
  deriving DecidableEq, Repr

def Redirect.valid (r : Redirect) : Bool :=
  isCacheableRedirectStatus r.status && !r.location.isEmpty

def redirectMeta (r : Redirect) (old : Option Meta) : Meta :=
  let m := old.getD { version := 1 }
  { m with
    upstreamHost := r.host
    path := r.path
    rawQuery := r.rawQuery
    statusCode := r.status
    location := r.location
    contentType := if r.contentType = [] then m.contentType else r.contentType
    eTag := if r.eTag = [] then m.eTag else r.eTag
    extraHeaders := mergeExtraHeaders m.extraHeaders r.extraHeaders }

structure Alias where
  canonicalKey : Bytes
  host : Bytes := []
  path : Bytes := []
  rawQuery : Bytes := []
  deriving DecidableEq, Repr

def Alias.newMeta (a : Alias) : Meta :=
  { version := 1
    upstreamHost := a.host
    path := a.path
    rawQuery := a.rawQuery
    aliasOf := a.canonicalKey }

def aliasMeta (a : Alias) : Option Meta → Option Meta
  | none => some a.newMeta
  | some m => if m.aliasOf = [] then none else some a.newMeta

def spansOf (old : Option Meta) : List Span := (old.map Meta.spans).getD []

@[simp]
theorem spansOf_none : spansOf none = [] := rfl

@[simp]
theorem spansOf_some (m : Meta) : spansOf (some m) = m.spans := rfl

theorem spans_owned (p : SegmentParams) (old : Option Meta) :
    (p.owned old).spans = spansOf old := by
  cases old <;> rfl

theorem spans_checkpointMeta (p : SegmentParams) (written : ℕ) (old : Option Meta) :
    (p.checkpointMeta written old).spans = mergeSpans (spansOf old ++ [p.span written]) := by
  rw [← spans_owned p old]
  rfl

theorem spans_checkpointMeta_of_pos (p : SegmentParams) {written : ℕ} (old : Option Meta)
    (h : 0 < written) : (p.checkpointMeta written old).spans
      = if 0 < written then mergeSpans (spansOf old ++ [p.span written]) else spansOf old := by
  rw [spans_checkpointMeta, if_pos h]

theorem spans_commitMeta (p : SegmentParams) (written : ℕ) (old : Option Meta) :
    (p.commitMeta written old).spans
      = if 0 < written then mergeSpans (spansOf old ++ [p.span written]) else spansOf old := by
  rw [← spans_owned p old]
  rfl

theorem covered_checkpointMeta (p : SegmentParams) (written : ℕ) (old : Option Meta) (o : ℤ) :
    Covered (p.checkpointMeta written old).spans o
      ↔ Covered (spansOf old) o ∨ (p.span written).Has o := by
  rw [spans_checkpointMeta, covered_mergeSpans, covered_append]
  simp [Covered]

theorem covered_commitMeta (p : SegmentParams) (written : ℕ) (old : Option Meta) (o : ℤ) :
    Covered (p.commitMeta written old).spans o
      ↔ Covered (spansOf old) o ∨ (p.span written).Has o := by
  rw [spans_commitMeta]
  split
  · rw [covered_mergeSpans, covered_append]
    simp [Covered]
  · next h =>
    have hempty : ¬ (p.span written).Has o := by
      unfold SegmentParams.span Span.Has
      dsimp only
      omega
    simp [hempty]

theorem total_owned (p : SegmentParams) (old : Option Meta) :
    (p.owned old).total = old.bind Meta.total := by
  cases old <;> rfl

theorem total_checkpointMeta (p : SegmentParams) (written : ℕ) (old : Option Meta) :
    (p.checkpointMeta written old).total
      = if 0 < p.total then some p.total else old.bind Meta.total := by
  rw [← total_owned p old]
  rfl

theorem total_commitMeta (p : SegmentParams) (written : ℕ) (old : Option Meta) :
    (p.commitMeta written old).total = p.commitTotal written (old.bind Meta.total) := by
  rw [← total_owned p old]
  rfl

theorem eTag_checkpointMeta (p : SegmentParams) (written : ℕ) (old : Option Meta) :
    (p.checkpointMeta written old).eTag = (old.map Meta.eTag).getD p.eTag := by
  cases old <;> rfl

theorem eTag_commitMeta (p : SegmentParams) (written : ℕ) (old : Option Meta) :
    (p.commitMeta written old).eTag
      = if p.eTag = [] then (old.map Meta.eTag).getD p.eTag else p.eTag := by
  cases old <;> rfl

theorem aliasOf_checkpointMeta (p : SegmentParams) (written : ℕ) (old : Option Meta) :
    (p.checkpointMeta written old).aliasOf = (old.map Meta.aliasOf).getD [] := by
  cases old <;> rfl

theorem aliasOf_commitMeta (p : SegmentParams) (written : ℕ) (old : Option Meta) :
    (p.commitMeta written old).aliasOf = (old.map Meta.aliasOf).getD [] := by
  cases old <;> rfl

theorem location_checkpointMeta (p : SegmentParams) (written : ℕ) (old : Option Meta) :
    (p.checkpointMeta written old).location = (old.map Meta.location).getD [] := by
  cases old <;> rfl

theorem location_commitMeta (p : SegmentParams) (written : ℕ) (old : Option Meta) :
    (p.commitMeta written old).location = (old.map Meta.location).getD [] := by
  cases old <;> rfl

theorem statusCode_commitMeta (p : SegmentParams) (written : ℕ) (m : Meta)
    (h : isCacheableRedirectStatus m.statusCode = true) :
    (p.commitMeta written (some m)).statusCode = m.statusCode := by
  refine if_neg (fun hc => ?_)
  rcases hc.2 with h0 | ⟨-, h206⟩
  · rw [show m.statusCode = 0 from h0] at h
    exact absurd h (by decide)
  · rw [show m.statusCode = 206 from h206] at h
    exact absurd h (by decide)

theorem aliasOf_redirectMeta (r : Redirect) (old : Option Meta) :
    (redirectMeta r old).aliasOf = (old.map Meta.aliasOf).getD [] := by
  cases old <;> rfl

theorem spans_redirectMeta (r : Redirect) (old : Option Meta) :
    (redirectMeta r old).spans = spansOf old := by
  cases old <;> rfl

theorem eq_newMeta_of_aliasMeta {a : Alias} {old : Option Meta} {m : Meta}
    (h : aliasMeta a old = some m) : m = a.newMeta := by
  unfold aliasMeta at h
  split at h
  · exact (Option.some.inj h).symm
  · rw [Option.ite_none_left_eq_some] at h
    exact (Option.some.inj h.2).symm

/-! ## Ranges -/

def parseSingleRange (v : Bytes) (total : ℤ) : Option (ℤ × ℤ) :=
  let v := Text.trimSpace v
  if !(ascii "bytes=").isPrefixOf (toLower v) then none
  else
    let v := v.drop 6
    match indexByte v 45 with
    | none => none
    | some dash =>
      match parseInt (Text.trimSpace (v.take dash)) with
      | none => none
      | some start =>
        let endStr := Text.trimSpace (v.drop (dash + 1))
        if endStr = [] then some (start, if total ≤ 0 then -1 else total)
        else
          match parseInt endStr with
          | none => none
          | some e => some (start, wrap64 (e + 1))

theorem nonneg_of_parseSingleRange {v : Bytes} {total a b : ℤ}
    (h : parseSingleRange v total = some (a, b)) : 0 ≤ a := by
  unfold parseSingleRange at h
  dsimp only at h
  obtain ⟨-, h⟩ := Option.ite_none_left_eq_some.mp h
  split at h
  · cases h
  · next dash hdash =>
    obtain ⟨l, r, hv, hl, rfl⟩ := exists_of_indexByte hdash
    rw [hv, List.take_left] at h
    cases hstart : parseInt (Text.trimSpace l) with
    | none => simp [hstart] at h
    | some start =>
      have hnonneg : 0 ≤ start :=
        Text.nonneg_of_parseInt (fun hmem => hl ((Text.trimSpace_infix l).subset hmem)) hstart
      simp only [hstart] at h
      split at h
      · obtain ⟨rfl, -⟩ := Prod.mk.inj (Option.some.inj h)
        exact hnonneg
      · split at h
        · cases h
        · obtain ⟨rfl, -⟩ := Prod.mk.inj (Option.some.inj h)
          exact hnonneg

def rangeOf (first last : ℕ) : Bytes :=
  ascii "bytes=" ++ (Numeral.format 10 first ++ 45 :: Numeral.format 10 last)

theorem parseSingleRange_bytes {l r : Bytes} (hl : 45 ∉ l)
    (hr : ∀ c, r.getLast? = some c → Text.isGraph c = true) (total : ℤ) :
    parseSingleRange (ascii "bytes=" ++ (l ++ 45 :: r)) total
      = match parseInt (Text.trimSpace l) with
        | none => none
        | some start =>
          if Text.trimSpace r = [] then some (start, if total ≤ 0 then -1 else total)
          else
            match parseInt (Text.trimSpace r) with
            | none => none
            | some e => some (start, wrap64 (e + 1)) := by
  have htrim : Text.trimSpace (ascii "bytes=" ++ (l ++ 45 :: r))
      = ascii "bytes=" ++ (l ++ 45 :: r) := by
    refine Text.trimSpace_eq_self (fun c hc => ?_) (fun c hc => ?_)
    · obtain rfl : (98 : UInt8) = c := Option.some.inj hc
      decide
    · rw [List.getLast?_append_of_ne_nil _ (by simp),
        List.getLast?_append_of_ne_nil _ (by simp), List.getLast?_cons] at hc
      cases hlast : r.getLast? with
      | none =>
        rw [hlast] at hc
        obtain rfl : (45 : UInt8) = c := Option.some.inj hc
        decide
      | some d =>
        rw [hlast] at hc
        obtain rfl : d = c := Option.some.inj hc
        exact hr d hlast
  have hunit : (ascii "bytes=").isPrefixOf (toLower (ascii "bytes=" ++ (l ++ 45 :: r)))
      = true := by
    rw [List.isPrefixOf_iff_prefix]
    exact ⟨toLower (l ++ 45 :: r), by simp [toLower, ascii]⟩
  have hdrop : (ascii "bytes=" ++ (l ++ 45 :: r)).drop 6 = l ++ 45 :: r := rfl
  have hdash : indexByte (l ++ 45 :: r) 45 = some l.length := indexByte_append hl _
  have hend : (l ++ 45 :: r).drop (l.length + 1) = r := by
    rw [List.drop_append, Nat.add_sub_cancel_left, List.drop_of_length_le (by omega)]
    rfl
  unfold parseSingleRange
  simp only [htrim, hunit, hdrop, hdash, hend, List.take_left, Bool.not_true,
    Bool.false_eq_true, if_false]

theorem dash_notMem_format (n : ℕ) : 45 ∉ Numeral.format 10 n :=
  Numeral.notMem_format (by decide) _

theorem parseSingleRange_rangeOf_eq (first last : ℕ) (total : ℤ) :
    parseSingleRange (rangeOf first last) total
      = if first < 2 ^ 63 ∧ last < 2 ^ 63 then some ((first : ℤ), wrap64 (last + 1))
        else none := by
  rw [rangeOf, parseSingleRange_bytes (dash_notMem_format first)
    (fun c hc => Numeral.isGraph_of_mem_format (List.mem_of_mem_getLast? hc)),
    Numeral.trimSpace_format, Numeral.trimSpace_format]
  simp only [Numeral.parseInt_format_eq, Numeral.format_ne_nil, if_false]
  by_cases hfirst : first < 2 ^ 63
  · by_cases hlast : last < 2 ^ 63
    · rw [if_pos hfirst, if_pos hlast, if_pos ⟨hfirst, hlast⟩]
    · rw [if_pos hfirst, if_neg hlast, if_neg (fun h => hlast h.2)]
  · rw [if_neg hfirst, if_neg (show ¬ (first < 2 ^ 63 ∧ last < 2 ^ 63) from fun h => hfirst h.1)]

theorem wrap64_add_one {n : ℕ} (h : n + 1 < 2 ^ 63) : wrap64 ((n : ℤ) + 1) = n + 1 :=
  wrap64_eq_self (by omega) (by omega)

theorem parseSingleRange_rangeOf {first last : ℕ} (hfirst : first < 2 ^ 63)
    (hlast : last + 1 < 2 ^ 63) (total : ℤ) :
    parseSingleRange (rangeOf first last) total = some ((first : ℤ), (last : ℤ) + 1) := by
  rw [parseSingleRange_rangeOf_eq, if_pos ⟨hfirst, by omega⟩, wrap64_add_one hlast]

example : parseSingleRange (ascii " Bytes= 5 - 9") 100 = some (5, 10) := by decide

end Cache
