import Pulsys.Proxy.WarmAgreement

/-!
# The headers of a response

What upstream answers is passed on without hop-by-hop headers, without what a line cannot
hold, without links to another protocol, and with locations that lead back. URLs are the
standard library's; of these, queries and texts have no line end.
-/

namespace Coreserver.Header

open Bytes

def add (h : Header) (key value : Bytes) : Header :=
  if h.entries.any (·.1 == key) then
    { entries := h.entries.map (fun e => if e.1 = key then (e.1, e.2 ++ [value]) else e)
      nodup := by
        have hnames : (h.entries.map (fun e => if e.1 = key then (e.1, e.2 ++ [value]) else e)).map
            Prod.fst = h.entries.map Prod.fst := by
          rw [List.map_map]
          refine List.map_congr_left (fun e _ => ?_)
          show Prod.fst (if e.1 = key then (e.1, e.2 ++ [value]) else e) = e.1
          split <;> rfl
        rw [hnames]
        exact h.nodup }
  else h.set key value

def addAll (h : Header) (key : Bytes) (values : List Bytes) : Header :=
  values.foldl (fun h v => h.add key v) h

theorem mem_lines_add {h : Header} {key value : Bytes} {l : Bytes × Bytes}
    (hl : l ∈ (h.add key value).lines) : l = (key, value) ∨ l ∈ h.lines := by
  rw [add] at hl
  split at hl
  · obtain ⟨e, he, hmem⟩ := List.mem_flatMap.mp hl
    obtain ⟨e', he', rfl⟩ := List.mem_map.mp he
    split at hmem
    · next hkey =>
      obtain ⟨v, hv, rfl⟩ := List.mem_map.mp hmem
      rcases List.mem_append.mp hv with hv | hv
      · exact .inr (List.mem_flatMap.mpr ⟨e', he', List.mem_map.mpr ⟨v, hv, rfl⟩⟩)
      · obtain rfl := List.mem_singleton.mp hv
        exact .inl (by rw [hkey])
    · exact .inr (List.mem_flatMap.mpr ⟨e', he', hmem⟩)
  · rw [lines_set] at hl
    rcases List.mem_append.mp hl with hl | hl
    · exact .inr (List.mem_filter.mp hl).1
    · exact .inl (List.mem_singleton.mp hl)

theorem mem_lines_addAll {h : Header} {key : Bytes} {values : List Bytes} {l : Bytes × Bytes}
    (hl : l ∈ (h.addAll key values).lines) : (l.1 = key ∧ l.2 ∈ values) ∨ l ∈ h.lines := by
  induction values generalizing h with
  | nil => exact .inr hl
  | cons v values ih =>
    rcases ih hl with ⟨hkey, hv⟩ | hl
    · exact .inl ⟨hkey, List.mem_cons_of_mem _ hv⟩
    · rcases mem_lines_add hl with rfl | hl
      · exact .inl ⟨rfl, List.mem_cons_self⟩
      · exact .inr hl

end Coreserver.Header

namespace Proxy

open Bytes Cache

/-! ## Values -/

def breaksLine (v : Bytes) : Bool := v.contains CR || v.contains LF || v.contains 0

def sanitiseHeaderValue (v : Bytes) : Option Bytes := if breaksLine v then none else some v

/-! ## Links -/

def splitLinkValuesFrom : ℕ → Bool → Bytes → Bytes → List Bytes
  | _, _, part, [] => [Text.trimSpace part]
  | depth, inQuote, part, c :: v =>
    if c = 60 then
      splitLinkValuesFrom (if inQuote then depth else depth + 1) inQuote (part ++ [c]) v
    else if c = 62 then
      splitLinkValuesFrom (if inQuote then depth else depth - 1) inQuote (part ++ [c]) v
    else if c = 34 then splitLinkValuesFrom depth (!inQuote) (part ++ [c]) v
    else if c = 44 ∧ depth = 0 ∧ inQuote = false then
      Text.trimSpace part :: splitLinkValuesFrom depth inQuote [] v
    else splitLinkValuesFrom depth inQuote (part ++ [c]) v

def splitLinkValues (v : Bytes) : List Bytes := splitLinkValuesFrom 0 false [] v

def fieldsFrom : ℕ → Bytes → Bytes → List Bytes
  | 0, field, _ => if field = [] then [] else [field]
  | _ + 1, field, [] => if field = [] then [] else [field]
  | n + 1, field, c :: v =>
    match Text.spaces.find? (·.isPrefixOf (c :: v)) with
    | some space =>
      (if field = [] then [] else [field]) ++ fieldsFrom n [] ((c :: v).drop space.length)
    | none => fieldsFrom n (field ++ [c]) v

def fields (v : Bytes) : List Bytes := fieldsFrom v.length [] v

def linkValueIsXet (part : Bytes) : Bool :=
  let rel := Text.toLower part
  match index (ascii "rel=") rel with
  | none => false
  | some idx =>
    let rest := rel.drop (idx + 4)
    let rest :=
      if rest.head? = some 34 then (rest.drop 1).takeWhile (· != 34)
      else rest.takeWhile (fun c => c != 59 && c != 44)
    (fields rest).any (fun tok => (ascii "xet-").isPrefixOf (Text.toLower tok))

def stripXetLinks (values : List Bytes) : List Bytes :=
  (values.map (fun v => (splitLinkValues v).filter (fun part => !linkValueIsXet part))).filterMap
    (fun kept => if kept = [] then none else some ((ascii ", ").intercalate kept))

/-! ## Locations -/

structure ParsedURL where
  scheme : Bytes
  host : Bytes
  hostname : Bytes
  escapedPath : Bytes
  rawQuery : Bytes

def OneLine (b : Bytes) : Prop := CR ∉ b ∧ LF ∉ b

instance : DecidablePred OneLine := fun b => inferInstanceAs (Decidable (CR ∉ b ∧ LF ∉ b))

structure NetURL where
  parse : Bytes → Option ParsedURL
  joinPath : Bytes → List Bytes → Option Bytes
  withQuery : Bytes → Bytes → Bytes
  parse_rawQuery : ∀ s u, parse s = some u → OneLine u.rawQuery
  withQuery_oneLine : ∀ s q, OneLine q → OneLine (withQuery s q)

def queryEscape (b : Bytes) : Bytes :=
  b.flatMap (fun c =>
    if c = SP then [43]
    else if (48 ≤ c && c ≤ 57) || (65 ≤ c && c ≤ 90) || (97 ≤ c && c ≤ 122)
      || c == 45 || c == 95 || c == 46 || c == 126 then [c]
    else 37 :: Text.toUpper (hexEncode [c]))

structure Rewriter where
  net : NetURL
  publicBase : Bytes
  allow : Bytes → Bool

def Rewriter.locationToProxyWithOrigin (rw : Rewriter) (location origin : Bytes) :
    Option Bytes :=
  match rw.net.parse location with
  | none => none
  | some u =>
    if u.scheme = [] ∨ u.host = [] then none
    else if u.scheme ≠ ascii "https" ∧ u.scheme ≠ ascii "http" then none
    else
      let host := Text.toLower u.hostname
      if !rw.allow host then none
      else
        let path := if u.escapedPath = [] then [SLASH] else u.escapedPath
        let trim := if path.head? = some SLASH then path.drop 1 else path
        match rw.net.joinPath rw.publicBase [ascii "_p", host, trim] with
        | none => none
        | some joined =>
          let rawq :=
            if origin = [] then u.rawQuery
            else
              let p := originQueryParam ++ 61 :: queryEscape origin
              if u.rawQuery = [] then p else u.rawQuery ++ 38 :: p
          some (rw.net.withQuery joined rawq)

theorem queryEscape_cons (c : UInt8) (b : Bytes) :
    queryEscape (c :: b) = queryEscape [c] ++ queryEscape b := by
  simp [queryEscape]

def markQuery (rawQuery origin : Bytes) : Bytes :=
  if origin = [] then rawQuery
  else if rawQuery = [] then originQueryParam ++ 61 :: queryEscape origin
  else rawQuery ++ 38 :: (originQueryParam ++ 61 :: queryEscape origin)

def ParsedURL.requestPath (u : ParsedURL) : Bytes :=
  if u.escapedPath = [] then [SLASH] else u.escapedPath

theorem Rewriter.exists_of_locationToProxyWithOrigin {rw : Rewriter} {location origin v : Bytes}
    (h : rw.locationToProxyWithOrigin location origin = some v) :
    ∃ u joined, rw.net.parse location = some u ∧ u.host ≠ []
      ∧ rw.allow (Text.toLower u.hostname) = true
      ∧ rw.net.joinPath rw.publicBase [ascii "_p", Text.toLower u.hostname,
        if u.requestPath.head? = some SLASH then u.requestPath.drop 1 else u.requestPath]
        = some joined
      ∧ v = rw.net.withQuery joined (markQuery u.rawQuery origin) := by
  unfold locationToProxyWithOrigin at h
  split at h
  · cases h
  · next u hu =>
    rw [Option.ite_none_left_eq_some, Option.ite_none_left_eq_some] at h
    obtain ⟨habsolute, -, h⟩ := h
    dsimp only at h
    rw [Option.ite_none_left_eq_some] at h
    obtain ⟨hallow, h⟩ := h
    split at h
    · cases h
    · next joined hjoined =>
      exact ⟨u, joined, hu, fun hnil => habsolute (.inr hnil), by simpa using hallow, hjoined,
        (Option.some.inj h).symm⟩

def Rewriter.location (rw : Rewriter) (location origin : Bytes) : Bytes :=
  (rw.locationToProxyWithOrigin location origin).getD location

/-! ## The header that is passed on -/

def hopResponseHeaders : List Bytes :=
  [ascii "connection", ascii "keep-alive", ascii "proxy-connection", ascii "upgrade",
    ascii "transfer-encoding"]

def copied (name : Bytes) : Bool :=
  !hopResponseHeaders.contains (Text.toLower name)
    && Text.toLower name != ascii "content-length"
    && Text.toLower name != ascii "location"
    && Text.toLower name != ascii "content-location"
    && !breaksLine name

def copiedValues (name : Bytes) (values : List Bytes) : List Bytes :=
  (if Text.toLower name = ascii "link" then stripXetLinks values else values).filterMap
    sanitiseHeaderValue

def setLocation (rw : Rewriter) (origin key location : Bytes) (dst : Coreserver.Header) :
    Coreserver.Header :=
  if location = [] then dst
  else
    match sanitiseHeaderValue (rw.location location origin) with
    | none => dst
    | some v => dst.set key v

def copyAndRewriteHeaders (rw : Rewriter) (dst src : Coreserver.Header) (originPath : Bytes) :
    Coreserver.Header :=
  let dst := src.entries.foldl
    (fun dst e => if copied e.1 then dst.addAll e.1 (copiedValues e.1 e.2) else dst) dst
  let dst := setLocation rw originPath (ascii "Location") (src.get (ascii "Location")) dst
  setLocation rw originPath (ascii "Content-Location") (src.get (ascii "Content-Location")) dst

def securityHeader : Coreserver.Header :=
  Coreserver.Header.empty.set (ascii "X-Content-Type-Options") (ascii "nosniff")

def withEntry (hdr : Coreserver.Header) (m : Meta) : Coreserver.Header :=
  let hdr := if m.contentType = [] then hdr else hdr.set (ascii "Content-Type") m.contentType
  let hdr := if m.eTag = [] then hdr else hdr.set (ascii "Etag") m.eTag
  applyExtraHeaders hdr m.extraHeaders

theorem withEntry_securityHeader (m : Meta) : withEntry securityHeader m = cachedHeader m := rfl

def redirectHeader (rw : Rewriter) (m : Meta) : Coreserver.Header :=
  (withEntry (securityHeader.set (ascii "Location") (rw.location m.location m.path)) m).set
    (ascii "Content-Length") (ascii "0")

def headHeader (m : Meta) : Coreserver.Header :=
  match m.total with
  | some total =>
    if 0 ≤ total then (cachedHeader m).set (ascii "Content-Length") (Coreserver.itoa total)
    else cachedHeader m
  | none => cachedHeader m

end Proxy
