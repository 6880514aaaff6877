import Pulsys.Base.Slice
import Pulsys.Base.Text

/-!
# The request parser's parts

The two request parsers share the byte classes, the request line and the loop over the
header lines. The fields of a `Request` are slices, written one by one, so every function
returns the request as it leaves it, on failure as well.
-/

namespace Coreserver

open Bytes

/-! ## Results -/

inductive ParseErr
  | badRequest
  | headerTooLarge
  | smugglingSuspect
  | needMoreData
  | eof
  deriving DecidableEq, Repr

@[ext] structure Request where
  method : Slice := .nil
  requestURI : Slice := .nil
  path : Slice := .nil
  query : Slice := .nil
  host : Slice := .nil
  auth : Slice := .nil
  range : Slice := .nil
  raw : Slice := .nil
  contentLen : ℤ := 0
  keepAlive : Bool := false
  http11 : Bool := false
  deriving DecidableEq, Repr

def require (c : Bool) (e : ParseErr) : Except ParseErr Unit :=
  if c then .ok () else .error e

def positive : Option ℕ → Except ParseErr ℕ
  | some (i + 1) => .ok (i + 1)
  | _ => .error .badRequest

def isBlank (c : UInt8) : Bool := c == SP || c == HT

def validMethod (b : Bytes) : Bool :=
  !b.isEmpty && b.all (fun c => 65 ≤ c && c ≤ 90)

def validOriginFormTarget (b : Bytes) : Bool :=
  b.head? == some SLASH && b.all (fun c => 0x21 ≤ c && c ≤ 0x7e)

def validProtocolVersion (b : Bytes) : Bool :=
  b.length == 8 && (ascii "HTTP/").isPrefixOf b
    && b[5]? == some 49 && b[6]? == some 46
    && (b[7]? == some 48 || b[7]? == some 49)

def isTchar (c : UInt8) : Bool :=
  (65 ≤ c && c ≤ 90) || (97 ≤ c && c ≤ 122) || (48 ≤ c && c ≤ 57)
    || (ascii "!#$%&'*+-.^_`|~").contains c

def validHeaderName (b : Bytes) : Bool := !b.isEmpty && b.all isTchar

def validHeaderValue (b : Bytes) : Bool :=
  b.all (fun c => isBlank c || (0x21 ≤ c && c ≤ 0x7e) || 0x80 ≤ c)

/-! ## Small readers -/

def decimalStep (v : ℤ) (c : UInt8) : Option ℤ :=
  if c < 48 || 57 < c then none
  else
    let v := Text.wrap64 (v * 10 + (c - 48).toNat)
    if v < 0 then none else some v

def parseDecimalInt64 (b : Bytes) : Option ℤ :=
  if b = [] then none else b.foldlM decimalStep 0

def trimSpace (s : Slice) : Slice :=
  ⟨s.off + (s.data.takeWhile isBlank).length,
    (s.data.dropWhile isBlank).rdropWhile isBlank⟩

def asciiLower (c : UInt8) : UInt8 := if 65 ≤ c && c ≤ 90 then c + 32 else c

def asciiEqualFold (a bLower : Bytes) : Bool := a.map asciiLower == bLower

def isSeparator (c : UInt8) : Bool := c == 44 || c == SP || c == HT

def asciiContainsTokenFoldAux (tokenLower : Bytes) : ℕ → Bytes → Bool
  | 0, _ => false
  | n + 1, haystack =>
    if haystack = [] then false
    else
      let haystack := haystack.dropWhile isSeparator
      if asciiEqualFold (haystack.takeWhile (!isSeparator ·)) tokenLower then true
      else asciiContainsTokenFoldAux tokenLower n
        (haystack.dropWhile (!isSeparator ·))

def asciiContainsTokenFold (haystack tokenLower : Bytes) : Bool :=
  asciiContainsTokenFoldAux tokenLower haystack.length haystack

def splitTarget (target : Slice) : Slice × Slice :=
  match indexByte target.data QUESTION with
  | none => (target, .nil)
  | some q => (target.upTo q, target.after (q + 1))

def parseRequestLine (line : Slice) (req : Request) :
    Except ParseErr Request := do
  let sp1 ← positive (indexByte line.data SP)
  let method := line.upTo sp1
  require (validMethod method.data) .badRequest
  let rest := line.after (sp1 + 1)
  let sp2 ← positive (indexByte rest.data SP)
  let target := rest.upTo sp2
  require (validOriginFormTarget target.data) .badRequest
  let proto := rest.after (sp2 + 1)
  require (validProtocolVersion proto.data) .badRequest
  return { req with
    method := method
    requestURI := target
    http11 := proto.data == ascii "HTTP/1.1"
    path := (splitTarget target).1
    query := (splitTarget target).2 }

/-! ## The header lines -/

abbrev hostHdr : Bytes := ascii "host"
abbrev rangeHdr : Bytes := ascii "range"
abbrev authHdr : Bytes := ascii "authorization"
abbrev connHdr : Bytes := ascii "connection"
abbrev clenHdr : Bytes := ascii "content-length"
abbrev teHdr : Bytes := ascii "transfer-encoding"

structure Scan where
  req : Request
  seenCL : Bool := false
  seenTE : Bool := false
  seenHost : Bool := false
  deriving DecidableEq, Repr

def connectionKeepAlive (http11 keepAlive : Bool) (value : Bytes) : Bool :=
  if asciiContainsTokenFold value (ascii "close") then false
  else if !http11 then true
  else keepAlive

def setHeader (name : Bytes) (value : Slice) (st : Scan) :
    Except ParseErr Scan :=
  if asciiEqualFold name hostHdr then
    if st.seenHost then .error .smugglingSuspect
    else .ok { st with seenHost := true, req := { st.req with host := value } }
  else if asciiEqualFold name rangeHdr then
    .ok { st with req := { st.req with range := value } }
  else if asciiEqualFold name authHdr then
    .ok { st with req := { st.req with auth := value } }
  else if asciiEqualFold name clenHdr then
    if st.seenCL then .error .smugglingSuspect
    else
      match parseDecimalInt64 value.data with
      | none => .error .smugglingSuspect
      | some cl =>
        .ok { st with seenCL := true, req := { st.req with contentLen := cl } }
  else if asciiEqualFold name teHdr then
    if asciiEqualFold value.data (ascii "identity") then
      .ok { st with seenTE := true }
    else .error .smugglingSuspect
  else if asciiEqualFold name connHdr then
    .ok { st with req := { st.req with
      keepAlive := connectionKeepAlive st.req.http11 st.req.keepAlive value.data } }
  else .ok st

def headerLine (line : Slice) (st : Scan) : Except ParseErr Scan := do
  require (!(line.data.head?.any isBlank)) .smugglingSuspect
  let colon ← positive (indexByte line.data COLON)
  let name := line.upTo colon
  require (validHeaderName name.data) .badRequest
  let value := trimSpace (line.after (colon + 1))
  require (validHeaderValue value.data) .smugglingSuspect
  setHeader name.data value st

def headerLoop : ℕ → Slice → Scan → Except ParseErr Unit × Scan
  | 0, hdr, st => (require hdr.data.isEmpty .badRequest, st)
  | n + 1, hdr, st =>
    if hdr.data = [] then (.ok (), st)
    else
      match index crlf hdr.data with
      | none => (.error .badRequest, st)
      | some 0 => (.ok (), st)
      | some (e + 1) =>
        match headerLine (hdr.upTo (e + 1)) st with
        | .error err => (.error err, st)
        | .ok st' => headerLoop n (hdr.after (e + 3)) st'

def parseHeaders (hdr : Slice) (req : Request) : Except ParseErr Unit × Request :=
  match headerLoop hdr.data.length hdr { req := req } with
  | (.error err, st) => (.error err, st.req)
  | (.ok (), st) =>
    if st.seenTE && st.seenCL then (.error .smugglingSuspect, st.req)
    else if !st.seenHost then (.error .badRequest, st.req)
    else (.ok (), st.req)

def parseBlock (hdr : Slice) (req : Request) : Except ParseErr Unit × Request :=
  match index crlf hdr.data with
  | none => (.error .badRequest, req)
  | some e =>
    match parseRequestLine (hdr.upTo e) req with
    | .error err => (.error err, req)
    | .ok req => parseHeaders (hdr.after (e + 2)) { req with keepAlive := req.http11 }

end Coreserver
