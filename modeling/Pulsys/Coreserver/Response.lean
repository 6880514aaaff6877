import Pulsys.Base.BufioWriter
import Pulsys.Base.Numeral
import Pulsys.Coreserver.Parser

/-!
# The response writer of the slow path

With the first write of a handler, at the latest, the head goes out: bytes are passed
through if a content length was announced, else put into chunks. The calls, whether the
connection takes the bytes, and the order of the header map are parameters.
-/

namespace Coreserver

open Bytes Bufio

/-! ## Header maps -/

structure Header where
  entries : List (Bytes × List Bytes)
  nodup : (entries.map Prod.fst).Nodup

namespace Header

def empty : Header := ⟨[], List.nodup_nil⟩

def del (h : Header) (key : Bytes) : Header where
  entries := h.entries.filter (·.1 ≠ key)
  nodup := h.nodup.sublist (List.filter_sublist.map _)

def set (h : Header) (key value : Bytes) : Header where
  entries := (h.del key).entries ++ [(key, [value])]
  nodup := by
    rw [List.map_append, List.map_singleton]
    refine (h.del key).nodup.append (List.nodup_singleton _) ?_
    rw [List.disjoint_singleton]
    simp [del]

def get (h : Header) (key : Bytes) : Bytes :=
  (((h.entries.find? (·.1 = key)).map Prod.snd).getD []).headD []

def linesOf (entries : List (Bytes × List Bytes)) : List (Bytes × Bytes) :=
  entries.flatMap (fun e => e.2.map (fun v => (e.1, v)))

def lines (h : Header) : List (Bytes × Bytes) := linesOf h.entries

@[simp]
theorem lines_del (h : Header) (key : Bytes) :
    (h.del key).lines = h.lines.filter (·.1 ≠ key) := by
  unfold lines linesOf del
  dsimp only
  induction h.entries with
  | nil => rfl
  | cons e es ih =>
    rw [List.flatMap_cons, List.filter_append, ← ih]
    by_cases he : e.1 = key
    · simp [he, List.filter_map, Function.comp_def]
    · simp [he, List.filter_map, Function.comp_def]

@[simp]
theorem lines_set (h : Header) (key value : Bytes) :
    (h.set key value).lines = h.lines.filter (·.1 ≠ key) ++ [(key, value)] := by
  rw [← lines_del]
  simp [lines, linesOf, set]

theorem find?_del (h : Header) (key : Bytes) :
    (h.del key).entries.find? (·.1 = key) = none := by
  rw [List.find?_eq_none]
  intro e he
  simpa using of_decide_eq_true (List.mem_filter.mp he).2

@[simp]
theorem get_set (h : Header) (key value : Bytes) : (h.set key value).get key = value := by
  simp [get, set, List.find?_append, h.find?_del key]

@[simp]
theorem get_del (h : Header) (key : Bytes) : (h.del key).get key = [] := by
  simp [get, h.find?_del key]

theorem get_set_of_ne (h : Header) {key key' : Bytes} (hne : key' ≠ key) (value : Bytes) :
    (h.set key value).get key' = h.get key' := by
  have hfind : ∀ es : List (Bytes × List Bytes),
      (es.filter (·.1 ≠ key)).find? (·.1 = key') = es.find? (·.1 = key') := by
    intro es
    rw [List.find?_filter]
    congr 1
    funext e
    by_cases he : e.1 = key'
    · simp [he, hne]
    · simp [he]
  unfold get set del
  dsimp only
  rw [List.find?_append, hfind]
  simp [Ne.symm hne]

theorem mem_lines_of_get {h : Header} {key : Bytes} (hne : h.get key ≠ []) :
    (key, h.get key) ∈ h.lines := by
  unfold get at hne ⊢
  cases hf : h.entries.find? (·.1 = key) with
  | none => simp [hf] at hne
  | some e =>
    have hmem := List.mem_of_find?_eq_some hf
    have hkey : e.1 = key := by simpa using List.find?_some hf
    rw [hf] at hne
    obtain ⟨k, vs⟩ := e
    cases vs with
    | nil => simp at hne
    | cons v vs =>
      refine List.mem_flatMap.mpr ⟨_, hmem, ?_⟩
      simp [← hkey]

end Header

structure RangeOrder where
  order : List (Bytes × List Bytes) → List (Bytes × List Bytes)
  perm : ∀ es, (order es).Perm es

def RangeOrder.backwards : RangeOrder := ⟨List.reverse, List.reverse_perm⟩

/-! ## The status line -/

def itoa (n : ℤ) : Bytes :=
  if n < 0 then 45 :: Numeral.format 10 n.natAbs else Numeral.format 10 n.natAbs

theorem notMem_itoa {c : UInt8} (hc : Text.isDigit c = false) (hdash : c ≠ 45) (n : ℤ) :
    c ∉ itoa n := by
  have hformat := Numeral.notMem_format hc n.natAbs
  unfold itoa
  split
  · exact List.not_mem_cons_of_ne_of_not_mem hdash hformat
  · exact hformat

def statusTexts : List (ℤ × String) :=
  [(100, "Continue"), (101, "Switching Protocols"), (102, "Processing"),
    (103, "Early Hints"), (200, "OK"), (201, "Created"), (202, "Accepted"),
    (203, "Non-Authoritative Information"), (204, "No Content"), (205, "Reset Content"),
    (206, "Partial Content"), (207, "Multi-Status"), (208, "Already Reported"),
    (226, "IM Used"), (300, "Multiple Choices"), (301, "Moved Permanently"),
    (302, "Found"), (303, "See Other"), (304, "Not Modified"), (305, "Use Proxy"),
    (307, "Temporary Redirect"), (308, "Permanent Redirect"), (400, "Bad Request"),
    (401, "Unauthorized"), (402, "Payment Required"), (403, "Forbidden"),
    (404, "Not Found"), (405, "Method Not Allowed"), (406, "Not Acceptable"),
    (407, "Proxy Authentication Required"), (408, "Request Timeout"), (409, "Conflict"),
    (410, "Gone"), (411, "Length Required"), (412, "Precondition Failed"),
    (413, "Request Entity Too Large"), (414, "Request URI Too Long"),
    (415, "Unsupported Media Type"), (416, "Requested Range Not Satisfiable"),
    (417, "Expectation Failed"), (418, "I'm a teapot"), (421, "Misdirected Request"),
    (422, "Unprocessable Entity"), (423, "Locked"), (424, "Failed Dependency"),
    (425, "Too Early"), (426, "Upgrade Required"), (428, "Precondition Required"),
    (429, "Too Many Requests"), (431, "Request Header Fields Too Large"),
    (451, "Unavailable For Legal Reasons"), (500, "Internal Server Error"),
    (501, "Not Implemented"), (502, "Bad Gateway"), (503, "Service Unavailable"),
    (504, "Gateway Timeout"), (505, "HTTP Version Not Supported"),
    (506, "Variant Also Negotiates"), (507, "Insufficient Storage"),
    (508, "Loop Detected"), (510, "Not Extended"),
    (511, "Network Authentication Required")]

def statusText (code : ℤ) : Bytes :=
  ((statusTexts.find? (·.1 == code)).map (fun e => ascii e.2)).getD []

theorem validHeaderValue_statusText (code : ℤ) : validHeaderValue (statusText code) = true := by
  have hall : ∀ e ∈ statusTexts, validHeaderValue (ascii e.2) = true := by decide +kernel
  unfold statusText
  cases hfind : statusTexts.find? (·.1 == code) with
  | none => rfl
  | some e => exact hall e (List.mem_of_find?_eq_some hfind)

/-! ## The writer -/

inductive RwMode
  | unknown | contentLength | chunked
  deriving DecidableEq, Repr

structure RespWriter where
  bw : Writer
  hdr : Header
  mode : RwMode
  wroteHd : Bool
  keep : Bool
  status : ℤ
  cl : ℤ

def acquireRespWriter (bw : Writer) (keep : Bool) : RespWriter :=
  { bw := bw, hdr := .empty, mode := .unknown, wroteHd := false, keep := keep,
    status := 200, cl := -1 }

def contentLengthKey : Bytes := ascii "Content-Length"

def transferEncodingKey : Bytes := ascii "Transfer-Encoding"

def connectionKey : Bytes := ascii "Connection"

def announced (h : Header) : Option ℤ :=
  if h.get contentLengthKey = [] then none
  else (Text.parseInt (h.get contentLengthKey)).filter (0 ≤ ·)

def sentHeader (h : Header) (keep : Bool) : Header :=
  let h := if (announced h).isSome then h
    else (h.del contentLengthKey).set transferEncodingKey (ascii "chunked")
  (h.del connectionKey).set connectionKey
    (if keep then ascii "keep-alive" else ascii "close")

def headPieces (order : RangeOrder) (h : Header) (code : ℤ) : List Bytes :=
  [ascii "HTTP/1.1 ", itoa code, [SP], statusText code, crlf]
    ++ (Header.linesOf (order.order h.entries)).flatMap
      (fun l => [l.1, ascii ": ", l.2, crlf])
    ++ [crlf]

def chunkPieces (p : Bytes) : List Bytes :=
  if p = [] then [] else [Numeral.format 16 p.length, crlf, p, crlf]

namespace RespWriter

variable (order : RangeOrder)

def writeHeader (rw : RespWriter) (code : ℤ) : RespWriter :=
  if rw.wroteHd then rw
  else
    let hdr := sentHeader rw.hdr rw.keep
    { rw with
      wroteHd := true
      status := code
      cl := (announced rw.hdr).getD rw.cl
      mode := if (announced rw.hdr).isSome then .contentLength else .chunked
      hdr := hdr
      bw := rw.bw.writeAll (headPieces order hdr code) }

def writeBody (rw : RespWriter) (p : Bytes) : RespWriter :=
  match rw.mode with
  | .contentLength => { rw with bw := rw.bw.write p }
  | .chunked => { rw with bw := rw.bw.writeAll (chunkPieces p) }
  | .unknown => rw

def write (rw : RespWriter) (p : Bytes) : RespWriter :=
  (if rw.wroteHd then rw else rw.writeHeader order 200).writeBody p

def readFrom (rw : RespWriter) (blocks : List Bytes) : RespWriter :=
  blocks.foldl writeBody (if rw.wroteHd then rw else rw.writeHeader order 200)

def finalize (rw : RespWriter) : RespWriter :=
  let rw :=
    if rw.wroteHd then
      if rw.mode = .chunked then { rw with bw := rw.bw.write (ascii "0\r\n\r\n") } else rw
    else
      { rw with hdr := rw.hdr.set contentLengthKey (ascii "0") }.writeHeader order 200
  { rw with bw := rw.bw.flush }

end RespWriter

/-! ## An exchange -/

inductive HandlerCall
  | header (h : Header)
  | writeHeader (code : ℤ)
  | write (p : Bytes)
  | readFrom (blocks : List Bytes)

def RespWriter.call (order : RangeOrder) (rw : RespWriter) : HandlerCall → RespWriter
  | .header h => { rw with hdr := h }
  | .writeHeader code => rw.writeHeader order code
  | .write p => rw.write order p
  | .readFrom blocks => rw.readFrom order blocks

structure Exchange where
  keepAlive : Bool
  calls : List HandlerCall
  order : RangeOrder
  bufSize : ℕ
  limit : Option ℕ

namespace Exchange

def handled (x : Exchange) : RespWriter :=
  x.calls.foldl (RespWriter.call x.order)
    (acquireRespWriter (Writer.new x.bufSize x.limit) x.keepAlive)

def finished (x : Exchange) : RespWriter := x.handled.finalize x.order

def sent (x : Exchange) : Bytes := x.finished.bw.sink.sent

def continues (x : Exchange) : Bool :=
  !x.finished.bw.err && !x.finished.bw.flush.err && x.keepAlive

end Exchange

end Coreserver
