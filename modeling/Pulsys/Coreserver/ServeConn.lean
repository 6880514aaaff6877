import Pulsys.Base.Runs
import Pulsys.Coreserver.Response
import Pulsys.Coreserver.Warm

/-!
# The connection loop

`serveConn` rejects a request, serves it from the cache, or hands it to the fallback, which
parses it again through a reader of its own that is dropped. A round is a step of a machine
that records where in the stream the loop has called `readRequest`.
-/

namespace Coreserver

open Bytes Bufio

/-! ## The declared length -/

def lengthLine (line : Bytes) : Option ℕ :=
  match indexByte line COLON with
  | none => none
  | some i =>
    if asciiEqualFold (line.take i) clenHdr then
      some (Text.decimal (trimSpace ⟨i + 1, line.drop (i + 1)⟩).data)
    else none

def declaredIn : ℕ → Bytes → ℕ
  | 0, _ => 0
  | n + 1, b =>
    match index crlf b with
    | none => 0
    | some i => (lengthLine (b.take i)).getD (declaredIn n (b.drop (i + 2)))

def declaredLength (raw : Bytes) : ℕ :=
  match index crlf raw with
  | none => 0
  | some i => declaredIn raw.length (raw.drop (i + 2))

/-! ## The fallback's reader -/

def defaultBufSize : ℕ := 4096

structure BodyReader where
  br : Reader
  held : Bytes
  left : ℕ

def BodyReader.read (b : BodyReader) (p : ℕ) : Bytes × BodyReader :=
  let n := min p b.left
  if n = 0 then ([], b)
  else if b.held ≠ [] then
    (b.held.take n,
      { b with held := b.held.drop n, left := b.left - (b.held.take n).length })
  else if defaultBufSize ≤ n then
    match b.br.read n with
    | none => ([], b)
    | some (d, br) => (d, { br := br, held := [], left := b.left - d.length })
  else
    match b.br.read defaultBufSize with
    | none => ([], b)
    | some (d, br) =>
      (d.take n, { br := br, held := d.drop n, left := b.left - (d.take n).length })

def BodyReader.readAll : BodyReader → List ℕ → BodyReader
  | b, [] => b
  | b, p :: ps => (b.read p).2.readAll ps

def readBody (br : Reader) (declared : ℕ) (reads : List ℕ) : Reader :=
  (BodyReader.readAll ⟨br, [], declared⟩ reads).br

structure Handler where
  accepts : Bytes → Bool
  reads : List ℕ
  calls : List HandlerCall
  order : RangeOrder
  limit : Option ℕ

def bufWriteSize : ℕ := 16 * 1024

def Handler.exchange (h : Handler) (keepAlive : Bool) : Exchange where
  keepAlive := keepAlive
  calls := h.calls
  order := h.order
  bufSize := bufWriteSize
  limit := h.limit

/-! ## The loop -/

inductive Answer
  | warm
  | fallback (reads : List ℕ)
  deriving DecidableEq, Repr

structure Answered where
  start : ℕ
  raw : Bytes
  br : Reader
  answer : Answer

structure Round where
  server : Server
  fallback : Option Handler

structure ServeConn where
  input : Bytes
  br : Reader
  closed : Bool
  last : Option Answered
  log : List (Answered × ℕ)

namespace ServeConn

def accept (c : Conn) : ServeConn where
  input := c.stream
  br := Reader.new bufReadSize c
  closed := false
  last := none
  log := []

def pos (s : ServeConn) : ℕ := s.input.length - s.br.stream.length

def close (s : ServeConn) : ServeConn := { s with closed := true }

def record (s : ServeConn) : ServeConn :=
  { s with last := none, log := s.log ++ (s.last.map (·, s.pos)).toList }

def next (s : ServeConn) (raw : Bytes) (br br' : Reader) (answer : Answer) : ServeConn :=
  { s with br := br', last := some ⟨s.pos, raw, br, answer⟩ }

def answer (s : ServeConn) (r : Round) (req : Request) (br : Reader) : ServeConn :=
  let v := req.parsed
  if !r.server.gateAdmit v then s.close
  else if (r.server.warmPlan v).isSome then
    if v.keepAlive then s.next v.raw br br .warm else s.close
  else
    match r.fallback with
    | none => s.close
    | some h =>
      if !h.accepts v.raw then s.close
      else if (h.exchange v.keepAlive).continues then
        s.next v.raw br (readBody br (declaredLength v.raw) h.reads) (.fallback h.reads)
      else s.close

def step (s : ServeConn) (r : Round) : Option ServeConn :=
  if s.closed then none
  else
    match s.br.peek with
    | none => some s.close
    | some br =>
      match readRequest br headerScratchSize {} with
      | ((.error _, _), _) => some s.record.close
      | ((.ok (), req), br') => some (s.record.answer r req br')

end ServeConn

end Coreserver
