import Pulsys.Base.Bufio
import Pulsys.Coreserver.Request

/-!
# The two request parsers

`readRequest` collects the lines of a blocking connection up to an empty one;
`parseRequestFromBuf` looks for the first `\r\n\r\n` in the reactor's accumulator. Where
the two cuts differ, the parse of the block rejects.
-/

namespace Coreserver

open Bytes Bufio

def bufReadSize : ℕ := 16 * 1024

def headerScratchSize : ℕ := 16 * 1024

def reactorRecvBufSize : ℕ := 16 * 1024

abbrev crlfcrlf : Bytes := [CR, LF, CR, LF]

def readError : ReadErr → ParseErr
  | .bufferFull => .headerTooLarge
  | .eof => .eof

def collectBlock (scratch : ℕ) : ℕ → Reader → Bytes → Except ParseErr Bytes × Reader
  | 0, br, _ => (.error .headerTooLarge, br)
  | n + 1, br, acc =>
    match br.readSlice LF with
    | (.error e, br') => (.error (readError e), br')
    | (.ok line, br') =>
      if scratch < acc.length + line.length then (.error .headerTooLarge, br')
      else if line = crlf ∨ line = [LF] then (.ok (acc ++ line), br')
      else collectBlock scratch n br' (acc ++ line)

def readRequest (br : Reader) (scratch : ℕ) (req : Request) :
    (Except ParseErr Unit × Request) × Reader :=
  match collectBlock scratch (scratch + 1) br [] with
  | (.error e, br') => ((.error e, req), br')
  | (.ok block, br') => (parseBlock ⟨0, block⟩ { req with raw := ⟨0, block⟩ }, br')

def parseRequestFromBuf (buf : Bytes) (req : Request) : Except ParseErr ℕ × Request :=
  match index crlfcrlf buf with
  | none => (.error .needMoreData, req)
  | some e =>
    match parseBlock ⟨0, buf.take (e + 2)⟩ { req with raw := ⟨0, buf.take (e + 4)⟩ } with
    | (.error err, req) => (.error err, req)
    | (.ok (), req) => (.ok (e + 4), req)

end Coreserver
