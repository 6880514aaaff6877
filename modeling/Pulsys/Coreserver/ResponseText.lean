import Pulsys.Coreserver.Response

/-!
# What a handler's calls come to

A response is a head, made of the header map and the status when it goes out, and the
handler's writes, framed (`Exchange.text`). If no flush has failed, that text is what the
connection has (`Exchange.sent_eq_text`).
-/

namespace Coreserver

open Bytes Bufio

/-! ## What a handler's calls come to -/

def headOf : List HandlerCall → Header → Header × ℤ
  | [], h => (h.set contentLengthKey (ascii "0"), 200)
  | .header h :: calls, _ => headOf calls h
  | .writeHeader code :: _, h => (h, code)
  | .write _ :: _, h => (h, 200)
  | .readFrom _ :: _, h => (h, 200)

def HandlerCall.writes : HandlerCall → List Bytes
  | .write p => [p]
  | .readFrom blocks => blocks
  | _ => []

theorem foldl_keeps {σ α β : Type} (f : σ → β) {g : σ → α → σ} (h : ∀ s a, f (g s a) = f s)
    (l : List α) (s : σ) : f (l.foldl g s) = f s := by
  induction l generalizing s with
  | nil => rfl
  | cons a l ih => exact (ih (g s a)).trans (h s a)

def chunkText (p : Bytes) : Bytes := (chunkPieces p).flatten

namespace Exchange

def header (x : Exchange) : Header := (headOf x.calls .empty).1

def code (x : Exchange) : ℤ := (headOf x.calls .empty).2

def writes (x : Exchange) : List Bytes := x.calls.flatMap HandlerCall.writes

def written (x : Exchange) : Bytes := x.writes.flatten

def headText (x : Exchange) : Bytes :=
  (headPieces x.order (sentHeader x.header x.keepAlive) x.code).flatten

def payload (x : Exchange) : Bytes :=
  if (announced x.header).isSome then x.written
  else (x.writes.map chunkText).flatten ++ ascii "0\r\n\r\n"

def text (x : Exchange) : Bytes := x.headText ++ x.payload

end Exchange

namespace RespWriter

variable (order : RangeOrder)

def framed (mode : RwMode) (p : Bytes) : Bytes :=
  match mode with
  | .contentLength => p
  | .chunked => chunkText p
  | .unknown => []

structure Started (rw : RespWriter) (mode : RwMode) (t : Bytes) : Prop where
  wroteHd : rw.wroteHd = true
  mode_eq : rw.mode = mode
  given : rw.bw.Given t

variable {rw : RespWriter} {mode : RwMode} {t : Bytes}

theorem Started.writeBody (h : rw.Started mode t) (p : Bytes) :
    (rw.writeBody p).Started mode (t ++ framed mode p) := by
  obtain ⟨hw, hm, hg⟩ := h
  cases mode with
  | contentLength =>
    have : rw.writeBody p = { rw with bw := rw.bw.write p } := by
      rw [RespWriter.writeBody, hm]
    exact this ▸ ⟨hw, hm, hg.write p⟩
  | chunked =>
    have : rw.writeBody p = { rw with bw := rw.bw.writeAll (chunkPieces p) } := by
      rw [RespWriter.writeBody, hm]
    exact this ▸ ⟨hw, hm, hg.writeAll (chunkPieces p)⟩
  | unknown =>
    have : rw.writeBody p = rw := by rw [RespWriter.writeBody, hm]
    rw [this]
    exact ⟨hw, hm, by simpa [framed] using hg⟩

theorem Started.writeBodies (h : rw.Started mode t) (ps : List Bytes) :
    (ps.foldl RespWriter.writeBody rw).Started mode (t ++ (ps.map (framed mode)).flatten) := by
  induction ps generalizing rw t with
  | nil => simpa using h
  | cons p ps ih =>
    have := ih (h.writeBody p)
    rw [List.append_assoc] at this
    exact this

theorem Started.call (h : rw.Started mode t) (c : HandlerCall) :
    (rw.call order c).Started mode (t ++ (c.writes.map (framed mode)).flatten) := by
  cases c with
  | header hd =>
    exact ⟨h.wroteHd, h.mode_eq,
      by simpa [HandlerCall.writes, RespWriter.call] using h.given⟩
  | writeHeader code =>
    have : rw.call order (.writeHeader code) = rw := by
      rw [RespWriter.call, RespWriter.writeHeader, if_pos h.wroteHd]
    rw [this]
    simpa [HandlerCall.writes] using h
  | write p =>
    have : rw.call order (.write p) = rw.writeBody p := by
      rw [RespWriter.call, RespWriter.write, if_pos h.wroteHd]
    rw [this]
    simpa [HandlerCall.writes] using h.writeBody p
  | readFrom blocks =>
    have : rw.call order (.readFrom blocks) = blocks.foldl RespWriter.writeBody rw := by
      rw [RespWriter.call, RespWriter.readFrom, if_pos h.wroteHd]
    rw [this]
    exact h.writeBodies blocks

theorem Started.calls (h : rw.Started mode t) (cs : List HandlerCall) :
    (cs.foldl (RespWriter.call order) rw).Started mode
      (t ++ ((cs.flatMap HandlerCall.writes).map (framed mode)).flatten) := by
  induction cs generalizing rw t with
  | nil => simpa using h
  | cons c cs ih =>
    have := ih (h.call order c)
    rw [List.flatMap_cons, List.map_append, List.flatten_append, ← List.append_assoc]
    exact this

theorem limit_writeBody (rw : RespWriter) (p : Bytes) :
    (rw.writeBody p).bw.sink.limit = rw.bw.sink.limit := by
  unfold RespWriter.writeBody
  split
  · exact Writer.limit_write _ _
  · exact Writer.limit_writeAll _ _
  · rfl

theorem limit_writeHeader (rw : RespWriter) (code : ℤ) :
    (rw.writeHeader order code).bw.sink.limit = rw.bw.sink.limit := by
  unfold RespWriter.writeHeader
  split
  · rfl
  · exact Writer.limit_writeAll _ _

theorem limit_ensureHeader (rw : RespWriter) :
    (if rw.wroteHd then rw else rw.writeHeader order 200).bw.sink.limit = rw.bw.sink.limit := by
  split
  · rfl
  · exact rw.limit_writeHeader order 200

theorem limit_call (rw : RespWriter) (c : HandlerCall) :
    (rw.call order c).bw.sink.limit = rw.bw.sink.limit := by
  cases c with
  | header h => rfl
  | writeHeader code => exact rw.limit_writeHeader order code
  | write p => exact (limit_writeBody _ p).trans (rw.limit_ensureHeader order)
  | readFrom blocks =>
    exact (foldl_keeps (fun rw' : RespWriter => rw'.bw.sink.limit) limit_writeBody blocks _).trans
      (rw.limit_ensureHeader order)

theorem limit_finalize (rw : RespWriter) :
    (rw.finalize order).bw.sink.limit = rw.bw.sink.limit := by
  unfold RespWriter.finalize
  dsimp only
  refine (Writer.limit_flush _).trans ?_
  split
  · split
    · exact Writer.limit_write _ _
    · rfl
  · exact limit_writeHeader order _ 200

def modeOf (h : Header) : RwMode :=
  if (announced h).isSome then .contentLength else .chunked

structure Fresh (rw : RespWriter) (h : Header) (keep : Bool) : Prop where
  wroteHd : rw.wroteHd = false
  hdr : rw.hdr = h
  keep_eq : rw.keep = keep
  given : rw.bw.Given []

theorem Fresh.writeHeader {h : Header} {keep : Bool} (hf : rw.Fresh h keep) (code : ℤ) :
    (rw.writeHeader order code).Started (modeOf h)
      (headPieces order (sentHeader h keep) code).flatten := by
  obtain ⟨hw, rfl, rfl, hg⟩ := hf
  rw [RespWriter.writeHeader, if_neg (by simp [hw])]
  exact ⟨rfl, rfl, by simpa using hg.writeAll (headPieces order (sentHeader rw.hdr rw.keep) code)⟩

theorem Fresh.calls {h : Header} {keep : Bool} (hf : rw.Fresh h keep) (cs : List HandlerCall) :
    (cs.foldl (RespWriter.call order) rw).Started (modeOf (headOf cs h).1)
        ((headPieces order (sentHeader (headOf cs h).1 keep) (headOf cs h).2).flatten
          ++ ((cs.flatMap HandlerCall.writes).map (framed (modeOf (headOf cs h).1))).flatten)
      ∨ ∃ h', (cs.foldl (RespWriter.call order) rw).Fresh h' keep
          ∧ headOf cs h = (h'.set contentLengthKey (ascii "0"), 200)
          ∧ cs.flatMap HandlerCall.writes = [] := by
  induction cs generalizing rw h with
  | nil => exact .inr ⟨h, hf, rfl, rfl⟩
  | cons c cs ih =>
    -- the call that sends the head is the last one that is looked at
    have hstart : ∀ (rw' : RespWriter) (code : ℤ) (ps : List Bytes),
        rw' = ps.foldl RespWriter.writeBody (rw.writeHeader order code) →
        (cs.foldl (RespWriter.call order) rw').Started (modeOf h)
          ((headPieces order (sentHeader h keep) code).flatten
            ++ ((ps ++ cs.flatMap HandlerCall.writes).map (framed (modeOf h))).flatten) := by
      rintro rw' code ps rfl
      have := ((hf.writeHeader order code).writeBodies ps).calls order cs
      rw [List.map_append, List.flatten_append, ← List.append_assoc]
      exact this
    have hw : rw.wroteHd = false := hf.wroteHd
    cases c with
    | header hd => exact ih ⟨hf.wroteHd, rfl, hf.keep_eq, hf.given⟩
    | writeHeader code => exact .inl (hstart _ code [] rfl)
    | write p => exact .inl (hstart _ 200 [p] (by simp [call, write, hw]))
    | readFrom blocks => exact .inl (hstart _ 200 blocks (by simp [call, readFrom, hw]))

end RespWriter

namespace Exchange

theorem given_text (x : Exchange) :
    ∃ w : Writer, w.Given x.text ∧ w.flush = x.finished.bw := by
  have hfresh : (acquireRespWriter (Writer.new x.bufSize x.limit) x.keepAlive).Fresh .empty
      x.keepAlive := ⟨rfl, rfl, rfl, Writer.given_new _ _⟩
  unfold text headText payload header code written writes finished RespWriter.finalize
  dsimp only
  rcases hfresh.calls x.order x.calls with hs | ⟨h', hf, hhead, hw⟩
  · rw [if_pos (show x.handled.wroteHd = true from hs.wroteHd)]
    have hmode : x.handled.mode = RespWriter.modeOf (headOf x.calls .empty).1 := hs.mode_eq
    have hg : x.handled.bw.Given _ := hs.given
    unfold RespWriter.modeOf at hmode hg
    by_cases ha : (announced (headOf x.calls .empty).1).isSome
    · rw [if_pos ha] at hmode hg ⊢
      rw [hmode, if_neg (by decide)]
      refine ⟨x.handled.bw, ?_, rfl⟩
      have hid : RespWriter.framed .contentLength = id := rfl
      simpa [hid] using hg
    · rw [if_neg ha] at hmode hg ⊢
      rw [hmode, if_pos rfl]
      refine ⟨_, ?_, rfl⟩
      have := hg.write (ascii "0\r\n\r\n")
      rw [List.append_assoc] at this
      exact this
  · rw [if_neg (show ¬ x.handled.wroteHd = true by simp [show x.handled.wroteHd = false from
      hf.wroteHd]), hhead, hw]
    have hset : ({ x.handled with hdr := x.handled.hdr.set contentLengthKey (ascii "0") } :
        RespWriter).Fresh (h'.set contentLengthKey (ascii "0")) x.keepAlive :=
      ⟨hf.wroteHd, by rw [show x.handled.hdr = h' from hf.hdr], hf.keep_eq, hf.given⟩
    have hann : (announced (h'.set contentLengthKey (ascii "0"))).isSome := by
      rw [announced, Header.get_set]
      decide
    rw [if_pos hann]
    refine ⟨_, ?_, rfl⟩
    simpa using (hset.writeHeader x.order 200).given

theorem limit_handled (x : Exchange) : x.handled.bw.sink.limit = x.limit :=
  foldl_keeps (fun rw : RespWriter => rw.bw.sink.limit) (RespWriter.limit_call x.order) x.calls _

theorem limit_finished (x : Exchange) : x.finished.bw.sink.limit = x.limit :=
  (RespWriter.limit_finalize x.order x.handled).trans x.limit_handled

def Refused (x : Exchange) : Prop := ∃ l, x.limit = some l ∧ l < x.text.length

theorem err_finished_iff (x : Exchange) : x.finished.bw.err = true ↔ x.Refused := by
  obtain ⟨w, hw, hfin⟩ := x.given_text
  rw [← hfin, hw.flush_result.1]
  have hlimit : w.flush.sink.limit = x.limit := hfin ▸ x.limit_finished
  simp only [Sink.Takes, hlimit, not_forall, not_le, exists_prop, Refused]

theorem sent_eq_text {x : Exchange} (h : x.finished.bw.err = false) : x.sent = x.text := by
  obtain ⟨w, hw, hfin⟩ := x.given_text
  rw [sent, ← hfin]
  exact hw.flush_result.2 (hfin ▸ h)

theorem sent_eq (x : Exchange) : x.sent = x.limit.elim x.text x.text.take := by
  obtain ⟨w, hw, hfin⟩ := x.given_text
  rw [sent, ← x.limit_finished, ← hfin]
  exact hw.sent_flush

theorem continues_iff (x : Exchange) :
    x.continues = true ↔ ¬ x.Refused ∧ x.keepAlive = true := by
  rw [← err_finished_iff, continues]
  cases herr : x.finished.bw.err with
  | true => simp
  | false =>
    -- the flush behind finalize has nothing left to do
    obtain ⟨w, hw, hfin⟩ := x.given_text
    have hempty : x.finished.bw.buf = [] := hfin ▸ hw.flush.2.1 (hfin ▸ herr)
    simp [Writer.flush, herr, hempty]

end Exchange

end Coreserver
