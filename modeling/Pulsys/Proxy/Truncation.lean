import Pulsys.Coreserver.ResponseFraming
import Pulsys.Proxy.Program

/-!
# Transfers that break off

When a transfer breaks off, the handler puts what was written on record as the whole, and
sends the last chunk. `truncation_visible_iff`: a part is not presented as the whole
exactly when nothing is recorded and the connection breaks before the last chunk.
-/

namespace Proxy

open Bytes Cache Coreserver

structure Transfer where
  service : Service
  hdr : Coreserver.Header
  resp : Response
  status_eq : resp.status = 200
  unknown : resp.contentLength = -1
  keyHex : Bytes
  target : Target
  auth : Bytes
  ticket : Option RangeTicket
  originPath : Bytes
  breaksOff : Bool
  begun : Begun
  disk : ℕ → Option ℕ
  found : Option Meta
  metaWritten : Bool
  keepAlive : Bool
  order : RangeOrder
  bufSize : ℕ
  limit : Option ℕ

structure TransferState where
  params : Option SegmentParams := none
  diskWrites : ℕ := 0
  written : ℕ := 0
  calls : List HandlerCall := []
  stopped : Bool := false
  committed : Option Meta := none

def TransferState.store (s : TransferState) (n : ℕ) (failed : Bool) : TransferState :=
  { s with
    diskWrites := s.diskWrites + 1, written := s.written + n, stopped := s.stopped || failed }

namespace Transfer

variable (x : Transfer)

def exchange (calls : List HandlerCall) : Exchange where
  keepAlive := x.keepAlive
  calls := calls
  order := x.order
  bufSize := x.bufSize
  limit := x.limit

def failed (calls : List HandlerCall) : Bool := (x.exchange calls).handled.bw.err

def send (s : TransferState) (b : Bytes) : TransferState :=
  { s with
    calls := s.calls ++ [.write b], stopped := s.stopped || x.failed (s.calls ++ [.write b]) }

def env : (op : Op) → TransferState → op.Answer × TransferState
  | .beginSegment _ p, s => (x.begun, { s with params := some p })
  | .writeSegment _ b, s =>
    if b = [] then (true, s)
    else
      match x.disk s.diskWrites with
      | none => (true, s.store b.length false)
      | some k => (false, s.store (min k b.length) true)
  | .closeSegment _, s =>
    ((), { s with
      committed := if x.metaWritten then s.params.map (·.commitMeta s.written x.found) else none })
  | .writeHeader code hdr, s => ((), { s with calls := s.calls ++ [.header hdr, .writeHeader code] })
  | .write b, s =>
    if b = [] then (true, s) else (!x.failed (s.calls ++ [.write b]), x.send s b)
  | .keyHex k, s => (k.key x.service.sha256, s)
  | .loadMeta _, s => (none, s)
  | .acquireBody _, s => (false, s)
  | .readBody _ _ _, s => ([], s)
  | .releaseBody _, s => ((), s)
  | .acquireRangeCtx _ _, s => (false, s)
  | .acquireRange _, s => ((), s)
  | .unlock _, s => ((), s)
  | .send _, s => (none, s)
  | .storeRedirect _ _, s => ((), s)
  | .storeAlias _ _, s => ((), s)

def final : TransferState :=
  ((x.service.streamCacheable200 x.hdr x.resp x.keyHex x.target x.auth x.ticket
    x.originPath).run x.env {}).2.2

def response : Exchange := x.exchange x.final.calls

def Aborted : Prop := x.begun = .ok ∧ (x.breaksOff = true ∨ x.final.stopped = true)

def Recorded : Prop :=
  ∃ m, x.final.committed = some m ∧ 0 < x.final.written ∧ m.total = some (x.final.written : ℤ)

def Terminated : Prop :=
  ∃ payload body, x.response.sent = x.response.headText ++ payload ∧ Chunked payload body

/-! ## What the run comes to -/

def copied (s : TransferState) (body : List Bytes) : TransferState :=
  ((teeCopy x.keyHex body).run x.env s).2.2

variable {s s' : TransferState} {body : List Bytes}

theorem copied_cons_stored {b : Bytes} (hb : b ≠ []) (bs : List Bytes)
    (hdisk : x.disk s.diskWrites = none) :
    x.copied s (b :: bs)
      = if x.failed (s.calls ++ [.write b]) then x.send (s.store b.length false) b
        else x.copied (x.send (s.store b.length false) b) bs := by
  have hstore : x.env (.writeSegment x.keyHex b) s = (true, s.store b.length false) := by
    simp only [env, hb, if_false, hdisk]
  have hsend : x.env (.write b) (s.store b.length false)
      = (!x.failed (s.calls ++ [.write b]), x.send (s.store b.length false) b) := if_neg hb
  unfold copied
  rw [teeCopy, Interaction.run_ask_bind, hstore]
  dsimp only
  rw [if_pos rfl, Interaction.run_ask_bind, hsend]
  dsimp only
  cases x.failed (s.calls ++ [.write b]) <;> rfl

theorem copied_cons_unstored {b : Bytes} (hb : b ≠ []) (bs : List Bytes) {k : ℕ}
    (hdisk : x.disk s.diskWrites = some k) :
    x.copied s (b :: bs) = x.send (s.store (min k b.length) true) b := by
  have hstore : x.env (.writeSegment x.keyHex b) s = (false, s.store (min k b.length) true) := by
    simp only [env, hb, if_false, hdisk]
  have hsend : x.env (.write b) (s.store (min k b.length) true)
      = (!x.failed (s.calls ++ [.write b]), x.send (s.store (min k b.length) true) b) := if_neg hb
  unfold copied
  rw [teeCopy, Interaction.run_ask_bind, hstore]
  dsimp only
  rw [if_neg Bool.false_ne_true, Interaction.run_ask_bind, hsend]
  rfl

def headCalls : List HandlerCall :=
  [.header (setArtifactHeaders x.hdr x.resp.contentLength), .writeHeader 200]

def params : SegmentParams :=
  Fetch.paramsAt ⟨x.target, x.resp.toUpstream, x.originPath⟩ 0 x.resp.contentLength
    x.resp.contentLength

def opened : TransferState := { params := some x.params, calls := x.headCalls }

theorem final_eq (h : x.begun = .ok) :
    x.final = (x.env (.closeSegment x.keyHex) (x.copied x.opened x.resp.body)).2 := by
  have hbegin : x.env (.beginSegment x.keyHex x.params) {} = (.ok, { params := some x.params }) := by
    rw [env, h]
  unfold final Service.streamCacheable200 Service.streamSegment
  unfold params at hbegin
  dsimp only
  rw [Interaction.run_ask_bind, hbegin]
  dsimp only
  rw [Interaction.run_ask_bind, Interaction.run_bind, Interaction.run_ask_bind,
    Interaction.run_bind]
  dsimp only
  rw [(Service.keeps_maybeWriteRevAlias _ (fun _ _ => rfl) (fun _ _ _ => rfl) _ _ _).run_state,
    (keeps_unlock (fun _ _ => rfl) _).run_state]
  rfl

inductive Copies : TransferState → List Bytes → TransferState → Prop
  | done (s : TransferState) : Copies s [] s
  | nothing {s s' : TransferState} {bs : List Bytes} (h : Copies s bs s') : Copies s ([] :: bs) s'
  | goesOn {s s' : TransferState} {b : Bytes} {bs : List Bytes} (hb : b ≠ [])
      (hdisk : x.disk s.diskWrites = none)
      (h : Copies (x.send (s.store b.length false) b) bs s') : Copies s (b :: bs) s'
  | clientStops {s : TransferState} {b : Bytes} {bs : List Bytes} (hb : b ≠ [])
      (hdisk : x.disk s.diskWrites = none) (hclient : x.failed (s.calls ++ [.write b]) = true) :
      Copies s (b :: bs) (x.send (s.store b.length false) b)
  | diskStops {s : TransferState} {b : Bytes} {bs : List Bytes} (hb : b ≠ []) {k : ℕ}
      (hdisk : x.disk s.diskWrites = some k) :
      Copies s (b :: bs) (x.send (s.store (min k b.length) true) b)

theorem copies_copied (s : TransferState) (body : List Bytes) :
    x.Copies s body (x.copied s body) := by
  induction body generalizing s with
  | nil => exact .done s
  | cons b bs ih =>
    by_cases hb : b = []
    · subst hb
      exact .nothing (ih s)
    · cases hdisk : x.disk s.diskWrites with
      | some k =>
        rw [x.copied_cons_unstored hb bs hdisk]
        exact .diskStops hb hdisk
      | none =>
        rw [x.copied_cons_stored hb bs hdisk]
        split
        · next hclient => exact .clientStops hb hdisk hclient
        · exact .goesOn hb hdisk (ih _)

variable {x}

theorem Copies.params_eq (h : x.Copies s body s') : s'.params = s.params := by
  induction h with
  | done s => rfl
  | nothing h ih => exact ih
  | goesOn hb hdisk h ih => exact ih
  | clientStops hb hdisk hclient => rfl
  | diskStops hb hdisk => rfl

theorem Copies.le_written (h : x.Copies s body s') : s.written ≤ s'.written := by
  induction h with
  | done s => exact le_rfl
  | nothing h ih => exact ih
  | goesOn hb hdisk h ih => exact (Nat.le_add_right _ _).trans ih
  | clientStops hb hdisk hclient => exact Nat.le_add_right _ _
  | diskStops hb hdisk => exact Nat.le_add_right _ _

theorem Copies.written_lt_iff (h : x.Copies s body s') :
    s.written < s'.written ↔ body.flatten ≠ [] ∧ x.disk s.diskWrites ≠ some 0 := by
  induction h with
  | done s => simp
  | nothing h ih => simpa using ih
  | @goesOn s s' b bs hb hdisk h ih =>
    have hpos : 0 < b.length := List.length_pos_of_ne_nil hb
    have hle : s.written + b.length ≤ s'.written := h.le_written
    simp only [hdisk, List.flatten_cons, ne_eq, List.append_eq_nil_iff, hb, false_and,
      not_false_eq_true, reduceCtorEq, and_self, iff_true]
    omega
  | @clientStops s b bs hb hdisk hclient =>
    have hpos : 0 < b.length := List.length_pos_of_ne_nil hb
    simp only [hdisk, List.flatten_cons, ne_eq, List.append_eq_nil_iff, hb, false_and,
      not_false_eq_true, reduceCtorEq, and_self, iff_true]
    exact Nat.lt_add_of_pos_right hpos
  | @diskStops s b bs hb k hdisk =>
    have hpos : 0 < b.length := List.length_pos_of_ne_nil hb
    have hmin : s.written < s.written + min k b.length ↔ k ≠ 0 := by omega
    simp only [hdisk, List.flatten_cons, ne_eq, List.append_eq_nil_iff, hb, false_and,
      not_false_eq_true, true_and, Option.some.injEq]
    exact hmin

variable (x) in
def deliveredFrom : ℕ → List Bytes → List Bytes
  | _, [] => []
  | i, b :: bs =>
    if b = [] then deliveredFrom i bs
    else if (x.disk i).isSome then [b] else b :: deliveredFrom (i + 1) bs

theorem Copies.exists_calls (h : x.Copies s body s') :
    ∃ ws, s'.calls = s.calls ++ ws.map .write ∧ ws <+: x.deliveredFrom s.diskWrites body
      ∧ (ws = x.deliveredFrom s.diskWrites body ∨ x.failed s'.calls = true) := by
  induction h with
  | done s => exact ⟨[], by simp, List.nil_prefix, .inl rfl⟩
  | nothing h ih => exact ih
  | @goesOn s s' b bs hb hdisk h ih =>
    obtain ⟨ws, hcalls, hpre, hend⟩ := ih
    have hdel : x.deliveredFrom s.diskWrites (b :: bs)
        = b :: x.deliveredFrom (s.diskWrites + 1) bs := by
      rw [deliveredFrom, if_neg hb, hdisk]
      rfl
    rw [hdel]
    refine ⟨b :: ws, ?_, List.cons_prefix_cons.mpr ⟨rfl, hpre⟩, ?_⟩
    · rw [hcalls]
      simp [send, TransferState.store]
    · exact hend.imp (fun h => congrArg (b :: ·) h) id
  | @clientStops s b bs hb hdisk hclient =>
    refine ⟨[b], rfl, ?_, .inr hclient⟩
    rw [deliveredFrom, if_neg hb, hdisk]
    exact List.cons_prefix_cons.mpr ⟨rfl, List.nil_prefix⟩
  | @diskStops s b bs hb k hdisk =>
    have hdel : x.deliveredFrom s.diskWrites (b :: bs) = [b] := by
      rw [deliveredFrom, if_neg hb, hdisk]
      rfl
    rw [hdel]
    exact ⟨[b], rfl, List.prefix_refl _, .inl rfl⟩

/-! ## What the client gets -/

variable (x)

def head : Bytes :=
  (headPieces x.order (sentHeader (x.hdr.del contentLengthKey) x.keepAlive) 200).flatten

def chunks (ws : List Bytes) : Bytes := (ws.map chunkText).flatten

def responseOf (ws : List Bytes) : Exchange := x.exchange (x.headCalls ++ ws.map .write)

theorem header_eq : setArtifactHeaders x.hdr x.resp.contentLength = x.hdr.del contentLengthKey := by
  rw [setArtifactHeaders, x.unknown]
  rfl

theorem announced_header : announced (x.hdr.del contentLengthKey) = none := by
  rw [announced, Header.get_del]
  rfl

theorem writes_map (ws : List Bytes) :
    (x.headCalls ++ ws.map HandlerCall.write).flatMap HandlerCall.writes = ws := by
  have hwrites : (ws.map HandlerCall.write).flatMap HandlerCall.writes = ws := by
    induction ws with
    | nil => rfl
    | cons w ws ih => exact congrArg (w :: ·) ih
  exact hwrites

theorem headOf_calls (ws : List Bytes) :
    headOf (x.headCalls ++ ws.map .write) .empty = (x.hdr.del contentLengthKey, 200) := by
  rw [← x.header_eq]
  rfl

theorem headText_responseOf (ws : List Bytes) : (x.responseOf ws).headText = x.head := by
  have hhead := x.headOf_calls ws
  unfold Exchange.headText Exchange.header Exchange.code
  rw [show (x.responseOf ws).calls = x.headCalls ++ ws.map .write from rfl, hhead]
  rfl

theorem text_responseOf (ws : List Bytes) :
    (x.responseOf ws).text = x.head ++ (chunks ws ++ ascii "0\r\n\r\n") := by
  have hhead : (x.responseOf ws).header = x.hdr.del contentLengthKey :=
    congrArg Prod.fst (x.headOf_calls ws)
  have hwrites : (x.responseOf ws).writes = ws := x.writes_map ws
  rw [Exchange.text, headText_responseOf, Exchange.payload, hhead, announced_header, hwrites]
  rfl

theorem exists_limit_of_failed {ws : List Bytes}
    (h : x.failed (x.headCalls ++ ws.map .write) = true) :
    ∃ l, x.limit = some l ∧ l < (x.head ++ chunks ws).length := by
  have hfresh : (acquireRespWriter (Bufio.Writer.new x.bufSize x.limit) x.keepAlive).Fresh .empty
      x.keepAlive := ⟨rfl, rfl, rfl, Bufio.Writer.given_new _ _⟩
  have hgiven : (x.responseOf ws).handled.bw.Given (x.head ++ chunks ws) := by
    rcases hfresh.calls x.order (x.headCalls ++ ws.map .write) with hs | ⟨h', hf, hhead, hw⟩
    · have hg := hs.given
      rw [x.headOf_calls ws, x.writes_map ws, RespWriter.modeOf, x.announced_header] at hg
      exact hg
    · have herr : (x.responseOf ws).handled.bw.err = true := h
      have hg : (x.responseOf ws).handled.bw.Given [] := hf.given
      simpa using hg.more_of_err herr (x.head ++ chunks ws)
  unfold Bufio.Writer.Given at hgiven
  rw [if_pos (show (x.responseOf ws).handled.bw.err = true from h)] at hgiven
  obtain ⟨l, hl, hlt, -⟩ := hgiven
  exact ⟨l, (x.responseOf ws).limit_handled.symm.trans hl, hlt⟩

def wholeText : Bytes :=
  x.head ++ (chunks (x.deliveredFrom 0 x.resp.body) ++ ascii "0\r\n\r\n")

def Cut : Prop := ∃ l, x.limit = some l ∧ l < x.wholeText.length

def StoresNothing : Prop := x.resp.body.flatten = [] ∨ x.disk 0 = some 0

variable {x}

theorem exists_response (h : x.begun = .ok) :
    ∃ ws, x.response = x.responseOf ws ∧ ws <+: x.deliveredFrom 0 x.resp.body
      ∧ (ws = x.deliveredFrom 0 x.resp.body
        ∨ x.failed (x.headCalls ++ ws.map .write) = true) := by
  obtain ⟨ws, hcalls, hpre, hend⟩ := (x.copies_copied x.opened x.resp.body).exists_calls
  have hfinal : x.final.calls = x.headCalls ++ ws.map .write := by
    rw [x.final_eq h]
    exact hcalls
  refine ⟨ws, by rw [response, hfinal]; rfl, hpre, ?_⟩
  rwa [show (x.copied x.opened x.resp.body).calls = x.headCalls ++ ws.map .write from hcalls] at hend

theorem length_chunks_le {ws vs : List Bytes} (h : ws <+: vs) :
    (chunks ws).length ≤ (chunks vs).length := by
  obtain ⟨us, rfl⟩ := h
  simp [chunks]

theorem refused_response_iff (h : x.begun = .ok) : x.response.Refused ↔ x.Cut := by
  obtain ⟨ws, hresp, hpre, hend⟩ := exists_response h
  have hle := length_chunks_le hpre
  rw [hresp, Exchange.Refused, text_responseOf, Cut, wholeText]
  constructor
  · rintro ⟨l, hl, hlt⟩
    refine ⟨l, hl, ?_⟩
    simp only [List.length_append] at hlt ⊢
    omega
  · rintro ⟨l, hl, hlt⟩
    rcases hend with rfl | hfailed
    · exact ⟨l, hl, hlt⟩
    · obtain ⟨l', hl', hlt'⟩ := x.exists_limit_of_failed hfailed
      refine ⟨l', hl', ?_⟩
      simp only [List.length_append] at hlt' ⊢
      omega

theorem terminated_iff (h : x.begun = .ok) : x.Terminated ↔ ¬ x.Cut := by
  rw [← refused_response_iff h]
  obtain ⟨ws, hresp, -⟩ := exists_response h
  unfold Terminated
  rw [hresp, Exchange.sent_eq, Exchange.Refused, headText_responseOf, text_responseOf]
  have hchunked := chunked_writes ws
  cases hl : (x.responseOf ws).limit with
  | none =>
    refine iff_of_true ⟨_, _, rfl, hchunked⟩ ?_
    rintro ⟨l, hl', -⟩
    cases hl'
  | some l =>
    simp only [Option.elim_some, Option.some.injEq, exists_eq_left']
    constructor
    · rintro ⟨payload, body, hsent, hpayload⟩ hlt
      -- what was taken of the chunks would be a body in chunks itself
      have hpre : x.head ++ payload <+: x.head ++ (chunks ws ++ ascii "0\r\n\r\n") := by
        rw [← hsent]
        exact List.take_prefix _ _
      obtain ⟨t, ht⟩ := (List.prefix_append_right_inj _).mp hpre
      have hnil : t = [] := hpayload.nothing_behind (ht ▸ hchunked)
      have hlen := congrArg List.length hsent
      rw [hnil, List.append_nil] at ht
      rw [List.length_take, ← ht] at hlen
      rw [← ht] at hlt
      omega
    · intro hlt
      rw [List.take_of_length_le (not_lt.mp hlt)]
      exact ⟨_, _, rfl, hchunked⟩

theorem recorded_iff (h : x.begun = .ok) :
    x.Recorded ↔ ¬ (x.StoresNothing ∨ x.metaWritten = false) := by
  have hcopies := x.copies_copied x.opened x.resp.body
  have hparams : (x.copied x.opened x.resp.body).params = some x.params := hcopies.params_eq
  have hwritten : x.final.written = (x.copied x.opened x.resp.body).written := by
    rw [x.final_eq h]
    rfl
  have hstores : 0 < x.final.written ↔ ¬ x.StoresNothing := by
    rw [hwritten, StoresNothing, not_or]
    exact hcopies.written_lt_iff
  have hcommitted : x.final.committed = if x.metaWritten then
      some (x.params.commitMeta x.final.written x.found) else none := by
    rw [hwritten, x.final_eq h, env, hparams]
    rfl
  -- a 200 of unknown length that has brought something
  have htotal : 0 < x.final.written →
      (x.params.commitMeta x.final.written x.found).total = some (x.final.written : ℤ) := by
    intro hpos
    have hunknown : x.params.total = -1 ∧ x.params.length = -1 := ⟨x.unknown, x.unknown⟩
    rw [total_commitMeta, SegmentParams.commitTotal, if_neg (by omega)]
    exact if_pos ⟨x.status_eq, rfl, by omega, hpos⟩
  rw [Recorded, hcommitted, not_or, ← hstores]
  cases x.metaWritten with
  | false => simp
  | true =>
    simp only [if_true, Option.some.injEq, exists_eq_left', Bool.true_eq_false, not_false_eq_true,
      and_true]
    exact ⟨fun hrec => hrec.1, fun hpos => ⟨hpos, htotal hpos⟩⟩

variable (x) in
/-- **When a transfer that breaks off is not presented as complete**: exactly if nothing is
recorded, and the client's connection breaks before the last chunk. -/
theorem truncation_visible_iff :
    (x.Aborted → ¬ x.Recorded ∧ ¬ x.Terminated)
      ↔ (x.Aborted → (x.StoresNothing ∨ x.metaWritten = false) ∧ x.Cut) := by
  refine imp_congr_right (fun haborted => ?_)
  rw [recorded_iff haborted.1, terminated_iff haborted.1, not_not, not_not]

def twoBytes : Transfer where
  service := { Service.plainService with offline := false }
  hdr := .empty
  resp := { status := 200, header := .empty, contentLength := -1, body := [ascii "ab"] }
  status_eq := rfl
  unknown := rfl
  keyHex := [107]
  target := ⟨ascii "huggingface.co", ascii "/m/resolve/main/a", []⟩
  auth := []
  ticket := none
  originPath := []
  breaksOff := true
  begun := .ok
  disk := fun _ => none
  found := none
  metaWritten := true
  keepAlive := true
  order := .backwards
  bufSize := 16 * 1024
  limit := none

/-- **Two bytes of a longer object are presented as the whole of it.** -/
theorem part_presented_as_whole :
    twoBytes.Aborted ∧ twoBytes.final.written = 2 ∧ twoBytes.Recorded ∧ twoBytes.Terminated := by
  refine ⟨⟨rfl, .inl rfl⟩, rfl, (recorded_iff rfl).mpr ?_, (terminated_iff rfl).mpr ?_⟩
  · rintro ((hnone | hnone) | hnone)
    · exact absurd hnone (by decide)
    · cases hnone
    · cases hnone
  · rintro ⟨l, hl, -⟩
    cases hl

end Transfer

end Proxy
