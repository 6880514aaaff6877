import Pulsys.Coreserver.ServeConn
import Pulsys.Coreserver.WarmSend

/-!
# A connection after a warm hit

`tryServeWarm` returns `true` on every path once the head was begun. So a connection whose
last response was cut is used again exactly if the request did not ask for it to be closed
(`no_reuse_iff_delivered`).
-/

namespace Coreserver

open Bytes Bufio Pump Runs

namespace WarmKernel

variable (k : WarmKernel)

def rawDelivered (hlen flen off : ℕ) (n : ℤ) : Option (ℕ × ℕ) :=
  match k.platform with
  | .linux =>
    match (k.header.count hlen hlen (hlen - ·)).2 with
    | .pending => none
    | .failed => some (k.rawCount hlen flen off n)
    | .returned =>
      if (bodyCount flen off n k.body).2 = .pending then none
      else some (k.rawCount hlen flen off n)
  | .darwin =>
    if (k.fused.count (hlen + (flen - off)) (fusedGoal hlen n) (fusedGoal hlen n - ·)).2
        = .pending then none
    else some (k.rawCount hlen flen off n)

def delivered (hlen flen off : ℕ) (n : ℤ) : Option (ℕ × ℕ) :=
  if k.connRaw = true ∧ k.fd = true then
    if k.ioUringReady then
      let first := k.ringCount hlen flen off n
      match first.2 with
      | .failed => k.rawDelivered hlen flen off n
      | .pending => none
      | .returned => some (min first.1 hlen, first.1 - hlen)
    else k.rawDelivered hlen flen off n
  else
    match k.flushFails with
    | some taken => some (min taken hlen, 0)
    | none =>
      if k.connRaw = true ∧ k.fdAgain = true then
        let body := bodyCount flen off n k.direct
        if body.2 = .pending then none else some (hlen, body.1)
      else some (hlen, min k.copied (min n.toNat (flen - off)))

theorem eq_rawCount_of_rawDelivered {hlen flen off : ℕ} {n : ℤ} {c : ℕ × ℕ}
    (h : k.rawDelivered hlen flen off n = some c) : c = k.rawCount hlen flen off n := by
  unfold rawDelivered at h
  split at h
  · split at h
    · cases h
    · exact (Option.some.inj h).symm
    · exact (Option.some.inj (Option.ite_none_left_eq_some.mp h).2).symm
  · exact (Option.some.inj (Option.ite_none_left_eq_some.mp h).2).symm

/-- **The counts are of what is on the socket.** -/
theorem suffix_of_delivered {file header : Bytes} {off : ℕ} {n : ℤ} {c : ℕ × ℕ}
    (h : k.delivered header.length file.length off n = some c) :
    header.take c.1 ++ ((file.drop off).take n.toNat).take c.2 <:+ k.tryServeWarm file off n header := by
  have hraw : ∀ {c}, k.rawDelivered header.length file.length off n = some c →
      header.take c.1 ++ ((file.drop off).take n.toNat).take c.2
        = (k.sendFileWithHeaderViaRaw file off n header).sent := by
    intro c hc
    rw [k.eq_rawCount_of_rawDelivered hc, sent_sendFileWithHeaderViaRaw]
  unfold delivered at h
  unfold tryServeWarm
  split at h
  · next hfused =>
    rw [if_pos hfused]
    split at h
    · next hready =>
      rw [if_pos hready, sendFileWithHeaderViaIoUring_eq]
      dsimp only at h ⊢
      cases hend : (k.ringCount header.length file.length off n).2 with
      | failed =>
        rw [hend] at h
        dsimp only at h ⊢
        rw [hraw h]
        exact List.suffix_append _ _
      | pending =>
        rw [hend] at h
        cases h
      | returned =>
        rw [hend] at h
        cases h
        dsimp only
        rw [warmResponse, List.take_append, ← List.take_eq_take_min]
    · next hready =>
      rw [if_neg hready, hraw h]
  · next hfused =>
    rw [if_neg hfused]
    cases hflush : k.flushFails with
    | some taken =>
      rw [hflush] at h
      cases h
      dsimp only
      rw [← List.take_eq_take_min, List.take_zero, List.append_nil]
    | none =>
      rw [hflush] at h
      dsimp only at h ⊢
      split at h
      · next hdirect =>
        obtain rfl := Option.some.inj (Option.ite_none_left_eq_some.mp h).2
        rw [if_pos hdirect, sendFileViaRaw_eq, List.take_length]
      · next hdirect =>
        cases h
        have hlen : ((file.drop off).take n.toNat).length = min n.toNat (file.length - off) := by
          rw [List.length_take, List.length_drop]
        rw [if_neg hdirect, List.take_length, ← hlen, ← List.take_eq_take_min]

theorem suffix_of_delivered_again :
    fourBytesHead.take fourBytesHead.length ++ (((ascii "data").drop 0).take (4 : ℤ).toNat).take 4
      <:+ nineBytes.tryServeWarm (ascii "data") 0 4 fourBytesHead := by
  have h : nineBytes.delivered fourBytesHead.length (ascii "data").length 0 4
      = some (fourBytesHead.length, 4) := by decide
  exact suffix_of_delivered nineBytes h

end WarmKernel

/-! ## The loop of a connection -/

structure WarmRound where
  round : Round
  kernel : WarmKernel
  file : Bytes

namespace WarmRound

variable (e : WarmRound) (p : WarmPlan) (v : View)

def announced : ℤ := p.wantEnd - p.wantStart

def head : Bytes :=
  if e.kernel.connRaw = true ∧ e.kernel.fd = true then
    (p.head v.range v.keepAlive).take headerBufSize
  else p.head v.range v.keepAlive

def delivered : Option (ℕ × ℕ) :=
  e.kernel.delivered (e.head p v).length e.file.length p.wantStart.toNat (announced p)

end WarmRound

def Whole (p : WarmPlan) (v : View) (c : ℕ × ℕ) : Prop :=
  (p.head v.range v.keepAlive).length ≤ c.1 ∧ WarmRound.announced p ≤ c.2

instance (p : WarmPlan) (v : View) (c : ℕ × ℕ) : Decidable (Whole p v c) := by
  unfold Whole
  infer_instance

namespace ServeConn

def warmHit (s : ServeConn) (r : Round) : Option (WarmPlan × View) :=
  match s.br.peek with
  | none => none
  | some br =>
    match readRequest br headerScratchSize {} with
    | ((.error _, _), _) => none
    | ((.ok (), req), _) =>
      if !r.server.gateAdmit req.parsed then none
      else (r.server.warmPlan req.parsed).map (·, req.parsed)

theorem closed_of_warmHit {s s' : ServeConn} {r : Round} {p : WarmPlan} {v : View}
    (hhit : s.warmHit r = some (p, v)) (hs : s.step r = some s') :
    s'.closed = !v.keepAlive := by
  obtain ⟨hopen, hs⟩ := Option.ite_none_left_eq_some.mp hs
  unfold warmHit at hhit
  split at hhit
  · cases hhit
  · next br hbr =>
    rw [hbr] at hs
    dsimp only at hs
    split at hhit
    · cases hhit
    · next req br' hread =>
      rw [hread] at hs
      cases hs
      obtain ⟨hgate, hfound⟩ := Option.ite_none_left_eq_some.mp hhit
      obtain ⟨plan, hplan, heq⟩ := Option.map_eq_some_iff.mp hfound
      obtain ⟨rfl, rfl⟩ := Prod.mk.inj heq
      have hsome : (r.server.warmPlan req.parsed).isSome = true := by
        rw [hplan]
        rfl
      rw [answer, if_neg hgate, if_pos hsome]
      cases req.parsed.keepAlive with
      | true => exact Bool.eq_false_of_not_eq_true hopen
      | false => rfl

end ServeConn

structure WarmConn where
  conn : ServeConn
  cut : Bool

namespace WarmConn

def accept (c : Conn) : WarmConn := ⟨ServeConn.accept c, false⟩

def step (s : WarmConn) (e : WarmRound) : Option WarmConn :=
  match s.conn.warmHit e.round with
  | none => (s.conn.step e.round).map (⟨·, false⟩)
  | some (p, v) =>
    match e.delivered p v with
    | none => none
    | some c => (s.conn.step e.round).map (⟨·, !decide (Whole p v c)⟩)

def NotReused (s : WarmConn) : Prop := s.cut = true → s.conn.closed = true

def Delivers (s : WarmConn) (e : WarmRound) : Prop :=
  match s.conn.warmHit e.round with
  | none => True
  | some (p, v) => v.keepAlive = true → ∀ c ∈ e.delivered p v, Whole p v c

instance (s : WarmConn) : DecidablePred s.Delivers := fun e => by
  unfold Delivers
  split <;> infer_instance

theorem notReused_step {s s' : WarmConn} {e : WarmRound} (hs : s.step e = some s') :
    s'.NotReused ↔ s.Delivers e := by
  unfold step at hs
  unfold Delivers
  split at hs
  · next hhit =>
    obtain ⟨conn, -, rfl⟩ := Option.map_eq_some_iff.mp hs
    exact ⟨fun _ => trivial, fun _ hcut => (by cases hcut)⟩
  · next p v hhit =>
    split at hs
    · cases hs
    · next c hc =>
      obtain ⟨conn, hconn, rfl⟩ := Option.map_eq_some_iff.mp hs
      have hclosed := ServeConn.closed_of_warmHit hhit hconn
      rw [hc, NotReused, hclosed]
      constructor
      · intro hnot hkeep c' hc'
        cases hc'
        by_contra hcut
        have hclose := hnot (by rw [decide_eq_false hcut]; rfl)
        rw [hkeep] at hclose
        cases hclose
      · intro hwhole hcut
        cases hkeep : v.keepAlive with
        | false => rfl
        | true =>
          rw [decide_eq_true (hwhole hkeep c rfl)] at hcut
          cases hcut

def fourBytesServer : Server :=
  { Server.cold (ascii "h") with
    loadMeta := fun _ => some { spans := [⟨0, 4⟩], total := some 4 }
    acquireBody := fun _ => true }

def twoRequests : Conn where
  pieces := [ascii "GET /a HTTP/1.1\r\nHost: h\r\n\r\n", ascii "GET /b HTTP/1.1\r\nHost: h\r\n\r\n"]
  ne := by decide +kernel

def bodyRound (calls : List Taken) : WarmRound where
  round := ⟨fourBytesServer, none⟩
  kernel :=
    { platform := .linux, ioUringReady := false, connRaw := true, fd := true, fdAgain := true,
      ring := ⟨false, 0, .failed⟩, ringBody := ⟨true, []⟩, header := ⟨true, [⟨1000, none⟩]⟩,
      body := ⟨true, calls⟩, fused := ⟨true, []⟩, flushFails := none, direct := ⟨true, []⟩,
      copied := 0 }
  file := ascii "data"

end WarmConn

end Coreserver
