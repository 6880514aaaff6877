import Pulsys.Base.Accum
import Pulsys.Base.Runs
import Pulsys.Coreserver.Windows

/-!
# A connection of the io_uring reactor

The accumulator and the `Request` are used again for every request: a header block is
parsed in place, the bytes behind it are moved to the front, and the request is dispatched.
Every dispatch leaves a record, for reasoning only.
-/

namespace Coreserver

open Bytes

inductive ConnState
  | reading
  | writing
  | closed
  | detached
  deriving DecidableEq, Repr

structure Dispatch where
  buf : Bytes
  req : Request
  seen : View
  deriving DecidableEq, Repr

structure IoConn where
  buf : Accum reactorRecvBufSize
  req : Request
  keepAlive : Bool
  state : ConnState
  received : Bytes
  log : List Dispatch

def acquireIoConn (mem : Bytes) (h : mem.length = reactorRecvBufSize) : IoConn where
  buf := ⟨mem, 0, h, Nat.zero_le _⟩
  req := {}
  keepAlive := false
  state := .reading
  received := []
  log := []

def pooledMem : Bytes := List.replicate reactorRecvBufSize 0

theorem length_pooledMem : pooledMem.length = reactorRecvBufSize := List.length_replicate

inductive Completion
  | recv (data : Bytes)
  | recvEnd
  | write (sent : Bool)

structure Event where
  completion : Completion
  server : Server
  prepOk : Bool

namespace IoConn

def closeConn (c : IoConn) : IoConn := { c with state := .closed }

def rearm (c : IoConn) (prepOk : Bool) : IoConn :=
  if prepOk then { c with state := .reading } else c.closeConn

def take (c : IoConn) (consumed : ℕ) (req : Request) : IoConn :=
  let buf := c.buf.compact consumed
  { c with
    buf := buf
    req := req
    log := c.log ++ [⟨c.buf.filled, c.req, req.view buf.mem⟩] }

def dispatch (c : IoConn) (s : Server) (prepOk : Bool) : IoConn :=
  let v := c.req.view c.buf.mem
  if !s.gateAdmit v then c.closeConn
  else
    match s.warmPlan v with
    | some _ =>
      if prepOk then { c with state := .writing, keepAlive := v.keepAlive }
      else c.closeConn
    | none => { c with state := .detached }

def serveBuffered (c : IoConn) (s : Server) (prepOk : Bool) : IoConn :=
  match parseRequestFromBuf c.buf.filled c.req with
  | (.ok consumed, req) => (c.take consumed req).dispatch s prepOk
  | (.error .needMoreData, _) => c.rearm prepOk
  | (.error _, _) => c.closeConn

def onRecv (c : IoConn) (data : Bytes) (s : Server) (prepOk : Bool) : IoConn :=
  if h : c.buf.len + data.length ≤ reactorRecvBufSize then
    { c with buf := c.buf.push data h, received := c.received ++ data }.serveBuffered
      s prepOk
  else c.closeConn

def onWrite (c : IoConn) (sent : Bool) (s : Server) (prepOk : Bool) : IoConn :=
  if !sent then c.closeConn
  else if !c.keepAlive then c.closeConn
  else if 0 < c.buf.len then { c with state := .reading }.serveBuffered s prepOk
  else c.rearm prepOk

def step (c : IoConn) (e : Event) : Option IoConn :=
  match c.state, e.completion with
  | .reading, .recv data => if data = [] then none else some (c.onRecv data e.server e.prepOk)
  | .reading, .recvEnd => some c.closeConn
  | .writing, .write sent => some (c.onWrite sent e.server e.prepOk)
  | _, _ => none

end IoConn

/-! ## What a step can do -/

namespace IoConn

def SameWork (c c' : IoConn) : Prop :=
  c'.buf = c.buf ∧ c'.req = c.req ∧ c'.received = c.received ∧ c'.log = c.log

theorem sameWork_rearm (c : IoConn) (prepOk : Bool) : c.SameWork (c.rearm prepOk) := by
  unfold rearm
  split <;> exact ⟨rfl, rfl, rfl, rfl⟩

theorem sameWork_dispatch (c : IoConn) (s : Server) (prepOk : Bool) :
    c.SameWork (c.dispatch s prepOk) := by
  unfold dispatch
  dsimp only
  split
  · exact ⟨rfl, rfl, rfl, rfl⟩
  · split
    · split <;> exact ⟨rfl, rfl, rfl, rfl⟩
    · exact ⟨rfl, rfl, rfl, rfl⟩

theorem serveBuffered_cases (c : IoConn) (s : Server) (prepOk : Bool) :
    c.SameWork (c.serveBuffered s prepOk)
      ∨ ∃ n req, parseRequestFromBuf c.buf.filled c.req = (.ok n, req)
          ∧ (c.take n req).SameWork (c.serveBuffered s prepOk) := by
  unfold serveBuffered
  split
  · next n req hp => exact .inr ⟨n, req, hp, sameWork_dispatch _ _ _⟩
  · exact .inl (sameWork_rearm _ _)
  · exact .inl ⟨rfl, rfl, rfl, rfl⟩

theorem step_cases {c c' : IoConn} {e : Event} (h : c.step e = some c') :
    ∃ c₁ : IoConn,
      ((c₁.buf = c.buf ∧ c₁.received = c.received)
        ∨ ∃ (d : Bytes) (hd : c.buf.len + d.length ≤ reactorRecvBufSize),
            c₁.buf = c.buf.push d hd ∧ c₁.received = c.received ++ d)
      ∧ c₁.req = c.req ∧ c₁.log = c.log
      ∧ (c₁.SameWork c'
        ∨ ∃ n req, parseRequestFromBuf c₁.buf.filled c₁.req = (.ok n, req)
            ∧ (c₁.take n req).SameWork c') := by
  unfold step at h
  split at h
  · next data _ _ =>
    split at h
    · cases h
    · cases h
      unfold onRecv
      split
      · next hd =>
        exact ⟨{ c with buf := c.buf.push data hd, received := c.received ++ data },
          .inr ⟨data, hd, rfl, rfl⟩, rfl, rfl, serveBuffered_cases _ _ _⟩
      · exact ⟨c, .inl ⟨rfl, rfl⟩, rfl, rfl, .inl ⟨rfl, rfl, rfl, rfl⟩⟩
  · cases h
    exact ⟨c, .inl ⟨rfl, rfl⟩, rfl, rfl, .inl ⟨rfl, rfl, rfl, rfl⟩⟩
  · cases h
    unfold onWrite
    split
    · exact ⟨c, .inl ⟨rfl, rfl⟩, rfl, rfl, .inl ⟨rfl, rfl, rfl, rfl⟩⟩
    split
    · exact ⟨c, .inl ⟨rfl, rfl⟩, rfl, rfl, .inl ⟨rfl, rfl, rfl, rfl⟩⟩
    split
    · exact ⟨{ c with state := .reading }, .inl ⟨rfl, rfl⟩, rfl, rfl,
        serveBuffered_cases _ _ _⟩
    · exact ⟨c, .inl ⟨rfl, rfl⟩, rfl, rfl, .inl (sameWork_rearm _ _)⟩
  · cases h

end IoConn

end Coreserver
