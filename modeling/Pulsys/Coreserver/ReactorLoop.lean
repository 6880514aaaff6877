import Pulsys.Base.Directory
import Pulsys.Coreserver.Reactor

/-!
# The reactor and its submission queue

One goroutine keeps one ACCEPT outstanding, for every connection one RECV or WRITE, and
closes it by a CLOSE. The errors of queueing an ACCEPT or a CLOSE are dropped; the books
are right as long as there is room in the queue (`bookkeeping_iff_room`).
-/

namespace Coreserver

open Bytes

abbrev sqEntries : ℕ := 1024

inductive RingOp
  | wakeup
  | accept
  | recv (fd : ℕ)
  | send (fd : ℕ)
  | close (fd : ℕ)
  deriving DecidableEq, Repr

structure Reactor where
  sq : List RingOp
  inFlight : List RingOp
  conns : Directory ℕ IoConn
  files : Finset ℕ

inductive AcceptResult
  | failed
  | refused (fd : ℕ)
  | admitted (fd : ℕ) (mem : Bytes) (h : mem.length = reactorRecvBufSize)

inductive ReactorEvent
  | enter (n : ℕ)
  | accept (result : AcceptResult)
  | completion (fd : ℕ) (e : Event)
  | closed (fd : ℕ)
  | woken

def Completion.op (fd : ℕ) : Completion → RingOp
  | .recv _ | .recvEnd => .recv fd
  | .write _ => .send fd

namespace Reactor

def hasRoom (s : Reactor) : Bool := s.sq.length < sqEntries

def prep (s : Reactor) (op : RingOp) : Reactor :=
  if s.hasRoom then { s with sq := s.sq ++ [op] } else s

def complete (s : Reactor) (op : RingOp) : Reactor :=
  { s with inFlight := s.inFlight.erase op }

def track (s : Reactor) (fd : ℕ) (c : IoConn) : Reactor :=
  { s with conns := s.conns.write fd c }

def untrack (s : Reactor) (fd : ℕ) : Reactor := { s with conns := s.conns.remove fd }

def opened (s : Reactor) (fd : ℕ) : Reactor := { s with files := insert fd s.files }

def gone (s : Reactor) (fd : ℕ) : Reactor := { s with files := s.files.erase fd }

def closeConn (s : Reactor) (fd : ℕ) : Reactor := (s.untrack fd).prep (.close fd)

def onAccept (s : Reactor) : AcceptResult → Reactor
  | .failed => s.prep .accept
  -- the descriptor is closed at once, without the ring
  | .refused _ => s.prep .accept
  | .admitted fd mem h =>
    let s₁ := ((s.prep .accept).opened fd).track fd (acquireIoConn mem h)
    if s₁.hasRoom then s₁.prep (.recv fd) else s₁.closeConn fd

def follow (s : Reactor) (fd : ℕ) (c : IoConn) : Reactor :=
  match c.state with
  | .reading => (s.track fd c).prep (.recv fd)
  | .writing => (s.track fd c).prep (.send fd)
  | .closed => s.closeConn fd
  | .detached => (s.untrack fd).gone fd

def step (s : Reactor) : ReactorEvent → Option Reactor
  | .enter n =>
    if s.sq.length < n then none
    else some { s with sq := s.sq.drop n, inFlight := s.inFlight ++ s.sq.take n }
  | .accept result =>
    if !s.inFlight.contains .accept then none
    else
      match result with
      | .failed => some ((s.complete .accept).onAccept result)
      | .refused fd | .admitted fd _ _ =>
        if fd ∈ s.files then none else some ((s.complete .accept).onAccept result)
  | .completion fd e =>
    if !s.inFlight.contains (e.completion.op fd) ∨ (e.prepOk = true ∧ s.hasRoom = false) then none
    else
      match s.conns.get fd with
      | none => some (s.complete (e.completion.op fd))
      | some c => (c.step e).map ((s.complete (e.completion.op fd)).follow fd)
  | .closed fd =>
    if !s.inFlight.contains (.close fd) then none else some ((s.complete (.close fd)).gone fd)
  | .woken => if !s.inFlight.contains .wakeup then none else some (s.complete .wakeup)

def start : Reactor :=
  (Reactor.prep { sq := [], inFlight := [], conns := .empty, files := ∅ } .wakeup).prep .accept

def pending (s : Reactor) (op : RingOp) : ℕ := s.sq.count op + s.inFlight.count op

def Settled (s : Reactor) (fd : ℕ) : Prop :=
  match s.conns.get fd with
  | some c =>
    fd ∈ s.files ∧ s.pending (.close fd) = 0
      ∧ (c.state = .reading ∧ s.pending (.recv fd) = 1 ∧ s.pending (.send fd) = 0
        ∨ c.state = .writing ∧ s.pending (.recv fd) = 0 ∧ s.pending (.send fd) = 1)
  | none =>
    s.pending (.recv fd) = 0 ∧ s.pending (.send fd) = 0
      ∧ s.pending (.close fd) = if fd ∈ s.files then 1 else 0

structure Booked (s : Reactor) : Prop where
  accept : s.pending .accept = 1
  settled : ∀ fd, s.Settled fd

end Reactor

/-! ## What a handler decides -/

namespace IoConn

def wantsFallback (c : IoConn) (s : Server) : Bool :=
  match parseRequestFromBuf c.buf.filled c.req with
  | (.ok consumed, req) =>
    let v := req.view (c.buf.compact consumed).mem
    s.gateAdmit v && (s.warmPlan v).isNone
  | (.error _, _) => false

def handsOver (c : IoConn) (e : Event) : Bool :=
  match c.state, e.completion with
  | .reading, .recv data =>
    if h : c.buf.len + data.length ≤ reactorRecvBufSize then
      { c with buf := c.buf.push data h }.wantsFallback e.server
    else false
  | .writing, .write sent =>
    sent && c.keepAlive && decide (0 < c.buf.len) && c.wantsFallback e.server
  | _, _ => false

theorem state_rearm_ne_detached (c : IoConn) (prepOk : Bool) :
    (c.rearm prepOk).state ≠ .detached := by
  unfold rearm
  split <;> simp [closeConn]

theorem state_dispatch_eq_detached (c : IoConn) (s : Server) (prepOk : Bool) :
    (c.dispatch s prepOk).state = .detached
      ↔ s.gateAdmit (c.req.view c.buf.mem) = true
        ∧ (s.warmPlan (c.req.view c.buf.mem)).isNone = true := by
  unfold dispatch
  dsimp only
  split
  · next hgate => simp_all [closeConn]
  · next hgate =>
    split
    · next plan hplan => split <;> simp [closeConn, hplan]
    · next hplan => simp_all

theorem state_serveBuffered_eq_detached (c : IoConn) (s : Server) (prepOk : Bool) :
    (c.serveBuffered s prepOk).state = .detached ↔ c.wantsFallback s = true := by
  unfold serveBuffered wantsFallback
  split
  · next consumed req hparse =>
    rw [hparse, state_dispatch_eq_detached, Bool.and_eq_true]
    rfl
  · next hparse =>
    rw [hparse]
    exact iff_of_false (state_rearm_ne_detached _ _) Bool.false_ne_true
  · next hparse =>
    rw [hparse]
    exact iff_of_false (by simp [closeConn]) Bool.false_ne_true

theorem step_eq_detached {c c' : IoConn} {e : Event} (h : c.step e = some c') :
    c'.state = .detached ↔ c.handsOver e = true := by
  unfold step at h
  unfold handsOver
  split at h
  · next data hstate hcompl =>
    rw [hstate, hcompl]
    dsimp only
    split at h
    · cases h
    · cases h
      unfold onRecv
      split
      · exact state_serveBuffered_eq_detached _ _ _
      · exact iff_of_false (by simp [closeConn]) Bool.false_ne_true
  · next hstate hcompl =>
    cases h
    rw [hstate, hcompl]
    exact iff_of_false (by simp [closeConn]) Bool.false_ne_true
  · next sent hstate hcompl =>
    cases h
    rw [hstate, hcompl]
    unfold onWrite
    dsimp only
    split
    · next hsent => simp_all [closeConn]
    split
    · next hsent hkeep => simp_all [closeConn]
    split
    · next hsent hkeep hlen =>
      rw [state_serveBuffered_eq_detached]
      simp_all [wantsFallback]
    · next hsent hkeep hlen =>
      refine iff_of_false (state_rearm_ne_detached _ _) ?_
      simp [hlen]
  · cases h

end IoConn

/-! ## What is outstanding -/

def RingOp.fd : RingOp → Option ℕ
  | .wakeup | .accept => none
  | .recv fd | .send fd | .close fd => some fd

namespace Reactor

variable {s s' s₁ s₂ : Reactor} {fd : ℕ}

@[simp]
theorem conns_prep (s : Reactor) (op : RingOp) : (s.prep op).conns = s.conns := by
  unfold prep
  split <;> rfl

@[simp]
theorem files_prep (s : Reactor) (op : RingOp) : (s.prep op).files = s.files := by
  unfold prep
  split <;> rfl

theorem prep_of_full (hfull : s.hasRoom = false) (op : RingOp) : s.prep op = s := by
  rw [prep, hfull]
  rfl

theorem pending_prep (s : Reactor) (op op' : RingOp) :
    (s.prep op).pending op' = s.pending op' + if s.hasRoom = true ∧ op = op' then 1 else 0 := by
  unfold prep
  by_cases hroom : s.hasRoom = true
  · simp only [hroom, if_true, pending, List.count_append, List.count_singleton, beq_iff_eq,
      true_and]
    omega
  · simp [hroom]

theorem pending_complete {op : RingOp} (hin : s.inFlight.contains op = true) (op' : RingOp) :
    (s.complete op).pending op' + (if op = op' then 1 else 0) = s.pending op' := by
  have hpos : 0 < s.inFlight.count op := List.count_pos_iff.mpr (by simpa using hin)
  rw [pending, pending, complete, List.count_erase]
  by_cases heq : op = op'
  · subst heq
    simp only [beq_self_eq_true, if_true]
    omega
  · simp [heq]

theorem pending_complete_of_ne (s : Reactor) {op op' : RingOp} (hne : op ≠ op') :
    (s.complete op).pending op' = s.pending op' := by
  rw [pending, pending, complete, List.count_erase_of_ne hne.symm]

theorem pending_enter (s : Reactor) (n : ℕ) (op : RingOp) :
    pending { s with sq := s.sq.drop n, inFlight := s.inFlight ++ s.sq.take n } op
      = s.pending op := by
  have hcut : (s.sq.take n).count op + (s.sq.drop n).count op = s.sq.count op := by
    rw [← List.count_append, List.take_append_drop]
  unfold pending
  rw [List.count_append]
  dsimp only
  omega

/-! ## What concerns one descriptor only -/

structure OnlyFor (fd : ℕ) (s s' : Reactor) : Prop where
  conns : ∀ fd', fd' ≠ fd → s'.conns.get fd' = s.conns.get fd'
  files : ∀ fd', fd' ≠ fd → (fd' ∈ s'.files ↔ fd' ∈ s.files)
  pending : ∀ op, op.fd ≠ some fd → s'.pending op = s.pending op

theorem OnlyFor.trans (h₁ : OnlyFor fd s s₁) (h₂ : OnlyFor fd s₁ s₂) : OnlyFor fd s s₂ where
  conns fd' hne := (h₂.conns fd' hne).trans (h₁.conns fd' hne)
  files fd' hne := (h₂.files fd' hne).trans (h₁.files fd' hne)
  pending op hne := (h₂.pending op hne).trans (h₁.pending op hne)

theorem onlyFor_prep (s : Reactor) {op : RingOp} (hop : op.fd = some fd) :
    OnlyFor fd s (s.prep op) where
  conns _ _ := by rw [conns_prep]
  files _ _ := by rw [files_prep]
  pending op' hne := by
    have hother : op ≠ op' := fun heq => hne (heq ▸ hop)
    rw [pending_prep, if_neg (hother ·.2), Nat.add_zero]

theorem onlyFor_complete (s : Reactor) {op : RingOp} (hop : op.fd = some fd) :
    OnlyFor fd s (s.complete op) where
  conns _ _ := rfl
  files _ _ := Iff.rfl
  pending _ hne := pending_complete_of_ne s (fun heq => hne (heq ▸ hop))

theorem onlyFor_track (s : Reactor) (fd : ℕ) (c : IoConn) : OnlyFor fd s (s.track fd c) where
  conns _ hne := Directory.get_write_of_ne _ _ hne
  files _ _ := Iff.rfl
  pending _ _ := rfl

theorem onlyFor_untrack (s : Reactor) (fd : ℕ) : OnlyFor fd s (s.untrack fd) where
  conns _ hne := Directory.get_remove_of_ne _ hne
  files _ _ := Iff.rfl
  pending _ _ := rfl

theorem onlyFor_opened (s : Reactor) (fd : ℕ) : OnlyFor fd s (s.opened fd) where
  conns _ _ := rfl
  files _ hne := by simp [opened, hne]
  pending _ _ := rfl

theorem onlyFor_gone (s : Reactor) (fd : ℕ) : OnlyFor fd s (s.gone fd) where
  conns _ _ := rfl
  files _ hne := by simp [gone, hne]
  pending _ _ := rfl

theorem onlyFor_closeConn (s : Reactor) (fd : ℕ) : OnlyFor fd s (s.closeConn fd) :=
  (onlyFor_untrack s fd).trans (onlyFor_prep _ rfl)

theorem onlyFor_follow (s : Reactor) (fd : ℕ) (c : IoConn) : OnlyFor fd s (s.follow fd c) := by
  unfold follow
  split
  · exact (onlyFor_track s fd c).trans (onlyFor_prep _ rfl)
  · exact (onlyFor_track s fd c).trans (onlyFor_prep _ rfl)
  · exact onlyFor_closeConn s fd
  · exact (onlyFor_untrack s fd).trans (onlyFor_gone _ fd)

theorem Settled.of_eq (h : s.Settled fd) (hconns : s'.conns.get fd = s.conns.get fd)
    (hfiles : fd ∈ s'.files ↔ fd ∈ s.files)
    (hpending : ∀ op : RingOp, op.fd = some fd → s'.pending op = s.pending op) :
    s'.Settled fd := by
  have hrecv := hpending (.recv fd) rfl
  have hsend := hpending (.send fd) rfl
  have hclose := hpending (.close fd) rfl
  unfold Settled at h ⊢
  rw [hconns, hrecv, hsend, hclose]
  simpa only [hfiles] using h

theorem Booked.onlyFor (h : Booked s) (honly : OnlyFor fd s s') : Booked s' ↔ s'.Settled fd := by
  refine ⟨fun h' => h'.settled fd, fun hfd => ⟨?_, fun fd' => ?_⟩⟩
  · rw [honly.pending .accept (by simp [RingOp.fd])]
    exact h.accept
  · by_cases heq : fd' = fd
    · exact heq ▸ hfd
    · refine (h.settled fd').of_eq (honly.conns fd' heq) (honly.files fd' heq) (fun op hop => ?_)
      exact honly.pending op (fun hop' => heq (Option.some.inj (hop.symm.trans hop')))

theorem Booked.of_pending (h : Booked s) (hconns : s'.conns = s.conns) (hfiles : s'.files = s.files)
    (hpending : ∀ op, op ≠ .wakeup → s'.pending op = s.pending op) : Booked s' := by
  refine ⟨?_, fun fd => (h.settled fd).of_eq (by rw [hconns]) (by rw [hfiles]) (fun op hop => ?_)⟩
  · rw [hpending .accept (by simp)]
    exact h.accept
  · refine hpending op (fun heq => ?_)
    rw [heq] at hop
    cases hop

/-! ## The steps -/

def Roomy (s : Reactor) : ReactorEvent → Prop
  | .accept (.admitted _ _ _) => s.sq.length + 1 < sqEntries
  | .accept _ => s.sq.length < sqEntries
  | .completion fd e =>
    ∀ c, s.conns.get fd = some c → s.sq.length < sqEntries ∨ c.handsOver e = true
  | .enter _ | .closed _ | .woken => True

theorem hasRoom_iff (s : Reactor) : s.hasRoom = true ↔ s.sq.length < sqEntries :=
  decide_eq_true_iff

theorem Settled.of_free (h : s.Settled fd) (hfree : fd ∉ s.files) :
    s.conns.get fd = none ∧ s.pending (.recv fd) = 0 ∧ s.pending (.send fd) = 0
      ∧ s.pending (.close fd) = 0 := by
  unfold Settled at h
  split at h
  · exact absurd h.1 hfree
  · next hnone =>
    rw [if_neg hfree] at h
    exact ⟨hnone, h⟩

theorem settled_of_tracked {c : IoConn} (hc : s.conns.get fd = some c) :
    s.Settled fd ↔ fd ∈ s.files ∧ s.pending (.close fd) = 0
      ∧ (c.state = .reading ∧ s.pending (.recv fd) = 1 ∧ s.pending (.send fd) = 0
        ∨ c.state = .writing ∧ s.pending (.recv fd) = 0 ∧ s.pending (.send fd) = 1) := by
  rw [Settled, hc]

theorem settled_of_untracked (hc : s.conns.get fd = none) :
    s.Settled fd ↔ s.pending (.recv fd) = 0 ∧ s.pending (.send fd) = 0
      ∧ s.pending (.close fd) = if fd ∈ s.files then 1 else 0 := by
  rw [Settled, hc]

structure Idle (s : Reactor) (fd : ℕ) : Prop where
  file : fd ∈ s.files
  recv : s.pending (.recv fd) = 0
  send : s.pending (.send fd) = 0
  close : s.pending (.close fd) = 0

theorem settled_prep_iff (h : Idle s fd) {op : RingOp}
    (hop : match s.conns.get fd with
      | some c => c.state = .reading ∧ op = .recv fd ∨ c.state = .writing ∧ op = .send fd
      | none => op = .close fd) :
    (s.prep op).Settled fd ↔ s.hasRoom = true := by
  unfold Settled
  simp only [conns_prep, files_prep, pending_prep, h.file, h.recv, h.send, h.close, if_true]
  split at hop
  · next c hc =>
    rcases hop with ⟨hstate, rfl⟩ | ⟨hstate, rfl⟩
    · simp [hstate]
    · simp [hstate]
  · subst hop
    simp

theorem settled_armed_iff (h : Idle s fd) {c : IoConn} {op : RingOp}
    (hop : c.state = .reading ∧ op = .recv fd ∨ c.state = .writing ∧ op = .send fd) :
    ((s.track fd c).prep op).Settled fd ↔ s.hasRoom = true := by
  have hidle : Idle (s.track fd c) fd := ⟨h.file, h.recv, h.send, h.close⟩
  refine settled_prep_iff hidle ?_
  rw [track, Directory.get_write]
  exact hop

theorem settled_closeConn_iff (h : Idle s fd) :
    (s.closeConn fd).Settled fd ↔ s.hasRoom = true := by
  have hidle : Idle (s.untrack fd) fd := ⟨h.file, h.recv, h.send, h.close⟩
  refine settled_prep_iff hidle ?_
  rw [untrack, Directory.get_remove]

theorem settled_follow_iff (h : Idle s fd) (c : IoConn) :
    (s.follow fd c).Settled fd ↔ s.hasRoom = true ∨ c.state = .detached := by
  unfold follow
  cases hstate : c.state with
  | reading => simpa using settled_armed_iff h (.inl ⟨hstate, rfl⟩)
  | writing => simpa using settled_armed_iff h (.inr ⟨hstate, rfl⟩)
  | closed => simpa using settled_closeConn_iff h
  | detached =>
    have hc : ((s.untrack fd).gone fd).conns.get fd = none := Directory.get_remove _ _
    have hgone : fd ∉ ((s.untrack fd).gone fd).files := Finset.notMem_erase fd _
    refine iff_of_true ?_ (.inr rfl)
    dsimp only
    rw [settled_of_untracked hc, if_neg hgone]
    exact ⟨h.recv, h.send, h.close⟩

theorem op_of_step {c c' : IoConn} {e : Event} (h : c.step e = some c') (fd : ℕ) :
    c.state = .reading ∧ e.completion.op fd = .recv fd
      ∨ c.state = .writing ∧ e.completion.op fd = .send fd := by
  unfold IoConn.step at h
  split at h
  · next hstate hcompl => exact .inl ⟨hstate, by rw [hcompl]; rfl⟩
  · next hstate hcompl => exact .inl ⟨hstate, by rw [hcompl]; rfl⟩
  · next hstate hcompl => exact .inr ⟨hstate, by rw [hcompl]; rfl⟩
  · cases h

theorem op_fd (fd : ℕ) (e : Completion) : (e.op fd).fd = some fd := by
  cases e <;> rfl

theorem Booked.idle (h : Booked s) {c c' : IoConn} {e : Event} (hc : s.conns.get fd = some c)
    (hstep : c.step e = some c') (hin : s.inFlight.contains (e.completion.op fd) = true) :
    Idle (s.complete (e.completion.op fd)) fd := by
  have hcomplete := pending_complete hin
  obtain ⟨hfile, hclose, hwaits⟩ := (settled_of_tracked hc).mp (h.settled fd)
  have hrecv := hcomplete (.recv fd)
  have hsend := hcomplete (.send fd)
  have hclose' := hcomplete (.close fd)
  rcases op_of_step hstep fd with ⟨hstate, hop⟩ | ⟨hstate, hop⟩
  all_goals
    rw [hop] at hrecv hsend hclose' ⊢
    simp only [hstate, reduceCtorEq, false_and, true_and, or_false, false_or] at hwaits
    simp only [if_true, reduceCtorEq, if_false] at hrecv hsend hclose'
    exact ⟨hfile, by omega, by omega, by omega⟩

theorem Booked.rearmed (h : Booked s) (hin : s.inFlight.contains .accept = true)
    (hroom : s.hasRoom = true) : Booked ((s.complete .accept).prep .accept) := by
  refine h.of_pending (conns_prep _ _) (files_prep _ _) (fun op _ => ?_)
  have hroom' : (s.complete .accept).hasRoom = true := hroom
  simp only [pending_prep, hroom', true_and]
  exact pending_complete hin op

theorem Booked.accept_lost (h : Booked s) (hin : s.inFlight.contains .accept = true)
    (hfull : s.hasRoom = false) :
    ((s.complete .accept).prep .accept).pending .accept = 0 := by
  have hfull' : (s.complete .accept).hasRoom = false := hfull
  have hself := pending_complete hin .accept
  rw [h.accept, if_pos rfl] at hself
  rw [prep_of_full hfull']
  exact Nat.succ.inj hself

theorem Booked.idle_opened (h : Booked s) (hfree : fd ∉ s.files) : Idle (s.opened fd) fd := by
  obtain ⟨-, hrecv, hsend, hclose⟩ := (h.settled fd).of_free hfree
  exact ⟨Finset.mem_insert_self _ _, hrecv, hsend, hclose⟩

theorem onlyFor_onAccept (s : Reactor) (fd : ℕ) (mem : Bytes)
    (hmem : mem.length = reactorRecvBufSize) :
    OnlyFor fd (s.prep .accept) (s.onAccept (.admitted fd mem hmem)) := by
  have hopen := (onlyFor_opened (s.prep .accept) fd).trans
    (onlyFor_track _ fd (acquireIoConn mem hmem))
  unfold onAccept
  dsimp only
  split
  · exact hopen.trans (onlyFor_prep _ rfl)
  · exact hopen.trans (onlyFor_closeConn _ fd)

theorem settled_onAccept_iff (hroom : s.hasRoom = true) (hbooked : Booked (s.prep .accept))
    (hfree : fd ∉ s.files) (mem : Bytes) (hmem : mem.length = reactorRecvBufSize) :
    (s.onAccept (.admitted fd mem hmem)).Settled fd ↔ s.sq.length + 1 < sqEntries := by
  have hfree' : fd ∉ (s.prep .accept).files := by
    rw [files_prep]
    exact hfree
  have hidle := hbooked.idle_opened hfree'
  have hlength : (s.prep .accept).sq.length = s.sq.length + 1 := by
    rw [prep, if_pos hroom]
    exact List.length_append
  have hiff : ((s.prep .accept).opened fd).hasRoom = true ↔ s.sq.length + 1 < sqEntries := by
    rw [← hlength]
    exact hasRoom_iff _
  rw [← hiff]
  unfold onAccept
  dsimp only
  split
  · exact settled_armed_iff hidle (.inl ⟨rfl, rfl⟩)
  · next hfull =>
    -- the connection is tracked for a moment, and closed
    have htracked : Idle (((s.prep .accept).opened fd).track fd (acquireIoConn mem hmem)) fd :=
      ⟨hidle.file, hidle.recv, hidle.send, hidle.close⟩
    exact settled_closeConn_iff htracked

theorem booked_onAccept_iff (h : Booked s) (hin : s.inFlight.contains .accept = true)
    {result : AcceptResult} (hfree : ∀ fd mem hmem, result = .admitted fd mem hmem → fd ∉ s.files) :
    Booked ((s.complete .accept).onAccept result) ↔ Roomy s (.accept result) := by
  have hroom_iff : Booked ((s.complete .accept).prep .accept) ↔ s.sq.length < sqEntries := by
    rw [← hasRoom_iff]
    refine ⟨fun hb => ?_, h.rearmed hin⟩
    by_contra hfull
    have hlost := h.accept_lost hin (Bool.eq_false_iff.mpr hfull)
    exact absurd (hb.accept.symm.trans hlost) Nat.one_ne_zero
  cases result with
  | failed => exact hroom_iff
  | refused fd => exact hroom_iff
  | admitted fd mem hmem =>
    have honly := onlyFor_onAccept (s.complete .accept) fd mem hmem
    by_cases hroom : s.hasRoom = true
    · have hbooked := h.rearmed hin hroom
      have hroom' : (s.complete .accept).hasRoom = true := hroom
      rw [hbooked.onlyFor honly]
      exact settled_onAccept_iff hroom' hbooked (hfree fd mem hmem rfl) mem hmem
    · -- the ACCEPT is lost, whatever becomes of the connection
      have hfull : s.hasRoom = false := Bool.eq_false_iff.mpr hroom
      refine iff_of_false (fun hb => ?_) (fun hlt => hroom ((hasRoom_iff s).mpr ?_))
      · have hzero := (honly.pending .accept (by simp [RingOp.fd])).trans (h.accept_lost hin hfull)
        exact absurd (hb.accept.symm.trans hzero) Nat.one_ne_zero
      · exact Nat.lt_of_succ_lt hlt

theorem booked_completion_iff (h : Booked s) {c c' : IoConn} {e : Event}
    (hin : s.inFlight.contains (e.completion.op fd) = true) (hc : s.conns.get fd = some c)
    (hstep : c.step e = some c') :
    Booked ((s.complete (e.completion.op fd)).follow fd c') ↔ Roomy s (.completion fd e) := by
  have honly := (onlyFor_complete s (op_fd fd e.completion)).trans (onlyFor_follow _ fd c')
  have hroomy : Roomy s (.completion fd e)
      ↔ s.sq.length < sqEntries ∨ c.handsOver e = true := by
    refine ⟨fun hall => hall c hc, fun hone c₁ hc₁ => ?_⟩
    cases hc.symm.trans hc₁
    exact hone
  rw [h.onlyFor honly, settled_follow_iff (h.idle hc hstep hin), hroomy,
    IoConn.step_eq_detached hstep, ← hasRoom_iff]
  rfl

theorem pending_pos {op : RingOp} (hin : s.inFlight.contains op = true) : 0 < s.pending op := by
  have hself := pending_complete hin op
  rw [if_pos rfl] at hself
  omega

theorem Booked.closed (h : Booked s) (hin : s.inFlight.contains (.close fd) = true) :
    Booked ((s.complete (.close fd)).gone fd) := by
  have hopf : (RingOp.close fd).fd = some fd := rfl
  have hself := pending_complete hin (.close fd)
  rw [if_pos rfl] at hself
  rw [h.onlyFor ((onlyFor_complete s hopf).trans (onlyFor_gone _ fd))]
  cases hc : s.conns.get fd with
  | some c =>
    obtain ⟨-, hclose, -⟩ := (settled_of_tracked hc).mp (h.settled fd)
    omega
  | none =>
    obtain ⟨hrecv, hsend, hclose⟩ := (settled_of_untracked hc).mp (h.settled fd)
    have hc' : ((s.complete (.close fd)).gone fd).conns.get fd = none := hc
    have hgone : fd ∉ ((s.complete (.close fd)).gone fd).files := Finset.notMem_erase fd _
    rw [settled_of_untracked hc', if_neg hgone]
    refine ⟨(pending_complete_of_ne s (by simp)).trans hrecv,
      (pending_complete_of_ne s (by simp)).trans hsend, ?_⟩
    show (s.complete (.close fd)).pending (.close fd) = 0
    split at hclose <;> omega

theorem booked_step_iff {e : ReactorEvent} (h : Booked s) (hs : s.step e = some s') :
    Booked s' ↔ Roomy s e := by
  cases e with
  | enter n =>
    obtain ⟨-, hs⟩ := Option.ite_none_left_eq_some.mp hs
    cases hs
    exact iff_of_true (h.of_pending rfl rfl (fun op _ => pending_enter s n op)) trivial
  | accept result =>
    obtain ⟨hin, hs⟩ := Option.ite_none_left_eq_some.mp hs
    have hin' : s.inFlight.contains .accept = true := by simpa using hin
    cases result with
    | failed =>
      cases hs
      exact booked_onAccept_iff h hin' nofun
    | refused fd =>
      obtain ⟨-, hs⟩ := Option.ite_none_left_eq_some.mp hs
      cases hs
      exact booked_onAccept_iff h hin' nofun
    | admitted fd mem hmem =>
      obtain ⟨hfree, hs⟩ := Option.ite_none_left_eq_some.mp hs
      cases hs
      refine booked_onAccept_iff h hin' (fun fd' _ _ heq => ?_)
      obtain ⟨rfl, -⟩ := AcceptResult.admitted.inj heq
      exact hfree
  | completion fd e =>
    obtain ⟨hin, hs⟩ := Option.ite_none_left_eq_some.mp hs
    have hin' : s.inFlight.contains (e.completion.op fd) = true := by
      simpa using (not_or.mp hin).1
    split at hs
    · next hc =>
      -- nothing is outstanding for a descriptor that is not tracked
      obtain ⟨hrecv, hsend, -⟩ := (settled_of_untracked hc).mp (h.settled fd)
      have hpos := pending_pos hin'
      cases hop : e.completion with
      | recv | recvEnd =>
        rw [hop] at hpos
        exact absurd hrecv hpos.ne'
      | write =>
        rw [hop] at hpos
        exact absurd hsend hpos.ne'
    · next c hc =>
      obtain ⟨c', hstep, rfl⟩ := Option.map_eq_some_iff.mp hs
      exact booked_completion_iff h hin' hc hstep
  | closed fd =>
    obtain ⟨hin, hs⟩ := Option.ite_none_left_eq_some.mp hs
    cases hs
    exact iff_of_true (h.closed (by simpa using hin)) trivial
  | woken =>
    obtain ⟨-, hs⟩ := Option.ite_none_left_eq_some.mp hs
    cases hs
    refine iff_of_true (h.of_pending rfl rfl (fun op hop => ?_)) trivial
    exact pending_complete_of_ne s hop.symm

theorem booked_start : Booked start where
  accept := by decide
  settled fd := by
    have hnone : start.conns.get fd = none := rfl
    rw [settled_of_untracked hnone]
    have hsq : start.sq = [.wakeup, .accept] := by decide
    have hin : start.inFlight = [] := rfl
    have hfiles : start.files = ∅ := rfl
    simp [pending, hsq, hin, hfiles]

/-- **The books of the reactor** are right in every state exactly if each handler finds room
in the queue for what it has to queue. -/
theorem bookkeeping_iff_room {es : List ReactorEvent} (hrun : Runs.run step start es = some s) :
    Runs.Throughout step Booked start es ↔ Runs.Meets step Roomy start es := by
  have hstep : ∀ s e s', True → Booked s → True → Reactor.step s e = some s' →
      True ∧ (Booked s' ↔ Roomy s e) :=
    fun _ _ _ _ h _ hs => ⟨trivial, booked_step_iff h hs⟩
  exact Runs.throughout_iff_meets hstep trivial booked_start (fun _ _ => trivial) hrun

def peerGone : Event := ⟨.recvEnd, .cold [], false⟩

def oneConnection : List ReactorEvent :=
  [.enter 2, .accept (.admitted 7 pooledMem length_pooledMem), .enter 2, .completion 7 peerGone,
    .enter 1, .closed 7, .accept (.admitted 7 pooledMem length_pooledMem)]

theorem bookkeeping_one_connection :
    ∃ s, Runs.run step start oneConnection = some s
      ∧ Runs.Throughout step Booked start oneConnection := by
  refine ⟨_, rfl, (bookkeeping_iff_room rfl).mpr ?_⟩
  refine ⟨trivial, fun s₁ h₁ => ?_⟩
  cases h₁
  refine ⟨(by decide : 0 + 1 < sqEntries), fun s₂ h₂ => ?_⟩
  cases h₂
  refine ⟨trivial, fun s₃ h₃ => ?_⟩
  cases h₃
  refine ⟨fun c _ => .inl (by decide), fun s₄ h₄ => ?_⟩
  cases h₄
  refine ⟨trivial, fun s₅ h₅ => ?_⟩
  cases h₅
  refine ⟨trivial, fun s₆ h₆ => ?_⟩
  cases h₆
  exact ⟨(by decide : 0 + 1 < sqEntries), fun _ _ => trivial⟩

/-! ## A full queue -/

structure Grown (n : ℕ) (s : Reactor) : Prop where
  booked : Booked s
  sq : s.sq = []
  waits : ∀ fd, fd < n → ∃ c, s.conns.get fd = some c ∧ c.state = .reading
  fresh : ∀ fd, n ≤ fd → fd ∉ s.files

theorem inFlight_of_pending {op : RingOp} (hsq : s.sq.count op = 0) (hpos : 0 < s.pending op) :
    s.inFlight.contains op = true := by
  rw [pending, hsq, Nat.zero_add] at hpos
  simpa using List.count_pos_iff.mp hpos

theorem step_enter_all (s : Reactor) :
    s.step (.enter s.sq.length) = some { s with sq := [], inFlight := s.inFlight ++ s.sq } := by
  rw [step, if_neg (lt_irrefl _), List.drop_length, List.take_length]

theorem Grown.accept {n : ℕ} (h : Grown n s) :
    ∃ es s', Runs.run step s es = some s' ∧ Grown (n + 1) s' := by
  have hroom : s.sq.length + 1 < sqEntries := by
    rw [h.sq]
    decide
  have hin : s.inFlight.contains .accept = true := by
    refine inFlight_of_pending ?_ (h.booked.accept ▸ Nat.one_pos)
    rw [h.sq]
    rfl
  -- the ACCEPT completes, and the kernel is entered
  obtain ⟨s₁, hs₁⟩ : ∃ s₁ : Reactor, s₁ = ⟨[.accept, .recv n], s.inFlight.erase .accept,
    s.conns.write n (acquireIoConn pooledMem length_pooledMem), insert n s.files⟩ := ⟨_, rfl⟩
  have h₁ : s.step (.accept (.admitted n pooledMem length_pooledMem)) = some s₁ := by
    simp only [step, hin, Bool.not_true, Bool.false_eq_true, if_false, h.fresh n le_rfl, hs₁,
      complete, onAccept, prep, hasRoom, opened, track, h.sq]
    rfl
  have hbooked₁ : Booked s₁ := (booked_step_iff h.booked h₁).mpr hroom
  refine ⟨[.accept (.admitted n pooledMem length_pooledMem), .enter s₁.sq.length],
    { s₁ with sq := [], inFlight := s₁.inFlight ++ s₁.sq },
    Runs.run_cons.mpr ⟨s₁, h₁, Runs.run_cons.mpr ⟨_, step_enter_all s₁, rfl⟩⟩,
    (booked_step_iff hbooked₁ (step_enter_all s₁)).mpr trivial, rfl, fun fd hfd => ?_,
    fun fd hfd => ?_⟩
  · rw [hs₁]
    show ∃ c, (s.conns.write n _).get fd = some c ∧ _
    by_cases heq : fd = n
    · rw [heq, Directory.get_write]
      exact ⟨_, rfl, rfl⟩
    · rw [Directory.get_write_of_ne _ _ heq]
      exact h.waits fd (by omega)
  · rw [hs₁]
    show fd ∉ insert n s.files
    rw [Finset.mem_insert, not_or]
    exact ⟨by omega, h.fresh fd (by omega)⟩

theorem grown_reachable (n : ℕ) : ∃ es s, Runs.run step start es = some s ∧ Grown n s := by
  induction n with
  | zero =>
    refine ⟨[.enter start.sq.length],
      { start with sq := [], inFlight := start.inFlight ++ start.sq },
      Runs.run_cons.mpr ⟨_, step_enter_all start, rfl⟩, ?_, rfl, fun _ hfd => ?_,
      fun _ _ => Finset.notMem_empty _⟩
    · exact (booked_step_iff booked_start (step_enter_all start)).mpr trivial
    · exact absurd hfd (Nat.not_lt_zero _)
  | succ n ih =>
    obtain ⟨es, s, hrun, hgrown⟩ := ih
    obtain ⟨es', s', hrun', hgrown'⟩ := hgrown.accept
    exact ⟨es ++ es', s', Runs.run_append.mpr ⟨s, hrun, hrun'⟩, hgrown'⟩

structure Shrunk (n k : ℕ) (s : Reactor) : Prop where
  booked : Booked s
  length : s.sq.length = k
  queued : ∀ op ∈ s.sq, ∃ fd, fd < k ∧ op = .close fd
  waits : ∀ fd, k ≤ fd → fd < n → ∃ c, s.conns.get fd = some c ∧ c.state = .reading

theorem Shrunk.step_eq {n k : ℕ} (h : Shrunk n k s) (hk : k < n) :
    s.step (.completion k peerGone) = some ((s.complete (.recv k)).closeConn k) := by
  obtain ⟨c, hc, hstate⟩ := h.waits k le_rfl hk
  obtain ⟨-, -, hwaits⟩ := (settled_of_tracked hc).mp (h.booked.settled k)
  have hpos : 0 < s.pending (.recv k) := by
    rcases hwaits with ⟨-, hone, -⟩ | ⟨hwriting, -, -⟩
    · exact hone ▸ Nat.one_pos
    · rw [hstate] at hwriting
      cases hwriting
  have hnone : s.sq.count (.recv k) = 0 := by
    refine List.count_eq_zero.mpr (fun hmem => ?_)
    obtain ⟨fd, -, heq⟩ := h.queued _ hmem
    cases heq
  have hin : s.inFlight.contains (.recv k) = true := inFlight_of_pending hnone hpos
  have hop : peerGone.completion.op k = .recv k := rfl
  have hgone : c.step peerGone = some c.closeConn := by
    rw [IoConn.step, hstate]
    rfl
  have hprep : ¬ (peerGone.prepOk = true ∧ s.hasRoom = false) := fun h => Bool.false_ne_true h.1
  simp only [step, hop, hin, hprep, hc, hgone, Bool.not_true, Bool.false_eq_true, or_self, if_false,
    Option.map_some]
  rfl

theorem Shrunk.next {n k : ℕ} (h : Shrunk n k s) (hk : k < n) (hroom : k < sqEntries) :
    Shrunk n (k + 1) ((s.complete (.recv k)).closeConn k) := by
  have hlt : s.sq.length < sqEntries := h.length ▸ hroom
  have hroom' : ((s.complete (.recv k)).untrack k).hasRoom = true := (hasRoom_iff s).mpr hlt
  have hsq : ((s.complete (.recv k)).closeConn k).sq = s.sq ++ [.close k] := by
    rw [closeConn, prep, if_pos hroom']
    rfl
  have hconns : ((s.complete (.recv k)).closeConn k).conns = s.conns.remove k := by
    rw [closeConn, conns_prep]
    rfl
  refine ⟨?_, ?_, fun op hop => ?_, fun fd hfd hn => ?_⟩
  · exact (booked_step_iff h.booked (h.step_eq hk)).mpr (fun _ _ => .inl hlt)
  · rw [hsq, List.length_append, h.length]
    rfl
  · rw [hsq, List.mem_append, List.mem_singleton] at hop
    rcases hop with hold | rfl
    · obtain ⟨fd, hfd, heq⟩ := h.queued op hold
      exact ⟨fd, by omega, heq⟩
    · exact ⟨k, by omega, rfl⟩
  · rw [hconns, Directory.get_remove_of_ne _ (by omega)]
    exact h.waits fd (by omega) hn

theorem shrunk_reachable {n : ℕ} (hn : sqEntries ≤ n) {k : ℕ} (hk : k ≤ sqEntries) :
    ∃ es s, Runs.run step start es = some s ∧ Shrunk n k s := by
  induction k with
  | zero =>
    obtain ⟨es, s, hrun, hgrown⟩ := grown_reachable n
    refine ⟨es, s, hrun, hgrown.booked, by rw [hgrown.sq]; rfl, fun op hop => ?_,
      fun fd _ hfd => hgrown.waits fd hfd⟩
    rw [hgrown.sq] at hop
    cases hop
  | succ k ih =>
    obtain ⟨es, s, hrun, hshrunk⟩ := ih (by omega)
    refine ⟨es ++ [.completion k peerGone], _, Runs.run_append.mpr ⟨s, hrun, ?_⟩,
      hshrunk.next (by omega) (by omega)⟩
    exact Runs.run_cons.mpr ⟨_, hshrunk.step_eq (by omega), rfl⟩

/-- **The ACCEPT and a CLOSE are lost.** -/
theorem accept_and_close_lost :
    ∃ es s, Runs.run step start es = some s
      ∧ s.pending .accept = 0
      ∧ 1024 ∈ s.files ∧ s.conns.get 1024 = none ∧ s.pending (.close 1024) = 0 := by
  have hle : sqEntries ≤ 1025 := by decide
  obtain ⟨es, s, hrun, hshrunk⟩ := shrunk_reachable hle (le_refl sqEntries)
  have hbooked := hshrunk.booked
  have hfull : s.hasRoom = false := by
    refine Bool.eq_false_iff.mpr (fun hroom => ?_)
    exact absurd ((hasRoom_iff s).mp hroom) (hshrunk.length ▸ lt_irrefl _)
  -- the last connection is closed, and the CLOSE is not queued
  let s₁ := (s.complete (.recv 1024)).closeConn 1024
  have h₁ : s.step (.completion 1024 peerGone) = some s₁ := hshrunk.step_eq (by decide)
  have hs₁ : s₁ = (s.complete (.recv 1024)).untrack 1024 :=
    @prep_of_full ((s.complete (.recv 1024)).untrack 1024) hfull _
  obtain ⟨c, hc, -⟩ := hshrunk.waits 1024 le_rfl (by decide)
  obtain ⟨hfile, hclose, -⟩ := (settled_of_tracked hc).mp (hbooked.settled 1024)
  have hclose₁ : s₁.pending (.close 1024) = 0 := by
    rw [hs₁]
    exact (pending_complete_of_ne s (by simp)).trans hclose
  have haccept₁ : s₁.pending .accept = 1 := by
    rw [hs₁]
    exact (pending_complete_of_ne s (by simp)).trans hbooked.accept
  have hfull₁ : (s₁.complete .accept).hasRoom = false := by
    rw [hs₁]
    exact hfull
  have hnone : s₁.sq.count .accept = 0 := by
    refine List.count_eq_zero.mpr (fun hmem => ?_)
    rw [hs₁] at hmem
    obtain ⟨fd, -, heq⟩ := hshrunk.queued _ hmem
    cases heq
  have hin : s₁.inFlight.contains .accept = true :=
    inFlight_of_pending hnone (haccept₁ ▸ Nat.one_pos)
  -- the ACCEPT completes, and the next one is not queued
  have h₂ : s₁.step (.accept .failed) = some (s₁.complete .accept) := by
    simp only [step, hin, Bool.not_true, Bool.false_eq_true, if_false, onAccept]
    rw [prep_of_full hfull₁]
  refine ⟨es ++ [.completion 1024 peerGone, .accept .failed], s₁.complete .accept,
    Runs.run_append.mpr ⟨s, hrun, ?_⟩, ?_, ?_, ?_, ?_⟩
  · exact Runs.run_cons.mpr ⟨s₁, h₁, Runs.run_cons.mpr ⟨_, h₂, rfl⟩⟩
  · have hself := pending_complete hin .accept
    rw [haccept₁, if_pos rfl] at hself
    exact Nat.succ.inj hself
  · show 1024 ∈ s₁.files
    rw [hs₁]
    exact hfile
  · show s₁.conns.get 1024 = none
    rw [hs₁]
    exact Directory.get_remove _ _
  · exact (pending_complete_of_ne s₁ (by simp)).trans hclose₁

end Reactor

end Coreserver
