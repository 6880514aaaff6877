import Pulsys.Base.Bytes
import Pulsys.Base.Directory
import Pulsys.Base.Runs

/-!
# The cap on the connections of one peer

A connection takes a slot of its address, and the goroutine that serves it or the reactor's
pooled object gives it back. No slot is given back twice, or never, or by another
connection's object (`counters_follow_slots`).
-/

namespace Coreserver

open Bytes

abbrev Addr := Bytes

def unmap (a : Addr) : Addr :=
  if a.length = 16 ∧ a.take 12 = List.replicate 10 0 ++ [255, 255] then a.drop 12 else a

inductive RemoteAddr
  | tcp (ip : Bytes)
  | other
  deriving DecidableEq, Repr

def RemoteAddr.addr : RemoteAddr → Option Addr
  | .tcp ip => if ip.length = 4 ∨ ip.length = 16 then some (unmap ip) else none
  | .other => none

inductive PeerName
  | inet4 (addr : Bytes)
  | inet6 (addr : Bytes)
  | other
  | failed
  deriving DecidableEq, Repr

def PeerName.addr : PeerName → Option Addr
  | .inet4 addr => some addr
  | .inet6 addr => some (unmap addr)
  | .other | .failed => none

abbrev PerIPSlot := Option Addr

def counterOf (connsPerIP : Directory Addr ℤ) (addr : Addr) : ℤ := (connsPerIP.get addr).getD 0

def acquireSlot (maxConnsPerIP : ℤ) (connsPerIP : Directory Addr ℤ) (addr : Option Addr) :
    Option (PerIPSlot × Directory Addr ℤ) :=
  if maxConnsPerIP ≤ 0 then some (none, connsPerIP)
  else
    match addr with
    | none => some (none, connsPerIP)
    | some a =>
      if maxConnsPerIP ≤ counterOf connsPerIP a then none
      else some (some a, connsPerIP.write a (counterOf connsPerIP a + 1))

def acquirePerIPSlot (maxConnsPerIP : ℤ) (connsPerIP : Directory Addr ℤ) (remote : RemoteAddr) :
    Option (PerIPSlot × Directory Addr ℤ) :=
  acquireSlot maxConnsPerIP connsPerIP remote.addr

def acquirePerIPSlotFromFd (maxConnsPerIP : ℤ) (connsPerIP : Directory Addr ℤ)
    (peer : PeerName) : Option (PerIPSlot × Directory Addr ℤ) :=
  acquireSlot maxConnsPerIP connsPerIP peer.addr

def releaseSlot (connsPerIP : Directory Addr ℤ) : PerIPSlot → Directory Addr ℤ
  | none => connsPerIP
  | some a =>
    if counterOf connsPerIP a - 1 ≤ 0 then connsPerIP.remove a
    else connsPerIP.write a (counterOf connsPerIP a - 1)

inductive ConnStage
  | serving
  | served
  | tracked (object : ℕ)
  | detached (slot : Option ℕ)
  | leaving
  | closing (queued : Bool)
  | closed
  deriving DecidableEq, Repr

namespace ConnStage

def holdsSlot : ConnStage → Bool
  | .serving | .served | .tracked _ | .detached _ => true
  | .leaving | .closing _ | .closed => false

def unclosed : ConnStage → Bool
  | .serving | .tracked _ | .detached _ => true
  | .served | .leaving | .closing _ | .closed => false

end ConnStage

structure Admitted where
  peer : Option Addr
  slot : PerIPSlot
  stage : ConnStage
  released : ℕ := 0
  deriving DecidableEq, Repr

structure Admissions where
  connsPerIP : Directory Addr ℤ
  conns : Directory ℕ Admitted
  objects : Directory ℕ (Option ℕ)
  pool : List ℕ

inductive AdmissionEvent
  | accept (i : ℕ) (remote : RemoteAddr)
  | serveConnReturns (i : ℕ)
  | release (i : ℕ)
  | onAccept (i : ℕ) (peer : PeerName) (object : ℕ) (armed queued : Bool)
  | closeConn (i : ℕ) (queued : Bool)
  | detachToFallback (i : ℕ) (ok : Bool)
  | detachedReleases (i : ℕ)
  | detachedCloses (i : ℕ)
  deriving DecidableEq, Repr

namespace Admissions

def fresh : Admissions := ⟨.empty, .empty, .empty, []⟩

def counter (s : Admissions) (a : Addr) : ℤ := counterOf s.connsPerIP a

def numberFrom (s : Admissions) (a : Addr) (p : ConnStage → Bool) : ℤ :=
  s.conns.sum (fun c => if c.peer = some a ∧ p c.stage = true then 1 else 0)

def setStage (s : Admissions) (i : ℕ) (c : Admitted) (stage : ConnStage) : Admissions :=
  { s with conns := s.conns.write i { c with stage := stage } }

def call (s : Admissions) (slot : Option ℕ) : Admissions :=
  match slot.bind (fun j => (s.conns.get j).map (Prod.mk j)) with
  | none => s
  | some (j, c) =>
    { s with
      connsPerIP := releaseSlot s.connsPerIP c.slot
      conns := s.conns.write j { c with released := c.released + 1 } }

def letIn (s : Admissions) (i : ℕ) (peer : Option Addr) (stage : ConnStage)
    (granted : PerIPSlot × Directory Addr ℤ) : Admissions :=
  { s with
    connsPerIP := granted.2
    conns := s.conns.write i { peer := peer, slot := granted.1, stage := stage } }

def acquireObject (s : Admissions) (o i : ℕ) : Admissions :=
  { s with objects := s.objects.write o (some i), pool := s.pool.erase o }

def slotOf (s : Admissions) (o : ℕ) : Option ℕ := (s.objects.get o).join

def putObject (s : Admissions) (o : ℕ) : Admissions :=
  { s with objects := s.objects.write o none, pool := o :: s.pool }

def close (s : Admissions) (i : ℕ) (c : Admitted) (o : ℕ) (queued : Bool) : Admissions :=
  ((s.setStage i c (.closing queued)).call (s.slotOf o)).putObject o

def detach (s : Admissions) (i : ℕ) (c : Admitted) (o : ℕ) (ok : Bool) : Admissions :=
  if ok then (s.setStage i c (.detached (s.slotOf o))).putObject o
  else ((s.setStage i c .closed).call (s.slotOf o)).putObject o

def step (maxConnsPerIP : ℤ) (s : Admissions) : AdmissionEvent → Option Admissions
  | .accept i remote =>
    if (s.conns.get i).isSome then none
    else
      match acquirePerIPSlot maxConnsPerIP s.connsPerIP remote with
      -- the connection is closed at once
      | none => some s
      | some granted => some (s.letIn i remote.addr .serving granted)
  | .serveConnReturns i =>
    (s.conns.get i).bind fun c =>
      match c.stage with
      | .serving => some (s.setStage i c .served)
      | _ => none
  | .release i =>
    (s.conns.get i).bind fun c =>
      match c.stage with
      | .served => some ((s.setStage i c .closed).call (some i))
      | _ => none
  | .onAccept i peer o armed queued =>
    -- the object was in the pool, or it is a new one
    if (s.conns.get i).isSome ∨ ¬ (s.pool.contains o ∨ (s.objects.get o).isNone) then none
    else
      match acquirePerIPSlotFromFd maxConnsPerIP s.connsPerIP peer with
      | none => some s
      | some granted =>
        let s₁ := (s.letIn i peer.addr (.tracked o) granted).acquireObject o i
        if armed then some s₁
        else some (s₁.close i ⟨peer.addr, granted.1, .tracked o, 0⟩ o queued)
  | .closeConn i queued =>
    (s.conns.get i).bind fun c =>
      match c.stage with
      | .tracked o => some (s.close i c o queued)
      | _ => none
  | .detachToFallback i ok =>
    (s.conns.get i).bind fun c =>
      match c.stage with
      | .tracked o => some (s.detach i c o ok)
      | _ => none
  | .detachedReleases i =>
    (s.conns.get i).bind fun c =>
      match c.stage with
      | .detached slot => some ((s.setStage i c .leaving).call slot)
      | _ => none
  | .detachedCloses i =>
    (s.conns.get i).bind fun c =>
      match c.stage with
      | .leaving => some (s.setStage i c .closed)
      | _ => none

end Admissions

/-! ## The counters -/

def PerIPSlot.on (slot : PerIPSlot) (a : Addr) : ℤ := if slot = some a then 1 else 0

theorem acquireSlot_spec {maxConnsPerIP : ℤ} {connsPerIP connsPerIP' : Directory Addr ℤ}
    {addr : Option Addr} {slot : PerIPSlot}
    (h : acquireSlot maxConnsPerIP connsPerIP addr = some (slot, connsPerIP')) :
    slot = (if maxConnsPerIP ≤ 0 then none else addr)
      ∧ (∀ a, counterOf connsPerIP' a = counterOf connsPerIP a + slot.on a)
      ∧ ∀ a, slot = some a → counterOf connsPerIP a < maxConnsPerIP := by
  have hnone (a : Addr) : PerIPSlot.on none a = 0 := rfl
  unfold acquireSlot at h
  split at h
  · next hcap =>
    obtain ⟨rfl, rfl⟩ := Prod.mk.inj (Option.some.inj h)
    exact ⟨(if_pos hcap).symm, fun a => (add_zero _).symm, fun a ha => (by cases ha)⟩
  · next hcap =>
    rw [if_neg hcap]
    split at h
    · obtain ⟨rfl, rfl⟩ := Prod.mk.inj (Option.some.inj h)
      exact ⟨rfl, fun a => (add_zero _).symm, fun a ha => (by cases ha)⟩
    · next a =>
      split at h
      · cases h
      · next hroom =>
        obtain ⟨rfl, rfl⟩ := Prod.mk.inj (Option.some.inj h)
        refine ⟨rfl, fun b => ?_, fun b hb => ?_⟩
        · by_cases hb : b = a
          · simp [counterOf, PerIPSlot.on, hb]
          · simp [counterOf, PerIPSlot.on, Directory.get_write_of_ne _ _ hb, Ne.symm hb]
        · cases hb
          exact not_le.mp hroom

theorem counterOf_releaseSlot {connsPerIP : Directory Addr ℤ} {slot : PerIPSlot}
    (h : ∀ a, slot = some a → 1 ≤ counterOf connsPerIP a) (a : Addr) :
    counterOf (releaseSlot connsPerIP slot) a = counterOf connsPerIP a - slot.on a := by
  unfold releaseSlot
  cases slot with
  | none => exact (sub_zero _).symm
  | some b =>
    have hb := h b rfl
    dsimp only
    split
    · next hlast =>
      by_cases hab : a = b
      · have hzero : counterOf (connsPerIP.remove b) b = 0 := by simp [counterOf]
        rw [hab, hzero, PerIPSlot.on, if_pos rfl]
        omega
      · simp [counterOf, PerIPSlot.on, Directory.get_remove_of_ne _ hab, Ne.symm hab]
    · by_cases hab : a = b
      · simp [counterOf, PerIPSlot.on, hab]
      · simp [counterOf, PerIPSlot.on, Directory.get_write_of_ne _ _ hab, Ne.symm hab]

namespace Admissions

variable {maxConnsPerIP : ℤ} {s s' : Admissions}

def held (a : Addr) (c : Admitted) : ℤ := if c.stage.holdsSlot then c.slot.on a else 0

structure Counted (maxConnsPerIP : ℤ) (s : Admissions) : Prop where
  counter : ∀ a, s.counter a = s.conns.sum (held a)
  within : 0 < maxConnsPerIP → ∀ a, s.counter a ≤ maxConnsPerIP
  slot : ∀ i c, s.conns.get i = some c → c.slot = if maxConnsPerIP ≤ 0 then none else c.peer
  released : ∀ i c, s.conns.get i = some c → c.released = if c.stage.holdsSlot then 0 else 1

theorem held_nonneg (a : Addr) (c : Admitted) : 0 ≤ held a c := by
  unfold held PerIPSlot.on
  split
  · split <;> decide
  · exact le_rfl

variable {i o : ℕ} {c : Admitted} {peer : Option Addr} {stage : ConnStage}
  {granted : PerIPSlot × Directory Addr ℤ}

theorem Counted.one_le (h : Counted maxConnsPerIP s) (hc : s.conns.get i = some c)
    (hholds : c.stage.holdsSlot = true) {a : Addr} (ha : c.slot = some a) :
    1 ≤ counterOf s.connsPerIP a := by
  have hle := Directory.le_sum (fun _ c' _ => held_nonneg a c') hc
  rw [← h.counter a] at hle
  have hone : held a c = 1 := by rw [held, if_pos hholds, PerIPSlot.on, if_pos ha]
  exact hone ▸ hle

theorem Counted.letIn (h : Counted maxConnsPerIP s) (hfree : s.conns.get i = none)
    (hacq : acquireSlot maxConnsPerIP s.connsPerIP peer = some granted)
    (hholds : stage.holdsSlot = true) : Counted maxConnsPerIP (s.letIn i peer stage granted) := by
  obtain ⟨hslot, hcounter, hroom⟩ := acquireSlot_spec hacq
  refine ⟨fun a => ?_, fun hcap a => ?_, Directory.forall_write hslot h.slot,
    Directory.forall_write (if_pos hholds).symm h.released⟩
  · show counterOf granted.2 a = _
    have hsum := h.counter a
    rw [Admissions.counter] at hsum
    rw [hcounter a, hsum, Admissions.letIn, Directory.sum_write, hfree, held, if_pos hholds]
    exact congrArg _ (sub_zero _).symm
  · show counterOf granted.2 a ≤ _
    rw [hcounter a, PerIPSlot.on]
    split
    · next ha =>
      have hlt := hroom a ha
      omega
    · have hle := h.within hcap a
      rw [Admissions.counter] at hle
      omega

theorem Counted.setStage (h : Counted maxConnsPerIP s) (hc : s.conns.get i = some c)
    (hsame : stage.holdsSlot = c.stage.holdsSlot) :
    Counted maxConnsPerIP (s.setStage i c stage) := by
  refine ⟨fun a => ?_, h.within, Directory.forall_write (h.slot i c hc) h.slot,
    Directory.forall_write ?_ h.released⟩
  · have hheld : held a { c with stage := stage } = held a c := by
      unfold held
      dsimp only
      rw [hsame]
    have hweight : Directory.weight (held a) (some c) = held a c := rfl
    rw [Admissions.setStage, Directory.sum_write, hc, hweight, hheld, sub_self, add_zero]
    exact h.counter a
  · dsimp only
    rw [hsame]
    exact h.released i c hc

theorem setStage_call (s : Admissions) (i : ℕ) (c : Admitted) (stage : ConnStage) :
    (s.setStage i c stage).call (some i)
      = { s with
          connsPerIP := releaseSlot s.connsPerIP c.slot
          conns := s.conns.write i { c with stage := stage, released := c.released + 1 } } := by
  unfold call setStage
  simp only [Option.bind_some, Directory.get_write, Option.map_some, Directory.write_write]

theorem Counted.leave (h : Counted maxConnsPerIP s) (hc : s.conns.get i = some c)
    (hheld : c.stage.holdsSlot = true) (hgone : stage.holdsSlot = false) :
    Counted maxConnsPerIP ((s.setStage i c stage).call (some i)) := by
  have hcounter := @counterOf_releaseSlot s.connsPerIP c.slot (fun a ha => h.one_le hc hheld ha)
  rw [setStage_call]
  refine ⟨fun a => ?_, fun hcap a => ?_, Directory.forall_write (h.slot i c hc) h.slot,
    Directory.forall_write ?_ h.released⟩
  · have hbefore : Directory.weight (held a) (some c) = c.slot.on a := if_pos hheld
    have hafter : held a { c with stage := stage, released := c.released + 1 } = 0 := by
      rw [held, hgone]
      rfl
    have hsum := h.counter a
    rw [Admissions.counter] at hsum
    show counterOf (releaseSlot _ _) a = _
    rw [hcounter a, hsum, Directory.sum_write, hc, hbefore, hafter, zero_sub]
    rfl
  · have hle := h.within hcap a
    have hpos : 0 ≤ c.slot.on a := by
      unfold PerIPSlot.on
      split <;> decide
    show counterOf (releaseSlot _ _) a ≤ _
    rw [Admissions.counter] at hle
    rw [hcounter a]
    omega
  · have hnever := h.released i c hc
    rw [if_pos hheld] at hnever
    dsimp only
    rw [hnever, hgone]
    rfl

/-! ## The slot a connection's object has -/

structure Pooled (s : Admissions) : Prop where
  own : ∀ i c o, s.conns.get i = some c → c.stage = .tracked o →
    s.objects.get o = some (some i) ∧ o ∉ s.pool
  handed : ∀ i c j, s.conns.get i = some c → c.stage = .detached j → j = some i
  nodup : s.pool.Nodup

theorem Pooled.of_stages (h : Pooled s) (hobjects : s'.objects = s.objects)
    (hpool : s'.pool = s.pool)
    (hconns : ∀ i c, s'.conns.get i = some c →
      (∀ o, c.stage ≠ .tracked o) ∧ (∀ j, c.stage = .detached j → j = some i)
        ∨ ∃ c₀, s.conns.get i = some c₀ ∧ c₀.stage = c.stage) :
    Pooled s' := by
  refine ⟨fun i c o hc ho => ?_, fun i c j hc hj => ?_, hpool ▸ h.nodup⟩
  · rw [hobjects, hpool]
    rcases hconns i c hc with ⟨hnot, -⟩ | ⟨c₀, hc₀, hstage⟩
    · exact absurd ho (hnot o)
    · exact h.own i c₀ o hc₀ (hstage.trans ho)
  · rcases hconns i c hc with ⟨-, hown⟩ | ⟨c₀, hc₀, hstage⟩
    · exact hown j hj
    · exact h.handed i c₀ j hc₀ (hstage.trans hj)

theorem Pooled.write (h : Pooled s) {connsPerIP : Directory Addr ℤ}
    (hnot : ∀ o, c.stage ≠ .tracked o) (hown : ∀ j, c.stage = .detached j → j = some i) :
    Pooled { s with connsPerIP := connsPerIP, conns := s.conns.write i c } := by
  refine h.of_stages rfl rfl (fun j c' hc' => ?_)
  rcases Directory.get_write_eq_some hc' with ⟨rfl, rfl⟩ | ⟨-, hold⟩
  · exact .inl ⟨hnot, hown⟩
  · exact .inr ⟨c', hold, rfl⟩

theorem Pooled.putObject (h : Pooled s) (hout : o ∉ s.pool)
    (hfree : ∀ i c, s.conns.get i = some c → c.stage ≠ .tracked o) : Pooled (s.putObject o) := by
  refine ⟨fun i c o' hc ho' => ?_, h.handed, List.nodup_cons.mpr ⟨hout, h.nodup⟩⟩
  have hne : o' ≠ o := fun heq => hfree i c hc (heq ▸ ho')
  obtain ⟨hobj, hnot⟩ := h.own i c o' hc ho'
  refine ⟨?_, fun hmem => ?_⟩
  · rw [Admissions.putObject, Directory.get_write_of_ne _ _ hne]
    exact hobj
  · rcases List.mem_cons.mp hmem with heq | hin
    · exact hne heq
    · exact hnot hin

theorem Pooled.letIn (h : Pooled s) (hfree : s.conns.get i = none)
    (ho : o ∈ s.pool ∨ s.objects.get o = none) :
    Pooled ((s.letIn i peer (.tracked o) granted).acquireObject o i) := by
  have hother : ∀ j c o', s.conns.get j = some c → c.stage = .tracked o' → o' ≠ o := by
    rintro j c o' hc ho' rfl
    obtain ⟨hobj, hnot⟩ := h.own j c o' hc ho'
    rcases ho with hin | hnew
    · exact hnot hin
    · rw [hnew] at hobj
      cases hobj
  refine ⟨fun j c o' hc ho' => ?_, fun j c k hc hk => ?_, h.nodup.erase o⟩
  · rcases Directory.get_write_eq_some hc with ⟨rfl, rfl⟩ | ⟨-, hold⟩
    · obtain rfl := ConnStage.tracked.inj ho'
      exact ⟨Directory.get_write _ _ _, h.nodup.not_mem_erase⟩
    · obtain ⟨hobj, hnot⟩ := h.own j c o' hold ho'
      refine ⟨?_, fun hmem => hnot (List.mem_of_mem_erase hmem)⟩
      rw [Admissions.acquireObject, Directory.get_write_of_ne _ _ (hother j c o' hold ho')]
      exact hobj
  · rcases Directory.get_write_eq_some hc with ⟨rfl, rfl⟩ | ⟨-, hold⟩
    · cases hk
    · exact h.handed j c k hold hk

theorem Pooled.only (h : Pooled s) {j : ℕ} {c' : Admitted} (hc : s.conns.get i = some c)
    (ho : c.stage = .tracked o) (hc' : s.conns.get j = some c') (ho' : c'.stage = .tracked o) :
    j = i := by
  have hi := (h.own i c o hc ho).1
  have hj := (h.own j c' o hc' ho').1
  exact Option.some.inj (Option.some.inj (hj.symm.trans hi))

theorem Pooled.slotOf (h : Pooled s) (hc : s.conns.get i = some c) (ho : c.stage = .tracked o) :
    s.slotOf o = some i := by
  rw [Admissions.slotOf, (h.own i c o hc ho).1]
  rfl

theorem Pooled.write_putObject (h : Pooled s) {c' : Admitted} {connsPerIP : Directory Addr ℤ}
    (hc : s.conns.get i = some c) (ho : c.stage = .tracked o)
    (hnot : ∀ o', c'.stage ≠ .tracked o') (hown : ∀ j, c'.stage = .detached j → j = some i) :
    Pooled (({ s with
      connsPerIP := connsPerIP, conns := s.conns.write i c' } : Admissions).putObject o) := by
  refine (h.write hnot hown).putObject (h.own i c o hc ho).2 (fun j c₁ hc₁ ho₁ => ?_)
  rcases Directory.get_write_eq_some hc₁ with ⟨rfl, rfl⟩ | ⟨hne, hold⟩
  · exact hnot o ho₁
  · exact hne (h.only hc ho hold ho₁)

/-! ## Whole runs -/

theorem Counted.of_conns (h : Counted maxConnsPerIP s) (hcounters : s'.connsPerIP = s.connsPerIP)
    (hconns : s'.conns = s.conns) : Counted maxConnsPerIP s' := by
  have hcounter : s'.counter = s.counter := congrArg counterOf hcounters
  refine ⟨?_, ?_, ?_, ?_⟩
  · rw [hcounter, hconns]
    exact h.counter
  · rw [hcounter]
    exact h.within
  · rw [hconns]
    exact h.slot
  · rw [hconns]
    exact h.released

structure Accounted (maxConnsPerIP : ℤ) (s : Admissions) : Prop where
  counted : Counted maxConnsPerIP s
  pooled : Pooled s

def Plain (stage : ConnStage) : Prop :=
  (∀ o, stage ≠ .tracked o) ∧ ∀ j, stage ≠ .detached j

theorem plain_serving : Plain .serving := ⟨fun _ h => (by cases h), fun _ h => (by cases h)⟩

theorem plain_served : Plain .served := ⟨fun _ h => (by cases h), fun _ h => (by cases h)⟩

theorem plain_of_holdsSlot (h : stage.holdsSlot = false) : Plain stage := by
  constructor
  · rintro o rfl
    cases h
  · rintro j rfl
    cases h

theorem Accounted.setStage (h : Accounted maxConnsPerIP s) (hc : s.conns.get i = some c)
    (hsame : stage.holdsSlot = c.stage.holdsSlot) (hplain : Plain stage) :
    Accounted maxConnsPerIP (s.setStage i c stage) :=
  ⟨h.counted.setStage hc hsame,
    h.pooled.write hplain.1 (fun j hj => absurd hj (hplain.2 j))⟩

theorem Accounted.leave (h : Accounted maxConnsPerIP s) (hc : s.conns.get i = some c)
    (hheld : c.stage.holdsSlot = true) (hgone : stage.holdsSlot = false) :
    Accounted maxConnsPerIP ((s.setStage i c stage).call (some i)) := by
  have hplain := plain_of_holdsSlot hgone
  refine ⟨h.counted.leave hc hheld hgone, ?_⟩
  rw [setStage_call]
  exact h.pooled.write hplain.1 (fun j hj => absurd hj (hplain.2 j))

theorem Accounted.leave_putObject (h : Accounted maxConnsPerIP s) (hc : s.conns.get i = some c)
    (ho : c.stage = .tracked o) (hgone : stage.holdsSlot = false) :
    Accounted maxConnsPerIP (((s.setStage i c stage).call (s.slotOf o)).putObject o) := by
  have hheld : c.stage.holdsSlot = true := by
    rw [ho]
    rfl
  have hplain := plain_of_holdsSlot hgone
  rw [h.pooled.slotOf hc ho]
  refine ⟨(h.counted.leave hc hheld hgone).of_conns rfl rfl, ?_⟩
  rw [setStage_call]
  exact h.pooled.write_putObject hc ho hplain.1 (fun j hj => absurd hj (hplain.2 j))

theorem Accounted.close (h : Accounted maxConnsPerIP s) {queued : Bool}
    (hc : s.conns.get i = some c) (ho : c.stage = .tracked o) :
    Accounted maxConnsPerIP (s.close i c o queued) :=
  h.leave_putObject hc ho rfl

theorem Accounted.detach (h : Accounted maxConnsPerIP s) {ok : Bool} (hc : s.conns.get i = some c)
    (ho : c.stage = .tracked o) : Accounted maxConnsPerIP (s.detach i c o ok) := by
  unfold Admissions.detach
  split
  · rw [h.pooled.slotOf hc ho]
    have hsame : (ConnStage.detached (some i)).holdsSlot = c.stage.holdsSlot := by
      rw [ho]
      rfl
    refine ⟨(h.counted.setStage hc hsame).of_conns rfl rfl, ?_⟩
    refine h.pooled.write_putObject hc ho (fun o' ho' => ?_) (fun j hj => ?_)
    · cases ho'
    · exact (ConnStage.detached.inj hj).symm
  · exact h.leave_putObject hc ho rfl

theorem Accounted.letIn_tracked (h : Accounted maxConnsPerIP s) (hfree : s.conns.get i = none)
    (ho : o ∈ s.pool ∨ s.objects.get o = none)
    (hacq : acquireSlot maxConnsPerIP s.connsPerIP peer = some granted) :
    Accounted maxConnsPerIP ((s.letIn i peer (.tracked o) granted).acquireObject o i) :=
  ⟨(h.counted.letIn hfree hacq rfl).of_conns rfl rfl, h.pooled.letIn hfree ho⟩

theorem accounted_step {e : AdmissionEvent} (h : Accounted maxConnsPerIP s)
    (hs : s.step maxConnsPerIP e = some s') : Accounted maxConnsPerIP s' := by
  cases e with
  | accept i remote =>
    simp only [step] at hs
    split at hs
    · cases hs
    · next hnew =>
      have hfree : s.conns.get i = none := by simpa using hnew
      split at hs
      · cases hs
        exact h
      · next granted hacq =>
        cases hs
        exact ⟨h.counted.letIn hfree hacq rfl,
          h.pooled.write plain_serving.1 (fun j hj => absurd hj (plain_serving.2 j))⟩
  | serveConnReturns i =>
    obtain ⟨c, hc, hs⟩ := Option.bind_eq_some_iff.mp hs
    split at hs
    · next hstage =>
      cases hs
      exact h.setStage hc (by rw [hstage]; rfl) plain_served
    · cases hs
  | release i =>
    obtain ⟨c, hc, hs⟩ := Option.bind_eq_some_iff.mp hs
    split at hs
    · next hstage =>
      cases hs
      exact h.leave hc (by rw [hstage]; rfl) rfl
    · cases hs
  | onAccept i peer o armed queued =>
    simp only [step] at hs
    split at hs
    · cases hs
    · next hnew =>
      obtain ⟨hnot, hobj⟩ := not_or.mp hnew
      have hfree : s.conns.get i = none := by simpa using hnot
      have ho : o ∈ s.pool ∨ s.objects.get o = none := by simpa using not_not.mp hobj
      split at hs
      · cases hs
        exact h
      · next granted hacq =>
        have hacc := h.letIn_tracked hfree ho hacq
        split at hs
        · cases hs
          exact hacc
        · -- the RECV is not queued, and the connection is closed at once
          cases hs
          exact hacc.close (Directory.get_write _ _ _) rfl
  | closeConn i queued =>
    obtain ⟨c, hc, hs⟩ := Option.bind_eq_some_iff.mp hs
    split at hs
    · next o ho =>
      cases hs
      exact h.close hc ho
    · cases hs
  | detachToFallback i ok =>
    obtain ⟨c, hc, hs⟩ := Option.bind_eq_some_iff.mp hs
    split at hs
    · next o ho =>
      cases hs
      exact h.detach hc ho
    · cases hs
  | detachedReleases i =>
    obtain ⟨c, hc, hs⟩ := Option.bind_eq_some_iff.mp hs
    split at hs
    · next slot hstage =>
      cases hs
      obtain rfl := h.pooled.handed i c slot hc hstage
      exact h.leave hc (by rw [hstage]; rfl) rfl
    · cases hs
  | detachedCloses i =>
    obtain ⟨c, hc, hs⟩ := Option.bind_eq_some_iff.mp hs
    split at hs
    · next hstage =>
      cases hs
      exact h.setStage hc (by rw [hstage]; rfl) (plain_of_holdsSlot rfl)
    · cases hs

theorem accounted_fresh (maxConnsPerIP : ℤ) : Accounted maxConnsPerIP fresh where
  counted := ⟨fun _ => rfl, fun hcap _ => hcap.le, fun _ _ hc => (by cases hc),
    fun _ _ hc => (by cases hc)⟩
  pooled := ⟨fun _ _ _ hc => (by cases hc), fun _ _ _ hc => (by cases hc), List.nodup_nil⟩

theorem Counted.sum_held (h : Counted maxConnsPerIP s) (a : Addr) :
    s.conns.sum (held a)
      = if maxConnsPerIP ≤ 0 then 0 else s.numberFrom a ConnStage.holdsSlot := by
  have hweight : ∀ i, Directory.weight (held a) (s.conns.get i)
      = if maxConnsPerIP ≤ 0 then 0
        else Directory.weight (fun c : Admitted =>
          if c.peer = some a ∧ c.stage.holdsSlot = true then 1 else 0) (s.conns.get i) := by
    intro i
    cases hc : s.conns.get i with
    | none => exact (ite_self _).symm
    | some c =>
      show held a c = _
      rw [held, PerIPSlot.on, h.slot i c hc]
      by_cases hcap : maxConnsPerIP ≤ 0
      · simp [hcap]
      · by_cases hpeer : c.peer = some a <;> simp [hcap, hpeer, Directory.weight]
  unfold numberFrom Directory.sum
  rw [Finset.sum_congr rfl (fun i _ => hweight i)]
  split
  · exact Finset.sum_const_zero
  · rfl

/-- **The counters follow the slots.** Where there is a cap, the counter of an address is the
number of its connections whose slot is not given back. -/
theorem counters_follow_slots {es : List AdmissionEvent}
    (hrun : Runs.run (step maxConnsPerIP) fresh es = some s) :
    (∀ a, s.counter a
        = if maxConnsPerIP ≤ 0 then 0 else s.numberFrom a ConnStage.holdsSlot)
      ∧ (0 < maxConnsPerIP → ∀ a, s.counter a ≤ maxConnsPerIP)
      ∧ ∀ i c, s.conns.get i = some c →
          c.released = if c.stage.holdsSlot then 0 else 1 := by
  have hstep : ∀ s e s', Accounted maxConnsPerIP s → s.step maxConnsPerIP e = some s' →
      Accounted maxConnsPerIP s' := fun _ _ _ h hs => accounted_step h hs
  have hacc := Runs.invariant_of_step hstep (accounted_fresh maxConnsPerIP) hrun
  refine ⟨fun a => ?_, hacc.counted.within, hacc.counted.released⟩
  rw [hacc.counted.counter a]
  exact hacc.counted.sum_held a

def loopback : Addr := [127, 0, 0, 1]

/-- With a cap of one: a connection of the reactor is detached, its slot is given
back by the goroutine, and the classic listener admits the next one. -/
theorem counters_follow_slots_handed :
    ∃ s, Runs.run (step 1) fresh
        [.onAccept 0 (.inet4 loopback) 0 true true, .accept 1 (.tcp loopback),
          .detachToFallback 0 true, .detachedReleases 0, .accept 2 (.tcp loopback)] = some s
      ∧ s.counter loopback = s.numberFrom loopback ConnStage.holdsSlot
      ∧ s.counter loopback ≤ 1 ∧ (s.conns.get 0).map (·.released) = some 1
      ∧ (s.conns.get 1).isNone ∧ (s.conns.get 2).map (·.released) = some 0 := by
  have hrun : ∃ s, Runs.run (step 1) fresh
        [.onAccept 0 (.inet4 loopback) 0 true true, .accept 1 (.tcp loopback),
          .detachToFallback 0 true, .detachedReleases 0, .accept 2 (.tcp loopback)] = some s
      ∧ (s.conns.get 0).map (·.released) = some 1
      ∧ (s.conns.get 1).isNone ∧ (s.conns.get 2).map (·.released) = some 0 :=
    ⟨_, rfl, by decide, by decide, by decide⟩
  obtain ⟨s, hrun, h0, h1, h2⟩ := hrun
  obtain ⟨hcounter, hwithin, -⟩ := counters_follow_slots hrun
  exact ⟨s, hrun, hcounter loopback, hwithin (by decide) loopback, h0, h1, h2⟩

/-- **What is counted is not what is unclosed**, with a cap or without. -/
theorem counter_apart_from_unclosed :
    (∃ s, Runs.run (step 0) fresh [.accept 0 (.tcp loopback)] = some s
      ∧ s.counter loopback = 0 ∧ s.numberFrom loopback ConnStage.unclosed = 1)
    ∧ ∃ s, Runs.run (step 1) fresh [.accept 0 (.tcp loopback), .serveConnReturns 0] = some s
      ∧ s.counter loopback = 1 ∧ s.numberFrom loopback ConnStage.unclosed = 0 :=
  ⟨⟨_, rfl, by decide, by decide⟩, ⟨_, rfl, by decide, by decide⟩⟩

end Admissions

end Coreserver
