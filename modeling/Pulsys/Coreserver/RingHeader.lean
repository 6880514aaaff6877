import Pulsys.Base.Runs
import Mathlib.Data.Int.Notation
import Mathlib.Data.Nat.Notation
import Mathlib.Data.List.Perm.Basic

/-!
# Writing a head by io_uring

A head is one entry of a ring, and the first completion is the result. If the system call
fails, `sendHeaderOnly` leaves the entry to the next call: the calls keep to themselves
exactly if none fails but by being interrupted (`self_contained_iff_no_failure`).
-/

namespace Coreserver

open Runs

structure Sqe where
  userData : ℕ
  owner : ℕ
  deriving DecidableEq, Repr

structure Cqe where
  sqe : Sqe
  res : ℤ
  deriving DecidableEq, Repr

structure HeaderRing where
  entries : ℕ
  sq : List Sqe := []
  inflight : List Sqe := []
  cq : List Cqe := []
  pos : 0 < entries

def sqeUserDataHdr : ℕ := 1

structure KernelTurn where
  consumes : Bool
  completes : List (ℕ × ℤ)
  deriving DecidableEq, Repr

structure EnterCall where
  interrupted : List KernelTurn := []
  last : KernelTurn
  failed : Bool
  deriving DecidableEq, Repr

namespace HeaderRing

def consume (r : HeaderRing) : HeaderRing :=
  match r.sq with
  | [] => r
  | e :: rest => { r with sq := rest, inflight := r.inflight ++ [e] }

def complete (r : HeaderRing) (c : ℕ × ℤ) : HeaderRing :=
  match r.inflight[c.1]? with
  | none => r
  | some e => { r with inflight := r.inflight.eraseIdx c.1, cq := r.cq ++ [⟨e, c.2⟩] }

def syscall (r : HeaderRing) (toSubmit : ℕ) (succeeds : Bool) (k : KernelTurn) : HeaderRing :=
  k.completes.foldl complete
    (if 0 < toSubmit ∧ (succeeds = true ∨ k.consumes = true) then r.consume else r)

def enter (r : HeaderRing) (toSubmit : ℕ) (e : EnterCall) : HeaderRing :=
  (e.interrupted.foldl (fun r k => r.syscall toSubmit false k) r).syscall toSubmit
    (!e.failed) e.last

inductive Reply
  | nothing
  | failed
  | completion (c : Cqe)
  deriving DecidableEq, Repr

def reap (want : ℕ) : List Cqe → Option Cqe × List Cqe
  | [] => (none, [])
  | c :: rest => if c.sqe.userData ≠ want then reap want rest else (some c, rest)

def reaped (want : ℕ) (r : HeaderRing) : HeaderRing := { r with cq := (reap want r.cq).2 }

def waitCQE (want : ℕ) : List EnterCall → HeaderRing →
    Option (HeaderRing × Reply × List EnterCall)
  | [], r => (reap want r.cq).1.map (fun c => (r.reaped want, .completion c, []))
  | e :: rest, r =>
    match (reap want r.cq).1 with
    | some c => some (r.reaped want, .completion c, e :: rest)
    | none =>
      let r' := (r.reaped want).enter 0 e
      if e.failed then some (r', .failed, rest) else waitCQE want rest r'

def commit (r : HeaderRing) (sqe : Sqe) : HeaderRing := { r with sq := r.sq ++ [sqe] }

def sendHeaderOnly (r : HeaderRing) (owner length : ℕ) (es : List EnterCall) :
    Option (HeaderRing × Reply × List EnterCall) :=
  if length = 0 then some (r, .nothing, es)
  else if r.entries - r.sq.length < 1 then some (r, .failed, es)
  else
    match es with
    | [] => none
    | e :: rest =>
      let r' := (r.commit ⟨sqeUserDataHdr, owner⟩).enter 1 e
      if e.failed then some (r', .failed, rest) else waitCQE sqeUserDataHdr rest r'

end HeaderRing

/-! ## Calls, one after the other -/

structure HeaderCall where
  length : ℕ
  enters : List EnterCall

structure RingUse where
  ring : HeaderRing
  calls : ℕ := 0
  reply : Option HeaderRing.Reply := none

namespace RingUse

def step (s : RingUse) (c : HeaderCall) : Option RingUse :=
  match s.ring.sendHeaderOnly s.calls c.length c.enters with
  | some (ring, reply, []) => some ⟨ring, s.calls + 1, some reply⟩
  | _ => none

structure SelfContained (s : RingUse) : Prop where
  own : ∀ c, s.reply = some (.completion c) → c.sqe.owner + 1 = s.calls
  unsubmitted : ∀ e ∈ s.ring.sq, ¬ e.owner < s.calls
  pending : ∀ e ∈ s.ring.inflight, ¬ e.owner < s.calls
  untaken : ∀ c ∈ s.ring.cq, ¬ c.sqe.owner < s.calls

def NoFailure (_ : RingUse) (c : HeaderCall) : Prop := ∀ e ∈ c.enters, e.failed = false

instance (s : RingUse) : DecidablePred s.NoFailure := fun c => by
  unfold NoFailure
  infer_instance

end RingUse

/-! ## What is in the ring -/

namespace HeaderRing

def all (r : HeaderRing) : List Sqe := r.sq ++ r.inflight ++ r.cq.map Cqe.sqe

theorem perm_consume (r : HeaderRing) : r.consume.all.Perm r.all := by
  unfold consume
  split
  · exact List.Perm.refl _
  · next e rest hsq =>
    unfold all
    rw [hsq]
    refine List.Perm.append_right _ ?_
    rw [← List.append_assoc, List.cons_append]
    exact List.perm_append_singleton e (rest ++ r.inflight)

theorem perm_complete (r : HeaderRing) (c : ℕ × ℤ) : (r.complete c).all.Perm r.all := by
  unfold complete
  split
  · exact List.Perm.refl _
  · next e he =>
    obtain ⟨hlt, rfl⟩ := List.getElem?_eq_some_iff.mp he
    have hperm := List.getElem_cons_eraseIdx_perm hlt
    unfold all
    dsimp only
    rw [List.append_assoc, List.append_assoc, List.map_append]
    refine List.Perm.append_left _ ?_
    rw [← List.append_assoc]
    exact (List.perm_append_singleton _ _).trans (hperm.append_right _)

theorem perm_syscall (r : HeaderRing) (toSubmit : ℕ) (succeeds : Bool) (k : KernelTurn) :
    (r.syscall toSubmit succeeds k).all.Perm r.all := by
  have hfold : ∀ (cs : List (ℕ × ℤ)) (r : HeaderRing), (cs.foldl complete r).all.Perm r.all := by
    intro cs
    induction cs with
    | nil => exact fun r => List.Perm.refl _
    | cons c cs ih => exact fun r => (ih (r.complete c)).trans (r.perm_complete c)
  refine (hfold _ _).trans ?_
  split
  · exact r.perm_consume
  · exact List.Perm.refl _

theorem perm_enter (r : HeaderRing) (toSubmit : ℕ) (e : EnterCall) :
    (r.enter toSubmit e).all.Perm r.all := by
  have hfold : ∀ (ks : List KernelTurn) (r : HeaderRing),
      (ks.foldl (fun r k => r.syscall toSubmit false k) r).all.Perm r.all := by
    intro ks
    induction ks with
    | nil => exact fun r => List.Perm.refl _
    | cons k ks ih => exact fun r => (ih _).trans (r.perm_syscall toSubmit false k)
  exact (perm_syscall _ _ _ _).trans (hfold _ _)

theorem reap_of_only {r : HeaderRing} {want owner : ℕ} (h : r.all.Perm [⟨want, owner⟩]) :
    (∃ c, (reap want r.cq).1 = some c ∧ c.sqe.owner = owner ∧ (r.reaped want).all = [])
      ∨ (reap want r.cq).1 = none ∧ r.reaped want = r := by
  cases hcq : r.cq with
  | nil =>
    refine .inr ⟨rfl, ?_⟩
    rw [reaped, hcq, reap, ← hcq]
  | cons c rest =>
    have hlength := h.length_eq
    unfold all at h hlength
    rw [hcq] at h hlength
    simp only [List.length_append, List.map_cons, List.length_cons, List.length_map,
      List.length_nil] at hlength
    have hsq : r.sq = [] := List.eq_nil_of_length_eq_zero (by omega)
    have hin : r.inflight = [] := List.eq_nil_of_length_eq_zero (by omega)
    have hrest : rest = [] := List.eq_nil_of_length_eq_zero (by omega)
    subst hrest
    rw [hsq, hin] at h
    have hsqe : c.sqe = ⟨want, owner⟩ := List.singleton_perm_singleton.mp h
    refine .inl ⟨c, ?_, ?_, ?_⟩
    · rw [reap, if_neg (by rw [hsqe]; exact not_not.mpr rfl)]
    · rw [hsqe]
    · rw [all, reaped, hcq, reap, if_neg (by rw [hsqe]; exact not_not.mpr rfl)]
      show r.sq ++ r.inflight ++ [] = []
      rw [hsq, hin]
      rfl

def Outcome (owner : ℕ) (es : List EnterCall) (r : HeaderRing) (reply : Reply) : Prop :=
  ((∀ e ∈ es, e.failed = false) ∧ r.all = [] ∧ ∀ c, reply = .completion c → c.sqe.owner = owner)
    ∨ (∃ e ∈ es, e.failed = true) ∧ r.all.Perm [⟨sqeUserDataHdr, owner⟩]

theorem outcome_waitCQE {owner : ℕ} {es : List EnterCall} {r r' : HeaderRing} {reply : Reply}
    (honly : r.all.Perm [⟨sqeUserDataHdr, owner⟩])
    (h : waitCQE sqeUserDataHdr es r = some (r', reply, [])) : Outcome owner es r' reply := by
  induction es generalizing r with
  | nil =>
    rcases reap_of_only honly with ⟨c, hfound, howner, hempty⟩ | ⟨hnone, -⟩
    · rw [waitCQE, hfound] at h
      obtain ⟨rfl, rfl, -⟩ := Prod.mk.injEq .. ▸ Option.some.inj h
      refine .inl ⟨fun e he => (by cases he), hempty, fun c' hc' => ?_⟩
      obtain rfl := Reply.completion.inj hc'
      exact howner
    · rw [waitCQE, hnone] at h
      cases h
  | cons e rest ih =>
    rcases reap_of_only honly with ⟨c, hfound, -, -⟩ | ⟨hnone, hsame⟩
    · rw [waitCQE, hfound] at h
      cases h
    · rw [waitCQE, hnone, hsame] at h
      dsimp only at h
      have honly' : (r.enter 0 e).all.Perm [⟨sqeUserDataHdr, owner⟩] :=
        (r.perm_enter 0 e).trans honly
      split at h
      · next hfailed =>
        obtain ⟨rfl, -, rfl⟩ := Prod.mk.injEq .. ▸ Option.some.inj h
        exact .inr ⟨⟨e, List.mem_cons_self, hfailed⟩, honly'⟩
      · next hok =>
        have hok' : e.failed = false := eq_false_of_ne_true hok
        rcases ih honly' h with ⟨hall, hempty, hown⟩ | ⟨⟨e', he', hfailed⟩, hleft⟩
        · exact .inl ⟨List.forall_mem_cons.mpr ⟨hok', hall⟩, hempty, hown⟩
        · exact .inr ⟨⟨e', List.mem_cons_of_mem _ he', hfailed⟩, hleft⟩

theorem outcome_sendHeaderOnly {owner length : ℕ} {es : List EnterCall} {r r' : HeaderRing}
    {reply : Reply} (hempty : r.all = [])
    (h : r.sendHeaderOnly owner length es = some (r', reply, [])) :
    Outcome owner es r' reply := by
  obtain ⟨hfront, hcq⟩ := List.append_eq_nil_iff.mp hempty
  obtain ⟨hsq, hin⟩ := List.append_eq_nil_iff.mp hfront
  unfold sendHeaderOnly at h
  split at h
  · obtain ⟨rfl, rfl, rfl⟩ := Prod.mk.injEq .. ▸ Option.some.inj h
    exact .inl ⟨fun e he => (by cases he), hempty, fun c hc => (by cases hc)⟩
  · rw [hsq, List.length_nil, if_neg (by have := r.pos; omega)] at h
    have honly : (r.commit ⟨sqeUserDataHdr, owner⟩).all.Perm [⟨sqeUserDataHdr, owner⟩] := by
      show (r.sq ++ [_] ++ r.inflight ++ r.cq.map Cqe.sqe).Perm _
      rw [hsq, hin, hcq]
      exact List.Perm.refl _
    split at h
    · cases h
    · next e rest =>
      dsimp only at h
      have honly' := (perm_enter _ 1 e).trans honly
      split at h
      · next hfailed =>
        obtain ⟨rfl, -, rfl⟩ := Prod.mk.injEq .. ▸ Option.some.inj h
        exact .inr ⟨⟨e, List.mem_cons_self, hfailed⟩, honly'⟩
      · next hok =>
        have hok' : e.failed = false := eq_false_of_ne_true hok
        rcases outcome_waitCQE honly' h with ⟨hall, hempty, hown⟩ | ⟨⟨e', he', hfailed⟩, hleft⟩
        · exact .inl ⟨List.forall_mem_cons.mpr ⟨hok', hall⟩, hempty, hown⟩
        · exact .inr ⟨⟨e', List.mem_cons_of_mem _ he', hfailed⟩, hleft⟩

end HeaderRing

namespace RingUse

def Left (s : RingUse) : Prop := ∀ e ∈ s.ring.all, e.owner < s.calls

theorem Left.selfContained_iff {s : RingUse} (h : s.Left) :
    s.SelfContained
      ↔ s.ring.all = [] ∧ ∀ c, s.reply = some (.completion c) → c.sqe.owner + 1 = s.calls := by
  constructor
  · intro hself
    refine ⟨List.eq_nil_iff_forall_not_mem.mpr (fun e he => ?_), hself.own⟩
    have hlt := h e he
    rcases List.mem_append.mp he with hfront | hcq
    · rcases List.mem_append.mp hfront with hsq | hin
      · exact hself.unsubmitted e hsq hlt
      · exact hself.pending e hin hlt
    · obtain ⟨c, hc, rfl⟩ := List.mem_map.mp hcq
      exact hself.untaken c hc hlt
  · rintro ⟨hempty, hown⟩
    obtain ⟨hfront, hcq⟩ := List.append_eq_nil_iff.mp hempty
    obtain ⟨hsq, hin⟩ := List.append_eq_nil_iff.mp hfront
    refine ⟨hown, fun e he => ?_, fun e he => ?_, fun c hc => ?_⟩
    · rw [hsq] at he
      cases he
    · rw [hin] at he
      cases he
    · rw [List.map_eq_nil_iff.mp hcq] at hc
      cases hc

theorem selfContained_step {s s' : RingUse} {c : HeaderCall} (hleft : s.Left)
    (hself : s.SelfContained) (hs : s.step c = some s') :
    s'.Left ∧ (s'.SelfContained ↔ s.NoFailure c) := by
  unfold step at hs
  split at hs
  · next ring reply hcall =>
    cases hs
    have hempty := (hleft.selfContained_iff.mp hself).1
    rcases HeaderRing.outcome_sendHeaderOnly hempty hcall with
      ⟨hall, hempty', hown⟩ | ⟨⟨e, he, hfailed⟩, hperm⟩
    · have hleft' : Left ⟨ring, s.calls + 1, some reply⟩ := fun e he => by
        rw [hempty'] at he
        cases he
      refine ⟨hleft', iff_of_true (hleft'.selfContained_iff.mpr ⟨hempty', fun c hc => ?_⟩) hall⟩
      rw [hown c (Option.some.inj hc)]
    · have hleft' : Left ⟨ring, s.calls + 1, some reply⟩ := fun e he => by
        rw [List.mem_singleton.mp (hperm.mem_iff.mp he)]
        exact Nat.lt_succ_self _
      refine ⟨hleft', iff_of_false (fun hself' => ?_) (fun hall => ?_)⟩
      · rw [(hleft'.selfContained_iff.mp hself').1] at hperm
        cases hperm.length_eq
      · rw [hall e he] at hfailed
        cases hfailed
  · cases hs

def start (entries : ℕ) (pos : 0 < entries) : RingUse where
  ring := { entries := entries, pos := pos }

/-- **The calls keep to themselves exactly if no system call fails** but by being interrupted.
-/
theorem self_contained_iff_no_failure {entries : ℕ} {pos : 0 < entries} {cs : List HeaderCall}
    {s : RingUse} (hrun : run step (start entries pos) cs = some s) :
    Throughout step SelfContained (start entries pos) cs
      ↔ Meets step NoFailure (start entries pos) cs := by
  have hstep : ∀ s c s', Left s → SelfContained s → True → step s c = some s' →
      Left s' ∧ (SelfContained s' ↔ NoFailure s c) :=
    fun _ _ _ hleft hself _ hs => selfContained_step hleft hself hs
  have hleft : Left (start entries pos) := fun e he => (by cases he)
  have hself : SelfContained (start entries pos) :=
    hleft.selfContained_iff.mpr ⟨rfl, fun c hc => (by cases hc)⟩
  exact throughout_iff_meets hstep hleft hself (fun _ _ => trivial) hrun

def interruptedCalls : List HeaderCall :=
  [⟨9, [⟨[⟨true, []⟩], ⟨false, [(0, 9)]⟩, false⟩]⟩, ⟨9, [⟨[], ⟨false, []⟩, false⟩,
    ⟨[], ⟨false, [(0, 9)]⟩, false⟩]⟩]

theorem self_contained_interrupted :
    (run step (start 4 (by decide)) interruptedCalls).map (·.reply)
        = some (some (.completion ⟨⟨1, 1⟩, 9⟩))
      ∧ Throughout step SelfContained (start 4 (by decide)) interruptedCalls := by
  have hsome : (run step (start 4 (by decide)) interruptedCalls).isSome = true := by decide
  obtain ⟨s, hs⟩ := Option.isSome_iff_exists.mp hsome
  refine ⟨by decide, (self_contained_iff_no_failure hs).mpr ?_⟩
  decide

def failedCall : List HeaderCall :=
  [⟨9, [⟨[], ⟨false, []⟩, true⟩]⟩, ⟨9, [⟨[], ⟨false, [(0, 9)]⟩, false⟩]⟩]

/-- **The second call submits the entry of the first**, and returns what that has come
to; its own entry stays in the queue. -/
theorem second_call_submits_first_entry :
    ∃ s, run step (start 4 (by decide)) failedCall = some s
      ∧ s.reply = some (.completion ⟨⟨1, 0⟩, 9⟩) ∧ s.calls = 2 ∧ s.ring.sq = [⟨1, 1⟩]
      ∧ ¬ s.SelfContained := by
  refine ⟨_, rfl, by decide, by decide, by decide, fun hself => ?_⟩
  exact absurd (hself.own _ rfl) (by decide)

end RingUse

end Coreserver
