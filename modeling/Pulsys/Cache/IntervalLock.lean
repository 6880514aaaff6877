import Mathlib.Data.List.Nodup
import Pulsys.Base.Runs
import Pulsys.Cache.Inflight

/-!
# The ranges in flight, as a lock

A caller that asks `inflightSet` for a range waits while a registered span overlaps it;
`acquireCtx` gives up at a deadline or a cancellation, for which a waker broadcasts. A
ticket is removed by the value of its span, which is the holder's own (`interval_lock`).
-/

namespace Cache

/-! ## Callers -/

inductive CallStage
  | entering
  | arming
  | checking
  | asleep
  | holding
  | bailed
  | releasing
  | released
  deriving DecidableEq, Repr

inductive Waker
  | absent
  | waiting
  | firing
  | finished
  deriving DecidableEq, Repr

structure RangeCaller where
  range : Span
  ctx : Bool := false
  bounded : Bool := false
  stage : CallStage
  waker : Waker := .absent
  cancelled : Bool := false
  expired : Bool := false
  deriving DecidableEq, Repr

namespace RangeCaller

def Tripped (c : RangeCaller) : Prop :=
  (c.ctx = true ∧ c.cancelled = true) ∨ (c.bounded = true ∧ c.expired = true)

instance (c : RangeCaller) : Decidable c.Tripped :=
  inferInstanceAs (Decidable ((c.ctx = true ∧ c.cancelled = true)
    ∨ (c.bounded = true ∧ c.expired = true)))

def Returned (c : RangeCaller) : Prop :=
  c.stage = .holding ∨ c.stage = .bailed ∨ c.stage = .releasing ∨ c.stage = .released

instance (c : RangeCaller) : Decidable c.Returned :=
  inferInstanceAs (Decidable (c.stage = .holding ∨ c.stage = .bailed ∨ c.stage = .releasing
    ∨ c.stage = .released))

def finish (c : RangeCaller) : RangeCaller := { c with waker := .finished }

def wake (c : RangeCaller) : RangeCaller :=
  if c.stage = .asleep then { c with stage := .checking } else c

@[simp]
theorem range_wake (c : RangeCaller) : c.wake.range = c.range := by
  unfold wake
  split <;> rfl

theorem wake_of_ne {c : RangeCaller} (h : c.stage ≠ .asleep) : c.wake = c := if_neg h

theorem stage_wake_ne_asleep (c : RangeCaller) : c.wake.stage ≠ .asleep := by
  unfold wake
  split
  · simp
  · next h => exact h

theorem stage_wake_eq_holding {c : RangeCaller} :
    c.wake.stage = .holding ↔ c.stage = .holding := by
  unfold wake
  split
  · next h => simp [h]
  · rfl

end RangeCaller

/-! ## The set -/

structure InflightSet where
  spans : List Span := []
  callers : ℕ → Option RangeCaller := fun _ => none

inductive LockEvent
  | acquire (i : ℕ) (range : Span)
  | acquireCtx (i : ℕ) (range : Span) (ctx bounded : Bool)
  | enter (i : ℕ)
  | arm (i : ℕ)
  | check (i : ℕ)
  | remove (i : ℕ)
  | broadcast (i : ℕ)
  | expire (i : ℕ)
  | cancel (i : ℕ)
  | fire (i : ℕ)
  | wake (i : ℕ)
  deriving DecidableEq, Repr

def LockEvent.NonEmpty : LockEvent → Prop
  | .acquire _ range => range.start < range.stop
  | .acquireCtx _ range _ _ => range.start < range.stop
  | _ => True

instance : ∀ e : LockEvent, Decidable e.NonEmpty
  | .acquire _ range => inferInstanceAs (Decidable (range.start < range.stop))
  | .acquireCtx _ range _ _ => inferInstanceAs (Decidable (range.start < range.stop))
  | .enter _ | .arm _ | .check _ | .remove _ | .broadcast _ | .expire _ | .cancel _ | .fire _
  | .wake _ => isTrue trivial

namespace InflightSet

def set (s : InflightSet) (i : ℕ) (c : RangeCaller) : InflightSet :=
  { s with callers := Function.update s.callers i (some c) }

def wakeAll (s : InflightSet) : InflightSet :=
  { s with callers := fun j => (s.callers j).map RangeCaller.wake }

def register (s : InflightSet) (i : ℕ) (c : RangeCaller) : InflightSet :=
  { s with spans := s.spans ++ [c.range] }.set i { c with stage := .holding }

def unregister (s : InflightSet) (i : ℕ) (c : RangeCaller) : InflightSet :=
  { s with spans := s.spans.erase c.range }.set i { c with stage := .releasing }

def step (s : InflightSet) : LockEvent → Option InflightSet
  | .acquire i range =>
    if (s.callers i).isSome then none else some (s.set i { range := range, stage := .checking })
  | .acquireCtx i range ctx bounded =>
    if (s.callers i).isSome then none
    else some (s.set i { range := range, ctx := ctx, bounded := bounded, stage := .entering })
  | .enter i => (s.callers i).bind fun c =>
    if c.stage ≠ .entering then none
    else if spansOverlap s.spans c.range then some (s.set i { c with stage := .arming })
    else some (s.register i c)
  | .arm i => (s.callers i).bind fun c =>
    if c.stage ≠ .arming then none
    else some (s.set i { c with stage := .checking, waker := .waiting })
  | .check i => (s.callers i).bind fun c =>
    if c.stage ≠ .checking then none
    else if spansOverlap s.spans c.range then
      some (s.set i { c with stage := if c.Tripped then .bailed else .asleep })
    else some (s.register i c)
  | .remove i => (s.callers i).bind fun c =>
    if c.stage ≠ .holding then none
    else some (s.unregister i c)
  | .broadcast i => (s.callers i).bind fun c =>
    if c.stage ≠ .releasing then none else some (s.wakeAll.set i { c with stage := .released })
  | .expire i => (s.callers i).bind fun c =>
    -- the deadline is set when the waker is started
    if c.bounded = false ∨ c.waker = .absent then none
    else some (s.set i { c with expired := true })
  | .cancel i => (s.callers i).bind fun c =>
    if c.ctx = false then none else some (s.set i { c with cancelled := true })
  | .fire i => (s.callers i).bind fun c =>
    if c.waker = .waiting ∧ (c.Returned ∨ c.Tripped) then
      some (s.set i { c with waker := .firing })
    else none
  | .wake i => (s.callers i).bind fun c =>
    if c.waker ≠ .firing then none else some (s.wakeAll.set i c.wake.finish)

@[simp]
theorem callers_set_self (s : InflightSet) (i : ℕ) (c : RangeCaller) :
    (s.set i c).callers i = some c :=
  Function.update_self _ _ _

variable {i : ℕ} {s s' : InflightSet} {c : RangeCaller} {e : LockEvent}

theorem callers_set_of_ne (s : InflightSet) {j : ℕ} (c : RangeCaller) (h : j ≠ i) :
    (s.set i c).callers j = s.callers j :=
  Function.update_of_ne h _ _

@[simp]
theorem callers_wakeAll (s : InflightSet) (j : ℕ) :
    s.wakeAll.callers j = (s.callers j).map RangeCaller.wake := rfl

theorem forall_callers_set {P : RangeCaller → Prop} (hs : ∀ j d, s.callers j = some d → P d)
    (hc : P c) : ∀ j d, (s.set i c).callers j = some d → P d := by
  intro j d hd
  by_cases hj : j = i
  · subst hj
    rw [callers_set_self] at hd
    cases hd
    exact hc
  · rw [callers_set_of_ne _ _ hj] at hd
    exact hs j d hd

theorem forall_callers_wakeAll {P : RangeCaller → Prop}
    (hs : ∀ j d, s.callers j = some d → P d.wake) : ∀ j d, s.wakeAll.callers j = some d → P d := by
  intro j d hd
  obtain ⟨c, hc, rfl⟩ := Option.map_eq_some_iff.mp hd
  exact hs j c hc

inductive Moves (s : InflightSet) : LockEvent → InflightSet → Prop
  | acquire {i : ℕ} {range : Span} (hnew : s.callers i = none) :
    Moves s (.acquire i range) (s.set i { range := range, stage := .checking })
  | acquireCtx {i : ℕ} {range : Span} {ctx bounded : Bool} (hnew : s.callers i = none) :
    Moves s (.acquireCtx i range ctx bounded)
      (s.set i { range := range, ctx := ctx, bounded := bounded, stage := .entering })
  | enterFree {i : ℕ} {c : RangeCaller} (hc : s.callers i = some c) (hst : c.stage = .entering)
      (hfree : spansOverlap s.spans c.range = false) : Moves s (.enter i) (s.register i c)
  | enterBusy {i : ℕ} {c : RangeCaller} (hc : s.callers i = some c) (hst : c.stage = .entering)
      (hbusy : spansOverlap s.spans c.range = true) :
    Moves s (.enter i) (s.set i { c with stage := .arming })
  | arm {i : ℕ} {c : RangeCaller} (hc : s.callers i = some c) (hst : c.stage = .arming) :
    Moves s (.arm i) (s.set i { c with stage := .checking, waker := .waiting })
  | checkFree {i : ℕ} {c : RangeCaller} (hc : s.callers i = some c) (hst : c.stage = .checking)
      (hfree : spansOverlap s.spans c.range = false) : Moves s (.check i) (s.register i c)
  | bail {i : ℕ} {c : RangeCaller} (hc : s.callers i = some c) (hst : c.stage = .checking)
      (hbusy : spansOverlap s.spans c.range = true) (htrip : c.Tripped) :
    Moves s (.check i) (s.set i { c with stage := .bailed })
  | sleep {i : ℕ} {c : RangeCaller} (hc : s.callers i = some c) (hst : c.stage = .checking)
      (hbusy : spansOverlap s.spans c.range = true) (htrip : ¬ c.Tripped) :
    Moves s (.check i) (s.set i { c with stage := .asleep })
  | remove {i : ℕ} {c : RangeCaller} (hc : s.callers i = some c) (hst : c.stage = .holding) :
    Moves s (.remove i) (s.unregister i c)
  | broadcast {i : ℕ} {c : RangeCaller} (hc : s.callers i = some c) (hst : c.stage = .releasing) :
    Moves s (.broadcast i) (s.wakeAll.set i { c with stage := .released })
  | expire {i : ℕ} {c : RangeCaller} (hc : s.callers i = some c) (hb : c.bounded = true)
      (hw : c.waker ≠ .absent) : Moves s (.expire i) (s.set i { c with expired := true })
  | cancel {i : ℕ} {c : RangeCaller} (hc : s.callers i = some c) (hctx : c.ctx = true) :
    Moves s (.cancel i) (s.set i { c with cancelled := true })
  | fire {i : ℕ} {c : RangeCaller} (hc : s.callers i = some c) (hw : c.waker = .waiting)
      (hwhy : c.Returned ∨ c.Tripped) : Moves s (.fire i) (s.set i { c with waker := .firing })
  | wake {i : ℕ} {c : RangeCaller} (hc : s.callers i = some c) (hw : c.waker = .firing) :
    Moves s (.wake i) (s.wakeAll.set i c.wake.finish)

theorem moves_of_step (h : s.step e = some s') : Moves s e s' := by
  cases e with
  | acquire i | acquireCtx i =>
    -- the number is new, or the step is none
    cases hnew : s.callers i <;> grind [step, Moves]
  | enter i | arm i | check i | remove i | broadcast i | expire i | cancel i | fire i | wake i =>
    obtain ⟨c, hc, h⟩ := Option.bind_eq_some_iff.mp h
    grind [Moves]

/-! ## Tickets -/

def Holds (s : InflightSet) (i : ℕ) (sp : Span) : Prop :=
  ∃ c, s.callers i = some c ∧ c.stage = .holding ∧ c.range = sp

inductive Effect (s s' : InflightSet) : Prop
  | none (hspans : s'.spans = s.spans) (hholds : ∀ j sp, s'.Holds j sp ↔ s.Holds j sp)
  | gain (i : ℕ) (sp : Span) (hfree : spansOverlap s.spans sp = false)
      (hnone : ∀ x, ¬ s.Holds i x) (hne : ∃ c, s.callers i = some c ∧ c.range = sp)
      (hspans : s'.spans = s.spans ++ [sp])
      (hholds : ∀ j x, s'.Holds j x ↔ s.Holds j x ∨ (j = i ∧ x = sp))
  | lose (i : ℕ) (sp : Span) (hown : s.Holds i sp) (hspans : s'.spans = s.spans.erase sp)
      (hholds : ∀ j x, s'.Holds j x ↔ s.Holds j x ∧ j ≠ i)

theorem holds_iff_of_callers {j : ℕ} (h : s'.callers j = s.callers j) (sp : Span) :
    s'.Holds j sp ↔ s.Holds j sp := by
  unfold Holds
  rw [h]

theorem not_holds_of_stage (hc : s.callers i = some c) (hst : c.stage ≠ .holding) (sp : Span) :
    ¬ s.Holds i sp := by
  rintro ⟨c', hc', hst', -⟩
  cases hc.symm.trans hc'
  exact hst hst'

theorem holds_set_iff (hold : ∀ sp, ¬ s.Holds i sp) (hst : c.stage ≠ .holding) (j : ℕ) (sp : Span) :
    (s.set i c).Holds j sp ↔ s.Holds j sp := by
  by_cases hj : j = i
  · subst hj
    exact iff_of_false (not_holds_of_stage (callers_set_self s j c) hst sp) (hold sp)
  · exact holds_iff_of_callers (callers_set_of_ne s c hj) sp

theorem holds_set_same {c' : RangeCaller} (hc : s.callers i = some c) (hst : c'.stage = c.stage)
    (hr : c'.range = c.range) (j : ℕ) (sp : Span) : (s.set i c').Holds j sp ↔ s.Holds j sp := by
  by_cases hj : j = i
  · subst hj
    unfold Holds
    simp [hc, hst, hr]
  · exact holds_iff_of_callers (callers_set_of_ne s c' hj) sp

theorem holds_wakeAll (s : InflightSet) (j : ℕ) (sp : Span) :
    s.wakeAll.Holds j sp ↔ s.Holds j sp := by
  unfold Holds
  cases hc : s.callers j with
  | none => simp [hc]
  | some c => simp [hc, RangeCaller.stage_wake_eq_holding]

theorem holds_register (hc : s.callers i = some c) (hst : c.stage ≠ .holding) (j : ℕ) (x : Span) :
    (s.register i c).Holds j x ↔ s.Holds j x ∨ (j = i ∧ x = c.range) := by
  unfold register
  by_cases hj : j = i
  · subst hj
    have hno := not_holds_of_stage hc hst x
    simp only [hno, false_or, true_and]
    unfold Holds
    simp [eq_comm]
  · have hkeep : ({ s with spans := s.spans ++ [c.range] } : InflightSet).Holds j x
        ↔ s.Holds j x := Iff.rfl
    rw [holds_iff_of_callers (callers_set_of_ne _ _ hj), hkeep]
    simp [hj]

theorem holds_unregister (s : InflightSet) (i : ℕ) (c : RangeCaller) (j : ℕ) (x : Span) :
    (s.unregister i c).Holds j x ↔ s.Holds j x ∧ j ≠ i := by
  unfold unregister
  by_cases hj : j = i
  · subst hj
    exact iff_of_false
      (not_holds_of_stage (callers_set_self _ _ _) (by simp) x) (fun h => h.2 rfl)
  · have hkeep : ({ s with spans := s.spans.erase c.range } : InflightSet).Holds j x
        ↔ s.Holds j x := Iff.rfl
    rw [holds_iff_of_callers (callers_set_of_ne _ _ hj), hkeep]
    simp [hj]

theorem effect_of_moves (h : Moves s e s') : Effect s s' := by
  have hnew : ∀ i, s.callers i = none → ∀ sp, ¬ s.Holds i sp := by
    rintro i hnone sp ⟨c, hc, -, -⟩
    rw [hnone] at hc
    cases hc
  have hgain : ∀ {i : ℕ} {c : RangeCaller}, s.callers i = some c → c.stage ≠ .holding →
      spansOverlap s.spans c.range = false → Effect s (s.register i c) := by
    intro i c hc hst hfree
    exact .gain i c.range hfree (not_holds_of_stage hc hst) ⟨c, hc, rfl⟩ rfl
      (holds_register hc hst)
  cases h with
  | acquire hnone => exact .none rfl (holds_set_iff (hnew _ hnone) (by simp))
  | acquireCtx hnone => exact .none rfl (holds_set_iff (hnew _ hnone) (by simp))
  | enterFree hc hst hfree => exact hgain hc (by simp [hst]) hfree
  | checkFree hc hst hfree => exact hgain hc (by simp [hst]) hfree
  | enterBusy hc hst hbusy =>
    exact .none rfl (holds_set_iff (not_holds_of_stage hc (by simp [hst])) (by simp))
  | arm hc hst =>
    exact .none rfl (holds_set_iff (not_holds_of_stage hc (by simp [hst])) (by simp))
  | bail hc hst hbusy htrip =>
    exact .none rfl (holds_set_iff (not_holds_of_stage hc (by simp [hst])) (by simp))
  | sleep hc hst hbusy htrip =>
    exact .none rfl (holds_set_iff (not_holds_of_stage hc (by simp [hst])) (by simp))
  | @remove i c hc hst => exact .lose i c.range ⟨c, hc, hst, rfl⟩ rfl (holds_unregister s i c)
  | @broadcast i c hc hst =>
    refine .none rfl (fun j sp => ?_)
    have hno : ∀ x, ¬ s.wakeAll.Holds i x := fun x hx =>
      not_holds_of_stage hc (by simp [hst]) x ((holds_wakeAll s i x).mp hx)
    rw [holds_set_iff hno (by simp), holds_wakeAll]
  | expire hc hb hw => exact .none rfl (holds_set_same hc rfl rfl)
  | cancel hc hctx => exact .none rfl (holds_set_same hc rfl rfl)
  | fire hc hw hwhy => exact .none rfl (holds_set_same hc rfl rfl)
  | @wake i c hc hw =>
    refine .none rfl (fun j sp => ?_)
    have hwoken : s.wakeAll.callers i = some c.wake := by simp [hc]
    exact (@holds_set_same _ _ c.wake c.wake.finish hwoken rfl rfl j sp).trans
      (holds_wakeAll s j sp)

/-! ## The invariant -/

structure Locked (s : InflightSet) : Prop where
  apart : s.spans.Pairwise Span.Apart
  mem_iff : ∀ sp, sp ∈ s.spans ↔ ∃ i, s.Holds i sp
  tickets : ∀ i j sp sp', s.Holds i sp → s.Holds j sp' → i ≠ j → sp.Apart sp'
  nonempty : ∀ i c, s.callers i = some c → c.range.start < c.range.stop

theorem Locked.nonempty_of_holds (h : s.Locked) {sp : Span} (hi : s.Holds i sp) :
    sp.start < sp.stop := by
  obtain ⟨c, hc, -, rfl⟩ := hi
  exact h.nonempty i c hc

theorem Locked.nodup (h : s.Locked) : s.spans.Nodup := by
  refine h.apart.imp_of_mem (fun {a b} ha _ hab => ?_)
  obtain ⟨i, hi⟩ := (h.mem_iff a).mp ha
  exact (hab.ne (h.nonempty_of_holds hi)).symm

theorem nonempty_of_moves (he : e.NonEmpty)
    (hold : ∀ i c, s.callers i = some c → c.range.start < c.range.stop) (h : Moves s e s') :
    ∀ i c, s'.callers i = some c → c.range.start < c.range.stop := by
  have hwake : ∀ i c, s.wakeAll.callers i = some c → c.range.start < c.range.stop :=
    forall_callers_wakeAll (fun i c hc => by simpa using hold i c hc)
  cases h with
  | acquire hnew => exact forall_callers_set hold he
  | acquireCtx hnew => exact forall_callers_set hold he
  | enterFree hc | checkFree hc =>
    have hrange := hold _ _ hc
    exact forall_callers_set hold hrange
  | enterBusy hc | arm hc | bail hc | sleep hc | remove hc | expire hc | cancel hc | fire hc =>
    have hrange := hold _ _ hc
    exact forall_callers_set hold hrange
  | broadcast hc hst =>
    have hrange := hold _ _ hc
    exact forall_callers_set hwake hrange
  | @wake i c hc hw =>
    have hrange : c.wake.range.start < c.wake.range.stop := by simpa using hold _ _ hc
    exact forall_callers_set hwake hrange

theorem Locked.step (h : s.Locked) (he : e.NonEmpty) (hs : s.step e = some s') : s'.Locked := by
  have hmoves := moves_of_step hs
  have hnonempty := nonempty_of_moves he h.nonempty hmoves
  cases effect_of_moves hmoves with
  | none hspans hholds =>
    refine ⟨hspans ▸ h.apart, fun sp => ?_, fun i j sp sp' hi hj => ?_, hnonempty⟩
    · rw [hspans, h.mem_iff]
      simp only [hholds]
    · exact h.tickets i j sp sp' ((hholds i sp).mp hi) ((hholds j sp').mp hj)
  | gain i sp hfree hnone hne hspans hholds =>
    -- the range is apart from the registered spans, hence from those of the tickets
    have hapart : ∀ x ∈ s.spans, sp.Apart x := fun x hx => apart_of_spansOverlap hfree hx
    refine ⟨?_, fun x => ?_, fun j k x y hj hk hjk => ?_, hnonempty⟩
    · rw [hspans, List.pairwise_append]
      refine ⟨h.apart, List.pairwise_singleton _ _, fun x hx y hy => ?_⟩
      rw [List.mem_singleton.mp hy]
      exact (hapart x hx).symm
    · rw [hspans, List.mem_append, List.mem_singleton, h.mem_iff]
      simp only [hholds]
      constructor
      · rintro (⟨j, hj⟩ | rfl)
        · exact ⟨j, .inl hj⟩
        · exact ⟨i, .inr ⟨rfl, rfl⟩⟩
      · rintro ⟨j, hj | ⟨-, rfl⟩⟩
        · exact .inl ⟨j, hj⟩
        · exact .inr rfl
    · rcases (hholds j x).mp hj with hj | ⟨rfl, rfl⟩
      · rcases (hholds k y).mp hk with hk | ⟨rfl, rfl⟩
        · exact h.tickets j k x y hj hk hjk
        · exact (hapart x ((h.mem_iff x).mpr ⟨j, hj⟩)).symm
      · rcases (hholds k y).mp hk with hk | ⟨rfl, rfl⟩
        · exact hapart y ((h.mem_iff y).mpr ⟨k, hk⟩)
        · exact absurd rfl hjk
  | lose i sp hown hspans hholds =>
    refine ⟨?_, fun x => ?_, fun j k x y hj hk => ?_, hnonempty⟩
    · rw [hspans]
      exact h.apart.sublist List.erase_sublist
    · rw [hspans, h.nodup.mem_erase_iff, h.mem_iff]
      simp only [hholds]
      constructor
      · rintro ⟨hne, j, hj⟩
        refine ⟨j, hj, ?_⟩
        rintro rfl
        obtain ⟨c, hc, -, rfl⟩ := hown
        obtain ⟨c', hc', -, rfl⟩ := hj
        cases hc.symm.trans hc'
        exact hne rfl
      · rintro ⟨j, hj, hji⟩
        exact ⟨(h.tickets i j sp x hown hj (Ne.symm hji)).ne (h.nonempty_of_holds hown),
          j, hj⟩
    · exact h.tickets j k x y ((hholds j x).mp hj).1 ((hholds k y).mp hk).1

theorem locked_empty : Locked {} where
  apart := List.Pairwise.nil
  mem_iff sp := by simp [Holds]
  tickets i j sp sp' hi := by
    obtain ⟨c, hc, -, -⟩ := hi
    cases hc
  nonempty i c hc := by cases hc

theorem locked_of_run {es : List LockEvent} (hne : ∀ e ∈ es, e.NonEmpty)
    (hrun : Runs.run step {} es = some s) : s.Locked := by
  have hstep : ∀ (t : InflightSet) (e : LockEvent) (t' : InflightSet), t.Locked →
      e.NonEmpty ∧ True → t.step e = some t' → t'.Locked :=
    fun t e t' ht he hs => ht.step he.1 hs
  exact Runs.invariant hstep locked_empty ((Runs.meets_true _ _).and_of_forall hne) hrun

/-- **The set is an interval lock**, after any interleaving of any number of callers. -/
theorem interval_lock {es : List LockEvent} {s : InflightSet} (hne : ∀ e ∈ es, e.NonEmpty)
    (hrun : Runs.run step {} es = some s) :
    s.spans.Pairwise Span.Apart
      ∧ (s.spans.Nodup ∧ (∀ sp, sp ∈ s.spans ↔ ∃ i, s.Holds i sp)
        ∧ ∀ i j sp, s.Holds i sp → s.Holds j sp → i = j)
      ∧ (∀ i s' c, s.step (.check i) = some s' → s'.callers i = some c → c.stage = .bailed →
          s'.spans = s.spans ∧ ∀ j sp, s'.Holds j sp ↔ s.Holds j sp)
      ∧ (∀ i s', s.step (.remove i) = some s' →
          ∃ sp, s.Holds i sp ∧ s.spans.Perm (sp :: s'.spans) ∧ sp ∉ s'.spans
            ∧ ∀ j x, s'.Holds j x ↔ s.Holds j x ∧ j ≠ i) := by
  have h := locked_of_run hne hrun
  refine ⟨h.apart, ⟨h.nodup, h.mem_iff, ?_⟩, ?_, ?_⟩
  · intro i j sp hi hj
    by_contra hij
    exact (h.tickets i j sp sp hi hj hij).ne (h.nonempty_of_holds hi) rfl
  · intro i s' c' hs hc' hst'
    have hbail : ∀ sp, ¬ s'.Holds i sp := not_holds_of_stage hc' (by simp [hst'])
    cases moves_of_step hs with
    | @checkFree i c hc hst hfree =>
      exact absurd ⟨_, callers_set_self _ _ _, rfl, rfl⟩ (hbail c.range)
    | bail hc hst hbusy htrip =>
      exact ⟨rfl, holds_set_iff (not_holds_of_stage hc (by simp [hst])) (by simp)⟩
    | sleep hc hst hbusy htrip =>
      exact ⟨rfl, holds_set_iff (not_holds_of_stage hc (by simp [hst])) (by simp)⟩
  · intro i s' hs
    cases moves_of_step hs with
    | @remove i c hc hst =>
      have hown : s.Holds i c.range := ⟨c, hc, hst, rfl⟩
      have hmem : c.range ∈ s.spans := (h.mem_iff _).mpr ⟨i, hown⟩
      exact ⟨c.range, hown, List.perm_cons_erase hmem, h.nodup.not_mem_erase,
        holds_unregister s i c⟩

def bailingRun : List LockEvent :=
  [.acquire 1 ⟨0, 2⟩, .check 1, .acquireCtx 2 ⟨1, 3⟩ true true, .enter 2, .arm 2, .check 2,
    .acquire 3 ⟨2, 4⟩, .check 3, .expire 2, .fire 2, .wake 2, .check 2, .remove 1, .broadcast 1]

theorem interval_lock_bailing :
    ∃ s, Runs.run step {} bailingRun = some s ∧ s.spans = [⟨2, 4⟩]
      ∧ s.spans.Pairwise Span.Apart :=
  ⟨_, rfl, rfl, (interval_lock (show ∀ e ∈ bailingRun, e.NonEmpty by decide) rfl).1⟩

end InflightSet

end Cache
