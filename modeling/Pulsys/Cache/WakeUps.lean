import Pulsys.Base.Fairness
import Pulsys.Cache.IntervalLock

/-!
# Nobody sleeps for nothing

Whatever changes what a sleeping caller has seen leaves a thread with a broadcast to come
(`pending_of_asleep`). So it is woken – perhaps to find the range taken again, for ever
(`starved_caller`) – and returns if the range stays free (`wakes_and_returns`).
-/

namespace Cache

open Runs

/-! ## Wakers -/

structure RangeCaller.Watched (c : RangeCaller) : Prop where
  present : c.stage = .checking ∨ c.stage = .asleep → c.ctx = true ∨ c.bounded = true →
    c.waker ≠ .absent
  reason : c.waker = .firing ∨ c.waker = .finished → c.Returned ∨ c.Tripped
  asleep : c.stage = .asleep → c.waker ≠ .finished

namespace RangeCaller

variable {c : RangeCaller}

theorem Tripped.armed (h : c.Tripped) : c.ctx = true ∨ c.bounded = true :=
  h.imp And.left And.left

theorem tripped_wake : c.wake.Tripped ↔ c.Tripped := by
  unfold wake
  split <;> rfl

theorem waker_wake (c : RangeCaller) : c.wake.waker = c.waker := by
  unfold wake
  split <;> rfl

theorem Returned.wake_eq (h : c.Returned) : c.wake = c := by
  refine wake_of_ne (fun hst => ?_)
  simp [Returned, hst] at h

theorem Returned.wake (h : c.Returned) : c.wake.Returned := by
  rwa [h.wake_eq]

theorem Watched.waker_of_asleep (h : c.Watched) (hst : c.stage = .asleep) (htrip : c.Tripped) :
    c.waker = .waiting ∨ c.waker = .firing := by
  have hpresent := h.present (.inr hst) htrip.armed
  have hunfinished := h.asleep hst
  cases hw : c.waker with
  | absent => exact absurd hw hpresent
  | waiting => exact .inl rfl
  | firing => exact .inr rfl
  | finished => exact absurd hw hunfinished

theorem Watched.wake (h : c.Watched) : c.wake.Watched where
  present hst harmed := by
    rw [waker_wake]
    by_cases hsleep : c.stage = .asleep
    · refine h.present (.inr hsleep) ?_
      rwa [show c.wake = { c with stage := .checking } from if_pos hsleep] at harmed
    · rw [wake_of_ne hsleep] at hst harmed
      exact h.present hst harmed
  reason hw := by
    rw [waker_wake] at hw
    exact (h.reason hw).imp Returned.wake tripped_wake.mpr
  asleep hst := absurd hst c.stage_wake_ne_asleep

theorem watched_of_returned (h : c.Returned) : c.Watched where
  present hst := by
    rcases hst with hst | hst <;> simp [Returned, hst] at h
  reason _ := .inl h
  asleep hst := by simp [Returned, hst] at h

end RangeCaller

namespace InflightSet

variable {s s' : InflightSet} {e : LockEvent} {i j : ℕ} {c : RangeCaller}

theorem watched_of_moves (h : ∀ i c, s.callers i = some c → c.Watched) (hm : Moves s e s') :
    ∀ i c, s'.callers i = some c → c.Watched := by
  have hwake : ∀ i c, s.wakeAll.callers i = some c → c.Watched :=
    forall_callers_wakeAll (fun i c hc => (h i c hc).wake)
  cases hm with
  | acquire hnew =>
    refine forall_callers_set h ⟨fun _ harmed => ?_, fun hw => ?_, fun _ => ?_⟩ <;> simp_all
  | acquireCtx hnew =>
    refine forall_callers_set h ⟨fun hst => ?_, fun hw => ?_, fun _ => ?_⟩ <;> simp_all
  | enterFree hc | checkFree hc =>
    exact forall_callers_set h (RangeCaller.watched_of_returned (.inl rfl))
  | @enterBusy i c hc hst hbusy =>
    refine forall_callers_set h ⟨fun hst' => ?_, fun hw => .inr ?_, fun hst' => ?_⟩
    · rcases hst' with hst' | hst' <;> cases hst'
    · refine ((h i c hc).reason hw).resolve_left (fun hret => ?_)
      simp [RangeCaller.Returned, hst] at hret
    · cases hst'
  | arm hc hst =>
    refine forall_callers_set h ⟨fun _ _ => by simp, fun hw => ?_, fun hst' => ?_⟩
    · rcases hw with hw | hw <;> cases hw
    · cases hst'
  | bail hc hst hbusy htrip =>
    exact forall_callers_set h (RangeCaller.watched_of_returned (.inr (.inl rfl)))
  | @sleep i c hc hst hbusy htrip =>
    -- without a reason to give up the waker has not gone off
    have hquiet : ¬ (c.waker = .firing ∨ c.waker = .finished) := by
      intro hw
      rcases (h i c hc).reason hw with hret | hret
      · simp [RangeCaller.Returned, hst] at hret
      · exact htrip hret
    refine forall_callers_set h ⟨fun _ => (h i c hc).present (.inl hst), fun hw => ?_,
      fun _ hfin => hquiet (.inr hfin)⟩
    exact absurd hw hquiet
  | remove hc hst =>
    exact forall_callers_set h (RangeCaller.watched_of_returned (.inr (.inr (.inl rfl))))
  | broadcast hc hst =>
    exact forall_callers_set hwake (RangeCaller.watched_of_returned (.inr (.inr (.inr rfl))))
  | @expire i c hc hb hw =>
    have hold := h i c hc
    refine forall_callers_set h ⟨hold.present, fun hw' => ?_, hold.asleep⟩
    exact (hold.reason hw').imp_right (fun ht => ht.imp_right (fun hb' => ⟨hb'.1, rfl⟩))
  | @cancel i c hc hctx =>
    have hold := h i c hc
    refine forall_callers_set h ⟨hold.present, fun hw' => ?_, hold.asleep⟩
    exact (hold.reason hw').imp_right (fun ht => ht.imp_left (fun hc' => ⟨hc'.1, rfl⟩))
  | @fire i c hc hw hwhy =>
    refine forall_callers_set h ⟨fun _ _ => by simp, fun _ => hwhy, fun _ => by simp⟩
  | @wake i c hc hw =>
    have hold := (h i c hc).wake
    refine forall_callers_set hwake ⟨fun _ _ => by simp [RangeCaller.finish], fun _ => ?_,
      fun hst => absurd hst c.stage_wake_ne_asleep⟩
    exact hold.reason (.inl (by rw [RangeCaller.waker_wake, hw]))

/-! ## Broadcasts still to come -/

def Pending (s : InflightSet) : Prop := ∃ j d, s.callers j = some d ∧ d.stage = .releasing

def Justified (s : InflightSet) : Prop :=
  ∀ i c, s.callers i = some c → c.stage = .asleep →
    spansOverlap s.spans c.range = true ∨ s.Pending

theorem spansOverlap_append {set : List Span} {sp : Span} (h : spansOverlap set sp = true)
    (more : List Span) : spansOverlap (set ++ more) sp = true := by
  unfold spansOverlap at h ⊢
  rw [List.any_append, h, Bool.true_or]

theorem Pending.set (h : s.Pending)
    (hkeep : ∀ d, s.callers i = some d → d.stage = .releasing → c.stage = .releasing) :
    (s.set i c).Pending := by
  obtain ⟨j, d, hd, hst⟩ := h
  by_cases hj : j = i
  · subst hj
    exact ⟨j, c, callers_set_self s j c, hkeep d hd hst⟩
  · exact ⟨j, d, by rwa [callers_set_of_ne s c hj], hst⟩

theorem Justified.set (h : s.Justified)
    (hkeep : ∀ d, s.callers i = some d → d.stage = .releasing → c.stage = .releasing)
    (hown : c.stage = .asleep → spansOverlap s.spans c.range = true ∨ s.Pending) :
    (s.set i c).Justified := by
  refine forall_callers_set (fun j d hd hst => ?_) (fun hst => ?_)
  · exact (h j d hd hst).imp_right (fun hp => hp.set hkeep)
  · exact (hown hst).imp_right (fun hp => hp.set hkeep)

theorem justified_of_wakeAll (hc : c.stage ≠ .asleep) : (s.wakeAll.set i c).Justified := by
  refine forall_callers_set ?_ (fun hst => absurd hst hc)
  exact forall_callers_wakeAll (fun j d _ hst => absurd hst d.stage_wake_ne_asleep)

theorem justified_of_moves (h : s.Justified) (hm : Moves s e s') : s'.Justified := by
  -- the caller of the step was at another stage than releasing
  have hstage : ∀ {i : ℕ} {c : RangeCaller} {st : CallStage} {P : Prop}, s.callers i = some c →
      c.stage = st → st ≠ .releasing → ∀ d, s.callers i = some d → d.stage = .releasing → P := by
    intro i c st P hc hst hne d hd hd'
    cases hc.symm.trans hd
    exact absurd (hst.symm.trans hd') hne
  have hregister : ∀ (i : ℕ) (c : RangeCaller), s.callers i = some c → c.stage ≠ .releasing →
      (s.register i c).Justified := by
    intro i c hc hst
    have hmore : ({ s with spans := s.spans ++ [c.range] } : InflightSet).Justified :=
      fun j d hd hsleep => (h j d hd hsleep).imp_left (fun ho => spansOverlap_append ho _)
    exact hmore.set (hstage hc rfl hst) (fun hsleep => by cases hsleep)
  cases hm with
  | acquire hnew | acquireCtx hnew =>
    refine h.set (fun d hd => ?_) (fun hsleep => by cases hsleep)
    rw [hnew] at hd
    cases hd
  | enterFree hc hst hfree | checkFree hc hst hfree => exact hregister _ _ hc (by simp [hst])
  | enterBusy hc hst | arm hc hst | bail hc hst =>
    exact h.set (hstage hc hst (by simp)) (fun hsleep => by cases hsleep)
  | sleep hc hst hbusy htrip => exact h.set (hstage hc hst (by simp)) (fun _ => .inl hbusy)
  | @remove i c hc hst =>
    intro j d hd hsleep
    exact .inr ⟨i, _, callers_set_self _ _ _, rfl⟩
  | broadcast hc hst => exact justified_of_wakeAll (by simp)
  | @expire i c hc | @cancel i c hc | @fire i c hc =>
    refine h.set (fun d hd hst => ?_) (fun hsleep => h i c hc hsleep)
    cases hc.symm.trans hd
    exact hst
  | @wake i c hc hw => exact justified_of_wakeAll c.stage_wake_ne_asleep

structure Attended (s : InflightSet) : Prop where
  watched : ∀ i c, s.callers i = some c → c.Watched
  justified : s.Justified

theorem attended_empty : Attended {} := by
  constructor
  · rintro i c ⟨⟩
  · rintro i c ⟨⟩

theorem Attended.step (h : s.Attended) (hs : s.step e = some s') : s'.Attended :=
  ⟨watched_of_moves h.watched (moves_of_step hs),
    justified_of_moves h.justified (moves_of_step hs)⟩

theorem attended_of_run {es : List LockEvent} (hrun : run step {} es = some s) : s.Attended :=
  invariant_of_step (fun _ _ _ ht hs => ht.step hs) attended_empty hrun

theorem Attended.pending_of_asleep (h : s.Attended) (hc : s.callers i = some c)
    (hst : c.stage = .asleep) :
    (spansOverlap s.spans c.range = false →
        ∃ j d, j ≠ i ∧ s.callers j = some d ∧ d.stage = .releasing)
      ∧ (c.Tripped → c.waker = .waiting ∨ c.waker = .firing) := by
  refine ⟨fun hfree => ?_, (h.watched i c hc).waker_of_asleep hst⟩
  rcases h.justified i c hc hst with hbusy | ⟨j, d, hd, hrel⟩
  · rw [hfree] at hbusy
    cases hbusy
  · refine ⟨j, d, ?_, hd, hrel⟩
    rintro rfl
    cases hc.symm.trans hd
    rw [hst] at hrel
    cases hrel

/-! ## What a fair scheduler brings about -/

inductive LockThread
  | caller (i : ℕ)
  | waker (i : ℕ)
  deriving DecidableEq, Repr

def threadOf : LockEvent → Option LockThread
  | .enter i | .arm i | .check i | .broadcast i => some (.caller i)
  | .fire i | .wake i => some (.waker i)
  | .acquire _ _ | .acquireCtx _ _ _ _ | .remove _ | .expire _ | .cancel _ => none

def Scheduled (t : Trace step) : Prop := ∀ th, t.Fair (fun e => threadOf e = some th)

def Begun (t : Trace step) : Prop := ∃ es, run step {} es = some (t.state 0)

theorem attended_of_begun {t : Trace step} (h : Begun t) (n : ℕ) : (t.state n).Attended := by
  obtain ⟨es, hrun⟩ := h
  have hstep : ∀ (s : InflightSet) (e : LockEvent) (s' : InflightSet), s.Attended →
      s.step e = some s' → s'.Attended := fun s e s' hs hstep => hs.step hstep
  exact t.invariant hstep (attended_of_run hrun) (Nat.zero_le n)

def At (i : ℕ) (st : CallStage) (s : InflightSet) : Prop :=
  ∃ c, s.callers i = some c ∧ c.stage = st

structure Bystands (c c' : RangeCaller) (own : Prop) : Prop where
  range : c'.range = c.range
  tripped : c.Tripped → c'.Tripped
  stage : c'.stage = c.stage ∨ c'.stage = c.wake.stage
  waker : c'.waker = c.waker ∨ own

theorem Bystands.refl (c : RangeCaller) (own : Prop) : Bystands c c own :=
  ⟨rfl, id, .inl rfl, .inl rfl⟩

theorem Bystands.wake (c : RangeCaller) (own : Prop) : Bystands c c.wake own :=
  ⟨c.range_wake, RangeCaller.tripped_wake.mpr, .inr rfl, .inl c.waker_wake⟩

theorem bystands_of_moves (hc : s.callers i = some c) (hm : Moves s e s') :
    threadOf e = some (.caller i) ∨ e = .remove i
      ∨ ∃ c', s'.callers i = some c' ∧ Bystands c c' (threadOf e = some (.waker i)) := by
  have hother : ∀ {t : InflightSet} {j : ℕ} {d : RangeCaller} {own : Prop},
      t.callers i = some c → j ≠ i →
      ∃ c', (t.set j d).callers i = some c' ∧ Bystands c c' own := by
    intro t j d own ht hj
    exact ⟨c, by rw [callers_set_of_ne _ _ hj.symm, ht], .refl c own⟩
  have hwoken : ∀ {j : ℕ} {d : RangeCaller} {own : Prop}, j ≠ i →
      ∃ c', (s.wakeAll.set j d).callers i = some c' ∧ Bystands c c' own := by
    intro j d own hj
    refine ⟨c.wake, ?_, .wake c own⟩
    rw [callers_set_of_ne _ _ hj.symm, callers_wakeAll, hc]
    rfl
  cases hm with
  | @acquire j range hnew | @acquireCtx j range ctx bounded hnew =>
    refine .inr (.inr (hother hc ?_))
    rintro rfl
    rw [hnew] at hc
    cases hc
  | @enterFree j d hd | @checkFree j d hd =>
    by_cases hj : j = i
    · exact .inl (by rw [hj]; rfl)
    · exact .inr (.inr (hother (t := { s with spans := s.spans ++ [d.range] }) hc hj))
  | @enterBusy j d hd | @arm j d hd | @bail j d hd | @sleep j d hd =>
    by_cases hj : j = i
    · exact .inl (by rw [hj]; rfl)
    · exact .inr (.inr (hother hc hj))
  | @remove j d hd hst =>
    by_cases hj : j = i
    · exact .inr (.inl (by rw [hj]))
    · exact .inr (.inr (hother (t := { s with spans := s.spans.erase d.range }) hc hj))
  | @broadcast j d hd hst =>
    by_cases hj : j = i
    · exact .inl (by rw [hj]; rfl)
    · exact .inr (.inr (hwoken hj))
  | @expire j d hd hb hw =>
    by_cases hj : j = i
    · subst hj
      cases hc.symm.trans hd
      exact .inr (.inr ⟨_, callers_set_self _ _ _, rfl,
        fun ht => ht.imp_right (fun hb' => ⟨hb'.1, rfl⟩), .inl rfl, .inl rfl⟩)
    · exact .inr (.inr (hother hc hj))
  | @cancel j d hd hctx =>
    by_cases hj : j = i
    · subst hj
      cases hc.symm.trans hd
      exact .inr (.inr ⟨_, callers_set_self _ _ _, rfl,
        fun ht => ht.imp_left (fun hc' => ⟨hc'.1, rfl⟩), .inl rfl, .inl rfl⟩)
    · exact .inr (.inr (hother hc hj))
  | @fire j d hd hw hwhy =>
    by_cases hj : j = i
    · subst hj
      cases hc.symm.trans hd
      exact .inr (.inr ⟨_, callers_set_self _ _ _, rfl, id, .inl rfl, .inr rfl⟩)
    · exact .inr (.inr (hother hc hj))
  | @wake j d hd hw =>
    by_cases hj : j = i
    · subst hj
      cases hc.symm.trans hd
      exact .inr (.inr ⟨_, callers_set_self _ _ _, c.range_wake,
        RangeCaller.tripped_wake.mpr, .inr rfl, .inr rfl⟩)
    · exact .inr (.inr (hwoken hj))

def ownEvent (i : ℕ) : CallStage → Option LockEvent
  | .entering => some (.enter i)
  | .arming => some (.arm i)
  | .checking => some (.check i)
  | .holding => some (.remove i)
  | .releasing => some (.broadcast i)
  | .asleep | .bailed | .released => none

theorem ownEvent_of_moves (hc : s.callers i = some c) (hm : Moves s e s')
    (hown : threadOf e = some (.caller i) ∨ e = .remove i) : ownEvent i c.stage = some e := by
  cases hm with
  | acquire | acquireCtx | expire | cancel | fire | wake => simp [threadOf] at hown
  | @enterFree j d hd hst | @enterBusy j d hd hst | @arm j d hd hst | @checkFree j d hd hst
  | @bail j d hd hst | @sleep j d hd hst | @remove j d hd hst | @broadcast j d hd hst =>
    obtain rfl : j = i := by simpa [threadOf] using hown
    cases hc.symm.trans hd
    rw [hst]
    rfl

theorem bystands_or_own (hc : s.callers i = some c) (hm : Moves s e s') :
    ownEvent i c.stage = some e
      ∨ ∃ c', s'.callers i = some c' ∧ Bystands c c' (threadOf e = some (.waker i)) := by
  rcases bystands_of_moves hc hm with hown | hown | hby
  · exact .inl (ownEvent_of_moves hc hm (.inl hown))
  · exact .inl (ownEvent_of_moves hc hm (.inr hown))
  · exact .inr hby

theorem asleep_of_moves (hc : s.callers i = some c) (hst : c.stage = .asleep) (hm : Moves s e s') :
    ∃ c', s'.callers i = some c' ∧ Bystands c c' (threadOf e = some (.waker i))
      ∧ (c'.stage = .asleep ∨ c'.stage = .checking) := by
  rcases bystands_or_own hc hm with hown | ⟨c', hc', hby⟩
  · rw [hst] at hown
    cases hown
  · refine ⟨c', hc', hby, ?_⟩
    have hwake : c.wake.stage = .checking := by simp [RangeCaller.wake, hst]
    have hstage := hby.stage
    rwa [hst, hwake] at hstage

theorem stays_of_moves (hc : s.callers i = some c) (hst : c.stage ≠ .asleep) (hm : Moves s e s') :
    ownEvent i c.stage = some e
      ∨ ∃ c', s'.callers i = some c' ∧ c'.stage = c.stage ∧ (c.Tripped → c'.Tripped) := by
  refine (bystands_or_own hc hm).imp_right (fun ⟨c', hc', hby⟩ => ⟨c', hc', ?_, hby.tripped⟩)
  have hstage := hby.stage
  rwa [RangeCaller.wake_of_ne hst, or_self] at hstage

theorem not_asleep_of_broadcast (he : e = .broadcast j ∨ e = .wake j) (hm : Moves s e s') (i : ℕ) :
    ¬ At i .asleep s' := by
  rintro ⟨c, hc, hst⟩
  have hall : ∀ {k : ℕ} {d : RangeCaller}, d.stage ≠ .asleep →
      ∀ i c, (s.wakeAll.set k d).callers i = some c → c.stage ≠ .asleep := by
    intro k d hd
    exact forall_callers_set
      (forall_callers_wakeAll (fun _ c _ => c.stage_wake_ne_asleep)) hd
  cases hm with
  | broadcast hd hst' => exact hall (by simp) i c hc hst
  | @wake k d hd hw =>
    have hd' : d.wake.finish.stage ≠ .asleep := d.stage_wake_ne_asleep
    exact hall hd' i c hc hst
  | acquire | acquireCtx | enterFree | enterBusy | arm | checkFree | bail | sleep | remove
  | expire | cancel | fire => simp at he

theorem isSome_check (h : At i .checking s) : (s.step (.check i)).isSome = true := by
  obtain ⟨c, hc, hst⟩ := h
  simp only [step, hc, hst, Option.bind_some, ne_eq, not_true_eq_false, if_false]
  split <;> rfl

theorem isSome_broadcast (h : At j .releasing s) : (s.step (.broadcast j)).isSome = true := by
  obtain ⟨d, hd, hst⟩ := h
  simp [step, hd, hst]

def ToLook (i : ℕ) (trip : Prop) (s : InflightSet) : Prop :=
  ∃ c, s.callers i = some c ∧ c.stage = .checking ∧ (trip → c.Tripped)

def Dozes (i : ℕ) (w : Waker) (s : InflightSet) : Prop :=
  s.Attended ∧ ∃ c, s.callers i = some c ∧ c.stage = .asleep ∧ c.Tripped ∧ c.waker = w

theorem dozes_of_step {w : Waker} (h : Dozes i w s) (hstep : s.step e = some s') :
    (∃ w', Dozes i w' s' ∧ (w' = .waiting ∨ w' = .firing)
        ∧ (w' = w ∨ threadOf e = some (.waker i))) ∨ ToLook i True s' := by
  obtain ⟨hatt, c, hc, hst, htrip, hw⟩ := h
  have hatt' := hatt.step hstep
  obtain ⟨c', hc', hby, hst' | hst'⟩ := asleep_of_moves hc hst (moves_of_step hstep)
  · have htrip' := hby.tripped htrip
    refine .inl ⟨c'.waker, ⟨hatt', c', hc', hst', htrip', rfl⟩,
      (hatt'.watched i c' hc').waker_of_asleep hst' htrip', ?_⟩
    rw [← hw]
    exact hby.waker
  · exact .inr ⟨c', hc', hst', fun _ => hby.tripped htrip⟩

theorem waker_of_own_step (hc : s.callers i = some c) (hstep : s.step e = some s')
    (hown : threadOf e = some (.waker i)) :
    (e = .fire i ∧ c.waker = .waiting) ∨ (e = .wake i ∧ c.waker = .firing) := by
  cases moves_of_step hstep with
  | acquire | acquireCtx | enterFree | enterBusy | arm | checkFree | bail | sleep | remove
  | broadcast | expire | cancel => simp [threadOf] at hown
  | @fire j d hd hw | @wake j d hd hw =>
    obtain rfl : j = i := by simpa [threadOf] using hown
    cases hc.symm.trans hd
    simp [hw]

section
variable {t : Trace step} (hsched : Scheduled t)
include hsched

variable {i n : ℕ}

theorem wakes_of_releasing {j : ℕ} (hi : At i .asleep (t.state n))
    (hj : At j .releasing (t.state n)) : ∃ m, n ≤ m ∧ At i .checking (t.state m) := by
  have henabled : ∀ s, At i .asleep s ∧ At j .releasing s →
      ∃ e, threadOf e = some (.caller j) ∧ (s.step e).isSome = true :=
    fun s hs => ⟨.broadcast j, rfl, isSome_broadcast hs.2⟩
  have hkeep : ∀ s e s', At i .asleep s ∧ At j .releasing s → s.step e = some s' →
      (At i .asleep s' ∧ At j .releasing s') ∨ At i .checking s' := by
    rintro s e s' ⟨⟨c, hc, hst⟩, d, hd, hrel⟩ hstep
    have hm := moves_of_step hstep
    obtain ⟨c', hc', -, hst' | hst'⟩ := asleep_of_moves hc hst hm
    · rcases stays_of_moves hd (by simp [hrel]) hm with hown | ⟨d', hd', hrel', -⟩
      · rw [hrel] at hown
        cases hown
        exact absurd ⟨c', hc', hst'⟩ (not_asleep_of_broadcast (.inl rfl) hm i)
      · exact .inl ⟨⟨c', hc', hst'⟩, d', hd', hrel'.trans hrel⟩
    · exact .inr ⟨c', hc', hst'⟩
  have hreach : ∀ s e s', At i .asleep s ∧ At j .releasing s → threadOf e = some (.caller j) →
      s.step e = some s' → At i .checking s' := by
    rintro s e s' ⟨⟨c, hc, hst⟩, d, hd, hrel⟩ he hstep
    have hm := moves_of_step hstep
    have he' := ownEvent_of_moves hd hm (.inl he)
    rw [hrel] at he'
    obtain ⟨c', hc', -, hst' | hst'⟩ := asleep_of_moves hc hst hm
    · exact absurd ⟨c', hc', hst'⟩ (not_asleep_of_broadcast (.inl (Option.some.inj he').symm) hm i)
    · exact ⟨c', hc', hst'⟩
  exact Trace.leads_to (hsched (.caller j)) henabled hkeep hreach ⟨hi, hj⟩

theorem looks_of_toLook {trip : Prop} (hi : ToLook i trip (t.state n)) :
    ∃ m, n ≤ m ∧ ToLook i trip (t.state m) ∧ t.event m = some (.check i) := by
  have henabled : ∀ s, ToLook i trip s →
      ∃ e, threadOf e = some (.caller i) ∧ (s.step e).isSome = true :=
    fun s ⟨c, hc, hst, _⟩ => ⟨.check i, rfl, isSome_check ⟨c, hc, hst⟩⟩
  have hkeep : ∀ s e s', ToLook i trip s → ¬ threadOf e = some (.caller i) →
      s.step e = some s' → ToLook i trip s' := by
    rintro s e s' ⟨c, hc, hst, htrip⟩ he hstep
    rcases stays_of_moves hc (by simp [hst]) (moves_of_step hstep) with
      hown | ⟨c', hc', hst', htrip'⟩
    · rw [hst] at hown
      cases hown
      exact absurd rfl he
    · exact ⟨c', hc', hst'.trans hst, fun h => htrip' (htrip h)⟩
  obtain ⟨m, hm, hlook, e, he, hev⟩ := Trace.occurs (hsched (.caller i)) henabled hkeep hi
  obtain ⟨c, hc, hst, htrip⟩ := hlook
  have hown := ownEvent_of_moves hc (moves_of_step (t.step_of_some hev)) (.inl he)
  rw [hst] at hown
  cases hown
  exact ⟨m, hm, ⟨c, hc, hst, htrip⟩, hev⟩

theorem wakes_of_firing (h : Dozes i .firing (t.state n)) :
    ∃ m, n ≤ m ∧ ToLook i True (t.state m) := by
  have henabled : ∀ s, Dozes i .firing s →
      ∃ e, threadOf e = some (.waker i) ∧ (s.step e).isSome = true := by
    rintro s ⟨-, c, hc, -, -, hw⟩
    exact ⟨.wake i, rfl, by simp [step, hc, hw]⟩
  have hreach : ∀ s e s', Dozes i .firing s → threadOf e = some (.waker i) →
      s.step e = some s' → ToLook i True s' := by
    rintro s e s' hdoze he hstep
    obtain ⟨-, c, hc, -, -, hw⟩ := id hdoze
    rcases dozes_of_step hdoze hstep with ⟨w', ⟨-, c', hc', hst', -⟩, -, -⟩ | hlook
    · rcases waker_of_own_step hc hstep he with ⟨rfl, hwait⟩ | ⟨rfl, -⟩
      · rw [hw] at hwait
        cases hwait
      · exact absurd ⟨c', hc', hst'⟩
          (not_asleep_of_broadcast (.inr rfl) (moves_of_step hstep) i)
    · exact hlook
  have hkeep : ∀ s e s', Dozes i .firing s → s.step e = some s' →
      Dozes i .firing s' ∨ ToLook i True s' := by
    rintro s e s' hdoze hstep
    by_cases he : threadOf e = some (.waker i)
    · exact .inr (hreach s e s' hdoze he hstep)
    · rcases dozes_of_step hdoze hstep with ⟨w', hdoze', -, rfl | hown⟩ | hlook
      · exact .inl hdoze'
      · exact absurd hown he
      · exact .inr hlook
  exact Trace.leads_to (hsched (.waker i)) henabled hkeep hreach h

theorem wakes_of_tripped {w : Waker} (h : Dozes i w (t.state n)) (hw : w = .waiting ∨ w = .firing) :
    ∃ m, n ≤ m ∧ ToLook i True (t.state m) := by
  rcases hw with rfl | rfl
  · -- the waker is to go off first
    have henabled : ∀ s, Dozes i .waiting s →
        ∃ e, threadOf e = some (.waker i) ∧ (s.step e).isSome = true := by
      rintro s ⟨-, c, hc, -, htrip, hw⟩
      exact ⟨.fire i, rfl, by simp [step, hc, hw, htrip]⟩
    have hkeep : ∀ s e s', Dozes i .waiting s → s.step e = some s' →
        Dozes i .waiting s' ∨ (Dozes i .firing s' ∨ ToLook i True s') := by
      rintro s e s' hdoze hstep
      rcases dozes_of_step hdoze hstep with ⟨w', hdoze', rfl | rfl, -⟩ | hlook
      · exact .inl hdoze'
      · exact .inr (.inl hdoze')
      · exact .inr (.inr hlook)
    have hreach : ∀ s e s', Dozes i .waiting s → threadOf e = some (.waker i) →
        s.step e = some s' → Dozes i .firing s' ∨ ToLook i True s' := by
      rintro s e s' hdoze he hstep
      obtain ⟨-, c, hc, -, -, hw⟩ := id hdoze
      rcases waker_of_own_step hc hstep he with ⟨rfl, -⟩ | ⟨rfl, hfire⟩
      · rcases dozes_of_step hdoze hstep with ⟨w', ⟨hatt, c', hc', hst', htrip', rfl⟩, -⟩ | hlook
        · refine .inl ⟨hatt, c', hc', hst', htrip', ?_⟩
          cases moves_of_step hstep with
          | fire hd =>
            rw [callers_set_self] at hc'
            cases hc'
            rfl
        · exact .inr hlook
      · rw [hw] at hfire
        cases hfire
    obtain ⟨m, hm, hfiring | hlook⟩ :=
      Trace.leads_to (hsched (.waker i)) henabled hkeep hreach h
    · obtain ⟨m', hm', hlook⟩ := wakes_of_firing hsched hfiring
      exact ⟨m', le_trans hm hm', hlook⟩
    · exact ⟨m, hm, hlook⟩
  · exact wakes_of_firing hsched h

end

def ReturnedAt (i : ℕ) (s : InflightSet) : Prop := ∃ c, s.callers i = some c ∧ c.Returned

def FreeAt (i : ℕ) (s : InflightSet) : Prop :=
  ∃ c, s.callers i = some c ∧ spansOverlap s.spans c.range = false

theorem returns_of_look (hc : s.callers i = some c)
    (hwhy : spansOverlap s.spans c.range = false ∨ c.Tripped)
    (hstep : s.step (.check i) = some s') : ReturnedAt i s' := by
  cases moves_of_step hstep with
  | checkFree => exact ⟨_, callers_set_self _ _ _, .inl rfl⟩
  | bail => exact ⟨_, callers_set_self _ _ _, .inr (.inl rfl)⟩
  | sleep hd hst hbusy htrip =>
    cases hc.symm.trans hd
    rcases hwhy with hfree | htrip'
    · rw [hfree] at hbusy
      cases hbusy
    · exact absurd htrip' htrip

theorem wakes_of_asleep {t : Trace step} (hbegun : Begun t) (hsched : Scheduled t) {n : ℕ}
    (hc : (t.state n).callers i = some c) (hst : c.stage = .asleep)
    (hwhy : spansOverlap (t.state n).spans c.range = false ∨ c.Tripped) :
    ∃ m, n ≤ m ∧ ToLook i c.Tripped (t.state m) := by
  have hatt := attended_of_begun hbegun n
  by_cases htrip : c.Tripped
  · have hwaker := (hatt.pending_of_asleep hc hst).2 htrip
    obtain ⟨m, hm, d, hd, hlook, htrip'⟩ :=
      wakes_of_tripped hsched ⟨hatt, c, hc, hst, htrip, rfl⟩ hwaker
    exact ⟨m, hm, d, hd, hlook, fun _ => htrip' trivial⟩
  · obtain ⟨j, d, -, hd, hrel⟩ := (hatt.pending_of_asleep hc hst).1 (hwhy.resolve_right htrip)
    obtain ⟨m, hm, d', hd', hlook⟩ := wakes_of_releasing hsched ⟨c, hc, hst⟩ ⟨d, hd, hrel⟩
    exact ⟨m, hm, d', hd', hlook, fun h => absurd h htrip⟩

/-- **No wake-up is lost.** A broadcast is to come for a caller that sleeps in vain; under a
fair scheduler it looks again, and returns if it can then. -/
theorem wakes_and_returns :
    (∀ es s, run step {} es = some s → ∀ i c, s.callers i = some c → c.stage = .asleep →
        (spansOverlap s.spans c.range = false →
            ∃ j d, j ≠ i ∧ s.callers j = some d ∧ d.stage = .releasing)
          ∧ (c.Tripped → c.waker = .waiting ∨ c.waker = .firing))
      ∧ ∀ t : Trace step, Begun t → Scheduled t → ∀ n i c, (t.state n).callers i = some c →
          c.stage = .asleep → spansOverlap (t.state n).spans c.range = false ∨ c.Tripped →
            (∃ m, n ≤ m ∧ t.event m = some (.check i))
            ∧ (c.Tripped → ∃ m, n ≤ m ∧ ReturnedAt i (t.state m))
            ∧ ((∀ m, n ≤ m → ReturnedAt i (t.state m) ∨ FreeAt i (t.state m)) →
                ∃ m, n ≤ m ∧ ReturnedAt i (t.state m)) := by
  refine ⟨fun es s hrun i c hc hst => (attended_of_run hrun).pending_of_asleep hc hst, ?_⟩
  intro t hbegun hsched n i c hc hst hwhy
  obtain ⟨m, hm, hlook⟩ := wakes_of_asleep hbegun hsched hc hst hwhy
  obtain ⟨m', hm', ⟨d, hd, hchecking, htrip⟩, hev⟩ := looks_of_toLook hsched hlook
  have hle : n ≤ m' := le_trans hm hm'
  have hstep := t.step_of_some hev
  refine ⟨⟨m', hle, hev⟩, fun h => ⟨m' + 1, by omega, ?_⟩, fun h => ?_⟩
  · exact returns_of_look hd (.inr (htrip h)) hstep
  · rcases h m' hle with hret | ⟨d', hd', hfree⟩
    · exact ⟨m', hle, hret⟩
    · cases hd.symm.trans hd'
      exact ⟨m' + 1, by omega, returns_of_look hd (.inl hfree) hstep⟩

/-! ## A caller that never returns -/

def wanted : Span := ⟨0, 1⟩

def wanting (st : CallStage) : RangeCaller := { range := wanted, stage := st }

def turn (k : ℕ) (spans : List Span) (waits now : CallStage) (after : Option CallStage) :
    InflightSet where
  spans := spans
  callers j :=
    if j = 0 then some (wanting waits)
    else if j < k then some (wanting .released)
    else if j = k then some (wanting now)
    else if j = k + 1 then after.map wanting
    else none

section
variable {k : ℕ} {spans : List Span} {waits now : CallStage} {after : Option CallStage}

theorem callers_turn_done {j : ℕ} (hj : 0 < j) (hjk : j < k) :
    (turn k spans waits now after).callers j = some (wanting .released) := by
  simp [turn, show j ≠ 0 by omega, hjk]

theorem waker_of_turn {j : ℕ} {c : RangeCaller}
    (h : (turn k spans waits now after).callers j = some c) : c.waker = .absent := by
  cases after <;> grind [turn, wanting]

def roundState (k : ℕ) : ℕ → InflightSet
  | 0 => turn k [wanted] .asleep .holding none
  | 1 => turn k [wanted] .asleep .holding (some .checking)
  | 2 => turn k [] .asleep .releasing (some .checking)
  | 3 => turn k [wanted] .asleep .releasing (some .holding)
  | 4 => turn k [wanted] .checking .released (some .holding)
  | _ => turn (k + 1) [wanted] .asleep .holding none

def roundEvent (k : ℕ) : ℕ → LockEvent
  | 0 => .acquire (k + 1) wanted
  | 1 => .remove k
  | 2 => .check (k + 1)
  | 3 => .broadcast k
  | _ => .check 0

theorem step_round (hk : k ≠ 0) {r : ℕ} (hr : r < 5) :
    (roundState k r).step (roundEvent k r) = some (roundState k (r + 1)) := by
  interval_cases r
  case «0» =>
    simp [roundState, roundEvent, step, turn, set]
    funext j
    grind [Function.update, wanting]
  case «1» =>
    simp [roundState, roundEvent, step, turn, set, unregister, wanting, hk]
    funext j
    grind [Function.update]
  case «2» =>
    simp [roundState, roundEvent, step, turn, set, register, wanting, spansOverlap]
    funext j
    grind [Function.update]
  case «3» =>
    simp [roundState, roundEvent, step, turn, set, wakeAll, wanting, hk]
    funext j
    grind [Function.update, RangeCaller.wake]
  case «4» =>
    have hbusy : spansOverlap [wanted] wanted = true := by decide
    simp [roundState, roundEvent, step, turn, set, wanting, hbusy, RangeCaller.Tripped]
    funext j
    grind [Function.update]

end

def rounds : Trace step where
  state n := roundState (n / 5 + 1) (n % 5)
  event n := some (roundEvent (n / 5 + 1) (n % 5))
  next n := by
    have hround := @step_round (n / 5 + 1) (Nat.succ_ne_zero _) (n % 5) (Nat.mod_lt _ (by omega))
    refine hround.trans (congrArg some ?_)
    by_cases hr : n % 5 < 4
    · rw [show (n + 1) / 5 = n / 5 by omega, show (n + 1) % 5 = n % 5 + 1 by omega]
    · rw [show (n + 1) / 5 = n / 5 + 1 by omega, show (n + 1) % 5 = 0 by omega,
        show n % 5 = 4 by omega]
      rfl

theorem begun_rounds : Begun rounds := by
  refine ⟨[.acquire 1 wanted, .check 1, .acquire 0 wanted, .check 0], ?_⟩
  show some _ = some (turn 1 [wanted] .asleep .holding none)
  refine congrArg (fun callers => some (InflightSet.mk [wanted] callers)) ?_
  funext j
  match j with
  | 0 | 1 => rfl
  | j + 2 => simp [set, register]

theorem state_rounds_start (q : ℕ) :
    rounds.state (5 * q) = turn (q + 1) [wanted] .asleep .holding none := by
  show roundState (5 * q / 5 + 1) (5 * q % 5) = _
  rw [show 5 * q / 5 = q by omega, show 5 * q % 5 = 0 by omega]
  rfl

theorem scheduled_rounds : Scheduled rounds := by
  rintro (i | i) n henabled
  · by_cases hi : i = 0
    · -- the one who waits looks in every round
      refine ⟨5 * n + 4, by omega, .check 0, by rw [hi]; rfl, ?_⟩
      show some (roundEvent ((5 * n + 4) / 5 + 1) ((5 * n + 4) % 5)) = _
      rw [show (5 * n + 4) % 5 = 4 by omega]
      rfl
    · -- any other is done from some round on
      exfalso
      obtain ⟨e, he, hsome⟩ := henabled (5 * (n + i)) (by omega)
      rw [state_rounds_start] at hsome
      obtain ⟨s', hs'⟩ := Option.isSome_iff_exists.mp hsome
      cases ownEvent_of_moves (callers_turn_done (by omega) (by omega)) (moves_of_step hs')
        (.inl he)
  · -- there are no wakers
    exfalso
    obtain ⟨e, he, hsome⟩ := henabled (5 * n) (by omega)
    rw [state_rounds_start] at hsome
    obtain ⟨s', hs'⟩ := Option.isSome_iff_exists.mp hsome
    cases moves_of_step hs' with
    | acquire | acquireCtx | enterFree | enterBusy | arm | checkFree | bail | sleep | remove
    | broadcast | expire | cancel => simp [threadOf] at he
    | fire hc hw | wake hc hw =>
      rw [waker_of_turn hc] at hw
      cases hw

theorem waits_in_rounds (n : ℕ) :
    At 0 .asleep (rounds.state n) ∨ At 0 .checking (rounds.state n) := by
  show At 0 .asleep (roundState (n / 5 + 1) (n % 5))
    ∨ At 0 .checking (roundState (n / 5 + 1) (n % 5))
  have hr : n % 5 < 5 := Nat.mod_lt _ (by omega)
  interval_cases n % 5
  case «4» => exact .inr ⟨_, rfl, rfl⟩
  all_goals exact .inl ⟨_, rfl, rfl⟩

/-- **A caller sleeps with its range free, again and again, every thread is let to go on,
and it never returns.** -/
theorem starved_caller :
    ∃ t : Trace step, Begun t ∧ Scheduled t
      ∧ (∀ n, ∃ m, n ≤ m ∧ At 0 .asleep (t.state m) ∧ FreeAt 0 (t.state m))
      ∧ ∀ n, ¬ ReturnedAt 0 (t.state n) := by
  refine ⟨rounds, begun_rounds, scheduled_rounds, fun n => ?_, fun n => ?_⟩
  · have hstate : rounds.state (5 * n + 2)
        = turn (n + 1) [] .asleep .releasing (some .checking) := by
      show roundState ((5 * n + 2) / 5 + 1) ((5 * n + 2) % 5) = _
      rw [show (5 * n + 2) / 5 = n by omega, show (5 * n + 2) % 5 = 2 by omega]
      rfl
    refine ⟨5 * n + 2, by omega, ?_, ?_⟩
    · rw [hstate]
      exact ⟨_, rfl, rfl⟩
    · rw [hstate]
      exact ⟨_, rfl, rfl⟩
  · rintro ⟨c, hc, hret⟩
    rcases waits_in_rounds n with ⟨d, hd, hst⟩ | ⟨d, hd, hst⟩
    · cases hc.symm.trans hd
      simp [RangeCaller.Returned, hst] at hret
    · cases hc.symm.trans hd
      simp [RangeCaller.Returned, hst] at hret

end InflightSet

end Cache
