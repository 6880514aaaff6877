import Pulsys.Coreserver.RingIndices

/-!
# The indices of the rings survive wraparound

Behind every counter is a number that does not wrap. The invariants say what these are to
each other (`SqSound`, `CqSound`); no two are more than the ring's size apart, so the
counters are enough.
-/

namespace Coreserver.Rings

open Runs WrapRing

/-! ## The sizes of the rings -/

theorem newIoUringRing_eq_some {entries cqEntries : UInt32} {ring : IoUringRing}
    (h : newIoUringRing entries cqEntries = some ring) :
    ∃ k, k ≤ 31 ∧ entries = word (2 ^ k) ∧ ring = ⟨mask k, cqEntries - 1⟩ := by
  unfold newIoUringRing at h
  obtain ⟨hpow, h⟩ := Option.ite_none_left_eq_some.mp h
  obtain ⟨hne, hand⟩ := not_or.mp hpow
  obtain ⟨k, hk, rfl⟩ := eq_two_pow_of_and_eq_zero hne (not_not.mp hand)
  exact ⟨k, hk, rfl, (Option.some.inj h).symm⟩

/-! ## Submissions -/

def Report.Exact (size : ℕ) : Report → Prop
  | .sqSpace value queued => value.toNat + queued = size
  | .sqPending value queued => value.toNat = queued
  | .sqFull queued => queued = size

section
variable {α : Type} {k b : ℕ} {s s' : Sq α}

def SqCall.Sound (k b : ℕ) (s : Sq α) : SqCall → Prop
  | .idle => True
  | .counting _ head queued =>
    ∃ r, r ≤ s.released ∧ head = word (b + r) ∧ s.committed.length ≤ r + 2 ^ k
      ∧ queued = s.committed.length - r
  | .slotting => s.committed.length < s.released + 2 ^ k
  | .committing tail => tail = word (b + (s.committed.length + 1)) ∧ s.held.isSome = true

structure SqSound (k b : ℕ) (s : Sq α) : Prop where
  head : s.head = word (b + s.released)
  kernelHead : s.kernelHead = word (b + s.taken.length)
  tail : s.tail = word (b + s.committed.length)
  released : s.released ≤ s.taken.length
  taken : s.taken <+: s.committed
  room : s.committed.length ≤ s.released + 2 ^ k
  holds : Holds k b s.sqes s.released s.committed
  held : ∀ slot, s.held = some slot →
    slot = slotOf (mask k) s.tail ∧ s.committed.length < s.released + 2 ^ k
  call : s.call.Sound k b s
  reports : ∀ r ∈ s.reports, r.Exact (2 ^ k)

theorem SqSound.counts (hk : k ≤ 31) (h : SqSound k b s) {r : ℕ} (hr : r ≤ s.released)
    (hroom : s.committed.length ≤ r + 2 ^ k) :
    (s.tail - word (b + r)).toNat = s.committed.length - r
      ∧ (mask k + 1 - (s.tail - word (b + r))).toNat + (s.committed.length - r) = 2 ^ k := by
  have hle : r ≤ s.committed.length := hr.trans (h.released.trans h.taken.length_le)
  have hpow := two_pow_lt hk
  have hdiff : s.tail - word (b + r) = word (s.committed.length - r) := by
    rw [h.tail, word_sub (by omega)]
    congr 1
    omega
  constructor
  · rw [h.tail, toNat_word_sub (by omega) (by omega)]
    omega
  · rw [hdiff, mask_add_one, toNat_word_sub (by omega) (by omega)]
    omega

theorem SqSound.counted (hk : k ≤ 31) (h : SqSound k b s) {asked : Asked} {head : UInt32}
    {queued : ℕ} (hcall : s.call = .counting asked head queued) :
    SqSound k b (counted (mask k) s head queued asked) := by
  have hsound := h.call
  rw [hcall] at hsound
  obtain ⟨r, hr, rfl, hroom, rfl⟩ := hsound
  obtain ⟨hpending, hspace⟩ := h.counts hk hr hroom
  have hreport {report : Report} (hexact : report.Exact (2 ^ k)) :
      ∀ x ∈ s.reports ++ [report], x.Exact (2 ^ k) := by
    intro x hx
    rcases List.mem_append.mp hx with hold | hnew
    · exact h.reports x hold
    · rw [List.mem_singleton.mp hnew]
      exact hexact
  cases asked with
  | sqSpace => exact { h with call := trivial, reports := hreport hspace }
  | sqPending => exact { h with call := trivial, reports := hreport hpending }
  | prepSqe =>
    unfold Rings.counted
    by_cases hfull : mask k + 1 - (s.tail - word (b + r)) < 1
    · have hzero : (mask k + 1 - (s.tail - word (b + r))).toNat < 1 :=
        UInt32.lt_iff_toNat_lt.mp hfull
      have hqueued : s.committed.length - r = 2 ^ k := by omega
      rw [if_pos hfull]
      exact { h with call := trivial, reports := hreport hqueued }
    · have hpos : ¬ (mask k + 1 - (s.tail - word (b + r))).toNat < 1 :=
        fun hlt => hfull (UInt32.lt_iff_toNat_lt.mpr hlt)
      have hfree : s.committed.length < s.released + 2 ^ k := by omega
      rw [if_neg hfull]
      exact { h with call := hfree }

theorem SqSound.step [Inhabited α] (hk : k ≤ 31) (h : SqSound k b s) {e : SqEvent α}
    (hs : sqStep (mask k) s e = some s') : SqSound k b s' := by
  have hcall := h.call
  cases sqSteps_of_sqStep hs with
  | ask hc => exact { h with call := ⟨s.released, le_rfl, h.head, h.room, rfl⟩ }
  | loadTail hc => exact h.counted hk hc
  | loadSlot hc =>
    rw [hc] at hcall
    have hholds := h.holds.write hk hcall default
    rw [← h.tail] at hholds
    exact { h with
      call := trivial
      holds := hholds
      held := fun slot hslot => ⟨(Option.some.inj hslot).symm, hcall⟩ }
  | @fill slot a hc hheld =>
    obtain ⟨rfl, hroom⟩ := h.held _ hheld
    have hholds := h.holds.write hk hroom a
    rw [← h.tail] at hholds
    exact { h with holds := hholds, call := by rw [hc]; trivial }
  | sqCommit hc hheld =>
    have hnext : s.tail + 1 = word (b + (s.committed.length + 1)) := by
      rw [h.tail, word_add_one]
      rfl
    exact { h with call := ⟨hnext, Option.isSome_of_eq_some hheld⟩ }
  | storeTail hc =>
    rw [hc] at hcall
    obtain ⟨rfl, hheld⟩ := hcall
    obtain ⟨slot, hslot⟩ := Option.isSome_iff_exists.mp hheld
    obtain ⟨-, hroom⟩ := h.held slot hslot
    have hlen : (s.committed ++ [s.sqes (slotOf (mask k) s.tail)]).length
        = s.committed.length + 1 := by rw [List.length_append, List.length_singleton]
    refine ⟨h.head, h.kernelHead, ?_, h.released, h.taken.trans (List.prefix_append _ _), ?_, ?_,
      nofun, trivial, h.reports⟩
    · exact congrArg (fun n => word (b + n)) hlen.symm
    · exact hlen.trans_le hroom
    · rw [h.tail]
      exact h.holds.publish
  | take hne =>
    have hlt : s.taken.length < s.committed.length := by
      refine lt_of_le_of_ne h.taken.length_le (fun heq => hne ?_)
      rw [h.kernelHead, h.tail, heq]
    have hread := h.holds.read h.released hlt
    rw [← h.kernelHead] at hread
    refine { h with kernelHead := ?_, released := ?_, taken := prefix_concat h.taken hread }
    · rw [List.length_append, List.length_singleton, h.kernelHead, word_add_one]
      rfl
    · rw [List.length_append]
      exact h.released.trans (Nat.le_add_right _ _)
  | release =>
    have hroom := h.room.trans (Nat.add_le_add_right h.released _)
    refine { h with
      head := h.kernelHead
      released := le_rfl
      room := hroom
      holds := h.holds.mono h.released
      held := fun slot hslot => ?_
      call := ?_ }
    · obtain ⟨hslot, hlt⟩ := h.held slot hslot
      exact ⟨hslot, hlt.trans_le (Nat.add_le_add_right h.released _)⟩
    · cases hc : s.call with
      | idle => trivial
      | counting asked head queued =>
        rw [hc] at hcall
        obtain ⟨r, hr, hrest⟩ := hcall
        exact ⟨r, hr.trans h.released, hrest⟩
      | slotting =>
        rw [hc] at hcall
        exact hcall.trans_le (Nat.add_le_add_right h.released _)
      | committing tail =>
        rw [hc] at hcall
        exact hcall

theorem SqSound.held_ne (hk : k ≤ 31) (h : SqSound k b s) {slot : ℕ} (hslot : s.held = some slot)
    {j : ℕ} (hlo : s.released ≤ j) (hj : j < s.committed.length) :
    slot ≠ slotOf (mask k) (word (b + j)) := by
  obtain ⟨rfl, hroom⟩ := h.held slot hslot
  rw [h.tail]
  exact (slotOf_ne hk (by omega) (by omega)).symm

end

/-! ## Completions -/

def Drained.Complete (r : Drained) : Prop := r.first + r.n = r.delivered ∧ r.delivered = r.published

section
variable {β : Type} {k b : ℕ} {s s' : Cq β}

def CqCall.Sound (b : ℕ) (s : Cq β) : CqCall → Prop
  | .idle => s.delivered.length = s.stored
  | .looping n first => s.delivered.length = s.stored ∧ first + n = s.delivered.length
  | .loaded n first head =>
    s.delivered.length = s.stored ∧ first + n = s.delivered.length ∧ head = word (b + s.stored)
  | .draining n first head tail =>
    first + n = s.delivered.length ∧ head = word (b + s.delivered.length)
      ∧ ∃ p, tail = word (b + p) ∧ s.delivered.length ≤ p ∧ p ≤ s.published

structure CqSound (k b : ℕ) (s : Cq β) : Prop where
  head : s.head = word (b + s.stored)
  tail : s.tail = word (b + s.published)
  kernelTail : s.kernelTail = word (b + s.posted.length)
  stored : s.stored ≤ s.delivered.length
  seen : s.delivered.length ≤ s.published
  published : s.published ≤ s.posted.length
  delivered : s.delivered <+: s.posted
  room : s.posted.length ≤ s.stored + 2 ^ k
  holds : Holds k b s.cqes s.stored s.posted
  call : s.call.Sound b s
  returns : ∀ r ∈ s.returns, r.Complete

theorem CqSound.room_iff (hk : k ≤ 31) (h : CqSound k b s) :
    s.kernelTail - s.head < mask k + 1 ↔ s.posted.length < s.stored + 2 ^ k := by
  have hle := (h.stored.trans h.seen).trans h.published
  have hroom := h.room
  have hpow := two_pow_lt hk
  rw [UInt32.lt_iff_toNat_lt, mask_add_one, toNat_word_two_pow hk, h.kernelTail, h.head,
    toNat_word_sub (by omega) (by omega)]
  omega

theorem CqSound.step (hk : k ≤ 31) (h : CqSound k b s) {e : CqEvent β}
    (hs : cqStep (mask k) s e = some s') : CqSound k b s' := by
  have hcall := h.call
  have hpow := two_pow_lt hk
  have hroom := h.room
  have hpublished := h.published
  have hstored := h.stored
  cases cqSteps_of_cqStep hs with
  | drainCQ hc =>
    rw [hc] at hcall
    exact { h with call := ⟨hcall, rfl⟩ }
  | loadHead hc =>
    rw [hc] at hcall
    exact { h with call := ⟨hcall.1, hcall.2, h.head⟩ }
  | returns hc heq =>
    rw [hc] at hcall
    obtain ⟨hsame, hcount, rfl⟩ := hcall
    -- the counters are the same, and so are the positions
    have hall : s.stored = s.published := by
      rw [h.tail] at heq
      have hpos := (word_inj (by have := h.seen; omega) (by omega)).mp heq
      omega
    refine { h with call := hsame, returns := fun r hr => ?_ }
    rcases List.mem_append.mp hr with hold | hnew
    · exact h.returns r hold
    · rw [List.mem_singleton.mp hnew]
      exact ⟨hcount, hsame.trans hall⟩
  | drains hc hne =>
    rw [hc] at hcall
    obtain ⟨hsame, hcount, rfl⟩ := hcall
    exact { h with call := ⟨hcount, by rw [hsame], s.published, h.tail, h.seen, le_rfl⟩ }
  | deliver hc hne =>
    rw [hc] at hcall
    obtain ⟨hcount, rfl, p, rfl, hle, hp⟩ := hcall
    have hlt : s.delivered.length < p := by
      refine lt_of_le_of_ne hle (fun heq => hne ?_)
      rw [heq]
    have hread := h.holds.read h.stored (by omega : s.delivered.length < s.posted.length)
    have hlen : (s.delivered ++ [s.cqes (slotOf (mask k) (word (b + s.delivered.length)))]).length
        = s.delivered.length + 1 := by rw [List.length_append, List.length_singleton]
    refine { h with
      stored := ?_
      seen := ?_
      delivered := prefix_concat h.delivered hread
      call := ⟨?_, ?_, p, rfl, ?_, hp⟩ }
    · simp only [hlen]
      omega
    · simp only [hlen]
      omega
    · simp only [hlen]
      omega
    · rw [hlen, word_add_one]
      rfl
    · simp only [hlen]
      omega
  | storeHead hc heq =>
    rw [hc] at hcall
    obtain ⟨hcount, rfl, p, rfl, hle, hp⟩ := hcall
    exact { h with
      head := rfl
      stored := le_rfl
      room := hroom.trans (Nat.add_le_add_right h.stored _)
      holds := h.holds.mono h.stored
      call := ⟨rfl, hcount⟩ }
  | @write c hfree =>
    have hlt := (h.room_iff hk).mp hfree
    have hlen : (s.posted ++ [c]).length = s.posted.length + 1 := by
      rw [List.length_append, List.length_singleton]
    refine { h with
      kernelTail := ?_
      published := ?_
      delivered := h.delivered.trans (List.prefix_append _ _)
      room := ?_
      holds := ?_ }
    · rw [hlen, h.kernelTail, word_add_one]
      rfl
    · simp only [hlen]
      omega
    · simp only [hlen]
      omega
    · rw [h.kernelTail]
      exact h.holds.append hk hlt c
  | publish =>
    refine { h with
      tail := h.kernelTail
      seen := h.seen.trans h.published
      published := le_rfl
      call := ?_ }
    cases hc : s.call with
    | draining n first head tail =>
      rw [hc] at hcall
      obtain ⟨hcount, hhead, p, htail, hle, hp⟩ := hcall
      exact ⟨hcount, hhead, p, htail, hle, hp.trans h.published⟩
    | _ =>
      rw [hc] at hcall
      exact hcall

theorem CqSound.kernel_keeps (hk : k ≤ 31) (h : CqSound k b s) {n first : ℕ} {head tail : UInt32}
    (hc : s.call = .draining n first head tail) (hne : head ≠ tail) {e : CqEvent β}
    (hkernel : e.kernel = true) (hs : cqStep (mask k) s e = some s') :
    s'.call = s.call ∧ s'.cqes (slotOf (mask k) head) = s.cqes (slotOf (mask k) head) := by
  have hcall := h.call
  rw [hc] at hcall
  obtain ⟨-, rfl, p, rfl, hle, hp⟩ := hcall
  have hlt : s.delivered.length < p := by
    refine lt_of_le_of_ne hle (fun heq => hne ?_)
    rw [heq]
  cases cqSteps_of_cqStep hs with
  | write hfree =>
    have hroom := (h.room_iff hk).mp hfree
    have hpublished := h.published
    have hstored := h.stored
    refine ⟨rfl, Function.update_of_ne ?_ _ _⟩
    rw [h.kernelTail]
    exact slotOf_ne hk (by omega) (by omega)
  | publish => exact ⟨rfl, rfl⟩
  | _ => cases hkernel

theorem CqSound.kernel_keeps_run (hk : k ≤ 31) (h : CqSound k b s) {n first : ℕ}
    {head tail : UInt32} (hc : s.call = .draining n first head tail) (hne : head ≠ tail)
    {es : List (CqEvent β)} (hkernel : ∀ e ∈ es, e.kernel = true)
    (hrun : run (cqStep (mask k)) s es = some s') :
    s'.cqes (slotOf (mask k) head) = s.cqes (slotOf (mask k) head) := by
  induction es generalizing s with
  | nil =>
    cases hrun
    rfl
  | cons e es ih =>
    obtain ⟨s₁, hs, hrest⟩ := run_cons.mp hrun
    obtain ⟨hcall, hslot⟩ := h.kernel_keeps hk hc hne (hkernel e List.mem_cons_self) hs
    rw [← hslot]
    exact ih (h.step hk hs) (hcall.trans hc)
      (fun e' he' => hkernel e' (List.mem_cons_of_mem _ he')) hrest

end

/-! ## Both -/

section
variable {α β : Type} [Inhabited α]

structure Sound (k c b d : ℕ) (s : State α β) : Prop where
  sq : SqSound k b s.sq
  cq : CqSound c d s.cq

omit [Inhabited α] in
theorem sound_emptyRings (k c : ℕ) (sqAt cqAt : UInt32) (sqes : ℕ → α) (cqes : ℕ → β) :
    Sound k c sqAt.toNat cqAt.toNat (emptyRings sqAt cqAt sqes cqes) := by
  have hsq : sqAt = word sqAt.toNat := (UInt32.ofNat_toNat).symm
  have hcq : cqAt = word cqAt.toNat := (UInt32.ofNat_toNat).symm
  constructor
  · exact ⟨hsq, hsq, hsq, le_rfl, List.prefix_refl _, Nat.zero_le _, holds_nil, nofun, trivial,
      nofun⟩
  · exact ⟨hcq, hcq, hcq, le_rfl, le_rfl, le_rfl, List.prefix_refl _, Nat.zero_le _, holds_nil,
      rfl, nofun⟩

theorem Sound.step {k c b d : ℕ} (hk : k ≤ 31) (hc : c ≤ 31) {s s' : State α β}
    (h : Sound k c b d s) {e : Event α β} (hs : step ⟨mask k, mask c⟩ s e = some s') :
    Sound k c b d s' := by
  cases e with
  | sq e =>
    obtain ⟨sq, hsq, rfl⟩ := Option.map_eq_some_iff.mp hs
    exact ⟨h.sq.step hk hsq, h.cq⟩
  | cq e =>
    obtain ⟨cq, hcq, rfl⟩ := Option.map_eq_some_iff.mp hs
    exact ⟨h.sq, h.cq.step hc hcq⟩

/-- **Ring indices survive wraparound**, for rings of any size and wherever the counters
stand: no slot is handed out before it is consumed, entries are taken and delivered once and
in order, and `sqSpace` and `sqPending` count what there is when they look. -/
theorem ring_indices_survive (entries cqEntries : UInt32) (ring : IoUringRing)
    (hring : newIoUringRing entries cqEntries = some ring) (c : ℕ) (hc : c ≤ 31)
    (hcq : cqEntries = word (2 ^ c)) (sqAt cqAt : UInt32) (sqes : ℕ → α) (cqes : ℕ → β)
    (es : List (Event α β)) (s : State α β)
    (hrun : run (step ring) (emptyRings sqAt cqAt sqes cqes) es = some s) :
    (∀ slot, s.sq.held = some slot → ∀ j, s.sq.released ≤ j → j < s.sq.committed.length →
        slot ≠ slotOf ring.sqMask (sqAt + word j))
      ∧ s.sq.taken <+: s.sq.committed
      ∧ (∀ r ∈ s.sq.reports, r.Exact entries.toNat)
      ∧ s.cq.delivered <+: s.cq.posted
      ∧ (∀ r ∈ s.cq.returns, r.Complete)
      ∧ (∀ n first head tail, s.cq.call = .draining n first head tail → head ≠ tail →
          ∀ es' cq', (∀ e ∈ es', e.kernel = true) →
            run (cqStep ring.cqMask) s.cq es' = some cq' →
            cq'.cqes (slotOf ring.cqMask head) = s.cq.cqes (slotOf ring.cqMask head)) := by
  obtain ⟨k, hk, rfl, rfl⟩ := newIoUringRing_eq_some hring
  subst hcq
  have hsound : Sound k c sqAt.toNat cqAt.toNat s :=
    invariant_of_step (fun _ _ _ h hs => h.step hk hc hs) (sound_emptyRings k c _ _ _ _) hrun
  refine ⟨fun slot hslot j hlo hj => ?_, hsound.sq.taken, ?_, hsound.cq.delivered,
    hsound.cq.returns, fun n first head tail hcall hne es' cq' hkernel hrun' => ?_⟩
  · rw [add_word]
    exact hsound.sq.held_ne hk hslot hlo hj
  · rw [toNat_word_two_pow hk]
    exact hsound.sq.reports
  · exact hsound.cq.kernel_keeps_run hc hcall hne hkernel hrun'

end

def wrapping : List (Event ℕ ℕ) :=
  [.sq (.ask .prepSqe), .sq .loadTail, .sq .loadSlot, .sq (.fill 7), .sq .sqCommit, .sq .storeTail,
    .sq (.ask .prepSqe), .sq .loadTail, .sq .loadSlot, .sq (.fill 8), .sq .sqCommit,
    .sq .storeTail, .sq (.ask .prepSqe), .sq .loadTail, .sq (.ask .sqPending), .sq .take,
    .sq .release, .sq .loadTail, .sq (.ask .sqSpace), .sq .loadTail, .sq (.ask .prepSqe),
    .sq .loadTail, .sq .loadSlot, .cq (.write 5), .cq (.write 6), .cq .publish, .cq .drainCQ,
    .cq .loadHead, .cq .loadTail, .cq .deliver]

theorem ring_indices_survive_wrapping :
    ∃ s slot, newIoUringRing 2 4 = some ⟨1, 3⟩
      ∧ run (step ⟨1, 3⟩) (emptyRings 4294967295 4294967295 (fun _ => 0) (fun _ => 0)) wrapping
        = some s
      ∧ s.sq.head = 0 ∧ s.sq.tail = 1 ∧ s.sq.held = some slot
      ∧ slot ≠ slotOf 1 (4294967295 + word 1)
      ∧ s.sq.reports = [.sqFull 2, .sqPending 2 2, .sqSpace 1 1]
      ∧ (∀ r ∈ s.sq.reports, r.Exact 2)
      ∧ s.cq.delivered = [5] ∧ s.cq.delivered <+: s.cq.posted := by
  have hsound (s : State ℕ ℕ) := ring_indices_survive 2 4 ⟨1, 3⟩ rfl 2 (by decide) rfl 4294967295
    4294967295 (fun _ => 0) (fun _ => 0) wrapping s
  refine ⟨_, _, rfl, rfl, rfl, rfl, rfl, ?_, rfl, ?_, rfl, ?_⟩
  · exact (hsound _ rfl).1 _ rfl 1 (by decide) (by decide)
  · exact (hsound _ rfl).2.2.1
  · exact (hsound _ rfl).2.2.2.1

end Coreserver.Rings
