import Pulsys.Cache.Quota

/-!
# A further range of an object that is counted

An object is counted by its total, once (`counted_commitMeta`), but `BeginSegment` asks for
the total each time: a second range is refused when the object does not fit twice.
`beginCall` is the quota's part of it (`run_beginCall`).
-/

namespace Cache

open Bytes Text

namespace Quota

variable {maxBytes interval : ℤ}

def beginCall (maxBytes : ℤ) (i : ℕ) (key : Bytes) (p : SegmentParams) : List QuotaEvent :=
  .beginSegment i key p
    :: if maxBytes ≤ 0 ∨ quotaReservationFor p ≤ 0 then []
      else [.loadUsed i, .loadReserved i, .swap i]

def HasRoom (maxBytes : ℤ) (s : Quota) (n : ℤ) : Prop :=
  s.usedBytes < maxBytes ∧ wrap64 (s.usedBytes + s.reservedBytes + n) ≤ maxBytes

def RefusedForQuota (maxBytes interval : ℤ) (s : Quota) (i : ℕ) (key : Bytes)
    (p : SegmentParams) : Prop :=
  ∃ s', Runs.run (step maxBytes interval) s (beginCall maxBytes i key p) = some s'
    ∧ s'.writers.get i = none

variable {s : Quota} {i : ℕ} {key : Bytes} {p : SegmentParams}

theorem run_beginCall_invalid (hvalid : validateSegmentParams key p = false) :
    Runs.run (step maxBytes interval) s (beginCall maxBytes i key p) = none := by
  have hstep : s.step maxBytes interval (.beginSegment i key p) = none := if_pos (.inr hvalid)
  rw [beginCall, Runs.run, hstep]
  rfl

theorem run_beginCall_unasked (hfree : s.writers.get i = none)
    (hvalid : validateSegmentParams key p = true)
    (hmax : maxBytes ≤ 0 ∨ quotaReservationFor p ≤ 0) :
    Runs.run (step maxBytes interval) s (beginCall maxBytes i key p)
      = some (s.set i
          { key := key, params := p, reserved := quotaReservationFor p, progress := .opening }) := by
  have hok : ¬ ((s.writers.get i).isSome ∨ validateSegmentParams key p = false) := by
    simp [hfree, hvalid]
  have hstep : s.step maxBytes interval (.beginSegment i key p)
      = some (s.set i
          { key := key, params := p, reserved := quotaReservationFor p, progress := .opening }) :=
    (if_neg hok).trans (if_pos hmax)
  rw [beginCall, if_pos hmax, Runs.run, hstep]
  rfl

theorem run_beginCall (hfree : s.writers.get i = none)
    (hvalid : validateSegmentParams key p = true)
    (hmax : ¬ (maxBytes ≤ 0 ∨ quotaReservationFor p ≤ 0)) :
    ∃ s', Runs.run (step maxBytes interval) s (beginCall maxBytes i key p) = some s'
      ∧ (s'.writers.get i = none ↔ ¬ HasRoom maxBytes s (quotaReservationFor p)) := by
  have hok : ¬ ((s.writers.get i).isSome ∨ validateSegmentParams key p = false) := by
    simp [hfree, hvalid]
  -- the writer and the store, after each of the steps before the last
  let w (stage : Reserving) : QuotaWriter :=
    { key := key, params := p, progress := .reserving .segment stage }
  let s₁ := s.set i (w .loadUsed)
  let s₂ := s₁.set i (w (.loadReserved s.usedBytes))
  let s₃ := s₂.set i (w (.swap s.usedBytes s.reservedBytes))
  have h₁ : s.step maxBytes interval (.beginSegment i key p) = some s₁ :=
    (if_neg hok).trans (if_neg hmax)
  have h₂ : s₁.step maxBytes interval (.loadUsed i) = some s₂ := by
    simp only [step, s₁, set, Directory.get_write, Option.bind_some, w, s₂]
  have h₃ : s₂.step maxBytes interval (.loadReserved i) = some s₃ := by
    simp only [step, s₁, set, Directory.get_write, Option.bind_some, w, s₂, s₃]
  have hrun : Runs.run (step maxBytes interval) s (beginCall maxBytes i key p)
      = s₃.step maxBytes interval (.swap i) := by
    rw [beginCall, if_neg hmax, Runs.run, h₁, Option.bind_some, Runs.run, h₂, Option.bind_some,
      Runs.run, h₃, Option.bind_some, Runs.run]
    exact Option.bind_fun_some _
  have hw : s₃.writers.get i = some (w (.swap s.usedBytes s.reservedBytes)) :=
    Directory.get_write _ _ _
  rw [hrun]
  by_cases hroom : HasRoom maxBytes s (quotaReservationFor p)
  · have hpass : ¬ (maxBytes ≤ s.usedBytes
        ∨ maxBytes < wrap64 (s.usedBytes + s.reservedBytes + quotaReservationFor p)) :=
      not_or.mpr ⟨hroom.1.not_ge, hroom.2.not_gt⟩
    refine ⟨s₃.grant i (w (.swap s.usedBytes s.reservedBytes)) .segment, ?_, ?_⟩
    · rw [step, hw, Option.bind_some]
      exact (if_neg hpass).trans (if_pos rfl)
    · simp [grant, hroom]
  · have hfail : maxBytes ≤ s.usedBytes
        ∨ maxBytes < wrap64 (s.usedBytes + s.reservedBytes + quotaReservationFor p) := by
      rw [HasRoom, not_and_or, not_lt, not_le] at hroom
      exact hroom
    refine ⟨s₃.refuse i (w (.swap s.usedBytes s.reservedBytes)) .segment, ?_, ?_⟩
    · rw [step, hw, Option.bind_some]
      exact if_pos hfail
    · simp [refuse, hroom]

theorem refusedForQuota_iff (hfree : s.writers.get i = none) :
    RefusedForQuota maxBytes interval s i key p
      ↔ validateSegmentParams key p = true ∧ 0 < maxBytes ∧ 0 < quotaReservationFor p
        ∧ ¬ HasRoom maxBytes s (quotaReservationFor p) := by
  cases hvalid : validateSegmentParams key p with
  | false => simp [RefusedForQuota, run_beginCall_invalid hvalid]
  | true =>
    by_cases hmax : maxBytes ≤ 0 ∨ quotaReservationFor p ≤ 0
    · have hno : ¬ (0 < maxBytes ∧ 0 < quotaReservationFor p) := by omega
      simp only [RefusedForQuota, run_beginCall_unasked hfree hvalid hmax, set,
        Option.some.injEq, exists_eq_left', Directory.get_write, reduceCtorEq, true_and, false_iff]
      exact fun h => hno ⟨h.1, h.2.1⟩
    · obtain ⟨s', hrun, hs'⟩ := @run_beginCall maxBytes interval s i key p hfree hvalid hmax
      have hpos : 0 < maxBytes ∧ 0 < quotaReservationFor p := by omega
      simp only [RefusedForQuota, hrun, Option.some.injEq, exists_eq_left', hs', hpos, true_and]

theorem counted_commitMeta {old : Option Meta} (hpos : 0 < p.total)
    (hcounted : metaTotal old = p.total) (written : ℕ) :
    metaTotal (some (p.commitMeta written old)) = metaTotal old := by
  have htotal : (p.commitMeta written old).total = some p.total := by
    rw [total_commitMeta, SegmentParams.commitTotal, if_pos hpos]
  rw [hcounted]
  simp only [metaTotal, htotal, hpos.not_ge, if_false]

/-- **When a further range of a counted object is let in**: if there is no quota, or room for
the whole object a second time. -/
theorem further_range_admitted_iff {s : Quota} {i : ℕ} {key : Bytes} {p : SegmentParams}
    (hopen : ∀ j, s.writers.get j = none) (hpos : 0 < p.total)
    (hcounted : metaTotal (s.disk.get key) = p.total) :
    (∀ written, metaTotal (some (p.commitMeta written (s.disk.get key)))
        = metaTotal (s.disk.get key))
      ∧ (¬ RefusedForQuota maxBytes interval s i key p
        ↔ validateSegmentParams key p = false ∨ maxBytes ≤ 0
          ∨ HasRoom maxBytes s p.total) := by
  have hasked : quotaReservationFor p = p.total := if_pos hpos
  refine ⟨counted_commitMeta hpos hcounted, ?_⟩
  rw [refusedForQuota_iff (hopen i), hasked]
  simp only [hpos, true_and, not_and, not_not, ← Bool.not_eq_true, ← not_lt]
  tauto

def holding (n : ℤ) : Quota :=
  start (Directory.empty.write [107] { total := some n, spans := [⟨0, 10⟩] })

def lastTen (n : ℤ) : SegmentParams :=
  { status := 206, start := n - 10, length := 10, total := n }

theorem further_range_admitted_thirty :
    (∀ j, (holding 30).writers.get j = none)
      ∧ metaTotal ((holding 30).disk.get [107]) = (lastTen 30).total
      ∧ ¬ RefusedForQuota 100 0 (holding 30) 0 [107] (lastTen 30) := by
  refine ⟨fun _ => rfl, rfl, ?_⟩
  refine (further_range_admitted_iff (fun _ => rfl) (by decide) rfl).2.mpr (.inr (.inr ?_))
  exact ⟨by decide, by decide⟩

/-- **The rest of an object of sixty bytes is refused** under a quota of a hundred. -/
theorem second_range_refused :
    (∀ j, (holding 60).writers.get j = none)
      ∧ ((holding 60).usedBytes, (holding 60).reservedBytes) = (60, 0)
      ∧ metaTotal ((holding 60).disk.get [107]) = (lastTen 60).total
      ∧ metaTotal (some ((lastTen 60).commitMeta 10 ((holding 60).disk.get [107]))) = 60
      ∧ RefusedForQuota 100 0 (holding 60) 0 [107] (lastTen 60) := by
  refine ⟨fun _ => rfl, by decide, rfl, rfl, ?_⟩
  rw [refusedForQuota_iff rfl]
  refine ⟨by decide, by decide, by decide, fun hroom => ?_⟩
  have hfits : wrap64 (60 + 0 + 60) ≤ 100 := hroom.2
  exact absurd hfits (by decide)

end Quota

end Cache
