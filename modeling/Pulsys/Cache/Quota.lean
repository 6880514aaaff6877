import Pulsys.Cache.Usage

/-!
# The quota

Counted bytes and promised bytes are two atomic words, and each access is a step. A promise
reads both and swaps the second. The sum stays within the quota if the first has not grown
meanwhile and no check overflows (`room_of_roomy`).
-/

namespace Cache

open Bytes Text

def quotaReservationFor (p : SegmentParams) : ℤ :=
  if 0 < p.total then p.total else if 0 < p.length then p.length else 0

def dynamicQuota (maxBytes : ℤ) (p : SegmentParams) : Bool :=
  quotaReservationFor p == 0 && decide (0 < maxBytes) && decide (p.total ≤ 0)
    && decide (p.length ≤ 0)

inductive Purpose
  | segment
  | write (n : ℕ)

def Purpose.amount (p : SegmentParams) : Purpose → ℤ
  | .segment => quotaReservationFor p
  | .write n => n

inductive Reserving
  | loadUsed
  | loadReserved (used : ℤ)
  | swap (used reserved : ℤ)

inductive Progress
  | reserving (purpose : Purpose) (stage : Reserving)
  | opening
  | idle
  | storing (n : ℕ)
  | publishing
  | closing

def Purpose.next : Purpose → Progress
  | .segment => .opening
  | .write n => .storing n

def Purpose.refused : Purpose → Option Progress
  | .segment => none
  | .write _ => some .idle

structure QuotaWriter where
  key : Bytes
  params : SegmentParams
  written : ℕ := 0
  lastCheckpoint : ℕ := 0
  reserved : ℤ := 0
  progress : Progress

def releasable (reserved n : ℤ) : ℤ :=
  if n ≤ 0 ∨ reserved ≤ 0 then 0 else if reserved < n then reserved else n

theorem releasable_bounds {reserved : ℤ} (h : 0 ≤ reserved) (n : ℤ) :
    0 ≤ releasable reserved n ∧ releasable reserved n ≤ reserved := by
  unfold releasable
  split
  · exact ⟨le_rfl, h⟩
  · split
    · exact ⟨h, le_rfl⟩
    · omega

def reserveQuota (maxBytes usedBytes reservedBytes n : ℤ) : Option ℤ :=
  if maxBytes ≤ 0 ∨ n ≤ 0 then some reservedBytes
  else if maxBytes ≤ usedBytes ∨ maxBytes < wrap64 (usedBytes + reservedBytes + n) then none
  else some (wrap64 (reservedBytes + n))

inductive Accounting
  | account (oldTotal newTotal : ℤ)
  | release (n : ℤ)

structure Holder where
  writer : ℕ
  stage : Accounting
  closing : Bool

structure Quota where
  disk : Directory Bytes Meta
  usedBytes : ℤ
  reservedBytes : ℤ := 0
  writers : Directory ℕ QuotaWriter := .empty
  holder : Option Holder := none

inductive QuotaEvent
  | beginSegment (i : ℕ) (key : Bytes) (p : SegmentParams)
  | loadUsed (i : ℕ)
  | loadReserved (i : ℕ)
  | swap (i : ℕ)
  | opened (i : ℕ) (ok : Bool)
  | write (i n : ℕ)
  | stored (i k : ℕ)
  | checkpoint (i : ℕ)
  | commit (i : ℕ)
  | account
  | release
  | finish (i : ℕ)

namespace Quota

def start (disk : Directory Bytes Meta) : Quota :=
  { disk := disk, usedBytes := wrap64 (bytesOn disk) }

def set (s : Quota) (i : ℕ) (w : QuotaWriter) : Quota :=
  { s with writers := s.writers.write i w }

def refuse (s : Quota) (i : ℕ) (w : QuotaWriter) : Purpose → Quota
  | .segment => { s with writers := s.writers.remove i }
  | .write _ => s.set i { w with progress := .idle }

def grant (s : Quota) (i : ℕ) (w : QuotaWriter) (purpose : Purpose) : Quota :=
  { s with
    reservedBytes := wrap64 (s.reservedBytes + purpose.amount w.params)
    writers := s.writers.write i { w with
      reserved := wrap64 (w.reserved + purpose.amount w.params)
      progress := purpose.next } }

def releaseReservation (reservedBytes n : ℤ) : ℤ :=
  if n ≤ 0 then reservedBytes else wrap64 (reservedBytes - n)

def releaseReserved (s : Quota) (i : ℕ) (w : QuotaWriter) (n : ℤ) : Quota :=
  { s with
    reservedBytes := releaseReservation s.reservedBytes (releasable w.reserved n)
    writers := s.writers.write i { w with reserved := w.reserved - releasable w.reserved n } }

def drop (s : Quota) (i : ℕ) (w : QuotaWriter) : Quota :=
  { s with
    reservedBytes := releaseReservation s.reservedBytes w.reserved
    writers := s.writers.remove i }

def publish (s : Quota) (i : ℕ) (w : QuotaWriter) (m : Meta) (closing : Bool) : Quota :=
  { s with
    disk := s.disk.write w.key m
    writers := s.writers.write i { w with progress := .publishing }
    holder := some ⟨i, .account (metaTotal (s.disk.get w.key)) (metaTotal (some m)), closing⟩ }

def step (maxBytes interval : ℤ) (s : Quota) : QuotaEvent → Option Quota
  | .beginSegment i key p =>
    if (s.writers.get i).isSome ∨ validateSegmentParams key p = false then none
    else if maxBytes ≤ 0 ∨ quotaReservationFor p ≤ 0 then
      some (s.set i
        { key := key, params := p, reserved := quotaReservationFor p, progress := .opening })
    else some (s.set i { key := key, params := p, progress := .reserving .segment .loadUsed })
  | .loadUsed i => (s.writers.get i).bind fun w =>
    match w.progress with
    | .reserving purpose .loadUsed =>
      some (s.set i { w with progress := .reserving purpose (.loadReserved s.usedBytes) })
    | _ => none
  | .loadReserved i => (s.writers.get i).bind fun w =>
    match w.progress with
    | .reserving purpose (.loadReserved used) =>
      some (s.set i { w with progress := .reserving purpose (.swap used s.reservedBytes) })
    | _ => none
  | .swap i => (s.writers.get i).bind fun w =>
    match w.progress with
    | .reserving purpose (.swap used reserved) =>
      if maxBytes ≤ used ∨ maxBytes < wrap64 (used + reserved + purpose.amount w.params) then
        some (s.refuse i w purpose)
      else if s.reservedBytes = reserved then some (s.grant i w purpose)
      else some (s.set i { w with progress := .reserving purpose .loadUsed })
    | _ => none
  | .opened i ok => (s.writers.get i).bind fun w =>
    match w.progress with
    | .opening => some (if ok then s.set i { w with progress := .idle } else s.drop i w)
    | _ => none
  | .write i n => (s.writers.get i).bind fun w =>
    match w.progress with
    | .idle =>
      if n = 0 then none
      else some (s.set i { w with
        progress := if dynamicQuota maxBytes w.params then .reserving (.write n) .loadUsed
          else .storing n })
    | _ => none
  | .stored i k => (s.writers.get i).bind fun w =>
    match w.progress with
    | .storing n =>
      if n < k then none
      else
        let w' := { w with written := w.written + k, progress := .idle }
        some (if dynamicQuota maxBytes w.params ∧ k < n then s.releaseReserved i w' (n - k)
          else s.set i w')
    | _ => none
  | .checkpoint i => (s.writers.get i).bind fun w =>
    match w.progress with
    | .idle =>
      if s.holder.isSome ∨ ¬ (0 < interval ∧ interval ≤ (w.written : ℤ) - w.lastCheckpoint)
      then none
      else some (s.publish i w (w.params.checkpointMeta w.written (s.disk.get w.key)) false)
    | _ => none
  | .commit i => (s.writers.get i).bind fun w =>
    match w.progress with
    | .idle =>
      if s.holder.isSome then none
      else some (s.publish i w (w.params.commitMeta w.written (s.disk.get w.key)) true)
    | _ => none
  | .account =>
    match s.holder with
    | some ⟨i, .account oldTotal newTotal, closing⟩ => some { s with
        usedBytes := if newTotal ≠ oldTotal then wrap64 (s.usedBytes + (newTotal - oldTotal))
          else s.usedBytes
        holder := some ⟨i, .release (if oldTotal < newTotal then newTotal - oldTotal else 0),
          closing⟩ }
    | _ => none
  | .release =>
    match s.holder with
    | some ⟨i, .release n, closing⟩ => (s.writers.get i).bind fun w =>
        some (({ s with holder := none } : Quota).releaseReserved i
          (if closing then { w with progress := .closing }
            else { w with progress := .idle, lastCheckpoint := w.written }) n)
    | _ => none
  | .finish i => (s.writers.get i).bind fun w =>
    match w.progress with
    | .closing => some (s.drop i w)
    | _ => none

/-! ## What holds between the counters and the rest -/

def counting (s : Quota) : Option ℤ :=
  match s.holder with
  | some ⟨_, .account oldTotal newTotal, _⟩ => some (newTotal - oldTotal)
  | _ => none

def uncounted (s : Quota) : ℤ := s.counting.getD 0

structure Balanced (maxBytes : ℤ) (s : Quota) : Prop where
  used : s.usedBytes = bytesOn s.disk - s.uncounted
  used_nonneg : 0 ≤ s.usedBytes
  reserved : s.reservedBytes = s.writers.sum QuotaWriter.reserved
  nonneg : ∀ i w, s.writers.get i = some w → 0 ≤ w.reserved
  unpromised : ∀ i w stage, s.writers.get i = some w →
    w.progress = .reserving .segment stage → w.reserved = 0
  room : s.usedBytes + s.reservedBytes ≤ maxBytes

theorem metaTotal_nonneg (m : Option Meta) : 0 ≤ metaTotal m := by
  unfold metaTotal
  split
  · exact le_rfl
  · split
    · exact le_rfl
    · split
      · exact le_rfl
      · omega

theorem bytesOn_nonneg (disk : Directory Bytes Meta) : 0 ≤ bytesOn disk :=
  Directory.sum_nonneg (fun _ m _ => metaTotal_nonneg (some m))

theorem bytesOn_write (disk : Directory Bytes Meta) (key : Bytes) (m : Meta) :
    bytesOn (disk.write key m)
      = bytesOn disk + (metaTotal (some m) - metaTotal (disk.get key)) := by
  rw [bytesOn, Directory.sum_write, Usage.weight_metaTotal]
  rfl

section
variable {maxBytes interval : ℤ}

variable {s s' : Quota} {i : ℕ} {w : QuotaWriter}

theorem Balanced.le_reserved (h : s.Balanced maxBytes) (hw : s.writers.get i = some w) :
    w.reserved ≤ s.reservedBytes := by
  rw [h.reserved]
  exact Directory.le_sum h.nonneg hw

theorem Balanced.reserved_nonneg (h : s.Balanced maxBytes) : 0 ≤ s.reservedBytes := by
  rw [h.reserved]
  exact Directory.sum_nonneg h.nonneg

theorem Balanced.replace (h : s.Balanced maxBytes) (hdisk : s'.disk = s.disk)
    (hused : s'.usedBytes = s.usedBytes) (huncounted : s'.uncounted = s.uncounted)
    (hwriters : s'.writers = s.writers.write i w)
    (hreserved : s'.reservedBytes
      = s.reservedBytes + (w.reserved - (s.writers.get i).elim 0 QuotaWriter.reserved))
    (hnonneg : 0 ≤ w.reserved)
    (hunpromised : ∀ stage, w.progress = .reserving .segment stage → w.reserved = 0)
    (hroom : s'.usedBytes + s'.reservedBytes ≤ maxBytes) : s'.Balanced maxBytes := by
  refine ⟨?_, hused ▸ h.used_nonneg, ?_, ?_, fun i' w' stage hw' => ?_, hroom⟩
  · rw [hused, hdisk, huncounted, h.used]
  · rw [hreserved, hwriters, Directory.sum_write, h.reserved]
    rfl
  · rw [hwriters]
    exact Directory.forall_write hnonneg h.nonneg
  · rw [hwriters] at hw'
    exact @Directory.forall_write _ _ _ _ i w
      (fun _ w => w.progress = .reserving .segment stage → w.reserved = 0) (hunpromised stage)
      (fun i w => h.unpromised i w stage) i' w' hw'

theorem Balanced.set (h : s.Balanced maxBytes) {w' : QuotaWriter} (hw : s.writers.get i = some w)
    (hsame : w'.reserved = w.reserved)
    (hunpromised : ∀ stage, w'.progress = .reserving .segment stage → w.reserved = 0) :
    (s.set i w').Balanced maxBytes := by
  refine h.replace rfl rfl rfl rfl ?_ (hsame ▸ h.nonneg i w hw) (hsame ▸ hunpromised) h.room
  rw [hw, hsame]
  show s.reservedBytes = s.reservedBytes + (w.reserved - w.reserved)
  omega

theorem Balanced.reserving (h : s.Balanced maxBytes) (hw : s.writers.get i = some w)
    {purpose : Purpose} {stage : Reserving} (hp : w.progress = .reserving purpose stage)
    (next : Reserving) :
    (s.set i { w with progress := .reserving purpose next }).Balanced maxBytes := by
  refine h.set hw rfl (fun _ hst => h.unpromised i w stage hw ?_)
  cases hst
  exact hp

theorem Balanced.remove (h : s.Balanced maxBytes) (hw : s.writers.get i = some w)
    (hdisk : s'.disk = s.disk) (hused : s'.usedBytes = s.usedBytes)
    (huncounted : s'.uncounted = s.uncounted) (hwriters : s'.writers = s.writers.remove i)
    (hreserved : s'.reservedBytes = s.reservedBytes - w.reserved) : s'.Balanced maxBytes := by
  have hget : ∀ i' w', s'.writers.get i' = some w' → s.writers.get i' = some w' := by
    intro i' w' hw'
    rw [hwriters] at hw'
    by_cases hi : i' = i
    · rw [hi, Directory.get_remove] at hw'
      cases hw'
    · rwa [Directory.get_remove_of_ne _ hi] at hw'
  refine ⟨?_, hused ▸ h.used_nonneg, ?_, fun i' w' hw' => h.nonneg i' w' (hget i' w' hw'),
    fun i' w' stage hw' => h.unpromised i' w' stage (hget i' w' hw'), ?_⟩
  · rw [hused, hdisk, huncounted, h.used]
  · rw [hreserved, hwriters, Directory.sum_remove, h.reserved, hw]
    rfl
  · have := h.room
    have := h.nonneg i w hw
    omega

theorem Balanced.releaseReservation_eq (h : s.Balanced maxBytes) (hmax : maxBytes < 2 ^ 63)
    {n : ℤ} (hn : 0 ≤ n) (hle : n ≤ s.reservedBytes) :
    releaseReservation s.reservedBytes n = s.reservedBytes - n := by
  have := h.room
  have := h.used_nonneg
  unfold releaseReservation
  split
  · omega
  · exact wrap64_eq_self (by omega) (by omega)

theorem Balanced.drop (h : s.Balanced maxBytes) (hmax : maxBytes < 2 ^ 63)
    (hw : s.writers.get i = some w) : (s.drop i w).Balanced maxBytes :=
  h.remove hw rfl rfl rfl rfl
    (h.releaseReservation_eq hmax (h.nonneg i w hw) (h.le_reserved hw))

theorem Balanced.releaseReserved (h : s.Balanced maxBytes) (hmax : maxBytes < 2 ^ 63)
    {w' : QuotaWriter} (hw : s.writers.get i = some w) (hsame : w'.reserved = w.reserved)
    (hpast : ∀ stage, w'.progress ≠ .reserving .segment stage) (n : ℤ) :
    (s.releaseReserved i w' n).Balanced maxBytes := by
  have hnonneg : 0 ≤ w'.reserved := hsame ▸ h.nonneg i w hw
  obtain ⟨hlo, hhi⟩ := releasable_bounds hnonneg n
  have hle : releasable w'.reserved n ≤ s.reservedBytes := hhi.trans (hsame ▸ h.le_reserved hw)
  have hreserved := h.releaseReservation_eq hmax hlo hle
  refine h.replace (w := { w' with reserved := w'.reserved - releasable w'.reserved n }) rfl rfl
    rfl rfl ?_ ?_ (fun stage hst => absurd hst (hpast stage)) ?_
  · show releaseReservation s.reservedBytes (releasable w'.reserved n) = _
    rw [hreserved, hw]
    show _ = s.reservedBytes + (w'.reserved - releasable w'.reserved n - w.reserved)
    omega
  · show 0 ≤ w'.reserved - releasable w'.reserved n
    omega
  · show s.usedBytes + releaseReservation s.reservedBytes (releasable w'.reserved n) ≤ maxBytes
    have := h.room
    omega

theorem Balanced.writeDisk (h : s.Balanced maxBytes) (hfree : s.holder = none) (key : Bytes)
    (m : Meta) (i : ℕ) (closing : Bool) :
    ({ s with
      disk := s.disk.write key m
      holder := some ⟨i, .account (metaTotal (s.disk.get key)) (metaTotal (some m)), closing⟩ } :
      Quota).Balanced maxBytes := by
  refine ⟨?_, h.used_nonneg, h.reserved, h.nonneg, h.unpromised, h.room⟩
  have hall : s.usedBytes = bytesOn s.disk := by
    rw [h.used, uncounted, counting, hfree]
    exact sub_zero _
  show s.usedBytes = bytesOn (s.disk.write key m)
    - (metaTotal (some m) - metaTotal (s.disk.get key))
  rw [bytesOn_write, hall]
  omega

theorem Balanced.publish (h : s.Balanced maxBytes) (hw : s.writers.get i = some w)
    (hfree : s.holder = none) (m : Meta) (closing : Bool) :
    (s.publish i w m closing).Balanced maxBytes :=
  (@Balanced.set maxBytes s i w h { w with progress := .publishing } hw rfl nofun).writeDisk
    hfree w.key m i closing

theorem Balanced.account (h : s.Balanced maxBytes) (hmax : maxBytes < 2 ^ 63)
    {oldTotal newTotal n : ℤ} {closing : Bool}
    (hcounting : s.counting = some (newTotal - oldTotal))
    (hroom : s.usedBytes + s.reservedBytes + (newTotal - oldTotal) ≤ maxBytes) :
    ({ s with
      usedBytes := if newTotal ≠ oldTotal then wrap64 (s.usedBytes + (newTotal - oldTotal))
        else s.usedBytes
      holder := some ⟨i, .release n, closing⟩ } : Quota).Balanced maxBytes := by
  have hall : s.usedBytes + (newTotal - oldTotal) = bytesOn s.disk := by
    rw [h.used, uncounted, hcounting, Option.getD_some]
    omega
  have hpos := bytesOn_nonneg s.disk
  have hreserved := h.reserved_nonneg
  have hcount : (if newTotal ≠ oldTotal then wrap64 (s.usedBytes + (newTotal - oldTotal))
      else s.usedBytes) = s.usedBytes + (newTotal - oldTotal) := by
    split
    · exact wrap64_eq_self (by omega) (by omega)
    · omega
  refine ⟨?_, ?_, h.reserved, h.nonneg, h.unpromised, ?_⟩
  · show (if newTotal ≠ oldTotal then _ else _) = bytesOn s.disk - 0
    rw [hcount, hall, sub_zero]
  · show 0 ≤ if newTotal ≠ oldTotal then _ else _
    rw [hcount, hall]
    exact hpos
  · show (if newTotal ≠ oldTotal then _ else _) + s.reservedBytes ≤ maxBytes
    rw [hcount]
    omega

theorem quotaReservationFor_nonneg (p : SegmentParams) : 0 ≤ quotaReservationFor p := by
  unfold quotaReservationFor
  split
  · omega
  · split <;> omega

theorem amount_nonneg (p : SegmentParams) (purpose : Purpose) : 0 ≤ purpose.amount p := by
  cases purpose with
  | segment => exact quotaReservationFor_nonneg p
  | write n => exact Int.natCast_nonneg n

theorem Balanced.grant (h : s.Balanced maxBytes) {purpose : Purpose} {used : ℤ}
    (hw : s.writers.get i = some w)
    (hcheck : ¬ (maxBytes ≤ used
      ∨ maxBytes < wrap64 (used + s.reservedBytes + purpose.amount w.params)))
    (hused : s.usedBytes ≤ used)
    (hfits : used + s.reservedBytes + purpose.amount w.params < 2 ^ 63) :
    (s.grant i w purpose).Balanced maxBytes := by
  have hn := amount_nonneg w.params purpose
  have hu := h.used_nonneg
  have hr := h.reserved_nonneg
  have hheld := h.nonneg i w hw
  have hle := h.le_reserved hw
  rw [not_or, wrap64_eq_self (by omega) hfits] at hcheck
  have hwords : wrap64 (s.reservedBytes + purpose.amount w.params)
      = s.reservedBytes + purpose.amount w.params := wrap64_eq_self (by omega) (by omega)
  have hown : wrap64 (w.reserved + purpose.amount w.params)
      = w.reserved + purpose.amount w.params := wrap64_eq_self (by omega) (by omega)
  refine h.replace (w := { w with
      reserved := wrap64 (w.reserved + purpose.amount w.params), progress := purpose.next })
    rfl rfl rfl rfl ?_ ?_ (fun stage hst => ?_) ?_
  · show wrap64 (s.reservedBytes + purpose.amount w.params) = s.reservedBytes
      + (wrap64 (w.reserved + purpose.amount w.params)
        - (s.writers.get i).elim 0 QuotaWriter.reserved)
    rw [hwords, hown, hw]
    show _ = s.reservedBytes + (w.reserved + purpose.amount w.params - w.reserved)
    omega
  · show 0 ≤ wrap64 (w.reserved + purpose.amount w.params)
    omega
  · cases purpose with
    | segment => cases hst
    | write n => cases hst
  · show s.usedBytes + wrap64 (s.reservedBytes + purpose.amount w.params) ≤ maxBytes
    omega

/-! ## A promise nobody comes between -/

theorem run_reserving (hw : s.writers.get i = some w) {purpose : Purpose}
    (hp : w.progress = .reserving purpose .loadUsed) (hpos : 0 < maxBytes)
    (hn : 0 < purpose.amount w.params) :
    (Runs.run (step maxBytes interval) s [.loadUsed i, .loadReserved i, .swap i]).map
        (fun s' => (s'.usedBytes, s'.reservedBytes, (s'.writers.get i).map QuotaWriter.progress))
      = some (match reserveQuota maxBytes s.usedBytes s.reservedBytes
            (purpose.amount w.params) with
        | none => (s.usedBytes, s.reservedBytes, purpose.refused)
        | some r => (s.usedBytes, r, some purpose.next)) := by
  rw [reserveQuota, if_neg (by omega)]
  simp only [Runs.run, step, hw, hp, set, Option.bind_some, Directory.get_write]
  split
  · cases purpose with
    | segment => simp [refuse, Purpose.refused]
    | write n => simp [refuse, set, Purpose.refused]
  · simp [grant]

/-! ## The quota is kept -/

def swapping (s : Quota) (i : ℕ) : Option (ℤ × ℤ) :=
  (s.writers.get i).bind fun w =>
    match w.progress with
    | .reserving purpose (.swap used reserved) =>
      if s.reservedBytes = reserved then some (used, purpose.amount w.params) else none
    | _ => none

def Roomy (maxBytes : ℤ) (s : Quota) : QuotaEvent → Prop
  | .swap i => ∀ read ∈ s.swapping i,
      s.usedBytes ≤ read.1 ∧ read.1 + s.reservedBytes + read.2 < 2 ^ 63
  | .account => ∀ n ∈ s.counting, s.usedBytes + s.reservedBytes + n ≤ maxBytes
  | _ => True

instance (maxBytes : ℤ) (s : Quota) : (e : QuotaEvent) → Decidable (s.Roomy maxBytes e)
  | .swap i => inferInstanceAs (Decidable (∀ read ∈ s.swapping i,
      s.usedBytes ≤ read.1 ∧ read.1 + s.reservedBytes + read.2 < 2 ^ 63))
  | .account =>
    inferInstanceAs (Decidable (∀ n ∈ s.counting, s.usedBytes + s.reservedBytes + n ≤ maxBytes))
  | .beginSegment _ _ _ | .loadUsed _ | .loadReserved _ | .opened _ _ | .write _ _ | .stored _ _
  | .checkpoint _ | .commit _ | .release | .finish _ => isTrue trivial

theorem Balanced.step {e : QuotaEvent} (h : s.Balanced maxBytes) (hpos : 0 < maxBytes)
    (hmax : maxBytes < 2 ^ 63) (hroomy : s.Roomy maxBytes e)
    (hs : s.step maxBytes interval e = some s') : s'.Balanced maxBytes := by
  cases e with
  | beginSegment i key p =>
    rw [Quota.step] at hs
    obtain ⟨hnew, hs⟩ := Option.ite_none_left_eq_some.mp hs
    have hnone : s.writers.get i = none := by
      simpa using (not_or.mp hnew).1
    have hzero : ∀ w : QuotaWriter, w.reserved = 0 → (s.set i w).Balanced maxBytes := by
      intro w hw
      refine h.replace rfl rfl rfl rfl ?_ hw.ge (fun _ _ => hw) h.room
      rw [hnone, hw]
      exact (add_zero _).symm
    split at hs
    · next hno =>
      cases hs
      exact hzero _ (le_antisymm (hno.resolve_left (by omega)) (quotaReservationFor_nonneg p))
    · cases hs
      exact hzero _ rfl
  | loadUsed i =>
    obtain ⟨w, hw, hs⟩ := Option.bind_eq_some_iff.mp hs
    split at hs
    · next purpose hp =>
      cases hs
      exact h.reserving hw hp _
    · cases hs
  | loadReserved i =>
    obtain ⟨w, hw, hs⟩ := Option.bind_eq_some_iff.mp hs
    split at hs
    · next purpose used hp =>
      cases hs
      exact h.reserving hw hp _
    · cases hs
  | swap i =>
    obtain ⟨w, hw, hs⟩ := Option.bind_eq_some_iff.mp hs
    split at hs
    · next purpose used reserved hp =>
      split at hs
      · cases hs
        cases purpose with
        | segment =>
          refine h.remove hw rfl rfl rfl rfl ?_
          rw [h.unpromised i w _ hw hp]
          exact (sub_zero _).symm
        | write n => exact h.set hw rfl nofun
      · next hcheck =>
        split at hs
        · next heq =>
          cases hs
          subst heq
          have hread : s.swapping i = some (used, purpose.amount w.params) := by
            simp [swapping, hw, hp]
          obtain ⟨hused, hfits⟩ := hroomy _ hread
          exact h.grant hw hcheck hused hfits
        · cases hs
          exact h.reserving hw hp _
    · cases hs
  | opened i ok =>
    obtain ⟨w, hw, hs⟩ := Option.bind_eq_some_iff.mp hs
    split at hs
    · cases hs
      cases ok with
      | true => exact h.set hw rfl nofun
      | false => exact h.drop hmax hw
    · cases hs
  | write i n =>
    obtain ⟨w, hw, hs⟩ := Option.bind_eq_some_iff.mp hs
    split at hs
    · obtain ⟨-, hs⟩ := Option.ite_none_left_eq_some.mp hs
      cases hs
      refine h.set hw rfl (fun stage hst => ?_)
      dsimp only at hst
      split at hst <;> cases hst
    · cases hs
  | stored i k =>
    obtain ⟨w, hw, hs⟩ := Option.bind_eq_some_iff.mp hs
    split at hs
    · next n hp =>
      obtain ⟨-, hs⟩ := Option.ite_none_left_eq_some.mp hs
      cases hs
      split
      · exact @Balanced.releaseReserved maxBytes s i w h hmax
          { w with written := w.written + k, progress := .idle } hw rfl (fun _ => nofun) _
      · exact h.set hw rfl nofun
    · cases hs
  | checkpoint i =>
    obtain ⟨w, hw, hs⟩ := Option.bind_eq_some_iff.mp hs
    split at hs
    · obtain ⟨hfree, hs⟩ := Option.ite_none_left_eq_some.mp hs
      cases hs
      exact h.publish hw (by simpa using (not_or.mp hfree).1) _ _
    · cases hs
  | commit i =>
    obtain ⟨w, hw, hs⟩ := Option.bind_eq_some_iff.mp hs
    split at hs
    · obtain ⟨hfree, hs⟩ := Option.ite_none_left_eq_some.mp hs
      cases hs
      exact h.publish hw (by simpa using hfree) _ _
    · cases hs
  | account =>
    rw [Quota.step] at hs
    split at hs
    · next i oldTotal newTotal closing hholder =>
      cases hs
      have hcounting : s.counting = some (newTotal - oldTotal) := by
        rw [counting, hholder]
      exact h.account hmax hcounting (hroomy _ hcounting)
    · cases hs
  | release =>
    rw [Quota.step] at hs
    split at hs
    · next i n closing hholder =>
      obtain ⟨w, hw, hs⟩ := Option.bind_eq_some_iff.mp hs
      cases hs
      have hfree : ({ s with holder := none } : Quota).Balanced maxBytes := by
        refine ⟨?_, h.used_nonneg, h.reserved, h.nonneg, h.unpromised, h.room⟩
        rw [h.used, uncounted, counting, hholder]
        rfl
      refine hfree.releaseReserved hmax hw ?_ (fun stage => ?_) n
      · cases closing <;> rfl
      · cases closing <;> nofun
    · cases hs
  | finish i =>
    obtain ⟨w, hw, hs⟩ := Option.bind_eq_some_iff.mp hs
    split at hs
    · cases hs
      exact h.drop hmax hw
    · cases hs

theorem balanced_start {disk : Directory Bytes Meta} (hmax : maxBytes < 2 ^ 63)
    (hdisk : bytesOn disk ≤ maxBytes) : (start disk).Balanced maxBytes := by
  have hpos := bytesOn_nonneg disk
  have hused : (start disk).usedBytes = bytesOn disk := wrap64_eq_self (by omega) (by omega)
  constructor
  case used =>
    rw [hused]
    show bytesOn disk = bytesOn disk - 0
    rw [sub_zero]
  case used_nonneg => exact hused ▸ hpos
  case reserved => exact Finset.sum_empty.symm
  case nonneg =>
    intro i w hw
    cases hw
  case unpromised =>
    intro i w stage hw
    cases hw
  case room =>
    rw [hused]
    show bytesOn disk + 0 ≤ maxBytes
    rwa [add_zero]

/-- **The quota is kept in every state of every run whose steps there is room
for.** -/
theorem room_of_roomy (hpos : 0 < maxBytes) (hmax : maxBytes < 2 ^ 63)
    {disk : Directory Bytes Meta} (hdisk : bytesOn disk ≤ maxBytes) {es : List QuotaEvent}
    (hmeets : Runs.Meets (step maxBytes interval) (Roomy maxBytes) (start disk) es) :
    Runs.Throughout (step maxBytes interval)
      (fun s => s.usedBytes + s.reservedBytes ≤ maxBytes) (start disk) es := by
  have hbalanced : Runs.Throughout (step maxBytes interval) (Balanced maxBytes) (start disk) es :=
    Runs.throughout_of_meets (fun _ _ _ h hroomy hs => h.step hpos hmax hroomy hs)
      (balanced_start hmax hdisk) hmeets
  exact hbalanced.imp (fun _ h => h.room)

end

def responseOf (n : ℕ) : SegmentParams := { status := 200, start := 0, length := n, total := n }

def fetchPromised (i n : ℕ) : List QuotaEvent :=
  [.opened i true, .write i n, .stored i n, .commit i, .account, .release, .finish i]

theorem room_of_roomy_five :
    Runs.Throughout (step 10 0) (fun s => s.usedBytes + s.reservedBytes ≤ 10) (start .empty)
      ([.beginSegment 0 [107] (responseOf 5), .loadUsed 0, .loadReserved 0, .swap 0]
        ++ fetchPromised 0 5) :=
  room_of_roomy (by decide) (by decide) (by decide) (by decide +kernel)

/-- **The quota can be overrun for good.** -/
theorem stale_load_overruns_quota :
    ∃ s, Runs.run (step 10 0) (start .empty)
        ([.beginSegment 0 [107] (responseOf 10), .beginSegment 1 [108] (responseOf 10),
          .loadUsed 1, .loadUsed 0, .loadReserved 0, .swap 0] ++ fetchPromised 0 10
          ++ [.loadReserved 1, .swap 1] ++ fetchPromised 1 10) = some s
      ∧ (s.usedBytes, s.reservedBytes) = (20, 0) := by
  have hrun : ∃ s ∈ Runs.run (step 10 0) (start .empty)
        ([.beginSegment 0 [107] (responseOf 10), .beginSegment 1 [108] (responseOf 10),
          .loadUsed 1, .loadUsed 0, .loadReserved 0, .swap 0] ++ fetchPromised 0 10
          ++ [.loadReserved 1, .swap 1] ++ fetchPromised 1 10),
      (s.usedBytes, s.reservedBytes) = (20, 0) := by
    decide +kernel
  exact hrun

end Quota

end Cache
