import Pulsys.Base.Runs
import Pulsys.Cache.Quota

/-!
# Reservations

A promise is taken back in pieces, and each call may fail at any of its steps. The promises
add up, and are gone when all writers are closed, in every run in which none takes the
counter beyond 64 bits (`conserved_iff_fits`).
-/

namespace Cache

open Bytes Runs Text

structure ReservedWriter where
  key : Bytes
  params : SegmentParams
  written : ℕ := 0
  lastCheckpoint : ℕ := 0
  closed : Bool := false
  reserved : ℤ := 0

def ReservedWriter.held (w : ReservedWriter) : ℤ := if w.closed then 0 else w.reserved

structure Publishing where
  reads : Bool
  writes : Bool
  syncs : Bool
  deriving DecidableEq, Repr

structure SegmentStore where
  disk : Directory Bytes Meta
  usedBytes : ℤ
  reservedBytes : ℤ
  w : ReservedWriter

namespace SegmentStore

def releaseReserved (a : SegmentStore) (n : ℤ) : SegmentStore :=
  { a with
    reservedBytes := Quota.releaseReservation a.reservedBytes (releasable a.w.reserved n)
    w := { a.w with reserved := a.w.reserved - releasable a.w.reserved n } }

def readMeta (a : SegmentStore) (pub : Publishing) : Option Meta :=
  if pub.reads then a.disk.get a.w.key else none

def put (a : SegmentStore) (m : Meta) : SegmentStore :=
  { a with disk := a.disk.write a.w.key m.reread }

def accountMetaTransition (a : SegmentStore) (oldTotal newTotal : ℤ) : SegmentStore × ℤ :=
  ({ a with
      usedBytes := if newTotal ≠ oldTotal then wrap64 (a.usedBytes + (newTotal - oldTotal))
        else a.usedBytes },
    if oldTotal < newTotal then newTotal - oldTotal else 0)

def account (a : SegmentStore) (old : Option Meta) (m : Meta) : SegmentStore :=
  let accounted := a.accountMetaTransition (metaTotal old) (metaTotal (some m))
  accounted.1.releaseReserved accounted.2

def checkpointed (a : SegmentStore) : SegmentStore :=
  { a with w := { a.w with lastCheckpoint := a.w.written } }

def checkpoint (a : SegmentStore) (pub : Publishing) : SegmentStore :=
  if a.w.written = a.w.lastCheckpoint then a
  else
    let old := a.readMeta pub
    let m := a.w.params.checkpointMeta a.w.written old
    if !pub.writes then a else ((a.put m).account old m).checkpointed

def commit (a : SegmentStore) (pub : Publishing) : SegmentStore :=
  let old := a.readMeta pub
  let m := a.w.params.commitMeta a.w.written old
  if !pub.writes then a
  else if !pub.syncs then a.put m
  else (a.put m).account old m

def shut (a : SegmentStore) : SegmentStore := { a with w := { a.w with closed := true } }

def close (a : SegmentStore) (pub : Publishing) : SegmentStore :=
  if a.w.closed then a else (a.shut.commit pub).releaseReserved a.w.reserved

def promise (a : SegmentStore) (reservedBytes : ℤ) (n : ℕ) : SegmentStore :=
  { a with reservedBytes := reservedBytes, w := { a.w with reserved := wrap64 (a.w.reserved + n) } }

def afterWrite (a : SegmentStore) (reservedBytes : ℤ) (n k : ℕ) : SegmentStore :=
  let a := a.promise reservedBytes n
  if k < n then a.releaseReserved (n - k) else a

def grow (a : SegmentStore) (k : ℕ) : SegmentStore :=
  { a with w := { a.w with written := a.w.written + k } }

def wrote (a : SegmentStore) (interval : ℤ) (k : ℕ) (err : Bool) (pub : Publishing) :
    SegmentStore :=
  let a := a.grow k
  if err = false ∧ 0 < interval ∧ interval ≤ (a.w.written : ℤ) - a.w.lastCheckpoint then
    a.checkpoint pub
  else a

def write (a : SegmentStore) (maxBytes interval : ℤ) (n k : ℕ) (err : Bool) (pub : Publishing) :
    SegmentStore :=
  if n = 0 then a
  else if dynamicQuota maxBytes a.w.params then
    match reserveQuota maxBytes a.usedBytes a.reservedBytes n with
    | none => a
    | some reservedBytes => (a.afterWrite reservedBytes n k).wrote interval k err pub
  else a.wrote interval k err pub

end SegmentStore

/-! ## The store -/

inductive FileStep
  | mkdirAll
  | openFile
  | truncate
  | seek
  deriving DecidableEq, Repr

structure Reservations where
  disk : Directory Bytes Meta
  usedBytes : ℤ
  reservedBytes : ℤ := 0
  writers : Directory ℕ ReservedWriter := .empty

inductive ReservationEvent
  | beginSegment (i : ℕ) (key : Bytes) (p : SegmentParams) (fails : Option FileStep)
  | write (i n k : ℕ) (err : Bool) (pub : Publishing)
  | checkpoint (i : ℕ) (pub : Publishing)
  | close (i : ℕ) (pub : Publishing)

namespace Reservations

def view (s : Reservations) (w : ReservedWriter) : SegmentStore :=
  ⟨s.disk, s.usedBytes, s.reservedBytes, w⟩

def back (s : Reservations) (i : ℕ) (a : SegmentStore) : Reservations :=
  ⟨a.disk, a.usedBytes, a.reservedBytes, s.writers.write i a.w⟩

def beginSegment (s : Reservations) (maxBytes : ℤ) (i : ℕ) (key : Bytes) (p : SegmentParams)
    (fails : Option FileStep) : Reservations :=
  let reserved := quotaReservationFor p
  match reserveQuota maxBytes s.usedBytes s.reservedBytes reserved with
  | none => s
  | some reservedBytes =>
    match fails with
    | some _ => { s with reservedBytes := Quota.releaseReservation reservedBytes reserved }
    | none => { s with
        reservedBytes := reservedBytes
        writers := s.writers.write i { key := key, params := p, reserved := reserved } }

def step (maxBytes interval : ℤ) (s : Reservations) : ReservationEvent → Option Reservations
  | .beginSegment i key p fails =>
    if (s.writers.get i).isSome ∨ ¬ quotaReservationFor p < 2 ^ 63
        ∨ fails = some .truncate ∧ ¬ 0 < p.total then none
    else if validateSegmentParams key p = false then some s
    else some (s.beginSegment maxBytes i key p fails)
  | .write i n k err pub => (s.writers.get i).bind fun w =>
    if ¬ n < 2 ^ 63 ∨ n < k ∨ (k < n ∧ err = false) ∨ (w.closed = true ∧ ¬ (k = 0 ∧ err = true))
    then none
    else some (s.back i ((s.view w).write maxBytes interval n k err pub))
  | .checkpoint i pub => (s.writers.get i).bind fun w =>
    some (s.back i ((s.view w).checkpoint pub))
  | .close i pub => (s.writers.get i).bind fun w =>
    some (s.back i ((s.view w).close pub))

structure Conserved (s : Reservations) : Prop where
  sum : s.reservedBytes = s.writers.sum ReservedWriter.held
  nonneg : 0 ≤ s.reservedBytes
  zero : (∀ i w, s.writers.get i = some w → w.closed = true) → s.reservedBytes = 0

def Fits (maxBytes : ℤ) (s : Reservations) : ReservationEvent → Prop
  | .beginSegment _ key p fails =>
    validateSegmentParams key p = true → fails = none →
      (reserveQuota maxBytes s.usedBytes s.reservedBytes (quotaReservationFor p)).isSome = true →
      s.reservedBytes + quotaReservationFor p < 2 ^ 63
  | .write i n k _ _ => ∀ w ∈ s.writers.get i, n ≠ 0 → dynamicQuota maxBytes w.params = true →
      (reserveQuota maxBytes s.usedBytes s.reservedBytes n).isSome = true →
      w.reserved + n < 2 ^ 63 ∧ s.reservedBytes + k < 2 ^ 63
  | .checkpoint _ _ => True
  | .close _ _ => True

instance (maxBytes : ℤ) (s : Reservations) (e : ReservationEvent) :
    Decidable (Fits maxBytes s e) := by
  cases e with
  | beginSegment | write => unfold Fits; infer_instance
  | checkpoint | close => exact isTrue trivial

end Reservations

/-! ## What a writer does to the promises -/

namespace SegmentStore

structure Backed (rest : ℤ) (a : SegmentStore) : Prop where
  eq : a.reservedBytes = rest + a.w.reserved
  nonneg : 0 ≤ a.w.reserved
  others : 0 ≤ rest
  lt : a.reservedBytes < 2 ^ 63

variable {rest : ℤ} {a : SegmentStore}

structure Settled (a b : SegmentStore) : Prop where
  backed : ∀ {rest : ℤ}, Backed rest a → Backed rest b
  le : 0 ≤ a.w.reserved → b.w.reserved ≤ a.w.reserved
  closed : b.w.closed = a.w.closed

theorem Settled.trans {b c : SegmentStore} (h : Settled a b) (h' : Settled b c)
    (hnonneg : 0 ≤ a.w.reserved → 0 ≤ b.w.reserved) : Settled a c :=
  ⟨fun hback => h'.backed (h.backed hback), fun ha => (h'.le (hnonneg ha)).trans (h.le ha),
    h'.closed.trans h.closed⟩

theorem Backed.congr {b : SegmentStore} (h : Backed rest a)
    (hbytes : b.reservedBytes = a.reservedBytes) (hreserved : b.w.reserved = a.w.reserved) :
    Backed rest b :=
  ⟨by rw [hbytes, hreserved, h.eq], hreserved ▸ h.nonneg, h.others, hbytes ▸ h.lt⟩

theorem settled_of_same {b : SegmentStore} (hbytes : b.reservedBytes = a.reservedBytes)
    (hreserved : b.w.reserved = a.w.reserved) (hclosed : b.w.closed = a.w.closed) : Settled a b :=
  ⟨fun h => h.congr hbytes hreserved, fun _ => hreserved.le, hclosed⟩

theorem settled_releaseReserved (a : SegmentStore) (n : ℤ) : Settled a (a.releaseReserved n) := by
  refine ⟨fun {rest} h => ?_, fun h => sub_le_self _ (releasable_bounds h n).1, rfl⟩
  obtain ⟨hlo, hhi⟩ := releasable_bounds h.nonneg n
  have heq := h.eq
  have hothers := h.others
  have hlt := h.lt
  have hrelease : Quota.releaseReservation a.reservedBytes (releasable a.w.reserved n)
      = a.reservedBytes - releasable a.w.reserved n := by
    unfold Quota.releaseReservation
    split
    · omega
    · exact wrap64_eq_self (by omega) (by omega)
  refine ⟨?_, sub_nonneg.mpr hhi, hothers, ?_⟩
  · show Quota.releaseReservation _ _ = rest + (a.w.reserved - releasable a.w.reserved n)
    rw [hrelease]
    omega
  · show Quota.releaseReservation _ _ < _
    rw [hrelease]
    omega

theorem settled_account (a : SegmentStore) (old : Option Meta) (m : Meta) :
    Settled a ((a.put m).account old m) :=
  (settled_of_same rfl rfl rfl : Settled a ((a.put m).accountMetaTransition _ _).1).trans
    (settled_releaseReserved _ _) id

theorem settled_checkpoint (a : SegmentStore) (pub : Publishing) :
    Settled a (a.checkpoint pub) := by
  unfold SegmentStore.checkpoint
  split
  · exact settled_of_same rfl rfl rfl
  dsimp only
  split
  · exact settled_of_same rfl rfl rfl
  · obtain ⟨hbacked, hle, hclosed⟩ := settled_account a (a.readMeta pub)
      (a.w.params.checkpointMeta a.w.written (a.readMeta pub))
    exact ⟨fun h => (hbacked h).congr rfl rfl, hle, hclosed⟩

theorem settled_commit (a : SegmentStore) (pub : Publishing) : Settled a (a.commit pub) := by
  unfold SegmentStore.commit
  dsimp only
  split
  · exact settled_of_same rfl rfl rfl
  split
  · exact settled_of_same rfl rfl rfl
  · exact settled_account a _ _

theorem settled_wrote (a : SegmentStore) (interval : ℤ) (k : ℕ) (err : Bool) (pub : Publishing) :
    Settled a (a.wrote interval k err pub) := by
  have hgrow : Settled a (a.grow k) := settled_of_same rfl rfl rfl
  unfold SegmentStore.wrote
  dsimp only
  split
  · exact hgrow.trans (settled_checkpoint _ pub) id
  · exact hgrow

theorem Backed.close (h : Backed rest a) (hclosed : a.w.closed = true → a.w.reserved = 0)
    (pub : Publishing) :
    Backed rest (a.close pub) ∧ (a.close pub).w.reserved = 0 ∧ (a.close pub).w.closed = true := by
  unfold SegmentStore.close
  split
  · next hshut => exact ⟨h, hclosed hshut, hshut⟩
  · have hcommit := settled_commit a.shut pub
    have hbacked : Backed rest (a.shut.commit pub) := hcommit.backed (h.congr rfl rfl)
    have hle : (a.shut.commit pub).w.reserved ≤ a.w.reserved := hcommit.le h.nonneg
    have hnonneg := hbacked.nonneg
    refine ⟨(settled_releaseReserved _ _).backed hbacked, ?_, hcommit.closed⟩
    show _ - releasable _ _ = (0 : ℤ)
    unfold releasable
    split
    · omega
    · split
      · omega
      · omega

theorem reserveQuota_eq_some {maxBytes usedBytes reservedBytes n r : ℤ} (hmax : 0 < maxBytes)
    (hn : 0 < n) (h : reserveQuota maxBytes usedBytes reservedBytes n = some r) :
    r = wrap64 (reservedBytes + n) := by
  unfold reserveQuota at h
  rw [if_neg (by omega)] at h
  exact (Option.some.inj (Option.ite_none_left_eq_some.mp h).2).symm

theorem account_of_eq {old : Option Meta} {m : Meta}
    (h : metaTotal (some m) = metaTotal old) : a.account old m = a := by
  have hnothing : releasable a.w.reserved 0 = 0 := if_pos (.inl le_rfl)
  unfold account accountMetaTransition
  rw [h]
  simp [releaseReserved, hnothing, Quota.releaseReservation]

theorem reservedBytes_checkpoint (htotal : a.w.params.total ≤ 0) (pub : Publishing) :
    (a.checkpoint pub).reservedBytes = a.reservedBytes := by
  unfold checkpoint
  split
  · rfl
  dsimp only
  split
  · rfl
  · have hsame := metaTotal_checkpointMeta a.w.params a.w.written (a.readMeta pub)
    rw [if_neg (not_lt.mpr htotal)] at hsame
    rw [account_of_eq hsame]
    rfl

theorem reservedBytes_wrote (htotal : a.w.params.total ≤ 0) (interval : ℤ) (k : ℕ) (err : Bool)
    (pub : Publishing) : (a.wrote interval k err pub).reservedBytes = a.reservedBytes := by
  unfold wrote
  dsimp only
  split
  · exact @reservedBytes_checkpoint (a.grow k) htotal pub
  · rfl

theorem afterWrite_same (a : SegmentStore) (reservedBytes : ℤ) (n k : ℕ) :
    (a.afterWrite reservedBytes n k).w.params = a.w.params
      ∧ (a.afterWrite reservedBytes n k).w.closed = a.w.closed := by
  unfold afterWrite
  dsimp only
  split
  · exact ⟨rfl, rfl⟩
  · exact ⟨rfl, rfl⟩

theorem releasable_promise (h : 0 ≤ a.w.reserved) {n k : ℕ} (hroom : a.w.reserved + n < 2 ^ 63)
    (hshort : k < n) (reservedBytes : ℤ) :
    releasable (a.promise reservedBytes n).w.reserved (n - k) = n - k := by
  have hreserved : (a.promise reservedBytes n).w.reserved = a.w.reserved + n :=
    wrap64_eq_self (by omega) (by omega)
  rw [releasable, hreserved, if_neg (by omega), if_neg (by omega)]

theorem reserved_afterWrite (h : 0 ≤ a.w.reserved) {n k : ℕ} (hk : k ≤ n)
    (hroom : a.w.reserved + n < 2 ^ 63) (reservedBytes : ℤ) :
    (a.afterWrite reservedBytes n k).w.reserved = a.w.reserved + k := by
  have hreserved : wrap64 (a.w.reserved + n) = a.w.reserved + n :=
    wrap64_eq_self (by omega) (by omega)
  unfold afterWrite
  dsimp only
  split
  · next hshort =>
    show wrap64 (a.w.reserved + n) - _ = _
    rw [releasable_promise h hroom hshort, hreserved]
    omega
  · have hsame : k = n := by omega
    rw [hsame]
    exact hreserved

theorem reservedBytes_afterWrite (h : 0 ≤ a.w.reserved) {n k : ℕ} (hk : k ≤ n)
    (hroom : a.w.reserved + n < 2 ^ 63) :
    (a.afterWrite (wrap64 (a.reservedBytes + n)) n k).reservedBytes
      = wrap64 (a.reservedBytes + k) := by
  unfold afterWrite
  dsimp only
  split
  · next hshort =>
    show Quota.releaseReservation (wrap64 (a.reservedBytes + n)) _ = _
    rw [releasable_promise h hroom hshort, Quota.releaseReservation, if_neg (by omega)]
    refine Int.bmod_sub_bmod.trans (congrArg wrap64 ?_)
    omega
  · have hsame : k = n := by omega
    rw [hsame]
    rfl

theorem reservedBytes_afterWrite_of_le (h : Backed rest a) {n : ℕ} (k : ℕ) (hn : n < 2 ^ 63)
    (hroom : 2 ^ 63 ≤ a.w.reserved + n) :
    (a.afterWrite (wrap64 (a.reservedBytes + n)) n k).reservedBytes < 0 := by
  have heq := h.eq
  have hothers := h.others
  have hlt := h.lt
  have hneg := @wrap64_of_le (a.reservedBytes + n) (by omega) (by omega)
  have hwneg := @wrap64_of_le (a.w.reserved + n) hroom (by omega)
  unfold afterWrite
  dsimp only
  split
  · have hnone : releasable (wrap64 (a.w.reserved + n)) (n - k) = 0 := if_pos (.inr (by omega))
    show Quota.releaseReservation (wrap64 (a.reservedBytes + n))
      (releasable (wrap64 (a.w.reserved + n)) (n - k)) < 0
    rw [hnone, Quota.releaseReservation, if_pos le_rfl]
    omega
  · show wrap64 (a.reservedBytes + n) < 0
    omega

theorem backed_afterWrite_iff (h : Backed rest a) {n k : ℕ} (hn : n < 2 ^ 63) (hk : k ≤ n) :
    (0 ≤ (a.afterWrite (wrap64 (a.reservedBytes + n)) n k).reservedBytes
        → Backed rest (a.afterWrite (wrap64 (a.reservedBytes + n)) n k))
      ∧ (0 ≤ (a.afterWrite (wrap64 (a.reservedBytes + n)) n k).reservedBytes
        ↔ a.w.reserved + n < 2 ^ 63 ∧ a.reservedBytes + k < 2 ^ 63) := by
  have heq := h.eq
  have hnonneg := h.nonneg
  have hothers := h.others
  have hlt := h.lt
  by_cases hroom : a.w.reserved + n < 2 ^ 63
  · have hbytes := reservedBytes_afterWrite hnonneg hk hroom
    have hw := reserved_afterWrite hnonneg hk hroom (wrap64 (a.reservedBytes + n))
    by_cases hfits : a.reservedBytes + k < 2 ^ 63
    · rw [@wrap64_eq_self (a.reservedBytes + k) (by omega) hfits] at hbytes
      refine ⟨fun _ => ⟨?_, ?_, hothers, ?_⟩, iff_of_true (by omega) ⟨hroom, hfits⟩⟩
      · omega
      · omega
      · omega
    · rw [@wrap64_of_le (a.reservedBytes + k) (by omega) (by omega)] at hbytes
      exact ⟨fun hge => (by omega), iff_of_false (by omega) (fun hboth => hfits hboth.2)⟩
  · have hneg := reservedBytes_afterWrite_of_le h k hn (not_lt.mp hroom)
    exact ⟨fun hge => (by omega), iff_of_false (by omega) (fun hboth => hroom hboth.1)⟩

theorem total_le_of_dynamicQuota {maxBytes : ℤ} {p : SegmentParams}
    (h : dynamicQuota maxBytes p = true) : p.total ≤ 0 := by
  unfold dynamicQuota at h
  simp only [Bool.and_eq_true, decide_eq_true_eq] at h
  exact h.1.2

theorem backed_write_iff (h : Backed rest a) {maxBytes : ℤ} (hmax : 0 < maxBytes) (interval : ℤ)
    {n k : ℕ} (hn : n < 2 ^ 63) (hk : k ≤ n) (err : Bool) (pub : Publishing) :
    (0 ≤ (a.write maxBytes interval n k err pub).reservedBytes
        → Backed rest (a.write maxBytes interval n k err pub))
      ∧ (0 ≤ (a.write maxBytes interval n k err pub).reservedBytes
        ↔ (n ≠ 0 → dynamicQuota maxBytes a.w.params = true →
          (reserveQuota maxBytes a.usedBytes a.reservedBytes n).isSome = true →
          a.w.reserved + n < 2 ^ 63 ∧ a.reservedBytes + k < 2 ^ 63)) := by
  have hbytes : ∀ {b : SegmentStore}, Backed rest b → 0 ≤ b.reservedBytes := fun hb => by
    rw [hb.eq]
    exact add_nonneg hb.others hb.nonneg
  unfold SegmentStore.write
  by_cases hzero : n = 0
  · rw [if_pos hzero]
    exact ⟨fun _ => h, iff_of_true (hbytes h) (fun hne => absurd hzero hne)⟩
  rw [if_neg hzero]
  by_cases hdynamic : dynamicQuota maxBytes a.w.params = true
  · rw [if_pos hdynamic]
    cases hreserve : reserveQuota maxBytes a.usedBytes a.reservedBytes n with
    | none =>
      exact ⟨fun _ => h, iff_of_true (hbytes h) (fun _ _ hsome => by cases hsome)⟩
    | some r =>
      obtain rfl := reserveQuota_eq_some hmax (by omega) hreserve
      have htotal : (a.afterWrite (wrap64 (a.reservedBytes + n)) n k).w.params.total ≤ 0 := by
        rw [(afterWrite_same a _ n k).1]
        exact total_le_of_dynamicQuota hdynamic
      obtain ⟨hbacked, hiff⟩ := backed_afterWrite_iff h hn hk
      dsimp only
      rw [reservedBytes_wrote htotal]
      refine ⟨fun hge => (settled_wrote _ interval k err pub).backed (hbacked hge), hiff.trans ?_⟩
      exact ⟨fun hfits _ _ _ => hfits, fun hall => hall hzero hdynamic rfl⟩
  · rw [if_neg hdynamic]
    have hwrote := (settled_wrote a interval k err pub).backed h
    exact ⟨fun _ => hwrote, iff_of_true (hbytes hwrote) (fun _ hd => absurd hd hdynamic)⟩

theorem closed_write (a : SegmentStore) (maxBytes interval : ℤ) (n k : ℕ) (err : Bool)
    (pub : Publishing) : (a.write maxBytes interval n k err pub).w.closed = a.w.closed := by
  unfold write
  split
  · rfl
  split
  · split
    · rfl
    · exact (settled_wrote _ interval k err pub).closed.trans (afterWrite_same a _ n k).2
  · exact (settled_wrote a interval k err pub).closed

theorem reserved_write_of_nothing (h : a.w.reserved = 0) (maxBytes interval : ℤ) {n : ℕ}
    (hn : n < 2 ^ 63) (pub : Publishing) :
    (a.write maxBytes interval n 0 true pub).w.reserved = 0 := by
  have hwrote : ∀ b : SegmentStore, (b.wrote interval 0 true pub).w.reserved = b.w.reserved := by
    intro b
    unfold wrote
    dsimp only
    rw [if_neg (fun hand => absurd hand.1 (by decide))]
    rfl
  unfold write
  split
  · exact h
  split
  · split
    · exact h
    · rw [hwrote, reserved_afterWrite h.ge (Nat.zero_le n) (by omega), h]
      rfl
  · rw [hwrote]
    exact h

end SegmentStore

/-! ## What a call does to the promises -/

namespace Reservations

structure Accounted (s : Reservations) : Prop where
  sum : s.reservedBytes = s.writers.sum ReservedWriter.held
  each : ∀ i w, s.writers.get i = some w → 0 ≤ w.reserved ∧ (w.closed = true → w.reserved = 0)
  lt : s.reservedBytes < 2 ^ 63

variable {s s' : Reservations} {i : ℕ} {w : ReservedWriter}

theorem held_eq (hclosed : w.closed = true → w.reserved = 0) : w.held = w.reserved := by
  unfold ReservedWriter.held
  split
  · next h => exact (hclosed h).symm
  · rfl

theorem Accounted.held_nonneg (h : Accounted s) :
    ∀ j v, s.writers.get j = some v → 0 ≤ v.held := fun j v hj => by
  obtain ⟨hnonneg, hclosed⟩ := h.each j v hj
  rw [held_eq hclosed]
  exact hnonneg

theorem Accounted.nonneg (h : Accounted s) : 0 ≤ s.reservedBytes := by
  rw [h.sum]
  exact Directory.sum_nonneg h.held_nonneg

theorem Accounted.conserved (h : Accounted s) : Conserved s := by
  refine ⟨h.sum, h.nonneg, fun hall => ?_⟩
  rw [h.sum]
  refine Finset.sum_eq_zero (fun i _ => ?_)
  cases hi : s.writers.get i with
  | none => rfl
  | some w => exact if_pos (hall i w hi)

theorem Accounted.backed (h : Accounted s) (hi : s.writers.get i = some w) :
    SegmentStore.Backed (s.reservedBytes - w.reserved) (s.view w) := by
  obtain ⟨hnonneg, hclosed⟩ := h.each i w hi
  have hle : w.held ≤ s.writers.sum ReservedWriter.held := Directory.le_sum h.held_nonneg hi
  rw [held_eq hclosed, ← h.sum] at hle
  exact ⟨(sub_add_cancel _ _).symm, hnonneg, sub_nonneg.mpr hle, h.lt⟩

theorem Accounted.back (h : Accounted s) (hi : s.writers.get i = some w) {a : SegmentStore}
    (ha : SegmentStore.Backed (s.reservedBytes - w.reserved) a)
    (hclosed : a.w.closed = true → a.w.reserved = 0) : Accounted (s.back i a) := by
  refine ⟨?_, fun j v hj => ?_, ha.lt⟩
  · show a.reservedBytes = (s.writers.write i a.w).sum _
    rw [Directory.sum_write, hi, ← h.sum, ha.eq, held_eq hclosed]
    show _ = s.reservedBytes + (a.w.reserved - w.held)
    rw [held_eq (h.each i w hi).2]
    omega
  · rcases Directory.get_write_eq_some hj with ⟨-, rfl⟩ | ⟨-, hold⟩
    · exact ⟨ha.nonneg, hclosed⟩
    · exact h.each j v hold

theorem accounted_begin_iff (h : Accounted s) (hfree : s.writers.get i = none) {n : ℤ}
    (hn : 0 ≤ n) (hlt : n < 2 ^ 63) (key : Bytes) (p : SegmentParams) {s' : Reservations}
    (hbytes : s'.reservedBytes = wrap64 (s.reservedBytes + n))
    (hwriters : s'.writers = s.writers.write i { key := key, params := p, reserved := n }) :
    (0 ≤ s'.reservedBytes → Accounted s')
      ∧ (0 ≤ s'.reservedBytes ↔ s.reservedBytes + n < 2 ^ 63) := by
  have hnonneg := h.nonneg
  have hbound := h.lt
  by_cases hfits : s.reservedBytes + n < 2 ^ 63
  · rw [wrap64_eq_self (by omega) hfits] at hbytes
    refine ⟨fun _ => ⟨?_, fun j v hj => ?_, by omega⟩, iff_of_true (by omega) hfits⟩
    · rw [hbytes, hwriters, Directory.sum_write, hfree, ← h.sum]
      show _ = s.reservedBytes + (n - 0)
      omega
    · rw [hwriters] at hj
      rcases Directory.get_write_eq_some hj with ⟨-, rfl⟩ | ⟨-, hold⟩
      · exact ⟨hn, fun hclosed => by cases hclosed⟩
      · exact h.each j v hold
  · rw [wrap64_of_le (by omega) (by omega)] at hbytes
    exact ⟨fun hge => (by omega), iff_of_false (by omega) hfits⟩

theorem releaseReservation_wrap64 (h : Accounted s) {n : ℤ} (hn : 0 < n) :
    Quota.releaseReservation (wrap64 (s.reservedBytes + n)) n = s.reservedBytes := by
  have hnonneg := h.nonneg
  have hbound := h.lt
  rw [Quota.releaseReservation, if_neg (by omega)]
  refine (Int.bmod_sub_bmod.trans (congrArg wrap64 (add_sub_cancel_right _ _))).trans ?_
  exact wrap64_eq_self (by omega) hbound

theorem reserveQuota_some_eq {maxBytes usedBytes n r : ℤ} (h : Accounted s) (hmax : 0 < maxBytes)
    (hn : 0 ≤ n) (hsome : reserveQuota maxBytes usedBytes s.reservedBytes n = some r) :
    r = wrap64 (s.reservedBytes + n) := by
  rcases hn.lt_or_eq with hpos | rfl
  · exact SegmentStore.reserveQuota_eq_some hmax hpos hsome
  · rw [reserveQuota, if_pos (.inr le_rfl)] at hsome
    have hnonneg := h.nonneg
    rw [add_zero, wrap64_eq_self (by omega) h.lt]
    exact (Option.some.inj hsome).symm

theorem accounted_beginSegment_iff (h : Accounted s) (hfree : s.writers.get i = none)
    {maxBytes : ℤ} (hmax : 0 < maxBytes) (key : Bytes) {p : SegmentParams}
    (hlt : quotaReservationFor p < 2 ^ 63) (fails : Option FileStep) :
    (0 ≤ (s.beginSegment maxBytes i key p fails).reservedBytes
        → Accounted (s.beginSegment maxBytes i key p fails))
      ∧ (0 ≤ (s.beginSegment maxBytes i key p fails).reservedBytes
        ↔ (fails = none →
          (reserveQuota maxBytes s.usedBytes s.reservedBytes (quotaReservationFor p)).isSome = true
          → s.reservedBytes + quotaReservationFor p < 2 ^ 63)) := by
  have hn := Quota.quotaReservationFor_nonneg p
  unfold beginSegment
  dsimp only
  cases hreserve : reserveQuota maxBytes s.usedBytes s.reservedBytes (quotaReservationFor p) with
  | none => exact ⟨fun _ => h, iff_of_true h.nonneg (fun _ hsome => by cases hsome)⟩
  | some r =>
    obtain rfl := reserveQuota_some_eq h hmax hn hreserve
    cases fails with
    | some f =>
      dsimp only
      have hback : Quota.releaseReservation
          (wrap64 (s.reservedBytes + quotaReservationFor p)) (quotaReservationFor p)
          = s.reservedBytes := by
        rcases hn.lt_or_eq with hpos | hzero
        · exact releaseReservation_wrap64 h hpos
        · have hnonneg := h.nonneg
          rw [← hzero, add_zero, wrap64_eq_self (by omega) h.lt]
          rfl
      rw [hback]
      exact ⟨fun _ => h, iff_of_true h.nonneg (fun hf => by cases hf)⟩
    | none =>
      obtain ⟨hkept, hiff⟩ := @accounted_begin_iff s i h hfree _ hn hlt key p
        { s with
          reservedBytes := wrap64 (s.reservedBytes + quotaReservationFor p)
          writers := s.writers.write i
            { key := key, params := p, reserved := quotaReservationFor p } } rfl rfl
      exact ⟨hkept, hiff.trans ⟨fun hfits _ _ => hfits, fun hall => hall rfl rfl⟩⟩

theorem accounted_step_iff {maxBytes interval : ℤ} (hmax : 0 < maxBytes) (h : Accounted s)
    {e : ReservationEvent} (hs : step maxBytes interval s e = some s') :
    (0 ≤ s'.reservedBytes → Accounted s') ∧ (0 ≤ s'.reservedBytes ↔ Fits maxBytes s e) := by
  cases e with
  | beginSegment i key p fails =>
    obtain ⟨hok, hs⟩ := Option.ite_none_left_eq_some.mp hs
    obtain ⟨hfree, hrest⟩ := not_or.mp hok
    have hfree : s.writers.get i = none := Option.not_isSome_iff_eq_none.mp hfree
    have hlt := not_not.mp (not_or.mp hrest).1
    by_cases hvalid : validateSegmentParams key p = false
    · rw [if_pos hvalid] at hs
      cases hs
      refine ⟨fun _ => h, iff_of_true h.nonneg (fun htrue => ?_)⟩
      rw [hvalid] at htrue
      cases htrue
    · rw [if_neg hvalid] at hs
      cases hs
      obtain ⟨hkept, hiff⟩ := accounted_beginSegment_iff h hfree hmax key hlt fails
      exact ⟨hkept, hiff.trans ⟨fun hfits _ => hfits,
        fun hall => hall (Bool.eq_true_of_not_eq_false hvalid)⟩⟩
  | write i n k err pub =>
    obtain ⟨w, hi, hs⟩ := Option.bind_eq_some_iff.mp hs
    obtain ⟨hok, hs⟩ := Option.ite_none_left_eq_some.mp hs
    cases hs
    obtain ⟨hn, hk, -, hshut⟩ : n < 2 ^ 63 ∧ k ≤ n ∧ ¬ (k < n ∧ err = false)
        ∧ ¬ (w.closed = true ∧ ¬ (k = 0 ∧ err = true)) := by
      simpa only [not_or, not_le, not_lt] using hok
    obtain ⟨hbacked, hiff⟩ :=
      SegmentStore.backed_write_iff (h.backed hi) hmax interval hn hk err pub
    refine ⟨fun hge => h.back hi (hbacked hge) (fun hclosed => ?_), hiff.trans ?_⟩
    · rw [SegmentStore.closed_write] at hclosed
      obtain ⟨rfl, rfl⟩ := not_not.mp (fun hne => hshut ⟨hclosed, hne⟩)
      exact SegmentStore.reserved_write_of_nothing ((h.each i w hi).2 hclosed) maxBytes interval hn
        pub
    · constructor
      · intro hfits v hv
        cases hi.symm.trans hv
        exact hfits
      · exact fun hall => hall w hi
  | checkpoint i pub =>
    obtain ⟨w, hi, hs⟩ := Option.bind_eq_some_iff.mp hs
    cases hs
    have hkept : Accounted (s.back i ((s.view w).checkpoint pub)) := by
      have hsettled := SegmentStore.settled_checkpoint (s.view w) pub
      have hbacked := hsettled.backed (h.backed hi)
      refine h.back hi hbacked (fun hclosed => ?_)
      rw [hsettled.closed] at hclosed
      have hle := hsettled.le (h.backed hi).nonneg
      have hzero : (s.view w).w.reserved = 0 := (h.each i w hi).2 hclosed
      exact le_antisymm (hle.trans hzero.le) hbacked.nonneg
    exact ⟨fun _ => hkept, iff_of_true hkept.nonneg trivial⟩
  | close i pub =>
    obtain ⟨w, hi, hs⟩ := Option.bind_eq_some_iff.mp hs
    cases hs
    obtain ⟨hbacked, hzero, -⟩ := (h.backed hi).close (h.each i w hi).2 pub
    have hkept : Accounted (s.back i ((s.view w).close pub)) :=
      h.back hi hbacked (fun _ => hzero)
    exact ⟨fun _ => hkept, iff_of_true hkept.nonneg trivial⟩

/-- **Conservation of the promises**, in every sequence of calls that may fail at any step,
exactly if every promise that is let through and kept has room in 64 bits. -/
theorem conserved_iff_fits {maxBytes : ℤ} (hmax : 0 < maxBytes) (interval : ℤ)
    (disk : Directory Bytes Meta) (usedBytes : ℤ) (es : List ReservationEvent) {s : Reservations}
    (hrun : run (step maxBytes interval) ⟨disk, usedBytes, 0, .empty⟩ es = some s) :
    Throughout (step maxBytes interval) Conserved ⟨disk, usedBytes, 0, .empty⟩ es
      ↔ Meets (step maxBytes interval) (Fits maxBytes) ⟨disk, usedBytes, 0, .empty⟩ es := by
  have hstart : Accounted ⟨disk, usedBytes, 0, .empty⟩ :=
    ⟨rfl, fun i w hi => (by cases hi), (by decide : (0 : ℤ) < 2 ^ 63)⟩
  -- from a state with the books in order to one that has them in order or is negative
  have hstep : ∀ s e s', (0 ≤ s.reservedBytes → Accounted s) → Conserved s → True →
      step maxBytes interval s e = some s' →
      (0 ≤ s'.reservedBytes → Accounted s') ∧ (Conserved s' ↔ Fits maxBytes s e) := by
    intro s e s' hbooks hconserved _ hs
    obtain ⟨hbooks', hiff⟩ := accounted_step_iff hmax (hbooks hconserved.nonneg) hs
    exact ⟨hbooks', Iff.trans ⟨Conserved.nonneg, fun hge => (hbooks' hge).conserved⟩ hiff⟩
  exact throughout_iff_meets hstep (fun _ => hstart) hstart.conserved (fun _ _ => trivial) hrun

def twoWriters : List ReservationEvent :=
  [.beginSegment 0 [97] ⟨200, [], [], [], [], [], 0, 4, 4, [], []⟩ none,
    .beginSegment 1 [98] ⟨200, [], [], [], [], [], 0, -1, -1, [], []⟩ none,
    .write 0 3 3 false ⟨true, true, true⟩, .write 1 3 1 true ⟨true, true, true⟩,
    .beginSegment 2 [99] ⟨200, [], [], [], [], [], 0, 2, 2, [], []⟩ (some .truncate),
    .close 0 ⟨true, true, true⟩, .close 0 ⟨true, true, true⟩, .close 1 ⟨false, false, true⟩]

theorem conserved_two_writers :
    (run (step 10 2) ⟨.empty, 0, 0, .empty⟩ twoWriters).map
        (fun s => (s.usedBytes, s.reservedBytes)) = some (4, 0)
      ∧ Throughout (step 10 2) Conserved ⟨.empty, 0, 0, .empty⟩ twoWriters :=
  ⟨by decide, (conserved_iff_fits (by decide) 2 .empty 0 _ rfl).mpr (by decide)⟩

/-- A segment of unknown total and of `2 ^ 63 - 1` bytes is let through, and with one more
byte the promises are negative. -/
theorem huge_length_makes_reserved_negative :
    ∃ s, run (step 10 0) ⟨.empty, 0, 0, .empty⟩
        [.beginSegment 0 [97] ⟨200, [], [], [], [], [], 0, 1, 1, [], []⟩ none,
          .write 0 1 1 false ⟨true, true, true⟩, .close 0 ⟨true, true, true⟩,
          .beginSegment 1 [98] ⟨206, [], [], [], [], [], 0, 2 ^ 63 - 1, -1, [], []⟩ none,
          .beginSegment 2 [99] ⟨206, [], [], [], [], [], 0, 1, -1, [], []⟩ none] = some s
      ∧ s.usedBytes = 1 ∧ s.reservedBytes = -2 ^ 63 ∧ ¬ Conserved s := by
  refine ⟨_, rfl, by decide, by decide, fun hconserved => ?_⟩
  exact absurd hconserved.nonneg (by decide)

end Reservations

end Cache
