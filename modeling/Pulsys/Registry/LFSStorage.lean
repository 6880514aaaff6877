import Pulsys.Base.Text
import Pulsys.Blobstore.Sequential

/-!
# The size limit of uploads

The reader around the body takes one byte more than allowed and then says that it was
tripped – not noticed if the end comes along with that byte, and stored as well if the hash
fits. `upload_limit_iff` says exactly when the limit is kept.
-/

namespace Registry

open Bytes Text Readers Blobstore

/-! ## The reader -/

def defaultLFSMaxBytes : ℤ := 200 * 2 ^ 30

def lfsMaxBytes (configured : ℤ) : ℤ := if 0 < configured then configured else defaultLFSMaxBytes

structure LfsLimitReader where
  r : Source UInt8 CopyError
  n : ℤ
  tripped : Bool := false

def LfsLimitReader.took (l : LfsLimitReader) (got : Read UInt8 CopyError (Source UInt8 CopyError)) :
    Read UInt8 CopyError LfsLimitReader where
  data := got.data
  err := got.err
  next :=
    { r := got.next
      n := l.n - got.data.length
      tripped := l.tripped || (l.n - got.data.length ≤ 0 && got.err.isNone) }

def LfsLimitReader.read (l : LfsLimitReader) (len : ℕ) : Read UInt8 CopyError LfsLimitReader :=
  if l.n ≤ 0 then ⟨[], some none, { l with tripped := true }⟩
  else l.took (l.r.read (min len l.n.toNat))

def LfsLimitReader.canceled (l : LfsLimitReader) : Bool :=
  l.r.rest.isEmpty && l.r.failure = some .canceled

def LfsLimitReader.next (l : LfsLimitReader) : Read UInt8 CopyError LfsLimitReader :=
  ctxReader LfsLimitReader.canceled LfsLimitReader.read l

/-! ## The handler -/

structure LFSUpload where
  method : Bytes
  path : Bytes
  contentLength : ℤ
  body : Source UInt8 CopyError

structure LFSBackend where
  blobs : Bytes → Option Bytes
  faults : Blobstore.Faults := {}
  upsertFails : Bool := false

inductive LFSMessage
  | text (b : Bytes)
  | put (e : PutError)
  | upsert
  deriving DecidableEq

structure LFSOutcome where
  status : ℕ
  message : Option LFSMessage
  blobs : Bytes → Option Bytes
  row : Option Stat

def tooLarge : LFSMessage := .text (ascii "upload exceeds maximum LFS object size")

def LFSUpload.oid (req : LFSUpload) : Bytes :=
  if (ascii "/lfs-storage/").isPrefixOf req.path then
    req.path.drop (ascii "/lfs-storage/").length
  else req.path

def LFSUpload.opts (req : LFSUpload) : PutOptions where
  expectedOID := req.oid
  expectedSize := if 0 < req.contentLength then req.contentLength else 0

def putFailed (tripped : Bool) (e : PutError) : ℕ × LFSMessage :=
  if tripped then (413, tooLarge)
  else
    match e with
    | .invalidOID _ | .oidMismatch _ _ | .sizeMismatch _ _ => (422, .put e)
    | .copy .canceled => (504, .put e)
    | _ => (500, .put e)

def concluded (env : LFSBackend) (put : PutDone LfsLimitReader) : LFSOutcome :=
  match put.result with
  | .error e =>
    { status := (putFailed put.reader.tripped e).1
      message := some (putFailed put.reader.tripped e).2
      blobs := put.blobs
      row := none }
  | .ok stat =>
    if put.reader.tripped then ⟨413, some tooLarge, put.blobs, none⟩
    else if env.upsertFails then ⟨500, some .upsert, put.blobs, none⟩
    else ⟨200, none, put.blobs, some stat⟩

section
variable (sha256 : Bytes → Bytes) (blobDir : Bytes)

def serveLFSStorage (configured : ℤ) (env : LFSBackend) (req : LFSUpload) : Option LFSOutcome :=
  if req.method ≠ ascii "PUT" then
    some ⟨405, some (.text (ascii "method not allowed")), env.blobs, none⟩
  else if req.oid = [] ∨ req.oid.contains 47 then
    some ⟨400, some (.text (ascii "missing oid")), env.blobs, none⟩
  else if lfsMaxBytes configured < req.contentLength then
    some ⟨413, some tooLarge, env.blobs, none⟩
  else
    (put sha256 blobDir env.faults LfsLimitReader.next (req.body.measure + 1) env.blobs req.opts
      { r := req.body, n := wrap64 (lfsMaxBytes configured + 1) }).map (concluded env)

end

/-! ## What the reader lets through -/

def LfsLimitReader.Trips (l : LfsLimitReader) : Prop :=
  l.n.toNat ≤ l.r.rest.length
    ∧ ¬ (l.r.eager = true ∧ l.r.rest.length = l.n.toNat ∧ 0 < l.n)
    ∧ ¬ (l.n ≤ 0 ∧ l.canceled = true)

def LfsLimitReader.CanceledWithin (l : LfsLimitReader) : Prop :=
  l.r.rest.length ≤ l.n.toNat ∧ l.r.failure = some .canceled

structure Metered (l : LfsLimitReader) (c : Copied UInt8 CopyError LfsLimitReader) : Prop where
  data : c.data = l.r.rest.take l.n.toNat
  tripped : c.reader.tripped = true ↔ l.tripped = true ∨ l.Trips
  cut : l.Trips → ¬ l.CanceledWithin → c.failure = none
  whole : ¬ l.Trips ∨ l.CanceledWithin → c.failure = l.r.failure

namespace LfsLimitReader

variable {l l' : LfsLimitReader} {c : Copied UInt8 CopyError LfsLimitReader} {k : ℕ}

theorem canceled_iff : l.canceled = true ↔ l.r.rest = [] ∧ l.r.failure = some .canceled := by
  simp only [canceled, Bool.and_eq_true, List.isEmpty_iff, decide_eq_true_eq]

theorem next_of_canceled (h : l.canceled = true) : l.next = ⟨[], some (some .canceled), l⟩ :=
  if_pos h

theorem next_of_full (h : ¬ l.canceled = true) (hn : l.n ≤ 0) :
    l.next = ⟨[], some none, { l with tripped := true }⟩ :=
  (if_neg h).trans (if_pos hn)

theorem next_of_read (h : ¬ l.canceled = true) (hn : ¬ l.n ≤ 0) :
    l.next = l.took (l.r.read (min (32 * 1024) l.n.toNat)) :=
  (if_neg h).trans (if_neg hn)

theorem next_of_none (h : l.next.err = none) :
    0 < l.n ∧ (l.r.read (min (32 * 1024) l.n.toNat)).err = none
      ∧ l.next = l.took (l.r.read (min (32 * 1024) l.n.toNat)) := by
  by_cases hcanceled : l.canceled = true
  · rw [next_of_canceled hcanceled] at h
    cases h
  · by_cases hn : l.n ≤ 0
    · rw [next_of_full hcanceled hn] at h
      cases h
    · have hread := next_of_read hcanceled hn
      rw [hread] at h
      exact ⟨Int.not_le.mp hn, h, hread⟩

theorem measure_next (h : l.next.err = none) : l.next.next.r.measure < l.r.measure := by
  obtain ⟨hn, hread, heq⟩ := next_of_none h
  rw [heq]
  exact Source.measure_read (by omega) hread

theorem limited_last {failure : Option CopyError} (h : l.next.err = some failure) :
    Metered l ⟨l.next.data, failure, l.next.next⟩ := by
  by_cases hcanceled : l.canceled = true
  · rw [next_of_canceled hcanceled] at h ⊢
    cases h
    obtain ⟨hrest, hfailure⟩ := canceled_iff.mp hcanceled
    have hnot : ¬ l.Trips := by
      rintro ⟨hreach, -, hthird⟩
      rw [hrest] at hreach
      exact hthird ⟨Int.toNat_eq_zero.mp (Nat.le_zero.mp hreach), hcanceled⟩
    exact ⟨by rw [hrest, List.take_nil], by simp only [hnot, or_false],
      fun htrips => absurd htrips hnot, fun _ => hfailure.symm⟩
  by_cases hn : l.n ≤ 0
  · rw [next_of_full hcanceled hn] at h ⊢
    cases h
    have hzero : l.n.toNat = 0 := Int.toNat_eq_zero.mpr hn
    have htrips : l.Trips :=
      ⟨by omega, fun hends => absurd hends.2.2 (by omega), fun hends => hcanceled hends.2⟩
    refine ⟨by rw [hzero, List.take_zero], by simp only [htrips, or_true], fun _ _ => rfl, ?_⟩
    rintro (hnot | ⟨hlen, hfailure⟩)
    · exact absurd htrips hnot
    · rw [hzero] at hlen
      exact absurd (canceled_iff.mpr ⟨List.eq_nil_of_length_eq_zero (by omega), hfailure⟩) hcanceled
  · rw [next_of_read hcanceled hn] at h ⊢
    obtain ⟨hends, rfl⟩ := Source.read_err_eq_some.mp h
    obtain ⟨hsize, hlen, heager⟩ := (Source.ends_iff _ _).mp hends
    have hle := l.r.size_le (min (32 * 1024) l.n.toNat)
    -- the body ends with the byte that is too much only if it says so along with it
    have hnot : ¬ l.Trips := by
      rintro ⟨hreach, hwith, -⟩
      rcases heager with heager | hzero
      · exact hwith ⟨heager, by omega, by omega⟩
      · omega
    refine ⟨?_, ?_, fun htrips => absurd htrips hnot, fun _ => rfl⟩
    · show l.r.rest.take _ = _
      rw [List.take_of_length_le hlen, List.take_of_length_le (by omega)]
    · have herr : (l.r.read (min (32 * 1024) l.n.toNat)).err.isNone = false := by
        rw [Source.read_err_eq_some.mpr ⟨hends, rfl⟩]
        rfl
      simp only [took, herr, Bool.and_false, Bool.or_false, hnot, or_false]

structure After (l l' : LfsLimitReader) (k : ℕ) : Prop where
  size : k ≤ l.n.toNat
  rest : l'.r.rest = l.r.rest.drop k
  eager : l'.r.eager = l.r.eager
  failure : l'.r.failure = l.r.failure
  n : l'.n = l.n - (min k l.r.rest.length : ℕ)
  tripped : l'.tripped = true ↔ l.tripped = true ∨ l'.n ≤ 0
  goes : l.r.eager = true → 0 < k → k < l.r.rest.length

theorem after_next (h : l.next.err = none) :
    ∃ k, 0 < l.n ∧ l.next.data = l.r.rest.take k ∧ After l l.next.next k := by
  obtain ⟨hn, hread, heq⟩ := next_of_none h
  have hends := Source.read_err_eq_none.mp hread
  have hle := l.r.size_le (min (32 * 1024) l.n.toNat)
  rw [heq]
  refine ⟨l.r.size (min (32 * 1024) l.n.toNat), hn, rfl, by omega, rfl, rfl, rfl, ?_, ?_, ?_⟩
  · rw [took, ← List.length_take]
    rfl
  · simp only [took, hread, Option.isNone_none, Bool.and_true, Bool.or_eq_true,
      decide_eq_true_eq]
  · intro heager hk
    by_contra hlast
    have hmust := (Source.ends_iff _ _).mpr ⟨hk, Nat.not_lt.mp hlast, .inl heager⟩
    rw [hends] at hmust
    cases hmust

theorem After.take_append (h : After l l' k) (hn : 0 < l.n) :
    l.r.rest.take k ++ l'.r.rest.take l'.n.toNat = l.r.rest.take l.n.toNat := by
  have hsize := h.size
  have hn' := h.n
  rw [h.rest]
  rcases Nat.le_total k l.r.rest.length with hk | hk
  · rw [Nat.min_eq_left hk] at hn'
    have hsum : l.n.toNat = k + l'.n.toNat := by omega
    rw [hsum, List.take_add]
  · rw [List.drop_of_length_le hk, List.take_nil, List.append_nil, List.take_of_length_le hk,
      List.take_of_length_le (hk.trans hsize)]

theorem After.canceledWithin_iff (h : After l l' k) (hn : 0 < l.n) :
    l'.CanceledWithin ↔ l.CanceledWithin := by
  have hsize := h.size
  have hn' := h.n
  have hlen : l'.r.rest.length = l.r.rest.length - k := by rw [h.rest, List.length_drop]
  unfold CanceledWithin
  rw [h.failure]
  refine and_congr_left fun _ => ?_
  omega

theorem After.trips_of_full (h : After l l' k) (hn : 0 < l.n)
    (hfull : l'.n ≤ 0) : l.Trips := by
  have hsize := h.size
  have hn' := h.n
  refine ⟨by omega, ?_, fun hends => absurd hends.1 (by omega)⟩
  rintro ⟨heager, hlen, -⟩
  have hgoes := h.goes heager (by omega)
  omega

theorem After.trips_iff (h : After l l' k) (hn : 0 < l.n)
    (hmore : 0 < l'.n) : l'.Trips ↔ l.Trips := by
  have hsize := h.size
  have hn' := h.n
  have hlen : l'.r.rest.length = l.r.rest.length - k := by rw [h.rest, List.length_drop]
  unfold Trips
  rw [h.eager]
  refine and_congr (by omega) (and_congr (not_congr (and_congr_right fun _ => ?_)) ?_)
  · omega
  · exact ⟨fun _ hends => absurd hends.1 (by omega), fun _ hends => absurd hends.1 (by omega)⟩

theorem limited_read (h : l.next.err = none)
    (hc : Metered l.next.next c) : Metered l { c with data := l.next.data ++ c.data } := by
  obtain ⟨k, hn, hdata, hafter⟩ := after_next h
  generalize l.next.next = l' at hc hafter
  have hcanceled := hafter.canceledWithin_iff hn
  have htripped := hc.tripped
  rw [hafter.tripped] at htripped
  by_cases hfull : l'.n ≤ 0
  · have htrips := hafter.trips_of_full hn hfull
    refine ⟨by rw [hdata, hc.data, hafter.take_append hn], ?_, fun _ hnot => ?_, ?_⟩
    · exact ⟨fun _ => .inr htrips, fun _ => htripped.mpr (.inl (.inr hfull))⟩
    · -- the next read finds the limit, not the cancellation
      refine hc.cut ⟨by omega, fun hends => absurd hends.2.2 (by omega), fun hends => ?_⟩
        (hcanceled.not.mpr hnot)
      obtain ⟨hrest, hfailure⟩ := canceled_iff.mp hends.2
      exact hnot (hcanceled.mp ⟨by rw [hrest]; exact Nat.zero_le _, hfailure⟩)
    · rintro (hnot | hwithin)
      · exact absurd htrips hnot
      · exact (hc.whole (.inr (hcanceled.mpr hwithin))).trans hafter.failure
  · have htrips := hafter.trips_iff hn (Int.not_le.mp hfull)
    refine ⟨by rw [hdata, hc.data, hafter.take_append hn], ?_, fun ht hnot => ?_, fun hor => ?_⟩
    · rw [htripped, htrips]
      simp only [hfull, or_false]
    · exact hc.cut (htrips.mpr ht) (hcanceled.not.mpr hnot)
    · exact (hc.whole (hor.imp htrips.not.mpr hcanceled.mpr)).trans hafter.failure

theorem copy_limited (fuel : ℕ) (l : LfsLimitReader) (hfuel : l.r.measure < fuel) :
    ∃ c, copy LfsLimitReader.next fuel l = some c ∧ Metered l c :=
  copy_rule (fun l => l.r.measure) (fun _ => measure_next) (fun _ _ => limited_last)
    (fun _ _ => limited_read) fuel l hfuel

end LfsLimitReader

/-! ## The limit -/

def LFSUpload.Refused (req : LFSUpload) : Prop :=
  req.method ≠ ascii "PUT" ∨ req.oid = [] ∨ req.oid.contains 47 = true

def Stored (env : LFSBackend) (o : LFSOutcome) : Prop :=
  o.row ≠ none ∨ ∃ oid, env.blobs oid = none ∧ o.blobs oid ≠ none

structure LimitKept (m : ℤ) (env : LFSBackend) (req : LFSUpload) (o : LFSOutcome) : Prop where
  rejected : o.status = 413 ↔ m < req.body.rest.length
  stored : Stored env o → (req.body.rest.length : ℤ) ≤ m

def Keeps (sha256 : Bytes → Bytes) (env : LFSBackend) (req : LFSUpload) (b : Bytes) : Prop :=
  req.contentLength ≤ 0 ∧ oidOf sha256 b = req.oid ∧ env.blobs req.oid = none
    ∧ env.faults.close = false ∧ env.faults.mkdir = false ∧ env.faults.rename = false

def Unopened (env : LFSBackend) (req : LFSUpload) : Prop :=
  validOID req.oid = false ∨ env.faults.createTemp = true

instance (req : LFSUpload) : Decidable req.Refused := inferInstanceAs (Decidable (_ ∨ _ ∨ _))

instance (env : LFSBackend) (req : LFSUpload) : Decidable (Unopened env req) :=
  inferInstanceAs (Decidable (_ ∨ _))

def LimitMet (sha256 : Bytes → Bytes) (m : ℤ) (env : LFSBackend) (req : LFSUpload) : Prop :=
  if req.Refused then (req.body.rest.length : ℤ) ≤ m
  else if m < req.contentLength then m < req.body.rest.length
  else if Unopened env req then (req.body.rest.length : ℤ) ≤ m
  else if m + 1 < 2 ^ 63 then
    m < req.body.rest.length →
      ¬ (req.body.eager = true ∧ (req.body.rest.length : ℤ) = m + 1)
      ∧ (Keeps sha256 env req (req.body.rest.take (m + 1).toNat) →
          (req.body.rest.length : ℤ) = m + 1 ∧ req.body.failure = some .canceled)
  else
    (req.body.rest = [] ∧ req.body.failure = some .canceled)
      ∨ (m < req.body.rest.length ∧ ¬ Keeps sha256 env req [])

theorem lfsMaxBytes_pos (configured : ℤ) : 0 < lfsMaxBytes configured := by
  unfold lfsMaxBytes defaultLFSMaxBytes
  split <;> omega

theorem lfsMaxBytes_lt {configured : ℤ} (h : configured < 2 ^ 63) :
    lfsMaxBytes configured < 2 ^ 63 := by
  unfold lfsMaxBytes defaultLFSMaxBytes
  split <;> omega

section
variable {m : ℤ} {env : LFSBackend} {req : LFSUpload} {l : LfsLimitReader}
  {c : Copied UInt8 CopyError LfsLimitReader}

theorem status_concluded (put : PutDone LfsLimitReader) :
    (concluded env put).status = 413 ↔ put.reader.tripped = true := by
  obtain ⟨result, blobs, reader⟩ := put
  cases htripped : reader.tripped with
  | true => cases result <;> simp [concluded, putFailed, htripped]
  | false =>
    cases result with
    | ok st => cases hupsert : env.upsertFails <;> simp [concluded, htripped, hupsert]
    | error e =>
      simp only [concluded, putFailed, htripped, Bool.false_eq_true, if_false, iff_false]
      cases e with
      | copy cause => cases cause <;> decide
      | _ => simp

theorem stored_concluded {put : PutDone LfsLimitReader}
    (htripped : put.reader.tripped = true) :
    Stored env (concluded env put) ↔ ∃ oid, env.blobs oid = none ∧ put.blobs oid ≠ none := by
  obtain ⟨result, blobs, reader⟩ := put
  replace htripped : reader.tripped = true := htripped
  cases result with
  | error e => simp only [Stored, concluded, ne_eq, not_true_eq_false, false_or]
  | ok st => simp only [Stored, concluded, htripped, if_true, ne_eq, not_true_eq_false, false_or]

variable (sha256 : Bytes → Bytes) (blobDir : Bytes)

def putOf (env : LFSBackend) (req : LFSUpload) (c : Copied UInt8 CopyError LfsLimitReader) :
    PutDone LfsLimitReader :=
  ⟨(settled sha256 blobDir env.faults env.blobs req.opts c.data c.failure).1,
    (settled sha256 blobDir env.faults env.blobs req.opts c.data c.failure).2, c.reader⟩

theorem stored_cut_iff (hlimited : Metered l c) (hoid : req.oid ≠ [])
    (htrips : l.Trips)
    (hsize : 0 < req.contentLength → (l.n.toNat : ℤ) ≠ req.contentLength) :
    Stored env (concluded env (putOf sha256 blobDir env req c))
      ↔ Keeps sha256 env req (l.r.rest.take l.n.toNat) ∧ ¬ l.CanceledWithin := by
  have htripped : c.reader.tripped = true := hlimited.tripped.mpr (.inr htrips)
  have hfailure : c.failure = none ↔ ¬ l.CanceledWithin := by
    refine ⟨fun hnone hwithin => ?_, hlimited.cut htrips⟩
    have hsame := hlimited.whole (.inr hwithin)
    rw [hnone, hwithin.2] at hsame
    cases hsame
  have hlength : ((l.r.rest.take l.n.toNat).length : ℤ) = l.n.toNat := by
    rw [List.length_take, Nat.min_eq_left htrips.1]
  have hchecked : (∃ st, checked sha256 blobDir req.opts (l.r.rest.take l.n.toNat) = .ok st)
      ↔ req.contentLength ≤ 0 ∧ oidOf sha256 (l.r.rest.take l.n.toNat) = req.oid := by
    rw [checked_ok_iff, hlength]
    refine and_congr ?_ (or_iff_right hoid)
    by_cases hcl : 0 < req.contentLength
    · have hexpected : req.opts.expectedSize = req.contentLength := if_pos hcl
      rw [hexpected]
      exact or_iff_left (hsize hcl)
    · have hexpected : req.opts.expectedSize = 0 := if_neg hcl
      rw [hexpected]
      exact iff_of_true (.inl le_rfl) (Int.not_lt.mp hcl)
  rw [stored_concluded htripped, putOf, settled_new_iff, hfailure, hlimited.data, hchecked,
    Keeps]
  constructor
  · rintro ⟨hwithin, hclose, ⟨hcl, hhash⟩, hnone, hrest⟩
    exact ⟨⟨hcl, hhash, by rw [← hhash]; exact hnone, hclose, hrest⟩, hwithin⟩
  · rintro ⟨⟨hcl, hhash, hnone, hclose, hrest⟩, hwithin⟩
    exact ⟨hwithin, hclose, ⟨hcl, hhash⟩, by rw [hhash]; exact hnone, hrest⟩

theorem limitKept_read_iff (hlimited : Metered l c)
    (hnew : l.tripped = false) (hoid : req.oid ≠ [])
    (hsize : 0 < req.contentLength → (l.n.toNat : ℤ) ≠ req.contentLength) :
    LimitKept m env req (concluded env (putOf sha256 blobDir env req c))
      ↔ (m < req.body.rest.length ↔ l.Trips)
        ∧ (m < req.body.rest.length →
            ¬ (Keeps sha256 env req (l.r.rest.take l.n.toNat) ∧ ¬ l.CanceledWithin)) := by
  have hstatus : (concluded env (putOf sha256 blobDir env req c)).status = 413 ↔ l.Trips := by
    rw [status_concluded]
    exact hlimited.tripped.trans (by simp only [hnew, Bool.false_eq_true, false_or])
  constructor
  · rintro ⟨hrejected, hstored⟩
    have htrips := hrejected.symm.trans hstatus
    refine ⟨htrips, fun hlong hkeeps => ?_⟩
    have hle := hstored ((stored_cut_iff sha256 blobDir hlimited hoid (htrips.mp hlong)
      hsize).mpr hkeeps)
    omega
  · rintro ⟨htrips, hnot⟩
    refine ⟨hstatus.trans htrips.symm, fun hstored => ?_⟩
    by_contra hlong
    have hlong' : m < req.body.rest.length := Int.not_le.mp hlong
    exact hnot hlong' ((stored_cut_iff sha256 blobDir hlimited hoid (htrips.mp hlong')
      hsize).mp hstored)

variable {sha256 blobDir}

theorem limitKept_iff_of_lt (hm : 0 < m) (hmax : m + 1 < 2 ^ 63) (hoid : req.oid ≠ [])
    (hcl : req.contentLength ≤ m) (hlimited : Metered { r := req.body, n := wrap64 (m + 1) } c) :
    LimitKept m env req (concluded env (putOf sha256 blobDir env req c))
      ↔ (m < req.body.rest.length →
          ¬ (req.body.eager = true ∧ (req.body.rest.length : ℤ) = m + 1)
          ∧ (Keeps sha256 env req (req.body.rest.take (m + 1).toNat) →
              (req.body.rest.length : ℤ) = m + 1 ∧ req.body.failure = some .canceled)) := by
  have hn : wrap64 (m + 1) = m + 1 := wrap64_eq_self (by omega) hmax
  rw [hn] at hlimited
  rw [limitKept_read_iff sha256 blobDir hlimited rfl hoid (by simp only; omega)]
  have htrips : LfsLimitReader.Trips { r := req.body, n := m + 1 }
      ↔ m < req.body.rest.length
        ∧ ¬ (req.body.eager = true ∧ (req.body.rest.length : ℤ) = m + 1) := by
    refine and_congr (by simp only; omega) ?_
    have hpos : ¬ m + 1 ≤ 0 := by omega
    simp only [hpos, false_and, not_false_eq_true, and_true]
    refine not_congr (and_congr_right fun _ => ?_)
    omega
  have hwithin (hlong : m < req.body.rest.length) :
      LfsLimitReader.CanceledWithin { r := req.body, n := m + 1 }
        ↔ (req.body.rest.length : ℤ) = m + 1 ∧ req.body.failure = some .canceled := by
    refine and_congr_left fun _ => ?_
    simp only
    omega
  constructor
  · rintro ⟨hiff, hnot⟩ hlong
    refine ⟨(htrips.mp (hiff.mp hlong)).2, fun hkeeps => ?_⟩
    by_contra hcanceled
    exact hnot hlong ⟨hkeeps, fun h => hcanceled ((hwithin hlong).mp h)⟩
  · intro h
    refine ⟨⟨fun hlong => htrips.mpr ⟨hlong, (h hlong).1⟩, fun ht => (htrips.mp ht).1⟩, ?_⟩
    rintro hlong ⟨hkeeps, hcanceled⟩
    exact hcanceled ((hwithin hlong).mpr ((h hlong).2 hkeeps))

theorem limitKept_iff_of_wrap (hmax : m + 1 = 2 ^ 63) (hoid : req.oid ≠ [])
    (hlimited : Metered { r := req.body, n := wrap64 (m + 1) } c) :
    LimitKept m env req (concluded env (putOf sha256 blobDir env req c))
      ↔ (req.body.rest = [] ∧ req.body.failure = some .canceled)
        ∨ (m < req.body.rest.length ∧ ¬ Keeps sha256 env req []) := by
  have hn : wrap64 (m + 1) = -2 ^ 63 := by
    rw [hmax]
    rfl
  rw [hn] at hlimited
  have hzero : ((-2 ^ 63 : ℤ)).toNat = 0 := by decide
  rw [limitKept_read_iff sha256 blobDir hlimited rfl hoid (by simp only [hzero]; omega)]
  have htrips : LfsLimitReader.Trips { r := req.body, n := -2 ^ 63 }
      ↔ ¬ (req.body.rest = [] ∧ req.body.failure = some .canceled) := by
    rw [LfsLimitReader.Trips, LfsLimitReader.canceled_iff]
    simp only [hzero, Nat.zero_le, true_and]
    have hneg : (-2 ^ 63 : ℤ) ≤ 0 ∧ ¬ (0 : ℤ) < -2 ^ 63 := by decide
    simp only [hneg.1, hneg.2, and_false, not_false_eq_true, true_and]
  have hwithin (hlong : m < req.body.rest.length) :
      ¬ LfsLimitReader.CanceledWithin { r := req.body, n := -2 ^ 63 } := by
    rintro ⟨hlen, -⟩
    simp only [hzero] at hlen
    omega
  rw [htrips]
  simp only [hzero, List.take_zero]
  by_cases hlong : m < req.body.rest.length
  · have hsome : ¬ (req.body.rest = [] ∧ req.body.failure = some .canceled) := by
      rintro ⟨hnil, -⟩
      rw [hnil] at hlong
      simp only [List.length_nil] at hlong
      omega
    simp only [hlong, hsome, hwithin hlong, not_false_eq_true, true_imp_iff, true_and, false_or,
      and_true]
  · simp only [hlong, false_iff, not_not, false_imp_iff, and_true, false_and, or_false]

theorem limitKept_of_unread {o : LFSOutcome} (hstatus : o.status ≠ 413) :
    LimitKept m env req o ↔ (req.body.rest.length : ℤ) ≤ m := by
  refine ⟨fun h => Int.not_lt.mp (fun hlong => hstatus (h.rejected.mpr hlong)), fun hle => ?_⟩
  exact ⟨iff_of_false hstatus (Int.not_lt.mpr hle), fun _ => hle⟩

theorem limitKept_of_declared {message : Option LFSMessage} :
    LimitKept m env req ⟨413, message, env.blobs, none⟩ ↔ m < req.body.rest.length := by
  refine ⟨fun h => h.rejected.mp rfl, fun hlong => ⟨iff_of_true rfl hlong, ?_⟩⟩
  rintro (hrow | ⟨oid, hnone, hsome⟩)
  · exact absurd rfl hrow
  · exact absurd hnone hsome

theorem put_of_unopened (hoid : req.oid ≠ [])
    (h : Unopened env req) (fuel : ℕ) (l : LfsLimitReader) :
    ∃ e, put sha256 blobDir env.faults LfsLimitReader.next fuel env.blobs req.opts l
      = some ⟨.error e, env.blobs, l⟩ := by
  unfold put
  by_cases hvalid : req.opts.expectedOID ≠ [] ∧ (!validOID req.opts.expectedOID) = true
  · exact ⟨_, if_pos hvalid⟩
  · rw [if_neg hvalid]
    rcases h with hinvalid | hcreate
    · refine absurd ⟨hoid, ?_⟩ hvalid
      exact congrArg Bool.not hinvalid
    · exact ⟨_, if_pos hcreate⟩

theorem put_of_opened (h : ¬ Unopened env req) {fuel : ℕ}
    (hc : copy LfsLimitReader.next fuel l = some c) :
    put sha256 blobDir env.faults LfsLimitReader.next fuel env.blobs req.opts l
      = some (putOf sha256 blobDir env req c) := by
  obtain ⟨hvalid, hcreate⟩ := not_or.mp h
  unfold put
  rw [if_neg, if_neg hcreate, hc]
  · rfl
  · rintro ⟨-, hinvalid⟩
    exact hvalid ((Bool.not_eq_true' _).mp hinvalid)

variable (sha256 blobDir)

/-- **When the upload limit is exact**, for every limit and every upload: by what is refused
unread, what is declared, how a longer stream ends and hashes, and unless the limit is the
largest number there is. -/
theorem upload_limit_iff (configured : ℤ) (hconfigured : configured < 2 ^ 63) (env : LFSBackend)
    (req : LFSUpload) :
    ∃ o, serveLFSStorage sha256 blobDir configured env req = some o
      ∧ (LimitKept (lfsMaxBytes configured) env req o
          ↔ LimitMet sha256 (lfsMaxBytes configured) env req) := by
  have hm := lfsMaxBytes_pos configured
  have hmax := lfsMaxBytes_lt hconfigured
  unfold serveLFSStorage
  generalize lfsMaxBytes configured = m at hm hmax
  by_cases hmethod : req.method ≠ ascii "PUT"
  · rw [if_pos hmethod, LimitMet, if_pos (.inl hmethod)]
    exact ⟨_, rfl, limitKept_of_unread (show (405 : ℕ) ≠ 413 by decide)⟩
  rw [if_neg hmethod]
  by_cases hoid : req.oid = [] ∨ req.oid.contains 47 = true
  · rw [if_pos hoid, LimitMet, if_pos (.inr hoid)]
    exact ⟨_, rfl, limitKept_of_unread (show (400 : ℕ) ≠ 413 by decide)⟩
  have hname : req.oid ≠ [] := (not_or.mp hoid).1
  have hrefused : ¬ req.Refused := not_or.mpr ⟨hmethod, hoid⟩
  rw [if_neg hoid, LimitMet, if_neg hrefused]
  by_cases hcl : m < req.contentLength
  · rw [if_pos hcl, if_pos hcl]
    exact ⟨_, rfl, limitKept_of_declared⟩
  rw [if_neg hcl, if_neg hcl]
  by_cases hopened : Unopened env req
  · obtain ⟨e, hput⟩ := put_of_unopened hname hopened
      (req.body.measure + 1) { r := req.body, n := wrap64 (m + 1) }
    rw [hput, if_pos hopened]
    refine ⟨_, rfl, limitKept_of_unread (fun hstatus => ?_)⟩
    exact Bool.false_ne_true ((status_concluded _).mp hstatus)
  · obtain ⟨c, hc, hlimited⟩ := LfsLimitReader.copy_limited (req.body.measure + 1)
      { r := req.body, n := wrap64 (m + 1) } (Nat.lt_succ_self _)
    rw [put_of_opened hopened hc, if_neg hopened]
    refine ⟨_, rfl, ?_⟩
    by_cases hlt : m + 1 < 2 ^ 63
    · rw [if_pos hlt]
      exact limitKept_iff_of_lt hm hlt hname (Int.not_lt.mp hcl) hlimited
    · rw [if_neg hlt]
      exact limitKept_iff_of_wrap (by omega) hname hlimited

end

/-! ## Uploads -/

def chunked (body : Source UInt8 CopyError) : LFSUpload where
  method := ascii "PUT"
  path := ascii "/lfs-storage/" ++ oidOf firstByteHash body.rest
  contentLength := -1
  body := body

theorem upload_limit_at_limit :
    ∃ o, serveLFSStorage firstByteHash [] 3 { blobs := fun _ => none }
        (chunked { rest := [7, 8, 9], sizes := [2, 0, 2] }) = some o
      ∧ LimitKept 3 { blobs := fun _ => none }
          (chunked { rest := [7, 8, 9], sizes := [2, 0, 2] }) o := by
  obtain ⟨o, ho, hiff⟩ := upload_limit_iff firstByteHash [] 3 (by decide)
    { blobs := fun _ => none } (chunked { rest := [7, 8, 9], sizes := [2, 0, 2] })
  refine ⟨o, ho, hiff.mpr ?_⟩
  rw [LimitMet, if_neg (by decide), if_neg (by decide), if_neg (by decide), if_pos (by decide)]
  exact fun hlong => absurd hlong (by decide)

/-- **A fourth byte is stored** under a limit of three, when the end of the stream comes
along with it. -/
theorem fourth_byte_stored :
    ∃ o, serveLFSStorage firstByteHash [] 3 { blobs := fun _ => none }
        (chunked { rest := [7, 8, 9, 10], eager := true }) = some o
      ∧ o.status = 200 ∧ o.row = some (statOf firstByteHash [] [7, 8, 9, 10])
      ∧ o.blobs (oidOf firstByteHash [7]) = some [7, 8, 9, 10]
      ∧ ¬ LimitKept 3 { blobs := fun _ => none }
          (chunked { rest := [7, 8, 9, 10], eager := true }) o := by
  refine ⟨_, rfl, rfl, rfl, rfl, fun h => ?_⟩
  exact absurd (h.rejected.mpr (by decide)) (by decide)

example : ∃ o, serveLFSStorage firstByteHash [] 3 { blobs := fun _ => none }
      (chunked { rest := [7, 8, 9, 10, 11] }) = some o
    ∧ o.status = 413 ∧ o.row = none
    ∧ o.blobs (oidOf firstByteHash [7]) = some [7, 8, 9, 10] :=
  ⟨_, rfl, rfl, rfl, rfl⟩

end Registry
