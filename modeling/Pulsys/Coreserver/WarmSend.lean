import Pulsys.Base.Bytes
import Pulsys.Base.Pump
import Pulsys.Coreserver.WarmHead

/-!
# How a warm hit is put on the socket

Each way of sending a head and a part of a file puts a beginning of the response on the
socket. But after any error of io_uring the response is sent once more from its first byte,
and a write that takes nothing ends the head; `warm_in_order_iff`: nothing else goes wrong.
-/

namespace Coreserver

open Bytes Pump

inductive Platform
  | linux
  | darwin
  deriving DecidableEq, Repr

structure RawWrite where
  entered : Bool
  calls : List Taken
  deriving DecidableEq, Repr

def RawWrite.run (w : RawWrite) (text : Bytes) (goal : ℕ) (most : ℕ → ℕ) : Sent UInt8 :=
  if w.entered then pump text goal most 0 w.calls else ⟨[], .failed⟩

structure RingAttempt where
  available : Bool
  taken : ℕ
  ending : Ending
  deriving DecidableEq, Repr

structure WarmKernel where
  platform : Platform
  ioUringReady : Bool
  connRaw : Bool
  fd : Bool
  fdAgain : Bool
  ring : RingAttempt
  ringBody : RawWrite
  header : RawWrite
  body : RawWrite
  fused : RawWrite
  flushFails : Option ℕ
  direct : RawWrite
  copied : ℕ

def maxSendfileSlice (total remaining : ℤ) : ℤ :=
  let max :=
    if total ≤ 4 * 2 ^ 20 then total
    else if 32 * 2 ^ 20 < total then 32 * 2 ^ 20
    else 16 * 2 ^ 20
  if remaining < max then remaining else max

def bodySlice (n : ℤ) (transferred : ℕ) : ℕ := (maxSendfileSlice n (n - transferred)).toNat

def sendFileViaRaw (file : Bytes) (off : ℕ) (n : ℤ) (w : RawWrite) : Sent UInt8 :=
  w.run (file.drop off) n.toNat (bodySlice n)

def fusedGoal (hlen : ℕ) (n : ℤ) : ℕ := if hlen + n < 2 ^ 63 then (hlen + n).toNat else 0

namespace WarmKernel

def sendFileWithHeaderViaIoUring (k : WarmKernel) (file : Bytes) (off : ℕ) (n : ℤ) (header : Bytes) :
    Sent UInt8 :=
  if k.platform = .darwin ∨ k.ring.available = false then ⟨[], .failed⟩
  else
    let head : Sent UInt8 :=
      if header = [] then ⟨[], .returned⟩ else ⟨header.take k.ring.taken, k.ring.ending⟩
    match head.ending with
    | .pending => head
    | .failed => head
    | .returned =>
      if head.sent.length ≠ header.length then ⟨head.sent, .failed⟩
      else
        let body := sendFileViaRaw file off n k.ringBody
        match body.ending with
        | .pending => ⟨head.sent ++ body.sent, .pending⟩
        | .failed => ⟨head.sent ++ body.sent, .failed⟩
        | .returned =>
          ⟨head.sent ++ body.sent, if body.sent.length ≠ n then .failed else .returned⟩

def sendFileWithHeaderViaRaw (k : WarmKernel) (file : Bytes) (off : ℕ) (n : ℤ) (header : Bytes) :
    Sent UInt8 :=
  match k.platform with
  | .linux =>
    let head := k.header.run header header.length (header.length - ·)
    match head.ending with
    | .pending => head
    | .failed => head
    | .returned => (sendFileViaRaw file off n k.body).after head.sent
  | .darwin =>
    k.fused.run (header ++ file.drop off) (fusedGoal header.length n)
      (fusedGoal header.length n - ·)

def tryServeWarm (k : WarmKernel) (file : Bytes) (off : ℕ) (n : ℤ) (header : Bytes) : Bytes :=
  if k.connRaw = true ∧ k.fd = true then
    -- neither attempt reports one of the two errors for which the body is copied
    if k.ioUringReady then
      let first := k.sendFileWithHeaderViaIoUring file off n header
      match first.ending with
      | .failed => first.sent ++ (k.sendFileWithHeaderViaRaw file off n header).sent
      | .pending => first.sent
      | .returned => first.sent
    else (k.sendFileWithHeaderViaRaw file off n header).sent
  else
    match k.flushFails with
    | some taken => header.take taken
    | none =>
      if k.connRaw = true ∧ k.fdAgain = true then
        header ++ (sendFileViaRaw file off n k.direct).sent
      -- no descriptor: the body is copied from its first byte
      else header ++ ((file.drop off).take n.toNat).take k.copied

end WarmKernel

def warmResponse (file : Bytes) (off : ℕ) (n : ℤ) (header : Bytes) : Bytes :=
  header ++ (file.drop off).take n.toNat

/-! ## The counts -/

def RawWrite.count (w : RawWrite) (len goal : ℕ) (most : ℕ → ℕ) : ℕ × Ending :=
  if w.entered then Pump.count len goal most 0 w.calls else (0, .failed)

theorem RawWrite.run_eq (w : RawWrite) (text : Bytes) (goal : ℕ) (most : ℕ → ℕ) :
    w.run text goal most
      = ⟨text.take (w.count text.length goal most).1, (w.count text.length goal most).2⟩ := by
  unfold run count
  split
  · rw [pump_eq, List.drop_zero]
  · rw [List.take_zero]

theorem RawWrite.count_le_length (w : RawWrite) (len goal : ℕ) (most : ℕ → ℕ) :
    (w.count len goal most).1 ≤ len := by
  unfold count
  split
  · exact Pump.count_le_length len goal most 0 w.calls
  · exact Nat.zero_le _

theorem RawWrite.count_le_goal (w : RawWrite) {len goal : ℕ} {most : ℕ → ℕ}
    (hmost : ∀ pos, most pos ≤ goal - pos) : (w.count len goal most).1 ≤ goal := by
  unfold count
  split
  · exact Pump.count_le_goal hmost 0 w.calls
  · exact Nat.zero_le _

theorem bodySlice_le (n : ℤ) (transferred : ℕ) :
    bodySlice n transferred ≤ n.toNat - transferred := by
  unfold bodySlice maxSendfileSlice
  dsimp only
  generalize (if n ≤ 4 * 2 ^ 20 then n
    else if 32 * 2 ^ 20 < n then 32 * 2 ^ 20 else 16 * 2 ^ 20) = max
  split
  · omega
  · omega

theorem fusedGoal_le (hlen : ℕ) (n : ℤ) : fusedGoal hlen n ≤ hlen + n.toNat := by
  unfold fusedGoal
  split
  · omega
  · exact Nat.zero_le _

def bodyCount (flen off : ℕ) (n : ℤ) (w : RawWrite) : ℕ × Ending :=
  w.count (flen - off) n.toNat (bodySlice n)

theorem bodyCount_le (flen off : ℕ) (n : ℤ) (w : RawWrite) :
    (bodyCount flen off n w).1 ≤ n.toNat ∧ (bodyCount flen off n w).1 ≤ flen - off :=
  ⟨w.count_le_goal (bodySlice_le n), w.count_le_length _ _ _⟩

theorem sendFileViaRaw_eq (file : Bytes) (off : ℕ) (n : ℤ) (w : RawWrite) :
    sendFileViaRaw file off n w
      = ⟨((file.drop off).take n.toNat).take (bodyCount file.length off n w).1,
          (bodyCount file.length off n w).2⟩ := by
  have hle := (bodyCount_le file.length off n w).1
  rw [sendFileViaRaw, RawWrite.run_eq, List.length_drop, List.take_take, ← bodyCount,
    min_eq_left hle]

namespace WarmKernel

variable (k : WarmKernel)

def ringCount (hlen flen off : ℕ) (n : ℤ) : ℕ × Ending :=
  if k.platform = .darwin ∨ k.ring.available = false then (0, .failed)
  else
    let head : ℕ × Ending :=
      if hlen = 0 then (0, .returned) else (min k.ring.taken hlen, k.ring.ending)
    match head.2 with
    | .pending => head
    | .failed => head
    | .returned =>
      if head.1 ≠ hlen then (head.1, .failed)
      else
        let body := bodyCount flen off n k.ringBody
        match body.2 with
        | .pending => (hlen + body.1, .pending)
        | .failed => (hlen + body.1, .failed)
        | .returned => (hlen + body.1, if body.1 ≠ n then .failed else .returned)

def rawCount (hlen flen off : ℕ) (n : ℤ) : ℕ × ℕ :=
  match k.platform with
  | .linux =>
    let head := k.header.count hlen hlen (hlen - ·)
    match head.2 with
    | .pending => (head.1, 0)
    | .failed => (head.1, 0)
    | .returned => (head.1, (bodyCount flen off n k.body).1)
  | .darwin =>
    let both := (k.fused.count (hlen + (flen - off)) (fusedGoal hlen n) (fusedGoal hlen n - ·)).1
    (min both hlen, both - hlen)

def before (hlen flen off : ℕ) (n : ℤ) : ℕ :=
  if k.ioUringReady then (k.ringCount hlen flen off n).1 else 0

def Restarts (hlen flen off : ℕ) (n : ℤ) : Prop :=
  k.connRaw = true ∧ k.fd = true
    ∧ (k.ioUringReady = true → (k.ringCount hlen flen off n).2 = .failed)

def FitsTogether (hlen flen off : ℕ) (n : ℤ) : Prop :=
  k.Restarts hlen flen off n →
    (k.before hlen flen off n = 0 ∨ (k.rawCount hlen flen off n).1 = 0)
      ∧ ((k.rawCount hlen flen off n).2 = 0
        ∨ k.before hlen flen off n + (k.rawCount hlen flen off n).1 = hlen)

variable {file header : Bytes} {flen hlen i off : ℕ} {n : ℤ}

theorem take_warmResponse_of_le {c : ℕ} (h : c ≤ header.length) :
    (warmResponse file off n header).take c = header.take c :=
  List.take_append_of_le_length h

theorem take_warmResponse_add (file : Bytes) (off : ℕ) (n : ℤ) (header : Bytes) (t : ℕ) :
    (warmResponse file off n header).take (header.length + t)
      = header ++ ((file.drop off).take n.toNat).take t :=
  List.take_length_add_append t

theorem sendFileWithHeaderViaIoUring_eq (file : Bytes) (off : ℕ) (n : ℤ) (header : Bytes) :
    k.sendFileWithHeaderViaIoUring file off n header
      = ⟨(warmResponse file off n header).take (k.ringCount header.length file.length off n).1,
          (k.ringCount header.length file.length off n).2⟩ := by
  unfold sendFileWithHeaderViaIoUring ringCount
  split
  · rw [List.take_zero]
  -- the head, and its length
  generalize hhead : (if header = [] then ⟨[], .returned⟩
    else ⟨header.take k.ring.taken, k.ring.ending⟩ : Sent UInt8) = head
  generalize hcount : (if header.length = 0 then (0, .returned)
    else (min k.ring.taken header.length, k.ring.ending) : ℕ × Ending) = count
  have hsame : head = ⟨header.take count.1, count.2⟩ ∧ count.1 ≤ header.length := by
    rw [← hhead, ← hcount]
    by_cases hnil : header = []
    · simp [hnil]
    · have hpos : header.length ≠ 0 := fun h => hnil (List.length_eq_zero_iff.mp h)
      rw [if_neg hnil, if_neg hpos]
      exact ⟨by rw [← List.take_eq_take_min], min_le_right _ _⟩
  obtain ⟨rfl, hle⟩ := hsame
  have hlen : (header.take count.1).length = count.1 := List.length_take_of_le hle
  dsimp only
  cases hend : count.2 with
  | pending => simp only [hend, take_warmResponse_of_le hle]
  | failed => simp only [hend, take_warmResponse_of_le hle]
  | returned =>
    dsimp only
    rw [hlen]
    split
    · rw [take_warmResponse_of_le hle]
    · next hfull =>
      have hall : header.take count.1 = header := by
        rw [not_not.mp hfull, List.take_length]
      rw [sendFileViaRaw_eq, hall]
      dsimp only
      have hbody := (bodyCount_le file.length off n k.ringBody)
      have hlen' : (((file.drop off).take n.toNat).take
          (bodyCount file.length off n k.ringBody).1).length
          = (bodyCount file.length off n k.ringBody).1 := by
        rw [List.length_take, List.length_take, List.length_drop]
        omega
      rw [hlen']
      cases (bodyCount file.length off n k.ringBody).2 with
      | pending => rw [take_warmResponse_add]
      | failed => rw [take_warmResponse_add]
      | returned => rw [take_warmResponse_add]

theorem sent_sendFileWithHeaderViaRaw (file : Bytes) (off : ℕ) (n : ℤ) (header : Bytes) :
    (k.sendFileWithHeaderViaRaw file off n header).sent
      = header.take (k.rawCount header.length file.length off n).1
        ++ ((file.drop off).take n.toNat).take (k.rawCount header.length file.length off n).2 := by
  unfold sendFileWithHeaderViaRaw rawCount
  cases k.platform with
  | linux =>
    dsimp only
    rw [RawWrite.run_eq]
    dsimp only
    cases (k.header.count header.length header.length (header.length - ·)).2 with
    | pending => rw [List.take_zero, List.append_nil]
    | failed => rw [List.take_zero, List.append_nil]
    | returned =>
      dsimp only
      rw [sendFileViaRaw_eq]
      rfl
  | darwin =>
    dsimp only
    rw [RawWrite.run_eq, List.length_append, List.length_drop]
    have hgoal := @RawWrite.count_le_goal k.fused (header.length + (file.length - off)) _
      (fusedGoal header.length n - ·) (fun _ => le_rfl)
    have hmost := fusedGoal_le header.length n
    generalize (k.fused.count (header.length + (file.length - off)) (fusedGoal header.length n)
      (fusedGoal header.length n - ·)).1 = both at hgoal ⊢
    rw [List.take_append, ← List.take_eq_take_min, List.take_take, min_eq_left (by omega)]

theorem rawCount_le (hlen flen off : ℕ) (n : ℤ) :
    (k.rawCount hlen flen off n).1 ≤ hlen ∧ (k.rawCount hlen flen off n).2 ≤ n.toNat
      ∧ (k.rawCount hlen flen off n).2 ≤ flen - off := by
  unfold rawCount
  cases k.platform with
  | linux =>
    have hhead := k.header.count_le_length hlen hlen (hlen - ·)
    dsimp only
    cases (k.header.count hlen hlen (hlen - ·)).2 with
    | pending => exact ⟨hhead, Nat.zero_le _, Nat.zero_le _⟩
    | failed => exact ⟨hhead, Nat.zero_le _, Nat.zero_le _⟩
    | returned => exact ⟨hhead, bodyCount_le flen off n k.body⟩
  | darwin =>
    have hgoal := @RawWrite.count_le_goal k.fused (hlen + (flen - off)) _ (fusedGoal hlen n - ·)
      (fun _ => le_rfl)
    have hlength := k.fused.count_le_length (hlen + (flen - off)) (fusedGoal hlen n)
      (fusedGoal hlen n - ·)
    refine ⟨min_le_right _ _, ?_, ?_⟩
    · exact Nat.sub_le_iff_le_add'.mpr (hgoal.trans (fusedGoal_le hlen n))
    · exact Nat.sub_le_iff_le_add'.mpr hlength

theorem ringCount_le (hlen flen off : ℕ) (n : ℤ) :
    (k.ringCount hlen flen off n).1 ≤ hlen + min n.toNat (flen - off) := by
  have hbody := le_min (bodyCount_le flen off n k.ringBody).1 (bodyCount_le flen off n k.ringBody).2
  unfold ringCount
  split
  · exact Nat.zero_le _
  generalize hcount : (if hlen = 0 then (0, .returned)
    else (min k.ring.taken hlen, k.ring.ending) : ℕ × Ending) = head
  have hle : head.1 ≤ hlen := by
    rw [← hcount]
    split
    · exact Nat.zero_le _
    · exact min_le_right _ _
  dsimp only
  cases head.2 with
  | pending => exact hle.trans (Nat.le_add_right _ _)
  | failed => exact hle.trans (Nat.le_add_right _ _)
  | returned =>
    dsimp only
    split
    · exact hle.trans (Nat.le_add_right _ _)
    · cases (bodyCount flen off n k.ringBody).2 with
      | pending => exact Nat.add_le_add_left hbody _
      | failed => exact Nat.add_le_add_left hbody _
      | returned => exact Nat.add_le_add_left hbody _

/-! ## What comes of both -/

theorem tryServeWarm_of_restarts (h : k.Restarts header.length file.length off n) :
    k.tryServeWarm file off n header
      = (warmResponse file off n header).take (k.before header.length file.length off n)
        ++ (header.take (k.rawCount header.length file.length off n).1
          ++ ((file.drop off).take n.toNat).take (k.rawCount header.length file.length off n).2) := by
  obtain ⟨hraw, hfd, hfailed⟩ := h
  rw [tryServeWarm, if_pos ⟨hraw, hfd⟩, before, ← sent_sendFileWithHeaderViaRaw]
  split
  · next hready =>
    rw [sendFileWithHeaderViaIoUring_eq, hfailed hready]
  · rw [List.take_zero, List.nil_append]

theorem tryServeWarm_of_not_restarts (h : ¬ k.Restarts header.length file.length off n) :
    k.tryServeWarm file off n header <+: warmResponse file off n header := by
  unfold tryServeWarm
  split
  · next hfused =>
    have hready : k.ioUringReady = true
        ∧ (k.ringCount header.length file.length off n).2 ≠ .failed := by
      by_contra hnot
      refine h ⟨hfused.1, hfused.2, fun hready => ?_⟩
      by_contra hne
      exact hnot ⟨hready, hne⟩
    rw [if_pos hready.1, sendFileWithHeaderViaIoUring_eq]
    dsimp only
    cases hend : (k.ringCount header.length file.length off n).2 with
    | failed => exact absurd hend hready.2
    | pending => exact List.take_prefix _ _
    | returned => exact List.take_prefix _ _
  · cases k.flushFails with
    | some taken => exact (List.take_prefix _ _).trans (List.prefix_append _ _)
    | none =>
      dsimp only
      split
      · rw [sendFileViaRaw_eq]
        exact List.prefix_append_right_inj header |>.mpr (List.take_prefix _ _)
      · exact List.prefix_append_right_inj header |>.mpr (List.take_prefix _ _)

theorem prefix_of_fitsTogether (hres : k.Restarts header.length file.length off n)
    (hfits : k.FitsTogether header.length file.length off n) :
    k.tryServeWarm file off n header <+: warmResponse file off n header := by
  obtain ⟨hhead, hbody⟩ := hfits hres
  rw [tryServeWarm_of_restarts k hres]
  have hle := (k.rawCount_le header.length file.length off n).1
  generalize k.before header.length file.length off n = r at hhead hbody ⊢
  generalize (k.rawCount header.length file.length off n).1 = p at hhead hbody hle ⊢
  generalize (k.rawCount header.length file.length off n).2 = t at hbody ⊢
  have hwhole : header ++ ((file.drop off).take n.toNat).take t <+: warmResponse file off n header :=
    (List.prefix_append_right_inj header).mpr (List.take_prefix _ _)
  rcases hhead with rfl | rfl
  · rw [List.take_zero, List.nil_append]
    rcases hbody with rfl | hp
    · rw [List.take_zero, List.append_nil]
      exact (List.take_prefix _ _).trans (List.prefix_append _ _)
    · rw [Nat.zero_add] at hp
      rw [hp, List.take_length]
      exact hwhole
  · rw [List.take_zero, List.nil_append]
    rcases hbody with rfl | hr
    · rw [List.take_zero, List.append_nil]
      exact List.take_prefix _ _
    · rw [Nat.add_zero] at hr
      rw [hr, take_warmResponse_of_le le_rfl, List.take_length]
      exact hwhole

/-! ## Marked bytes

To see where a byte on the socket comes from, one byte of the response is marked. -/

def markedHeader (hlen : ℕ) : Bytes := (List.replicate hlen 0).set 0 1

def markedFile (flen off : ℕ) : Bytes := (List.replicate flen 0).set off 1

theorem ne_one_of_replicate {len : ℕ} : (List.replicate len (0 : UInt8))[i]? ≠ some 1 := by
  intro h
  have hone : (1 : UInt8) = 0 := List.eq_of_mem_replicate (List.mem_of_getElem? h)
  exact absurd hone (by decide)

theorem eq_zero_of_markedHeader
    (h : (warmResponse (List.replicate flen 0) off n (markedHeader hlen))[i]? = some 1) :
    i = 0 := by
  rw [warmResponse, List.getElem?_append] at h
  split at h
  · by_contra hi
    rw [markedHeader, List.getElem?_set_ne (Ne.symm hi)] at h
    exact ne_one_of_replicate h
  · rw [List.drop_replicate, List.take_replicate] at h
    exact absurd h ne_one_of_replicate

theorem eq_length_of_markedFile
    (h : (warmResponse (markedFile flen off) off n (List.replicate hlen 0))[i]? = some 1) :
    i = hlen := by
  rw [warmResponse, List.getElem?_append] at h
  split at h
  · exact absurd h ne_one_of_replicate
  · next hge =>
    rw [List.length_replicate] at h hge
    rw [List.getElem?_take] at h
    split at h
    · rw [List.getElem?_drop] at h
      by_contra hi
      have hne : off ≠ off + (i - hlen) := by omega
      rw [markedFile, List.getElem?_set_ne hne] at h
      exact ne_one_of_replicate h
    · cases h

theorem next_byte {sent next whole : Bytes} (hpre : sent ++ next <+: whole) {b : UInt8}
    (hb : next[0]? = some b) : whole[sent.length]? = some b := by
  obtain ⟨rest, rfl⟩ := hpre
  rw [List.append_assoc, List.getElem?_append_right le_rfl, Nat.sub_self,
    List.getElem?_append_left (List.getElem?_eq_some_iff.mp hb).1]
  exact hb

theorem before_le (hlen flen off : ℕ) (n : ℤ) :
    k.before hlen flen off n ≤ hlen + min n.toNat (flen - off) := by
  unfold before
  split
  · exact k.ringCount_le hlen flen off n
  · exact Nat.zero_le _

theorem length_take_before (file : Bytes) (off : ℕ) (n : ℤ) (header : Bytes) :
    ((warmResponse file off n header).take (k.before header.length file.length off n)).length
      = k.before header.length file.length off n := by
  have hle := k.before_le header.length file.length off n
  rw [List.length_take, warmResponse, List.length_append, List.length_take, List.length_drop]
  omega

theorem before_eq_zero (hres : k.Restarts hlen flen off n)
    (hpre : k.tryServeWarm (List.replicate flen 0) off n (markedHeader hlen)
      <+: warmResponse (List.replicate flen 0) off n (markedHeader hlen))
    (hp : (k.rawCount hlen flen off n).1 ≠ 0) : k.before hlen flen off n = 0 := by
  have hhead : (markedHeader hlen).length = hlen := by simp [markedHeader]
  have hfile : (List.replicate flen (0 : UInt8)).length = flen := List.length_replicate
  have hlength := k.length_take_before (List.replicate flen 0) off n (markedHeader hlen)
  have hres' : k.Restarts (markedHeader hlen).length
      (List.replicate flen (0 : UInt8)).length off n := by
    rw [hhead, hfile]
    exact hres
  rw [tryServeWarm_of_restarts k hres'] at hpre
  rw [hhead, hfile] at hlength hpre
  have hple := (k.rawCount_le hlen flen off n).1
  -- the marked byte is the next one on the socket
  have hmark : ((markedHeader hlen).take (k.rawCount hlen flen off n).1)[0]? = some 1 := by
    rw [List.getElem?_take_of_lt (Nat.pos_of_ne_zero hp), markedHeader, List.getElem?_set_self]
    rw [List.length_replicate]
    omega
  have hnext := next_byte hpre
    ((List.getElem?_append_left (List.getElem?_eq_some_iff.mp hmark).1).trans hmark)
  rw [hlength] at hnext
  exact eq_zero_of_markedHeader hnext

theorem before_add_eq (hres : k.Restarts hlen flen off n)
    (hpre : k.tryServeWarm (markedFile flen off) off n (List.replicate hlen 0)
      <+: warmResponse (markedFile flen off) off n (List.replicate hlen 0))
    (ht : (k.rawCount hlen flen off n).2 ≠ 0) :
    k.before hlen flen off n + (k.rawCount hlen flen off n).1 = hlen := by
  have hhead : (List.replicate hlen (0 : UInt8)).length = hlen := List.length_replicate
  have hfile : (markedFile flen off).length = flen := by simp [markedFile]
  have hlength := k.length_take_before (markedFile flen off) off n (List.replicate hlen 0)
  have hres' : k.Restarts (List.replicate hlen (0 : UInt8)).length
      (markedFile flen off).length off n := by
    rw [hhead, hfile]
    exact hres
  rw [tryServeWarm_of_restarts k hres', ← List.append_assoc] at hpre
  rw [hhead, hfile] at hlength hpre
  obtain ⟨hple, htn, htlen⟩ := k.rawCount_le hlen flen off n
  have hlength' : ((warmResponse (markedFile flen off) off n (List.replicate hlen 0)).take
        (k.before hlen flen off n)
      ++ (List.replicate hlen (0 : UInt8)).take (k.rawCount hlen flen off n).1).length
      = k.before hlen flen off n + (k.rawCount hlen flen off n).1 := by
    rw [List.length_append, hlength, List.length_take_of_le (by rw [hhead]; exact hple)]
  -- the marked byte is the next one on the socket
  have hmark : ((((markedFile flen off).drop off).take n.toNat).take
      (k.rawCount hlen flen off n).2)[0]? = some 1 := by
    rw [List.getElem?_take_of_lt (Nat.pos_of_ne_zero ht), List.getElem?_take_of_lt (by omega),
      List.getElem?_drop, Nat.add_zero, markedFile, List.getElem?_set_self]
    rw [List.length_replicate]
    omega
  have hnext := next_byte hpre hmark
  rw [hlength'] at hnext
  exact eq_length_of_markedFile hnext

/-- **The bytes of a warm hit** are a beginning of the head followed by the file's, for all of
given lengths, exactly if the attempts fit together. -/
theorem warm_in_order_iff (hlen flen off : ℕ) (n : ℤ) :
    (∀ header file : Bytes, header.length = hlen → file.length = flen →
        k.tryServeWarm file off n header <+: warmResponse file off n header)
      ↔ k.FitsTogether hlen flen off n := by
  constructor
  · intro h hres
    have hfirst := h (markedHeader hlen) (List.replicate flen 0) (by simp [markedHeader])
      List.length_replicate
    have hsecond := h (List.replicate hlen 0) (markedFile flen off) List.length_replicate
      (by simp [markedFile])
    constructor
    · by_cases hp : (k.rawCount hlen flen off n).1 = 0
      · exact .inr hp
      · exact .inl (before_eq_zero k hres hfirst hp)
    · by_cases ht : (k.rawCount hlen flen off n).2 = 0
      · exact .inl ht
      · exact .inr (before_add_eq k hres hsecond ht)
  · rintro hfits header file rfl rfl
    by_cases hres : k.Restarts header.length file.length off n
    · exact prefix_of_fitsTogether k hres hfits
    · exact tryServeWarm_of_not_restarts k hres

def nineBytes : WarmKernel where
  platform := .linux
  ioUringReady := true
  connRaw := true
  fd := true
  fdAgain := true
  ring := ⟨true, 9, .returned⟩
  ringBody := ⟨true, []⟩
  header := ⟨true, [⟨1000, none⟩]⟩
  body := ⟨true, [⟨1000, none⟩]⟩
  fused := ⟨true, []⟩
  flushFails := none
  direct := ⟨true, []⟩
  copied := 0

def fourBytesHead : Bytes :=
  warmHead200 4 { spans := [⟨0, 4⟩], total := some 4 } true

/-- **The head is begun twice**, after nine bytes of it by io_uring. -/
theorem head_begun_twice :
    nineBytes.tryServeWarm (ascii "data") 0 4 fourBytesHead
        = ascii "HTTP/1.1 " ++ warmResponse (ascii "data") 0 4 fourBytesHead
      ∧ ¬ nineBytes.tryServeWarm (ascii "data") 0 4 fourBytesHead
        <+: warmResponse (ascii "data") 0 4 fourBytesHead := by
  decide

end WarmKernel

end Coreserver
