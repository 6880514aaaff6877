import Pulsys.Base.Parties
import Pulsys.Cache.Slot

/-!
# What no step can break

Whatever the order of the steps, a byte in a file of the key was delivered by the response
it is marked with, for the offset it stands at.
-/

namespace Cache

open Bytes Parties

structure SegmentWriter.Sound (w : SegmentWriter) (nextFile nextResponse id : ℕ)
    (r : Response) : Prop where
  file_lt : w.file < nextFile
  id_lt : id < nextResponse
  idle : w.ready = false → w.written = 0
  in_step : w.failed = false → r.delivered.length = w.written

namespace Slot

/-! ## What is there was delivered -/

def DeliveredAt (s : Slot) (o id : ℕ) (b : UInt8) : Prop :=
  (s.params id).start.toNat ≤ o
    ∧ (s.responses id).delivered[o - (s.params id).start.toNat]? = some b

structure Sound (s : Slot) : Prop where
  body_lt : ∀ i, s.body = some i → i < s.nextFile
  trim_lt : ∀ t tr i, s.trims t = some tr → tr.file = some i → i < s.nextFile
  start_nonneg : ∀ id, 0 ≤ (s.params id).start
  writer : ∀ id w, s.writers id = some w →
    w.Sound s.nextFile s.nextResponse id (s.responses id)
  honest : ∀ i o id b, (s.files i).get o = some (id, b) →
    id < s.nextResponse ∧ s.DeliveredAt o id b

theorem sound_empty : Slot.empty.Sound where
  body_lt := by simp [Slot.empty]
  trim_lt := by simp [Slot.empty]
  start_nonneg := by simp [Slot.empty, params]
  writer := by simp [Slot.empty]
  honest := by simp [Slot.empty]

variable {p : SegmentParams} {s : Slot} {id : ℕ}

theorem nonneg_of_valid {key : Bytes} (h : validateSegmentParams key p = true) : 0 ≤ p.start := by
  unfold validateSegmentParams at h
  simp only [Bool.and_eq_true, decide_eq_true_eq] at h
  exact h.1.1.1.2

theorem responses_openBody (h : id < s.nextResponse) :
    (s.openBody p).responses id = s.responses id :=
  Function.update_of_ne (by omega) _ _

theorem Sound.openBody (h : s.Sound) (hp : 0 ≤ p.start) : (s.openBody p).Sound := by
  have hmono : s.nextFile ≤ (s.openBody p).nextFile := by
    unfold Slot.openBody
    dsimp only
    split <;> omega
  have hfile : s.body.getD s.nextFile < (s.openBody p).nextFile := by
    unfold Slot.openBody
    cases hb : s.body with
    | none => simp
    | some i => simpa using h.body_lt i hb
  refine ⟨?_, ?_, ?_, ?_, ?_⟩
  · intro i hi
    cases hi
    exact hfile
  · exact fun t tr i ht hi => lt_of_lt_of_le (h.trim_lt t tr i ht hi) hmono
  · intro id
    have := h.start_nonneg id
    unfold params Slot.openBody at *
    by_cases hid : id = s.nextResponse
    · simpa [hid] using hp
    · simpa [Function.update_of_ne hid] using this
  · intro id w hw
    rcases update_eq_some hw with ⟨rfl, heq⟩ | ⟨-, hold⟩
    · cases heq
      exact ⟨hfile, Nat.lt_succ_self _, fun _ => rfl, fun _ => by simp [Slot.openBody]⟩
    · obtain ⟨hf, hid, hidle, hin⟩ := h.writer id w hold
      refine ⟨lt_of_lt_of_le hf hmono, Nat.lt_succ_of_lt hid, hidle, ?_⟩
      rwa [responses_openBody hid]
  · intro i o id b hget
    have hold : (s.files i).get o = some (id, b) := by
      unfold Slot.openBody at hget
      dsimp only at hget
      split at hget
      · exact hget
      · by_cases hi : i = s.nextFile
        · simp [hi] at hget
        · rwa [Function.update_of_ne hi] at hget
    obtain ⟨hlt, hdel⟩ := h.honest i o id b hold
    refine ⟨Nat.lt_succ_of_lt hlt, ?_⟩
    unfold DeliveredAt params at hdel ⊢
    rwa [responses_openBody hlt]

theorem Sound.cutBody (h : s.Sound) {w : SegmentWriter} (hw : s.writers id = some w)
    (hr : w.ready = false) : (s.cutBody id w).Sound := by
  refine ⟨h.body_lt, h.trim_lt, h.start_nonneg, ?_, ?_⟩
  · intro id' w' hw'
    rcases update_eq_some hw' with ⟨rfl, heq⟩ | ⟨-, hold⟩
    · cases heq
      obtain ⟨hf, hid, hidle, hin⟩ := h.writer _ w hw
      exact ⟨hf, hid, fun _ => hidle hr, hin⟩
    · exact h.writer id' w' hold
  · intro i o id' b hget
    refine h.honest i o id' b ?_
    unfold Slot.cutBody at hget
    dsimp only at hget
    split at hget
    · by_cases hi : i = w.file
      · subst hi
        rw [Function.update_self, SparseFile.get_truncate] at hget
        exact (Option.ite_none_right_eq_some.mp hget).2
      · rwa [Function.update_of_ne hi] at hget
    · exact hget

theorem params_writeBody (s : Slot) (id : ℕ) (w : SegmentWriter) (bs : Bytes) (n id' : ℕ) :
    (s.writeBody id w bs n).params id' = s.params id' := by
  unfold params Slot.writeBody
  by_cases hid : id' = id
  · subst hid
    simp
  · simp [Function.update_of_ne hid]

theorem DeliveredAt.writeBody {o id' : ℕ} {b : UInt8} (h : s.DeliveredAt o id' b) (id : ℕ)
    (w : SegmentWriter) (bs : Bytes) (n : ℕ) : (s.writeBody id w bs n).DeliveredAt o id' b := by
  obtain ⟨hle, hget⟩ := h
  unfold DeliveredAt
  rw [params_writeBody]
  refine ⟨hle, ?_⟩
  unfold Slot.writeBody
  dsimp only
  by_cases hid : id' = id
  · subst hid
    rw [Function.update_self]
    dsimp only
    obtain ⟨hlt, -⟩ := List.getElem?_eq_some_iff.mp hget
    rwa [List.getElem?_append_left hlt]
  · rwa [Function.update_of_ne hid]

theorem Sound.writeBody (h : s.Sound) {w : SegmentWriter} {bs : Bytes} {n : ℕ}
    (hw : s.writers id = some w) (hr : w.ready = true) (hf : w.failed = false)
    (hn : n ≤ bs.length) : (s.writeBody id w bs n).Sound := by
  obtain ⟨hfile, hid, hidle, hin⟩ := h.writer id w hw
  refine ⟨h.body_lt, h.trim_lt, ?_, ?_, ?_⟩
  · intro id'
    rw [params_writeBody]
    exact h.start_nonneg id'
  · intro id' w' hw'
    rcases update_eq_some hw' with ⟨rfl, heq⟩ | ⟨hne, hold⟩
    · cases heq
      refine ⟨hfile, hid, fun hr' => absurd (hr.symm.trans hr') (by simp), fun hf' => ?_⟩
      have hlen : n = bs.length := by
        have := of_decide_eq_false hf'
        omega
      simp [Slot.writeBody, hin hf, hlen]
    · obtain ⟨hf', hid', hidle', hin'⟩ := h.writer id' w' hold
      refine ⟨hf', hid', hidle', ?_⟩
      unfold Slot.writeBody
      dsimp only
      rwa [Function.update_of_ne hne]
  · intro i o id' b hget
    by_cases hi : i = w.file ∧ (s.params id).start.toNat + w.written ≤ o
        ∧ o < (s.params id).start.toNat + w.written + n
    · -- a new byte: it is the one delivered next
      obtain ⟨rfl, hlo, hhi⟩ := hi
      have hcell : (id', b) = (id, bs.get ⟨o - ((s.params id).start.toNat + w.written),
          by omega⟩) := by
        unfold Slot.writeBody at hget
        dsimp only at hget
        rw [Function.update_self, SparseFile.get_write_of_mem _ hlo (by simp; omega)] at hget
        rw [List.getElem?_map, List.getElem?_take_of_lt (by omega),
          List.getElem?_eq_getElem (by omega)] at hget
        exact (Option.some.inj hget).symm
      obtain ⟨rfl, rfl⟩ := Prod.mk.inj hcell
      refine ⟨hid, ?_⟩
      unfold DeliveredAt
      rw [params_writeBody]
      refine ⟨by omega, ?_⟩
      unfold Slot.writeBody
      dsimp only
      rw [Function.update_self]
      dsimp only
      rw [List.getElem?_append_right (by rw [hin hf]; omega), hin hf,
        List.getElem?_eq_getElem (by omega)]
      simp only [List.get_eq_getElem]
      congr 2
      omega
    · have hold : (s.files i).get o = some (id', b) := by
        unfold Slot.writeBody at hget
        dsimp only at hget
        by_cases hfi : i = w.file
        · subst hfi
          rwa [Function.update_self, SparseFile.get_write_of_notMem] at hget
          intro hmem
          refine hi ⟨rfl, hmem.1, ?_⟩
          have := hmem.2
          simp only [List.length_map, List.length_take] at this
          omega
        · rwa [Function.update_of_ne hfi] at hget
      obtain ⟨hlt, hdel⟩ := h.honest i o id' b hold
      exact ⟨hlt, hdel.writeBody id w bs n⟩

theorem Sound.updateWriter (h : s.Sound) {v : Option SegmentWriter} {entry : Option Meta}
    (hv : ∀ w, v = some w → w.Sound s.nextFile s.nextResponse id (s.responses id)) :
    ({ s with entry := entry, writers := Function.update s.writers id v } : Slot).Sound := by
  refine ⟨h.body_lt, h.trim_lt, h.start_nonneg, ?_, h.honest⟩
  intro id' w' hw'
  rcases update_eq_some hw' with ⟨rfl, heq⟩ | ⟨-, hold⟩
  · exact hv w' heq
  · exact h.writer id' w' hold

theorem Sound.step {key : Bytes} {interval : ℤ} {s' : Slot} {e : Event} (h : s.Sound)
    (hs : s.step key interval e = some s') : s'.Sound := by
  cases steps_of_step hs with
  | beginSegment hv => exact h.openBody (nonneg_of_valid hv)
  | cut hw hr => exact h.cutBody hw hr
  | cutFails hw hr => exact h.updateWriter (by simp)
  | write hw hr hf hn hmax => exact h.writeBody hw hr hf hn
  | checkpoint hw hr hpos =>
    refine h.updateWriter ?_
    rintro _ ⟨rfl⟩
    obtain ⟨hf, hid, hidle, hin⟩ := h.writer _ _ hw
    exact ⟨hf, hid, hidle, hin⟩
  | commit hw hr => exact h.updateWriter (by simp)
  | abandon hw => exact h.updateWriter (by simp)
  | redirect hv => exact ⟨h.body_lt, h.trim_lt, h.start_nonneg, h.writer, h.honest⟩
  | storeAlias hne => exact ⟨h.body_lt, h.trim_lt, h.start_nonneg, h.writer, h.honest⟩
  | trimRead hm =>
    refine ⟨h.body_lt, ?_, h.start_nonneg, h.writer, h.honest⟩
    intro t tr i ht hi
    rcases update_eq_some ht with ⟨rfl, heq⟩ | ⟨-, hold⟩
    · cases heq
      exact h.body_lt i hi
    · exact h.trim_lt t tr i hold hi
  | trimWrite ht =>
    refine ⟨h.body_lt, ?_, h.start_nonneg, h.writer, h.honest⟩
    intro t' tr' i ht' hi
    rcases update_eq_some ht' with ⟨rfl, heq⟩ | ⟨-, hold⟩
    · cases heq
    · exact h.trim_lt t' tr' i hold hi
  | purgeRead hm => exact ⟨h.body_lt, h.trim_lt, h.start_nonneg, h.writer, h.honest⟩
  | remove hr => exact ⟨by simp, h.trim_lt, h.start_nonneg, h.writer, h.honest⟩

end Slot

end Cache
