import Pulsys.Cache.SlotSound

/-!
# When entries are well formed

An entry's spans should not be empty, and end within the total and the body; but each
response may announce another total. `Consistent` is the condition on a step that is
exactly right.
-/

namespace Cache

open Bytes Parties

def Event.isSegment : Event → Bool
  | .beginSegment _ => true
  | .truncate _ _ => true
  | .write _ _ _ => true
  | .checkpoint _ => true
  | .commit _ => true
  | .abandon _ => true
  | _ => false

namespace Slot

def bodySize (s : Slot) : ℕ := (s.body.map (fun i => (s.files i).size)).getD 0

structure EntryWellFormed (m : Meta) (bodySize : ℕ) : Prop where
  nonempty : ∀ sp ∈ m.spans, 0 ≤ sp.start ∧ sp.start < sp.stop
  total : ∀ t, m.total = some t → ∀ sp ∈ m.spans, sp.stop ≤ t
  size : ∀ sp ∈ m.spans, sp.stop ≤ bodySize

def WellFormed (s : Slot) : Prop := ∀ m, s.entry = some m → EntryWellFormed m s.bodySize

instance (m : Meta) (n : ℕ) : Decidable (EntryWellFormed m n) :=
  decidable_of_iff ((∀ sp ∈ m.spans, 0 ≤ sp.start ∧ sp.start < sp.stop)
      ∧ (∀ t ∈ m.total, ∀ sp ∈ m.spans, sp.stop ≤ t) ∧ ∀ sp ∈ m.spans, sp.stop ≤ n)
    ⟨fun h => ⟨h.1, h.2.1, h.2.2⟩, fun h => ⟨h.nonempty, h.total, h.size⟩⟩

instance (s : Slot) : Decidable s.WellFormed :=
  inferInstanceAs (Decidable (∀ m ∈ s.entry, EntryWellFormed m s.bodySize))

structure Fits (s : Slot) (total : Option ℤ) (stop : ℤ) (written : ℕ) : Prop where
  recorded : ∀ t, total = some t → ∀ sp ∈ spansOf s.entry, sp.stop ≤ t
  total_le : 0 < written → ∀ t, total = some t → stop ≤ t
  size_le : 0 < written → stop ≤ s.bodySize

instance (s : Slot) (total : Option ℤ) (stop : ℤ) (written : ℕ) :
    Decidable (s.Fits total stop written) :=
  decidable_of_iff ((∀ t ∈ total, ∀ sp ∈ spansOf s.entry, sp.stop ≤ t)
      ∧ (0 < written → ∀ t ∈ total, stop ≤ t) ∧ (0 < written → stop ≤ s.bodySize))
    ⟨fun h => ⟨h.1, h.2.1, h.2.2⟩, fun h => ⟨h.recorded, h.total_le, h.size_le⟩⟩

def Consistent (s : Slot) : Event → Prop
  | .truncate id true => (s.writers id).isSome → 0 < (s.params id).total →
      ∀ sp ∈ spansOf s.entry, sp.stop ≤ (s.params id).total
  | .checkpoint id => ∀ w, s.writers id = some w →
      s.Fits (if 0 < (s.params id).total then some (s.params id).total
        else s.entry.bind Meta.total) ((s.params id).start + w.written) w.written
  | .commit id => ∀ w, s.writers id = some w →
      s.Fits ((s.params id).commitTotal w.written (s.entry.bind Meta.total))
        ((s.params id).start + w.written) w.written
  | _ => True

instance (s : Slot) : (e : Event) → Decidable (s.Consistent e)
  | .truncate id true => inferInstanceAs (Decidable ((s.writers id).isSome →
      0 < (s.params id).total → ∀ sp ∈ spansOf s.entry, sp.stop ≤ (s.params id).total))
  | .checkpoint id => inferInstanceAs (Decidable (∀ w ∈ s.writers id, s.Fits _ _ _))
  | .commit id => inferInstanceAs (Decidable (∀ w ∈ s.writers id, s.Fits _ _ _))
  | .truncate _ false | .beginSegment _ | .write _ _ _ | .abandon _ | .redirect _
  | .storeAlias _ | .trimRead | .trimWrite _ _ _ | .purgeRead | .remove => isTrue trivial

def OneFile (s : Slot) : Prop := ∀ id w, s.writers id = some w → s.body = some w.file

theorem oneFile_empty : Slot.empty.OneFile := by
  simp [OneFile, Slot.empty]

variable {s s' : Slot}

theorem OneFile.step {key : Bytes} {interval : ℤ} {e : Event} (h : s.OneFile)
    (hseg : e.isSegment = true) (hs : s.step key interval e = some s') : s'.OneFile := by
  have hupdate : ∀ (id : ℕ) (v : Option SegmentWriter), (∀ w, v = some w → s.body = some w.file) →
      ∀ id' w', Function.update s.writers id v id' = some w' → s.body = some w'.file := by
    intro id v hv id' w' hw'
    rcases update_eq_some hw' with ⟨-, heq⟩ | ⟨-, hold⟩
    · exact hv w' heq
    · exact h id' w' hold
  -- a step that changes a writer does not change its file
  cases steps_of_step hs with
  | beginSegment hv =>
    intro id w hw
    show some (s.body.getD s.nextFile) = some w.file
    rcases update_eq_some hw with ⟨-, heq⟩ | ⟨-, hold⟩
    · cases heq
      rfl
    · rw [h id w hold, Option.getD_some]
  | cut hw hr =>
    have hb := h _ _ hw
    refine hupdate _ _ ?_
    rintro w' ⟨rfl⟩
    exact hb
  | cutFails hw hr => exact hupdate _ _ (by simp)
  | write hw hr hf hn hmax =>
    have hb := h _ _ hw
    refine hupdate _ _ ?_
    rintro w' ⟨rfl⟩
    exact hb
  | checkpoint hw hr hpos =>
    have hb := h _ _ hw
    refine hupdate _ _ ?_
    rintro w' ⟨rfl⟩
    exact hb
  | commit hw hr => exact hupdate _ _ (by simp)
  | abandon hw => exact hupdate _ _ (by simp)
  | redirect | storeAlias | trimRead | trimWrite | purgeRead | remove => cases hseg

/-! ## The length of the body -/

@[simp]
theorem bodySize_openBody (s : Slot) (p : SegmentParams) :
    (s.openBody p).bodySize = s.bodySize := by
  unfold bodySize openBody
  cases s.body with
  | none => simp [SparseFile.empty]
  | some i => simp

theorem bodySize_cutBody (id : ℕ) {w : SegmentWriter} (hb : s.body = some w.file) :
    (s.cutBody id w).bodySize
      = if 0 < (s.params id).total then (s.params id).total.toNat else s.bodySize := by
  unfold bodySize cutBody
  dsimp only
  rw [hb]
  split
  · simp [SparseFile.truncate]
  · rfl

theorem bodySize_le_writeBody (s : Slot) (id : ℕ) (w : SegmentWriter) (bs : Bytes) (n : ℕ) :
    s.bodySize ≤ (s.writeBody id w bs n).bodySize := by
  unfold bodySize writeBody
  cases s.body with
  | none => exact le_rfl
  | some i =>
    by_cases hi : i = w.file
    · subst hi
      simp only [Option.map_some, Option.getD_some, Function.update_self]
      exact SparseFile.size_le_write _ _ _
    · simp [Function.update_of_ne hi]

/-! ## One step -/

theorem WellFormed.of_entry_eq (h : s.WellFormed) (hentry : s'.entry = s.entry)
    (hsize : s.bodySize ≤ s'.bodySize) : s'.WellFormed := by
  intro m hm
  obtain ⟨hne, htot, hsz⟩ := h m (hentry ▸ hm)
  refine ⟨hne, htot, fun sp hsp => (hsz sp hsp).trans ?_⟩
  exact_mod_cast hsize

theorem WellFormed.nonempty (h : s.WellFormed) :
    ∀ sp ∈ spansOf s.entry, 0 ≤ sp.start ∧ sp.start < sp.stop := by
  cases hm : s.entry with
  | none => simp
  | some m => exact (h m hm).nonempty

theorem WellFormed.size (h : s.WellFormed) : ∀ sp ∈ spansOf s.entry, sp.stop ≤ s.bodySize := by
  cases hm : s.entry with
  | none => simp
  | some m => exact (h m hm).size

theorem WellFormed.cutBody_iff (h : s.WellFormed) {id : ℕ} {w : SegmentWriter}
    (hb : s.body = some w.file) :
    (s.cutBody id w).WellFormed ↔ (0 < (s.params id).total →
      ∀ sp ∈ spansOf s.entry, sp.stop ≤ (s.params id).total) := by
  have hsize := bodySize_cutBody id hb
  by_cases ht : 0 < (s.params id).total
  · rw [if_pos ht] at hsize
    constructor
    · intro h' _ sp hsp
      cases hm : s.entry with
      | none => simp [hm] at hsp
      | some m =>
        rw [hm] at hsp
        have := (h' m hm).size sp hsp
        rw [hsize] at this
        omega
    · intro hcut m hm
      obtain ⟨hne, htot, -⟩ := h m hm
      refine ⟨hne, htot, fun sp hsp => ?_⟩
      have := hcut ht sp (by rw [show s.entry = some m from hm]; exact hsp)
      rw [hsize]
      omega
  · rw [if_neg ht] at hsize
    refine ⟨fun _ ht' => absurd ht' ht, fun _ => h.of_entry_eq rfl hsize.ge⟩

theorem WellFormed.publish_iff (h : s.WellFormed) {p : SegmentParams} (hp : 0 ≤ p.start)
    {written : ℕ} {m : Meta}
    (hspans : m.spans = if 0 < written then mergeSpans (spansOf s.entry ++ [p.span written])
      else spansOf s.entry) (ws : ℕ → Option SegmentWriter) :
    ({ s with entry := some m, writers := ws } : Slot).WellFormed
      ↔ s.Fits m.total (p.start + written) written := by
  have hwf : ({ s with entry := some m, writers := ws } : Slot).WellFormed
      ↔ EntryWellFormed m s.bodySize :=
    ⟨fun h => h m rfl, fun h m' hm' => Option.some.inj hm' ▸ h⟩
  rw [hwf]
  by_cases hw : 0 < written
  · rw [if_pos hw] at hspans
    have hne : ∀ sp ∈ spansOf s.entry ++ [p.span written], 0 ≤ sp.start ∧ sp.start < sp.stop := by
      intro sp hsp
      rcases List.mem_append.mp hsp with hsp | hsp
      · exact h.nonempty sp hsp
      · obtain rfl := List.mem_singleton.mp hsp
        exact ⟨hp, by simp only [SegmentParams.span]; omega⟩
    -- a bound on the merged spans is one on the spans on record and the new one
    have hbound : ∀ hi : ℤ, (∀ sp ∈ m.spans, sp.stop ≤ hi)
        ↔ (∀ sp ∈ spansOf s.entry, sp.stop ≤ hi) ∧ p.start + written ≤ hi := by
      intro hi
      rw [hspans]
      constructor
      · intro hall
        have := stop_le_of_mergeSpans (fun sp hsp => (hne sp hsp).2) hall
        exact ⟨fun sp hsp => this sp (List.mem_append_left _ hsp),
          this (p.span written) (by simp)⟩
      · rintro ⟨hold, hnew⟩ sp hsp
        refine (@mergeSpans_bounds _ 0 hi (fun sp hsp => ?_) sp hsp).2.2
        refine ⟨(hne sp hsp).1, (hne sp hsp).2, ?_⟩
        rcases List.mem_append.mp hsp with hsp | hsp
        · exact hold sp hsp
        · obtain rfl := List.mem_singleton.mp hsp
          exact hnew
    constructor
    · rintro ⟨-, htot, hsz⟩
      exact ⟨fun t ht => ((hbound t).mp (htot t ht)).1,
        fun _ t ht => ((hbound t).mp (htot t ht)).2, fun _ => ((hbound _).mp hsz).2⟩
    · rintro ⟨hrec, htot, hsz⟩
      refine ⟨fun sp hsp => ?_, fun t ht => (hbound t).mpr ⟨hrec t ht, htot hw t ht⟩,
        (hbound _).mpr ⟨h.size, hsz hw⟩⟩
      rw [hspans] at hsp
      obtain ⟨a, ha, b, hb, h1, h2, h3⟩ := mem_mergeSpans hsp
      have hA := hne a ha
      have hB := hne b hb
      omega
  · rw [if_neg hw] at hspans
    constructor
    · rintro ⟨-, htot, -⟩
      exact ⟨fun t ht => hspans ▸ htot t ht, fun h => absurd h hw, fun h => absurd h hw⟩
    · rintro ⟨hrec, -, -⟩
      exact ⟨hspans ▸ h.nonempty, fun t ht => hspans ▸ hrec t ht, hspans ▸ h.size⟩

theorem WellFormed.step_iff {key : Bytes} {interval : ℤ} {e : Event} (h : s.WellFormed)
    (hsound : s.Sound) (hone : s.OneFile) (hseg : e.isSegment = true)
    (hs : s.step key interval e = some s') : s'.WellFormed ↔ s.Consistent e := by
  cases steps_of_step hs with
  | beginSegment hv =>
    exact iff_of_true (h.of_entry_eq rfl (by rw [bodySize_openBody])) trivial
  | cut hw hr =>
    rw [h.cutBody_iff (hone _ _ hw)]
    exact ⟨fun hc _ => hc, fun hc => hc (by rw [hw]; rfl)⟩
  | cutFails hw hr => exact iff_of_true (h.of_entry_eq rfl le_rfl) trivial
  | write hw hr hf hn hmax =>
    exact iff_of_true (h.of_entry_eq rfl (bodySize_le_writeBody _ _ _ _ _)) trivial
  | @checkpoint id w hw hr hpos =>
    have hspans := spans_checkpointMeta_of_pos (s.params id) s.entry
      (show 0 < w.written by omega)
    refine (h.publish_iff (hsound.start_nonneg id) hspans _).trans ?_
    rw [total_checkpointMeta]
    exact ⟨fun hf w' hw' => Option.some.inj (hw.symm.trans hw') ▸ hf, fun hf => hf w hw⟩
  | @commit id w hw hr =>
    refine (h.publish_iff (hsound.start_nonneg id) (spans_commitMeta _ _ _) _).trans ?_
    rw [total_commitMeta]
    exact ⟨fun hf w' hw' => Option.some.inj (hw.symm.trans hw') ▸ hf, fun hf => hf w hw⟩
  | abandon hw => exact iff_of_true (h.of_entry_eq rfl le_rfl) trivial
  | redirect | storeAlias | trimRead | trimWrite | purgeRead | remove => cases hseg

/-- **Segment writes have well-formed entries throughout exactly if each of
their steps is consistent with what is on record.** -/
theorem wellFormed_throughout_iff {key : Bytes} {interval : ℤ} {es : List Event} {s : Slot}
    (hseg : ∀ e ∈ es, e.isSegment = true)
    (hrun : Runs.run (step key interval) Slot.empty es = some s) :
    Runs.Throughout (step key interval) WellFormed Slot.empty es
      ↔ Runs.Meets (step key interval) Consistent Slot.empty es := by
  have hstep : ∀ (s : Slot) (e : Event) (s' : Slot), (s.Sound ∧ s.OneFile) → s.WellFormed →
      e.isSegment = true → s.step key interval e = some s' →
      (s'.Sound ∧ s'.OneFile) ∧ (s'.WellFormed ↔ s.Consistent e) :=
    fun s e s' haux h hseg hs => ⟨⟨haux.1.step hs, haux.2.step hseg hs⟩,
      h.step_iff haux.1 haux.2 hseg hs⟩
  have hwf : Slot.empty.WellFormed := by simp [WellFormed, Slot.empty]
  exact Runs.throughout_iff_meets hstep ⟨sound_empty, oneFile_empty⟩ hwf hseg hrun

def fetchInTwo : List Event :=
  [.beginSegment { status := 206, start := 0, length := 3, total := 5 }, .truncate 0 true,
    .write 0 (ascii "abc") 3, .commit 0,
    .beginSegment { status := 206, start := 3, length := 2, total := 5 }, .truncate 1 true,
    .write 1 (ascii "de") 2, .commit 1]

theorem wellFormed_throughout_two :
    (Runs.run (step [107] 0) Slot.empty fetchInTwo).isSome = true
      ∧ Runs.Throughout (step [107] 0) WellFormed Slot.empty fetchInTwo := by
  have hsome : (Runs.run (step [107] 0) Slot.empty fetchInTwo).isSome = true := by
    decide +kernel
  obtain ⟨s, hs⟩ := Option.isSome_iff_exists.mp hsome
  have hmeets : Runs.Meets (step [107] 0) Consistent Slot.empty fetchInTwo := by
    decide +kernel
  exact ⟨hsome, (wellFormed_throughout_iff (by decide) hs).mpr hmeets⟩

def fetchShrunk : List Event :=
  fetchInTwo ++ [.beginSegment { status := 200, start := 0, length := 3, total := 3 },
    .truncate 2 true, .write 2 (ascii "xyz") 3, .commit 2]

/-- **A smaller total leaves an entry that is not well formed.** -/
theorem shrunk_object_not_wellFormed :
    (∀ e ∈ fetchShrunk, e.isSegment = true)
      ∧ ∃ s, Runs.run (step [107] 0) Slot.empty fetchShrunk = some s
      ∧ spansOf s.entry = [⟨0, 5⟩] ∧ s.entry.bind Meta.total = some 3 ∧ s.bodySize = 3
      ∧ ¬ s.WellFormed := by
  have hend : ∃ s ∈ Runs.run (step [107] 0) Slot.empty fetchShrunk,
      spansOf s.entry = [⟨0, 5⟩] ∧ s.entry.bind Meta.total = some 3 ∧ s.bodySize = 3
        ∧ ¬ s.WellFormed := by decide +kernel
  exact ⟨by decide, hend⟩

end Slot

end Cache
