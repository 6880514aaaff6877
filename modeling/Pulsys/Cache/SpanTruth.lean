import Pulsys.Cache.SlotSound

/-!
# Whether the spans tell the truth

Every listed offset must be in the body. A publication may describe a file that a purge has
removed, and a response that announces a total cuts the body to it. `Careful` excludes
both, and `Kept` is what holds then.
-/

namespace Cache

open Bytes Parties

namespace Slot

def Present (s : Slot) (o : ℤ) : Prop := 0 ≤ o ∧ (s.cell o.toNat).isSome

def Holds (s : Slot) (o : ℤ) : Prop :=
  0 ≤ o ∧ ∃ id b, s.cell o.toNat = some (id, b) ∧ (s.params id).start ≤ o
    ∧ (s.responses id).delivered[(o - (s.params id).start).toNat]? = some b

def SpanTruth (s : Slot) : Prop := ∀ m, s.entry = some m → ∀ o, Covered m.spans o → s.Holds o

variable {s : Slot} {id : ℕ} {w : SegmentWriter}

theorem Sound.holds (h : s.Sound) {o : ℤ} (ho : s.Present o) : s.Holds o := by
  obtain ⟨hnonneg, hsome⟩ := ho
  obtain ⟨⟨id, b⟩, hcell⟩ := Option.isSome_iff_exists.mp hsome
  obtain ⟨i, -, hget⟩ := Option.bind_eq_some_iff.mp hcell
  obtain ⟨-, hle, hdel⟩ := h.honest i _ id b hget
  have hstart := h.start_nonneg id
  refine ⟨hnonneg, id, b, hcell, by omega, ?_⟩
  rwa [show (o - (s.params id).start).toNat = o.toNat - (s.params id).start.toNat by omega]

/-! ## The condition -/

structure CutLosesNothing (s : Slot) (i : ℕ) (n : ℤ) : Prop where
  entry : s.body = some i → ∀ sp ∈ spansOf s.entry, sp.stop ≤ n
  trim : s.body = some i → ∀ t tr, s.trims t = some tr → tr.file = some i →
    ∀ sp ∈ tr.entry.spans, sp.stop ≤ n
  writer : s.body = some i → ∀ id w, s.writers id = some w → w.file = i →
    w.written = 0 ∨ (s.params id).start + w.written ≤ n

def Careful (s : Slot) : Event → Prop
  | .truncate id true => ∀ w, s.writers id = some w → 0 < (s.params id).total →
      s.CutLosesNothing w.file (s.params id).total
  | .checkpoint id => ∀ w, s.writers id = some w → w.written = 0 ∨ s.body = some w.file
  | .commit id => ∀ w, s.writers id = some w → w.written = 0 ∨ s.body = some w.file
  | .trimWrite t _ _ => ∀ tr, s.trims t = some tr →
      tr.entry.spans = [] ∨ (s.body.isSome ∧ tr.file = s.body)
  | _ => True

structure Kept (s : Slot) : Prop where
  entry : ∀ o, Covered (spansOf s.entry) o → s.Present o
  trim : ∀ t tr i, s.trims t = some tr → tr.file = some i → s.body = some i →
    ∀ o, Covered tr.entry.spans o → s.Present o
  writer : ∀ id w, s.writers id = some w → s.body = some w.file →
    ∀ k < w.written, (s.cell ((s.params id).start.toNat + k)).isSome

theorem kept_empty : Slot.empty.Kept where
  entry := by simp [Slot.empty, Covered]
  trim := by simp [Slot.empty]
  writer := by simp [Slot.empty]

theorem Kept.openBody (h : s.Kept) (hs : s.Sound) (p : SegmentParams) : (s.openBody p).Kept := by
  have hpresent : ∀ o, (s.openBody p).Present o ↔ s.Present o := by
    intro o
    unfold Present
    rw [cell_openBody]
  -- a file that is in use is the body after the step only if it was before
  have hbody : ∀ i, i < s.nextFile → (s.openBody p).body = some i → s.body = some i := by
    intro i hi hb
    have hb' : s.body.getD s.nextFile = i := Option.some.inj hb
    cases hbody : s.body with
    | none =>
      rw [hbody, Option.getD_none] at hb'
      omega
    | some j =>
      rw [hbody, Option.getD_some] at hb'
      rw [hb']
  refine ⟨?_, ?_, ?_⟩
  · exact fun o ho => (hpresent o).mpr (h.entry o ho)
  · intro t tr i ht hi hb o ho
    exact (hpresent o).mpr (h.trim t tr i ht hi (hbody i (hs.trim_lt t tr i ht hi) hb) o ho)
  · intro id w hw hb k hk
    rcases update_eq_some hw with ⟨rfl, heq⟩ | ⟨-, hold⟩
    · cases heq
      exact absurd hk (Nat.not_lt_zero k)
    · obtain ⟨hf, hid, -, -⟩ := hs.writer id w hold
      have := h.writer id w hold (hbody _ hf hb) k hk
      unfold params at this ⊢
      rwa [responses_openBody hid, cell_openBody]

theorem Kept.cutBody (h : s.Kept) (hs : s.Sound) (hw : s.writers id = some w)
    (hcut : 0 < (s.params id).total → s.CutLosesNothing w.file (s.params id).total) :
    (s.cutBody id w).Kept := by
  -- an offset below the cut is not touched, whatever the file
  have hcell : ∀ o : ℕ, (s.body = some w.file → 0 < (s.params id).total →
      (o : ℤ) < (s.params id).total) → (s.cell o).isSome → ((s.cutBody id w).cell o).isSome := by
    intro o hlt hsome
    rw [cell_cutBody, if_neg]
    · exact hsome
    · rintro ⟨ht, hb, hle⟩
      have := hlt hb ht
      omega
  have hpresent : ∀ o : ℤ, (s.body = some w.file → 0 < (s.params id).total →
      o < (s.params id).total) → s.Present o → (s.cutBody id w).Present o := by
    rintro o hlt ⟨hnonneg, hsome⟩
    refine ⟨hnonneg, hcell _ (fun hb ht => ?_) hsome⟩
    have := hlt hb ht
    omega
  refine ⟨?_, ?_, ?_⟩
  · intro o ho
    refine hpresent o (fun hb ht => ?_) (h.entry o ho)
    obtain ⟨sp, hsp, hhas⟩ := ho
    exact lt_of_lt_of_le hhas.2 ((hcut ht).entry hb sp hsp)
  · intro t tr i ht' hi hb o ho
    refine hpresent o (fun hb' ht => ?_) (h.trim t tr i ht' hi hb o ho)
    obtain ⟨sp, hsp, hhas⟩ := ho
    have hfile : tr.file = some w.file := by rw [hi, ← hb']; exact hb.symm
    exact lt_of_lt_of_le hhas.2 ((hcut ht).trim hb' t tr ht' hfile sp hsp)
  · intro id' w' hw' hb k hk
    have hold : ∃ v, s.writers id' = some v ∧ v.file = w'.file ∧ v.written = w'.written := by
      rcases update_eq_some hw' with ⟨rfl, heq⟩ | ⟨-, hold⟩
      · cases heq
        exact ⟨w, hw, rfl, rfl⟩
      · exact ⟨w', hold, rfl, rfl⟩
    obtain ⟨v, hv, hfile, hwritten⟩ := hold
    have hbv : s.body = some v.file := by rw [hfile]; exact hb
    refine hcell _ (fun hb' ht => ?_) (h.writer id' v hv hbv k (hwritten ▸ hk))
    have hsame : v.file = w.file := Option.some.inj (hbv.symm.trans hb')
    rcases (hcut ht).writer hb' id' v hv hsame with h0 | hle
    · omega
    · have := hs.start_nonneg id'
      show (((s.params id').start.toNat + k : ℕ) : ℤ) < _
      omega

theorem Kept.writeBody (h : s.Kept) {bs : Bytes} {n : ℕ} (hw : s.writers id = some w)
    (hn : n ≤ bs.length) : (s.writeBody id w bs n).Kept := by
  have hpresent : ∀ o, s.Present o → (s.writeBody id w bs n).Present o :=
    fun o ho => ⟨ho.1, isSome_cell_writeBody ho.2⟩
  refine ⟨fun o ho => hpresent o (h.entry o ho),
    fun t tr i ht hi hb o ho => hpresent o (h.trim t tr i ht hi hb o ho), ?_⟩
  intro id' w' hw' hb k hk
  rw [params_writeBody]
  rcases update_eq_some hw' with ⟨rfl, heq⟩ | ⟨-, hold⟩
  · cases heq
    by_cases hlt : k < w.written
    · exact isSome_cell_writeBody (h.writer _ w hw hb k hlt)
    · have hk' : k < w.written + n := hk
      have hb' : s.body = some w.file := hb
      have hnew := @cell_writeBody_of_mem s id' w bs n (k - w.written) hb' hn (by omega)
      rw [show (s.params id').start.toNat + w.written + (k - w.written)
        = (s.params id').start.toNat + k by omega] at hnew
      rw [hnew]
      rfl
  · exact isSome_cell_writeBody (h.writer id' w' hold hb k hk)

theorem Kept.present_of_span (h : s.Kept) (hs : s.Sound) (hw : s.writers id = some w)
    (hcare : w.written = 0 ∨ s.body = some w.file) {o : ℤ}
    (ho : ((s.params id).span w.written).Has o) : s.Present o := by
  obtain ⟨hlo, hhi⟩ := ho
  have hlo' : (s.params id).start ≤ o := hlo
  have hhi' : o < (s.params id).start + w.written := hhi
  have hstart := hs.start_nonneg id
  rcases hcare with h0 | hb
  · omega
  · have := h.writer id w hw hb (o - (s.params id).start).toNat (by omega)
    refine ⟨by omega, ?_⟩
    rwa [show o.toNat = (s.params id).start.toNat + (o - (s.params id).start).toNat by omega]

theorem Kept.publish (h : s.Kept) (hs : s.Sound) (hw : s.writers id = some w)
    (hcare : w.written = 0 ∨ s.body = some w.file) {m : Meta}
    (hm : ∀ o, Covered m.spans o →
      Covered (spansOf s.entry) o ∨ ((s.params id).span w.written).Has o)
    {v : Option SegmentWriter}
    (hv : ∀ w', v = some w' → w'.file = w.file ∧ w'.written = w.written) :
    ({ s with entry := some m, writers := Function.update s.writers id v } : Slot).Kept := by
  refine ⟨fun o ho => ?_, h.trim, ?_⟩
  · rcases hm o ho with ho | ho
    · exact h.entry o ho
    · exact h.present_of_span hs hw hcare ho
  · intro id' w' hw' hb k hk
    rcases update_eq_some hw' with ⟨rfl, heq⟩ | ⟨-, hold⟩
    · obtain ⟨hfile, hwritten⟩ := hv w' heq
      exact h.writer _ w hw (by rw [← hfile]; exact hb) k (hwritten ▸ hk)
    · exact h.writer id' w' hold hb k hk

theorem Kept.closeWriter (h : s.Kept) (id : ℕ) :
    ({ s with writers := Function.update s.writers id none } : Slot).Kept := by
  refine ⟨h.entry, h.trim, ?_⟩
  intro id' w' hw' hb k hk
  rcases update_eq_some hw' with ⟨-, heq⟩ | ⟨-, hold⟩
  · cases heq
  · exact h.writer id' w' hold hb k hk

theorem Kept.replaceEntry (h : s.Kept) {entry : Option Meta}
    (hsub : ∀ o, Covered (spansOf entry) o → s.Present o) :
    ({ s with entry := entry } : Slot).Kept :=
  ⟨hsub, h.trim, h.writer⟩

theorem Kept.step {key : Bytes} {interval : ℤ} {s' : Slot} {e : Event} (h : s.Kept) (hs : s.Sound)
    (hcare : s.Careful e) (hstep : s.step key interval e = some s') : s'.Kept := by
  cases steps_of_step hstep with
  | beginSegment hv => exact h.openBody hs _
  | cut hw hr => exact h.cutBody hs hw (hcare _ hw)
  | cutFails hw hr => exact h.closeWriter _
  | write hw hr hf hn hmax => exact h.writeBody hw hn
  | checkpoint hw hr hpos =>
    refine h.publish hs hw (hcare _ hw) (fun o ho => (covered_checkpointMeta _ _ _ o).mp ho) ?_
    rintro w' ⟨rfl⟩
    exact ⟨rfl, rfl⟩
  | commit hw hr =>
    refine h.publish hs hw (hcare _ hw) (fun o ho => (covered_commitMeta _ _ _ o).mp ho) ?_
    rintro w' ⟨⟩
  | abandon hw => exact h.closeWriter _
  | redirect hv =>
    refine h.replaceEntry (fun o ho => h.entry o ?_)
    rwa [spansOf_some, spans_redirectMeta] at ho
  | @storeAlias a hne =>
    refine h.replaceEntry (fun o ho => h.entry o ?_)
    cases ha : aliasMeta a s.entry with
    | none => rwa [ha] at ho
    | some m =>
      rw [ha, Option.some_or, spansOf_some, eq_newMeta_of_aliasMeta ha] at ho
      exact absurd ho (by simp [Covered, Alias.newMeta])
  | trimRead hm =>
    refine ⟨h.entry, ?_, h.writer⟩
    intro t tr i ht hi hb o ho
    rcases update_eq_some ht with ⟨rfl, heq⟩ | ⟨-, hold⟩
    · cases heq
      refine h.entry o ?_
      rw [hm]
      exact ho
    · exact h.trim t tr i hold hi hb o ho
  | trimWrite ht =>
    refine ⟨fun o ho => ?_, ?_, h.writer⟩
    · rcases hcare _ ht with hnil | ⟨hsome, hfile⟩
      · exact absurd ho (by simp [hnil, Covered])
      · obtain ⟨i, hi⟩ := Option.isSome_iff_exists.mp hsome
        exact h.trim _ _ i ht (hfile.trans hi) hi o ho
    · intro t' tr' i ht' hi hb o ho
      rcases update_eq_some ht' with ⟨-, heq⟩ | ⟨-, hold⟩
      · cases heq
      · exact h.trim t' tr' i hold hi hb o ho
  | purgeRead hm => exact ⟨h.entry, h.trim, h.writer⟩
  | remove hr =>
    refine ⟨fun o ho => ?_, fun t tr i ht hi hb => ?_, fun id w hw hb => ?_⟩
    · exact absurd ho (by simp [Covered])
    · cases hb
    · cases hb

/-- **Spans tell the truth in every run of careful steps**, whatever the order
of the steps. -/
theorem spanTruth_of_careful {key : Bytes} {interval : ℤ} {es : List Event} {s : Slot}
    (hcare : Runs.Meets (step key interval) Careful Slot.empty es)
    (hrun : Runs.run (step key interval) Slot.empty es = some s) : s.SpanTruth := by
  have hinv : s.Sound ∧ s.Kept :=
    @Runs.invariant _ _ _ _ (fun s => s.Sound ∧ s.Kept)
      (fun _ _ _ h hc hs => ⟨h.1.step hs, h.2.step h.1 hc hs⟩) _ _ _
      ⟨sound_empty, kept_empty⟩ hcare hrun
  intro m hm o ho
  refine hinv.1.holds (hinv.2.entry o ?_)
  rwa [hm, spansOf_some]

def wholeOfThree : SegmentParams := { status := 200, start := 0, length := 3, total := 3 }

def fetchThree : List Event :=
  [.beginSegment wholeOfThree, .truncate 0 true, .write 0 (ascii "abc") 3, .commit 0]

theorem spanTruth_of_careful_three :
    ∃ s, Runs.run (step [107] 0) Slot.empty fetchThree = some s
      ∧ spansOf s.entry = [⟨0, 3⟩] ∧ s.SpanTruth := by
  obtain ⟨s, hs, hspans⟩ : ∃ s ∈ Runs.run (step [107] 0) Slot.empty fetchThree,
      spansOf s.entry = [⟨0, 3⟩] := by decide +kernel
  have hcare : Runs.Meets (step [107] 0) Careful Slot.empty fetchThree := by
    refine ⟨trivial, fun s₁ h₁ => ⟨?_, fun s₂ h₂ => ⟨trivial, fun s₃ h₃ => ⟨?_, fun _ _ =>
      trivial⟩⟩⟩⟩
    · obtain rfl : Slot.empty.openBody wholeOfThree = s₁ := Option.some.inj h₁
      intro w hw _
      refine ⟨fun _ sp hsp => absurd hsp (by simp [Slot.empty, openBody]),
        fun _ t tr ht => absurd ht (by simp [Slot.empty, openBody]),
        fun _ id' w' hw' _ => .inl ?_⟩
      rcases update_eq_some hw' with ⟨-, heq⟩ | ⟨-, hold⟩
      · cases heq
        rfl
      · cases hold
    · obtain rfl : Slot.empty.openBody wholeOfThree = s₁ := Option.some.inj h₁
      cases h₂
      cases h₃
      intro w hw
      cases hw
      exact .inr rfl
  exact ⟨s, hs, hspans, spanTruth_of_careful hcare hs⟩

def purgeUnderWriter : List Event :=
  fetchThree ++ [.beginSegment { status := 206, start := 3, length := 2, total := -1 },
    .truncate 1 true, .write 1 (ascii "de") 2, .purgeRead, .remove, .commit 1]

/-- **A purge under an open writer leaves spans that describe nothing.** -/
theorem purge_under_writer_breaks_spans :
    ∃ s, Runs.run (step [107] 0) Slot.empty purgeUnderWriter = some s ∧ ¬ s.SpanTruth := by
  obtain ⟨s, hs, hbody, hentry⟩ : ∃ s ∈ Runs.run (step [107] 0) Slot.empty purgeUnderWriter,
      s.body = none ∧ s.entry.map Meta.spans = some [⟨3, 5⟩] := by decide +kernel
  obtain ⟨m, hm, hspans⟩ := Option.map_eq_some_iff.mp hentry
  refine ⟨s, hs, fun h => ?_⟩
  obtain ⟨-, id, b, hcell, -⟩ := h m hm 3 ⟨⟨3, 5⟩, by simp [hspans], by decide, by decide⟩
  rw [cell, hbody] at hcell
  cases hcell

end Slot

end Cache
