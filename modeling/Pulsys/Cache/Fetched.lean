import Pulsys.Cache.SlotSound

/-!
# A fetch from beginning to end

An undisturbed writer leaves its bytes in the body, but continues the record there is: an
alias stays an alias and a redirect a redirect. `Filling` says this about a fetch under way,
from any record that a history can lead to (`Meta.Tidy`).
-/

namespace Cache

open Bytes Parties

/-! ## What every record has -/

structure Meta.Tidy (m : Meta) : Prop where
  spans : ∀ sp ∈ m.spans, sp.start < sp.stop
  total : ∀ t, m.total = some t → 0 < t

theorem nonempty_mergeSpans {spans : List Span} (h : ∀ sp ∈ spans, sp.start < sp.stop) :
    ∀ sp ∈ mergeSpans spans, sp.start < sp.stop := by
  intro sp hsp
  obtain ⟨a, ha, b, hb, h1, h2, h3⟩ := mem_mergeSpans hsp
  have := h b hb
  omega

theorem SegmentParams.nonempty_merge (p : SegmentParams) {written : ℕ} (hpos : 0 < written)
    {spans : List Span} (h : ∀ sp ∈ spans, sp.start < sp.stop) :
    ∀ sp ∈ mergeSpans (spans ++ [p.span written]), sp.start < sp.stop := by
  refine nonempty_mergeSpans (fun sp hsp => ?_)
  rcases List.mem_append.mp hsp with hsp | hsp
  · exact h sp hsp
  · obtain rfl := List.mem_singleton.mp hsp
    show p.start < p.start + written
    omega

variable {old : Option Meta}

theorem tidy_spansOf (h : ∀ m, old = some m → m.Tidy) : ∀ sp ∈ spansOf old, sp.start < sp.stop := by
  cases old with
  | none => simp
  | some m => exact (h m rfl).spans

theorem tidy_total (h : ∀ m, old = some m → m.Tidy) {t : ℤ} (ht : old.bind Meta.total = some t) :
    0 < t := by
  cases old with
  | none => cases ht
  | some m => exact (h m rfl).total t ht

theorem tidy_checkpointMeta (p : SegmentParams) {written : ℕ} (hpos : 0 < written)
    (h : ∀ m, old = some m → m.Tidy) : (p.checkpointMeta written old).Tidy := by
  refine ⟨?_, fun t ht => ?_⟩
  · rw [spans_checkpointMeta]
    exact p.nonempty_merge hpos (tidy_spansOf h)
  · rw [total_checkpointMeta] at ht
    split at ht
    · next hp =>
      cases ht
      exact hp
    · exact tidy_total h ht

theorem tidy_commitMeta (p : SegmentParams) (written : ℕ) (h : ∀ m, old = some m → m.Tidy) :
    (p.commitMeta written old).Tidy := by
  refine ⟨?_, fun t ht => ?_⟩
  · rw [spans_commitMeta]
    split
    · next hpos => exact p.nonempty_merge hpos (tidy_spansOf h)
    · exact tidy_spansOf h
  · rw [total_commitMeta, SegmentParams.commitTotal] at ht
    split at ht
    · next hp =>
      cases ht
      exact hp
    split at ht
    · next hw =>
      cases ht
      exact_mod_cast hw.2.2.2
    · exact tidy_total h ht

theorem tidy_redirectMeta (r : Redirect) (h : ∀ m, old = some m → m.Tidy) :
    (redirectMeta r old).Tidy := by
  cases old with
  | none => exact ⟨by simp [redirectMeta], by simp [redirectMeta]⟩
  | some m => exact ⟨(h m rfl).spans, (h m rfl).total⟩

theorem tidy_aliasMeta {a : Alias} {m : Meta} (h : aliasMeta a old = some m) : m.Tidy := by
  obtain rfl : m = a.newMeta := by
    unfold aliasMeta at h
    split at h
    · exact (Option.some.inj h).symm
    · split at h
      · cases h
      · exact (Option.some.inj h).symm
  exact ⟨by simp [Alias.newMeta], by simp [Alias.newMeta]⟩

namespace Slot

structure TidyRecords (s : Slot) : Prop where
  entry : ∀ m, s.entry = some m → m.Tidy
  trim : ∀ t tr, s.trims t = some tr → tr.entry.Tidy

theorem tidyRecords_empty : Slot.empty.TidyRecords :=
  ⟨by simp [Slot.empty], by simp [Slot.empty]⟩

theorem TidyRecords.step {key : Bytes} {interval : ℤ} {s s' : Slot} {e : Event}
    (h : s.TidyRecords) (hs : s.step key interval e = some s') : s'.TidyRecords := by
  cases steps_of_step hs with
  | beginSegment | cut | cutFails | write | abandon | purgeRead => exact ⟨h.entry, h.trim⟩
  | checkpoint hw hr hpos =>
    refine ⟨?_, h.trim⟩
    rintro m ⟨rfl⟩
    exact tidy_checkpointMeta _ (by omega) h.entry
  | commit hw hr =>
    refine ⟨?_, h.trim⟩
    rintro m ⟨rfl⟩
    exact tidy_commitMeta _ _ h.entry
  | redirect hv =>
    refine ⟨?_, h.trim⟩
    rintro m ⟨rfl⟩
    exact tidy_redirectMeta _ h.entry
  | storeAlias hne =>
    refine ⟨fun m hm => ?_, h.trim⟩
    rcases Option.or_eq_some_iff.mp hm with hm | ⟨-, hm⟩
    · exact tidy_aliasMeta hm
    · exact h.entry m hm
  | trimRead hm =>
    refine ⟨h.entry, fun t tr ht => ?_⟩
    rcases update_eq_some ht with ⟨-, heq⟩ | ⟨-, hold⟩
    · cases heq
      exact h.entry _ hm
    · exact h.trim t tr hold
  | trimWrite ht =>
    refine ⟨?_, fun t' tr' ht' => ?_⟩
    · rintro m ⟨rfl⟩
      exact ⟨(h.trim _ _ ht).spans, (h.trim _ _ ht).total⟩
    · rcases update_eq_some ht' with ⟨-, heq⟩ | ⟨-, hold⟩
      · cases heq
      · exact h.trim t' tr' hold
  | remove hr => exact ⟨by simp, h.trim⟩

theorem tidyRecords_of_run {key : Bytes} {interval : ℤ} {s : Slot} {es : List Event}
    (hrun : Runs.run (step key interval) .empty es = some s) : s.TidyRecords :=
  Runs.invariant_of_step (fun _ _ _ h hs => h.step hs) tidyRecords_empty hrun

end Slot

/-! ## What a writer leaves as it was -/

def Leads (old : Option Meta) : Prop :=
  ∃ m, old = some m ∧ isCacheableRedirectStatus m.statusCode = true ∧ m.location ≠ []

theorem leads_some (m : Meta) :
    Leads (some m) ↔ isCacheableRedirectStatus m.statusCode = true ∧ m.location ≠ [] := by
  simp [Leads]

theorem leads_checkpointMeta (p : SegmentParams) (written : ℕ) (old : Option Meta) :
    Leads (some (p.checkpointMeta written old)) ↔ Leads old := by
  cases old with
  | none => simp [Leads, location_checkpointMeta]
  | some m => exact (leads_some _).trans (leads_some m).symm

theorem leads_commitMeta {p : SegmentParams}
    (hstatus : isCacheableRedirectStatus p.status = false) (written : ℕ) (old : Option Meta) :
    Leads (some (p.commitMeta written old)) ↔ Leads old := by
  cases old with
  | none => simp [Leads, location_commitMeta]
  | some m =>
    rw [leads_some, leads_some, location_commitMeta]
    show _ ∧ m.location ≠ [] ↔ _
    by_cases hm : isCacheableRedirectStatus m.statusCode = true
    · rw [statusCode_commitMeta p written m hm]
    · -- the status is the writer's or the old one, and neither is a redirect's
      have hnew : (p.commitMeta written (some m)).statusCode = p.status
          ∨ (p.commitMeta written (some m)).statusCode = m.statusCode :=
        ite_eq_or_eq _ _ _
      have hno : isCacheableRedirectStatus (p.commitMeta written (some m)).statusCode
          ≠ true := by
        rcases hnew with heq | heq
        · rw [heq, hstatus]
          decide
        · rwa [heq]
      exact ⟨fun h => absurd h.1 hno, fun h => absurd h.1 hm⟩

theorem not_redirect_of_valid {key : Bytes} {p : SegmentParams}
    (h : validateSegmentParams key p = true) : isCacheableRedirectStatus p.status = false := by
  unfold validateSegmentParams at h
  simp only [Bool.and_eq_true, Bool.or_eq_true, beq_iff_eq] at h
  rcases h.2 with h | h <;> rw [h] <;> rfl

def aliasOf (old : Option Meta) : Bytes := (old.map Meta.aliasOf).getD []

/-! ## The fetch -/

def Event.bytes : Event → Bytes
  | .write _ bs _ => bs
  | _ => []

def deliveredBy (es : List Event) : Bytes := es.flatMap Event.bytes

def Event.IsOwn (id : ℕ) : Event → Prop
  | .write i bs n => i = id ∧ n = bs.length
  | .checkpoint i => i = id
  | _ => False

def fetch (id : ℕ) (p : SegmentParams) (es : List Event) : List Event :=
  .beginSegment p :: .truncate id true :: (es ++ [.commit id])

namespace Slot

structure Filling (s₀ : Slot) (id : ℕ) (p : SegmentParams) (data : Bytes) (s : Slot) :
    Prop where
  params : s.params id = p
  writer : ∃ w, s.writers id = some w ∧ w.ready = true ∧ w.written = data.length
    ∧ s.body = some w.file
  fits : (data.length : ℤ) ≤ maxOffset
  cells : ∀ o < data.length, (s.cell o).map Prod.snd = data[o]?
  aliasOf : aliasOf s.entry = aliasOf s₀.entry
  leads : Leads s.entry ↔ Leads s₀.entry
  total : p.total ≤ 0 → s.entry.bind Meta.total = s₀.entry.bind Meta.total

variable {data key : Bytes} {interval : ℤ} {s s₀ : Slot} {p : SegmentParams} {id : ℕ}

theorem filling_of_begin {s₁ s₂ : Slot} (h₁ : s₀.step key interval (.beginSegment p) = some s₁)
    (h₂ : s₁.step key interval (.truncate s₀.nextResponse true) = some s₂) :
    Filling s₀ s₀.nextResponse p [] s₂ := by
  cases steps_of_step h₁
  cases steps_of_step h₂ with
  | @cut _ w hw hr =>
    obtain rfl : ({ file := s₀.body.getD s₀.nextFile } : SegmentWriter) = w := by
      simpa [openBody] using hw
    refine ⟨?_, ⟨_, Function.update_self _ _ _, rfl, rfl, rfl⟩, by decide, by simp, rfl,
      Iff.rfl, fun _ => rfl⟩
    simp [cutBody, openBody, Slot.params]

theorem Filling.write {bs : Bytes} {w : SegmentWriter} (h : Filling s₀ id p data s)
    (hstart : p.start = 0) (hw : s.writers id = some w)
    (hmax : (s.params id).start + w.written + bs.length ≤ maxOffset) :
    Filling s₀ id p (data ++ bs) (s.writeBody id w bs bs.length) := by
  obtain ⟨w', hw', hr, hwritten, hb⟩ := h.writer
  obtain rfl : w = w' := Option.some.inj (hw.symm.trans hw')
  have hzero : (s.params id).start = 0 := by rw [h.params, hstart]
  refine ⟨?_, ⟨_, Function.update_self _ _ _, hr, ?_, hb⟩, ?_, fun o ho => ?_, h.aliasOf,
    h.leads, h.total⟩
  · rw [params_writeBody, h.params]
  · rw [List.length_append, ← hwritten]
  · rw [List.length_append]
    push_cast
    omega
  · by_cases hold : o < data.length
    · rw [cell_writeBody_of_notMem (by omega), h.cells o hold,
        List.getElem?_append_left hold]
    · -- the byte is one of those just written
      rw [List.length_append] at ho
      have hk : o - data.length < bs.length := by omega
      have hcell := @cell_writeBody_of_mem s id w bs bs.length (o - data.length) hb le_rfl hk
      rw [show (s.params id).start.toNat + w.written + (o - data.length) = o by omega] at hcell
      rw [hcell, List.getElem?_append_right (by omega), List.getElem?_eq_getElem hk]
      rfl

theorem Filling.checkpoint {w : SegmentWriter} (h : Filling s₀ id p data s)
    (hw : s.writers id = some w) :
    Filling s₀ id p data { s with
      entry := some ((s.params id).checkpointMeta w.written s.entry)
      writers := Function.update s.writers id (some { w with lastCheckpoint := w.written }) } := by
  obtain ⟨w', hw', hr, hwritten, hb⟩ := h.writer
  obtain rfl : w = w' := Option.some.inj (hw.symm.trans hw')
  refine ⟨h.params, ⟨_, Function.update_self _ _ _, hr, hwritten, hb⟩, h.fits, h.cells, ?_, ?_,
    fun hp => ?_⟩
  · exact (aliasOf_checkpointMeta _ _ _).trans h.aliasOf
  · exact (leads_checkpointMeta _ _ _).trans h.leads
  · show ((s.params id).checkpointMeta w.written s.entry).total = _
    rw [total_checkpointMeta, h.params, if_neg (by omega), h.total hp]

theorem Filling.step {s' : Slot} {e : Event} (h : Filling s₀ id p data s) (hstart : p.start = 0)
    (hown : e.IsOwn id) (hs : s.step key interval e = some s') :
    Filling s₀ id p (data ++ e.bytes) s' := by
  cases steps_of_step hs with
  | @write i w bs n hw hr hf hn hmax =>
    obtain ⟨rfl, rfl⟩ := hown
    exact h.write hstart hw hmax
  | @checkpoint i w hw hr hpos =>
    obtain rfl : i = id := hown
    show Filling _ _ _ (data ++ []) _
    rw [List.append_nil]
    exact h.checkpoint hw
  | _ => cases hown

theorem Filling.run {s' : Slot} {es : List Event} (h : Filling s₀ id p data s)
    (hstart : p.start = 0) (hown : ∀ e ∈ es, e.IsOwn id)
    (hrun : Runs.run (Slot.step key interval) s es = some s') :
    Filling s₀ id p (data ++ deliveredBy es) s' := by
  induction es generalizing s data with
  | nil =>
    cases hrun
    simpa [deliveredBy] using h
  | cons e es ih =>
    obtain ⟨s₁, hs, hrest⟩ := Runs.run_cons.mp hrun
    have hnext := h.step hstart (hown e List.mem_cons_self) hs
    have := ih hnext (fun e' he' => hown e' (List.mem_cons_of_mem _ he')) hrest
    rwa [List.append_assoc] at this

theorem exists_of_fetch {es : List Event} (hstart : p.start = 0)
    (hown : ∀ e ∈ es, e.IsOwn s₀.nextResponse)
    (hrun : Runs.run (Slot.step key interval) s₀ (fetch s₀.nextResponse p es) = some s) :
    validateSegmentParams key p = true
      ∧ ∃ s₁, Filling s₀ s₀.nextResponse p (deliveredBy es) s₁
        ∧ s.entry = some (p.commitMeta (deliveredBy es).length s₁.entry)
        ∧ s.body.isSome = true ∧ s.cell = s₁.cell := by
  obtain ⟨s₁, h₁, hrun⟩ := Runs.run_cons.mp hrun
  obtain ⟨s₂, h₂, hrun⟩ := Runs.run_cons.mp hrun
  obtain ⟨s₃, h₃, hrun⟩ := Runs.run_append.mp hrun
  obtain ⟨s₄, h₄, hrun⟩ := Runs.run_cons.mp hrun
  cases hrun
  have hfill : Filling s₀ s₀.nextResponse p (deliveredBy es) s₃ :=
    (filling_of_begin h₁ h₂).run hstart hown h₃
  have hvalid : validateSegmentParams key p = true := by
    cases steps_of_step h₁ with
    | beginSegment hv => exact hv
  refine ⟨hvalid, s₃, hfill, ?_⟩
  obtain ⟨w, hw, -, hwritten, hb⟩ := hfill.writer
  cases steps_of_step h₄ with
  | commit hw' hr =>
    cases hw.symm.trans hw'
    refine ⟨?_, ?_, rfl⟩
    · rw [← hwritten, hfill.params]
    · show s₃.body.isSome = true
      rw [hb]
      rfl

end Slot

end Cache
