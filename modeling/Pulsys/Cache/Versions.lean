import Pulsys.Cache.WellFormed

/-!
# Whether the body is of one version

A body is filled by many responses, each of which names its version by an entity tag; the
entry has room for one. No step compares tags, and `SameVersion` is what has to be asked of
a step, exactly.

What is read of an entry is the copy in memory, or what is decoded from the file (`Loads`). The
two have one tag if the tags of all responses are in UTF-8 (`TagsReadable`).
-/

namespace Cache

open Bytes Parties

namespace Slot

def From (s : Slot) (tag : Bytes) (o : ℤ) : Prop :=
  0 ≤ o ∧ ∃ id b, s.cell o.toNat = some (id, b) ∧ (s.params id).eTag = tag

def Loads (s : Slot) (copy : Option Meta) : Prop :=
  copy = s.entry ∨ copy = s.entry.map Meta.reread

def OneVersion (s : Slot) : Prop :=
  ∀ m, s.entry = some m → ∀ o, Covered m.spans o → s.From m.eTag o

def SameVersion (s : Slot) : Event → Prop
  | .truncate id true => (s.writers id).isSome → 0 < (s.params id).total →
      ∀ o, Covered (spansOf s.entry) o → o < (s.params id).total
  | .write id _ n => ∀ w, s.writers id = some w → ∀ m, s.entry = some m →
      ∀ o, (s.params id).start + w.written ≤ o → o < (s.params id).start + w.written + n →
        Covered m.spans o → (s.params id).eTag = m.eTag
  | .checkpoint id => ∀ w, s.writers id = some w → ∀ o, ((s.params id).span w.written).Has o →
      s.From ((s.entry.map Meta.eTag).getD (s.params id).eTag) o
  | .commit id => ∀ w, s.writers id = some w →
      (∀ m, s.entry = some m → ∀ o, Covered m.spans o →
        (s.params id).eTag = [] ∨ (s.params id).eTag = m.eTag)
      ∧ ∀ o, ((s.params id).span w.written).Has o →
        s.From (if (s.params id).eTag = [] then (s.entry.map Meta.eTag).getD []
          else (s.params id).eTag) o
  | _ => True

instance (s : Slot) (tag : Bytes) (o : ℤ) : Decidable (s.From tag o) :=
  decidable_of_iff (0 ≤ o ∧ ∃ c ∈ s.cell o.toNat, (s.params c.1).eTag = tag)
    (and_congr_right (fun _ => ⟨fun ⟨⟨id, b⟩, hc, ht⟩ => ⟨id, b, hc, ht⟩,
      fun ⟨id, b, hc, ht⟩ => ⟨(id, b), hc, ht⟩⟩))

instance (s : Slot) : (e : Event) → Decidable (s.SameVersion e)
  | .truncate id true => inferInstanceAs (Decidable ((s.writers id).isSome →
      0 < (s.params id).total → ∀ o, Covered (spansOf s.entry) o → o < (s.params id).total))
  | .write id _ _ =>
    inferInstanceAs (Decidable (∀ w ∈ s.writers id, ∀ m ∈ s.entry, ∀ _, _ → _ → _ → _))
  | .checkpoint id => inferInstanceAs (Decidable (∀ w ∈ s.writers id, _))
  | .commit id => inferInstanceAs (Decidable (∀ w ∈ s.writers id, (∀ m ∈ s.entry, _) ∧ _))
  | .truncate _ false | .beginSegment _ | .abandon _ | .redirect _ | .storeAlias _
  | .trimRead | .trimWrite _ _ _ | .purgeRead | .remove => isTrue trivial

/-! ## The origin of a byte under the steps -/

variable {s s' : Slot} {key tag : Bytes} {interval o : ℤ} {id : ℕ} {w : SegmentWriter} {m : Meta}
  {e : Event}

theorem From.iff_eq {tag' : Bytes} (h : s.From tag o) : s.From tag' o ↔ tag = tag' := by
  obtain ⟨hnonneg, id, b, hcell, htag⟩ := h
  constructor
  · rintro ⟨-, id', b', hcell', htag'⟩
    obtain ⟨rfl, -⟩ := Prod.mk.inj (Option.some.inj (hcell.symm.trans hcell'))
    exact htag.symm.trans htag'
  · rintro rfl
    exact ⟨hnonneg, id, b, hcell, htag⟩

theorem from_openBody (hs : s.Sound) (p : SegmentParams) :
    (s.openBody p).From tag o ↔ s.From tag o := by
  refine and_congr_right (fun _ => exists_congr (fun id => exists_congr (fun b => ?_)))
  rw [cell_openBody]
  refine and_congr_right (fun hcell => ?_)
  -- the byte is of a response before the new one
  obtain ⟨i, -, hget⟩ := Option.bind_eq_some_iff.mp hcell
  obtain ⟨hlt, -⟩ := hs.honest i _ id b hget
  rw [params, responses_openBody hlt]
  rfl

theorem from_cutBody (hb : s.body = some w.file) :
    (s.cutBody id w).From tag o
      ↔ s.From tag o ∧ (0 < (s.params id).total → o < (s.params id).total) := by
  have hparams : ∀ id', (s.cutBody id w).params id' = s.params id' := fun _ => rfl
  unfold From
  simp only [hparams, cell_cutBody]
  by_cases hcut : 0 < (s.params id).total ∧ s.body = some w.file
      ∧ (s.params id).total.toNat ≤ o.toNat
  · rw [if_pos hcut]
    refine iff_of_false (fun h => ?_) (fun h => ?_)
    · obtain ⟨-, id', b, hcell, -⟩ := h
      cases hcell
    · have := h.2 hcut.1
      have := h.1.1
      omega
  · rw [if_neg hcut]
    refine (and_iff_left_of_imp (fun h ht => ?_)).symm
    by_contra hle
    exact hcut ⟨ht, hb, by omega⟩

theorem from_writeBody (hs : s.Sound) {bs : Bytes} {n : ℕ} (hb : s.body = some w.file)
    (hn : n ≤ bs.length) :
    (s.writeBody id w bs n).From tag o
      ↔ if (s.params id).start + w.written ≤ o ∧ o < (s.params id).start + w.written + n
        then (s.params id).eTag = tag else s.From tag o := by
  have hstart := hs.start_nonneg id
  split
  · next hin =>
    -- the byte is the writer's
    have hcell := @cell_writeBody_of_mem s id w bs n
      (o - ((s.params id).start + w.written)).toNat hb hn (by omega)
    rw [show (s.params id).start.toNat + w.written
      + (o - ((s.params id).start + w.written)).toNat = o.toNat by omega] at hcell
    have hfrom : (s.writeBody id w bs n).From (s.params id).eTag o :=
      ⟨by omega, id, _, hcell, by rw [params_writeBody]⟩
    exact hfrom.iff_eq
  · next hout =>
    unfold From
    simp only [params_writeBody]
    refine and_congr_right (fun hnonneg => ?_)
    rw [cell_writeBody_of_notMem]
    rintro ⟨-, hlo, hhi⟩
    exact hout ⟨by omega, by omega⟩

/-! ## One step -/

theorem oneVersion_publish_iff {p : SegmentParams} {written : ℕ}
    (hm : ∀ o, Covered m.spans o ↔ Covered (spansOf s.entry) o ∨ (p.span written).Has o)
    (ws : ℕ → Option SegmentWriter) :
    ({ s with entry := some m, writers := ws } : Slot).OneVersion
      ↔ (∀ o, Covered (spansOf s.entry) o → s.From m.eTag o)
        ∧ ∀ o, (p.span written).Has o → s.From m.eTag o := by
  constructor
  · intro h
    exact ⟨fun o ho => h m rfl o ((hm o).mpr (.inl ho)),
      fun o ho => h m rfl o ((hm o).mpr (.inr ho))⟩
  · rintro ⟨hold, hnew⟩ m' ⟨rfl⟩ o ho
    rcases (hm o).mp ho with ho | ho
    · exact hold o ho
    · exact hnew o ho

theorem OneVersion.covered (h : s.OneVersion) (ho : Covered (spansOf s.entry) o) :
    ∃ m, s.entry = some m ∧ Covered m.spans o ∧ s.From m.eTag o := by
  cases hm : s.entry with
  | none => simp [hm, Covered] at ho
  | some m =>
    rw [hm] at ho
    exact ⟨m, rfl, ho, h m hm o ho⟩

theorem OneVersion.step_iff (h : s.OneVersion) (hsound : s.Sound) (hone : s.OneFile)
    (hseg : e.isSegment = true) (hs : s.step key interval e = some s') :
    s'.OneVersion ↔ s.SameVersion e := by
  cases steps_of_step hs with
  | beginSegment hv =>
    exact iff_of_true (fun m hm o ho => (from_openBody hsound _).mpr (h m hm o ho)) trivial
  | @cut id w hw hr =>
    constructor
    · intro h' _ ht o ho
      obtain ⟨m, hm, hcov, -⟩ := h.covered ho
      exact ((from_cutBody (hone _ _ hw)).mp (h' m hm o hcov)).2 ht
    · intro hcut m hm o ho
      refine (from_cutBody (hone _ _ hw)).mpr ⟨h m hm o ho, fun ht => ?_⟩
      refine hcut (by rw [hw]; rfl) ht o ?_
      rwa [show s.entry = some m from hm]
  | cutFails hw hr => exact iff_of_true h trivial
  | @write id w bs n hw hr hf hn hmax =>
    constructor
    · intro h' w' hw' m hm o hlo hhi ho
      cases hw.symm.trans hw'
      have := (from_writeBody hsound (hone _ _ hw) hn).mp (h' m hm o ho)
      rwa [if_pos ⟨hlo, hhi⟩] at this
    · intro hsame m hm o ho
      rw [from_writeBody hsound (hone _ _ hw) hn]
      split
      · next hin => exact hsame w hw m hm o hin.1 hin.2 ho
      · exact h m hm o ho
  | @checkpoint id w hw hr hpos =>
    rw [oneVersion_publish_iff (covered_checkpointMeta _ _ _), eTag_checkpointMeta]
    constructor
    · rintro ⟨-, hnew⟩ w' hw'
      cases hw.symm.trans hw'
      exact hnew
    · intro hsame
      refine ⟨fun o ho => ?_, hsame w hw⟩
      obtain ⟨m, hm, -, hfrom⟩ := h.covered ho
      rw [hm]
      exact hfrom
  | @commit id w hw hr =>
    rw [oneVersion_publish_iff (covered_commitMeta _ _ _), eTag_commitMeta]
    have htag : (if (s.params id).eTag = [] then (s.entry.map Meta.eTag).getD (s.params id).eTag
        else (s.params id).eTag) = if (s.params id).eTag = []
          then (s.entry.map Meta.eTag).getD [] else (s.params id).eTag := by
      split
      · next hnil => rw [hnil]
      · rfl
    rw [htag]
    -- the bytes on record are of the old version, so the tag may not change
    have hold : (∀ o, Covered (spansOf s.entry) o → s.From (if (s.params id).eTag = []
          then (s.entry.map Meta.eTag).getD [] else (s.params id).eTag) o)
        ↔ ∀ m, s.entry = some m → ∀ o, Covered m.spans o →
          (s.params id).eTag = [] ∨ (s.params id).eTag = m.eTag := by
      cases hm : s.entry with
      | none => simp [Covered]
      | some m =>
        simp only [spansOf_some, Option.map_some, Option.getD_some, Option.some.injEq,
          forall_eq']
        refine forall_congr' (fun o => imp_congr_right (fun ho => ?_))
        rw [(h m hm o ho).iff_eq]
        by_cases hnil : (s.params id).eTag = []
        · simp [hnil]
        · rw [if_neg hnil]
          exact ⟨fun heq => .inr heq.symm, fun hor => (hor.resolve_left hnil).symm⟩
    rw [hold]
    constructor
    · rintro hboth w' hw'
      cases hw.symm.trans hw'
      exact hboth
    · exact fun hsame => hsame w hw
  | abandon hw => exact iff_of_true h trivial
  | redirect | storeAlias | trimRead | trimWrite | purgeRead | remove => cases hseg

theorem oneVersion_throughout_iff {es : List Event} (hseg : ∀ e ∈ es, e.isSegment = true)
    (hrun : Runs.run (step key interval) Slot.empty es = some s) :
    Runs.Throughout (step key interval) OneVersion Slot.empty es
      ↔ Runs.Meets (step key interval) SameVersion Slot.empty es := by
  have hstep : ∀ (s : Slot) (e : Event) (s' : Slot), (s.Sound ∧ s.OneFile) → s.OneVersion →
      e.isSegment = true → s.step key interval e = some s' →
      (s'.Sound ∧ s'.OneFile) ∧ (s'.OneVersion ↔ s.SameVersion e) :=
    fun s e s' haux h hseg hs => ⟨⟨haux.1.step hs, haux.2.step hseg hs⟩,
      h.step_iff haux.1 haux.2 hseg hs⟩
  have hver : Slot.empty.OneVersion := by simp [OneVersion, Slot.empty]
  exact Runs.throughout_iff_meets hstep ⟨sound_empty, oneFile_empty⟩ hver hseg hrun

/-! ## What a reader has seen stays so -/

theorem SameVersion.stays (hsame : s.SameVersion e) (hseg : e.isSegment = true)
    (hs : s.step key interval e = some s') (hm : s.entry = some m) (ho : Covered m.spans o) :
    ∃ m', s'.entry = some m' ∧ m'.eTag = m.eTag ∧ Covered m'.spans o := by
  cases steps_of_step hs with
  | beginSegment | cut | cutFails | write | abandon => exact ⟨m, hm, rfl, ho⟩
  | checkpoint hw hr hpos =>
    refine ⟨_, rfl, ?_, (covered_checkpointMeta _ _ _ o).mpr (.inl (by rwa [hm]))⟩
    rw [eTag_checkpointMeta, hm]
    rfl
  | commit hw hr =>
    refine ⟨_, rfl, ?_, (covered_commitMeta _ _ _ o).mpr (.inl (by rwa [hm]))⟩
    rw [eTag_commitMeta, hm]
    rcases (hsame _ hw).1 m hm o ho with hnil | heq
    · rw [if_pos hnil]
      rfl
    · split
      · rfl
      · exact heq
  | redirect | storeAlias | trimRead | trimWrite | purgeRead | remove => cases hseg

theorem OneVersion.later {s₁ s₂ : Slot} {es : List Event} (h : s₁.OneVersion) (hsound : s₁.Sound)
    (hone : s₁.OneFile) (hseg : ∀ e ∈ es, e.isSegment = true)
    (hsame : Runs.Meets (step key interval) SameVersion s₁ es)
    (hrun : Runs.run (step key interval) s₁ es = some s₂) (hm : s₁.entry = some m)
    (ho : Covered m.spans o) : s₂.From m.eTag o := by
  -- carried through the run: what holds in any state, and that the offset is still on record
  obtain ⟨-, -, hver, m', hm', htag, hcov⟩ := @Runs.invariant _ _ _ _
    (fun s : Slot => s.Sound ∧ s.OneFile ∧ s.OneVersion
      ∧ ∃ m', s.entry = some m' ∧ m'.eTag = m.eTag ∧ Covered m'.spans o)
    (fun s e s' ⟨hsound, hone, hver, m', hm', htag, hcov⟩ ⟨hseg, hsame⟩ hs => by
      obtain ⟨m'', hm'', htag', hcov'⟩ := hsame.stays hseg hs hm' hcov
      exact ⟨hsound.step hs, hone.step hseg hs, (hver.step_iff hsound hone hseg hs).mpr hsame,
        m'', hm'', htag'.trans htag, hcov'⟩)
    _ _ _ ⟨hsound, hone, h, m, hm, rfl, ho⟩ (hsame.and_of_forall hseg) hrun
  rw [← htag]
  exact hver m' hm' o hcov

/-! ## Copies in memory and in the file -/

structure TagsReadable (s : Slot) : Prop where
  entry : ∀ m, s.entry = some m → JSONText.Valid m.eTag
  params : ∀ id, JSONText.Valid (s.params id).eTag

theorem tagsReadable_empty : Slot.empty.TagsReadable :=
  ⟨by simp [Slot.empty], fun _ => JSONText.valid_nil⟩

theorem TagsReadable.step (h : s.TagsReadable) (hseg : e.isSegment = true)
    (hnew : ∀ p, e = .beginSegment p → JSONText.Valid p.eTag)
    (hs : s.step key interval e = some s') : s'.TagsReadable := by
  have hrecord : JSONText.Valid ((s.entry.map Meta.eTag).getD []) := by
    cases hm : s.entry with
    | none => exact JSONText.valid_nil
    | some m => exact h.entry m hm
  cases steps_of_step hs with
  | @beginSegment p hv =>
    refine ⟨h.entry, fun id => ?_⟩
    show JSONText.Valid (Function.update s.responses s.nextResponse ⟨p, []⟩ id).params.eTag
    by_cases hid : id = s.nextResponse
    · rw [hid, Function.update_self]
      exact hnew p rfl
    · rw [Function.update_of_ne hid]
      exact h.params id
  | cut | cutFails | abandon => exact ⟨h.entry, h.params⟩
  | write => exact ⟨h.entry, fun id => by rw [params_writeBody]; exact h.params id⟩
  | @checkpoint id w hw hr hpos =>
    refine ⟨?_, h.params⟩
    rintro m ⟨⟩
    rw [eTag_checkpointMeta]
    cases hm : s.entry with
    | none => exact h.params id
    | some m => exact h.entry m hm
  | @commit id w hw hr =>
    refine ⟨?_, h.params⟩
    rintro m ⟨⟩
    rw [eTag_commitMeta]
    split
    · next hnil =>
      rw [hnil]
      exact hrecord
    · exact h.params id
  | redirect | storeAlias | trimRead | trimWrite | purgeRead | remove => cases hseg

theorem TagsReadable.exists_of_loads (h : s.TagsReadable) (hm : s.Loads (some m)) :
    ∃ m₀, s.entry = some m₀ ∧ m.spans = m₀.spans ∧ m.eTag = m₀.eTag := by
  rcases hm with hm | hm
  · exact ⟨m, hm.symm, rfl, rfl⟩
  · obtain ⟨m₀, hm₀, rfl⟩ := Option.map_eq_some_iff.mp hm.symm
    exact ⟨m₀, hm₀, rfl, h.entry m₀ hm₀⟩

/-! ## What is on record can be served -/

structure Plain (s : Slot) : Prop where
  aliasOf : ∀ m, s.entry = some m → m.aliasOf = []
  location : ∀ m, s.entry = some m → m.location = []
  spans : ∀ sp ∈ spansOf s.entry, 0 ≤ sp.start ∧ sp.start < sp.stop ∧ sp.stop ≤ maxOffset
  writer : ∀ id w, s.writers id = some w →
    w.written = 0 ∨ (s.params id).start + w.written ≤ maxOffset

theorem plain_empty : Slot.empty.Plain where
  aliasOf := by simp [Slot.empty]
  location := by simp [Slot.empty]
  spans := by simp [Slot.empty]
  writer := by simp [Slot.empty]

theorem Plain.updateWriter (h : s.Plain) {v : Option SegmentWriter}
    (hv : ∀ w, v = some w → w.written = 0 ∨ (s.params id).start + w.written ≤ maxOffset) :
    ∀ id' w', Function.update s.writers id v id' = some w' →
      w'.written = 0 ∨ (s.params id').start + w'.written ≤ maxOffset := by
  intro id' w' hw'
  rcases update_eq_some hw' with ⟨rfl, heq⟩ | ⟨-, hold⟩
  · exact hv w' heq
  · exact h.writer id' w' hold

theorem Plain.publish (h : s.Plain) (hs : s.Sound) (hw : s.writers id = some w)
    (halias : m.aliasOf = (s.entry.map Meta.aliasOf).getD [])
    (hloc : m.location = (s.entry.map Meta.location).getD [])
    (hspans : m.spans = if 0 < w.written
      then mergeSpans (spansOf s.entry ++ [(s.params id).span w.written]) else spansOf s.entry)
    {v : Option SegmentWriter} (hv : ∀ w', v = some w' → w'.written = w.written) :
    ({ s with entry := some m, writers := Function.update s.writers id v } : Slot).Plain := by
  refine ⟨?_, ?_, ?_, h.updateWriter (fun w' hw' => (hv w' hw').symm ▸ h.writer id w hw)⟩
  · rintro m' ⟨rfl⟩
    cases hm : s.entry with
    | none => rw [halias, hm]; rfl
    | some m' => rw [halias, hm]; exact h.aliasOf m' hm
  · rintro m' ⟨rfl⟩
    cases hm : s.entry with
    | none => rw [hloc, hm]; rfl
    | some m' => rw [hloc, hm]; exact h.location m' hm
  · show ∀ sp ∈ m.spans, _
    rw [hspans]
    split
    · next hpos =>
      refine mergeSpans_bounds (fun sp hsp => ?_)
      rcases List.mem_append.mp hsp with hsp | hsp
      · exact h.spans sp hsp
      · obtain rfl := List.mem_singleton.mp hsp
        have := hs.start_nonneg id
        have := (h.writer id w hw).resolve_left (by omega)
        simp only [SegmentParams.span]
        omega
    · exact h.spans

theorem Plain.step (h : s.Plain) (hsound : s.Sound) (hseg : e.isSegment = true)
    (hs : s.step key interval e = some s') : s'.Plain := by
  cases steps_of_step hs with
  | @beginSegment p hv =>
    refine ⟨h.aliasOf, h.location, h.spans, ?_⟩
    intro id w hw
    rcases update_eq_some hw with ⟨-, heq⟩ | ⟨-, hold⟩
    · cases heq
      exact .inl rfl
    · have hlt := (hsound.writer id w hold).id_lt
      have := h.writer id w hold
      unfold params at this ⊢
      rwa [responses_openBody hlt]
  | cut hw hr =>
    have hwr := h.writer _ _ hw
    refine ⟨h.aliasOf, h.location, h.spans, h.updateWriter ?_⟩
    rintro w' ⟨rfl⟩
    exact hwr
  | cutFails hw hr => exact ⟨h.aliasOf, h.location, h.spans, h.updateWriter (by simp)⟩
  | @write id w bs n hw hr hf hn hmax =>
    refine ⟨h.aliasOf, h.location, h.spans, fun id' w' hw' => ?_⟩
    rw [params_writeBody]
    refine h.updateWriter ?_ id' w' hw'
    rintro w' ⟨rfl⟩
    refine .inr ?_
    push_cast
    omega
  | @checkpoint id w hw hr hpos =>
    refine h.publish hsound hw (aliasOf_checkpointMeta _ _ _) (location_checkpointMeta _ _ _)
      (spans_checkpointMeta_of_pos _ _ (by omega)) ?_
    rintro w' ⟨rfl⟩
    rfl
  | @commit id w hw hr =>
    refine h.publish hsound hw (aliasOf_commitMeta _ _ _) (location_commitMeta _ _ _)
      (spans_commitMeta _ _ _) ?_
    rintro w' ⟨⟩
  | abandon hw => exact ⟨h.aliasOf, h.location, h.spans, h.updateWriter (by simp)⟩
  | redirect | storeAlias | trimRead | trimWrite | purgeRead | remove => cases hseg

end Slot

end Cache
