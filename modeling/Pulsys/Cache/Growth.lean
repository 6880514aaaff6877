import Pulsys.Cache.SpanTruth
import Pulsys.Cache.WellFormed

/-!
# Slots that are only filed into

Where nothing is purged or trimmed, a slot only grows: its responses become more, and its
body keeps what was written, as long as no response cuts it. A segment write leaves aliases
and redirects as they are.
-/

namespace Cache

open Bytes Parties

def Event.isFiling : Event → Bool
  | .redirect _ => true
  | .storeAlias _ => true
  | e => e.isSegment

theorem Event.isFiling_of_isSegment {e : Event} (h : e.isSegment = true) :
    e.isFiling = true := by
  cases e <;> first | exact h | rfl

namespace Slot

def CutsNothing (s : Slot) : Event → Prop
  | .truncate id true => (s.writers id).isSome → 0 < (s.params id).total →
      ∀ o < s.bodySize, (s.cell o).isSome → (o : ℤ) < (s.params id).total
  | _ => True

instance (s : Slot) : (e : Event) → Decidable (s.CutsNothing e)
  | .truncate id true => inferInstanceAs (Decidable ((s.writers id).isSome →
      0 < (s.params id).total →
        ∀ o < s.bodySize, (s.cell o).isSome → (o : ℤ) < (s.params id).total))
  | .truncate _ false | .beginSegment _ | .write _ _ _ | .checkpoint _ | .commit _
  | .abandon _ | .redirect _ | .storeAlias _ | .trimRead | .trimWrite _ _ _ | .purgeRead
  | .remove => isTrue trivial

variable {s s' : Slot} {key : Bytes} {interval : ℤ} {e : Event}

theorem lt_bodySize {o : ℕ} (h : (s.cell o).isSome) : o < s.bodySize := by
  unfold cell bodySize at *
  cases hb : s.body with
  | none => simp [hb] at h
  | some i =>
    simp only [hb, Option.bind_some, Option.map_some, Option.getD_some] at h ⊢
    by_contra hle
    rw [(s.files i).bounded o (by omega)] at h
    cases h

theorem isSome_cell_step (hs : s.step key interval e = some s') (hfil : e.isFiling = true)
    (hcut : s.CutsNothing e) {o : ℕ} (h : (s.cell o).isSome) : (s'.cell o).isSome := by
  cases steps_of_step hs with
  | beginSegment hv => rwa [cell_openBody]
  | cut hw hr =>
    rw [cell_cutBody, if_neg]
    · exact h
    · rintro ⟨ht, -, hle⟩
      have := hcut (by rw [hw]; rfl) ht o (lt_bodySize h) h
      omega
  | write hw hr hf hn hmax => exact isSome_cell_writeBody h
  | cutFails | checkpoint | commit | abandon | redirect | storeAlias => exact h
  | trimRead | trimWrite | purgeRead | remove => cases hfil

theorem Kept.cutBody_of_cutsNothing (h : s.Kept) {id : ℕ} {w : SegmentWriter}
    (hw : s.writers id = some w)
    (hcells : ∀ o, (s.cell o).isSome → ((s.cutBody id w).cell o).isSome) :
    (s.cutBody id w).Kept := by
  have hpresent : ∀ o, s.Present o → (s.cutBody id w).Present o :=
    fun o ho => ⟨ho.1, hcells _ ho.2⟩
  refine ⟨fun o ho => hpresent o (h.entry o ho),
    fun t tr i ht hi hb o ho => hpresent o (h.trim t tr i ht hi hb o ho), ?_⟩
  intro id' w' hw' hb k hk
  rcases update_eq_some hw' with ⟨rfl, heq⟩ | ⟨-, hold⟩
  · cases heq
    exact hcells _ (h.writer _ w hw hb k hk)
  · exact hcells _ (h.writer id' w' hold hb k hk)

structure Whole (s : Slot) : Prop where
  sound : s.Sound
  kept : s.Kept
  oneFile : s.OneFile

theorem whole_empty : Slot.empty.Whole :=
  ⟨sound_empty, kept_empty, oneFile_empty⟩

theorem Whole.step (h : s.Whole) (hs : s.step key interval e = some s') (hfil : e.isFiling = true)
    (hcut : s.CutsNothing e) : s'.Whole := by
  refine ⟨h.sound.step hs, ?_, ?_⟩
  · cases steps_of_step hs with
    | cut hw hr =>
      exact h.kept.cutBody_of_cutsNothing hw (fun o ho => isSome_cell_step hs hfil hcut ho)
    | checkpoint | commit =>
      refine h.kept.step h.sound ?_ hs
      exact fun w hw => .inr (h.oneFile _ w hw)
    | beginSegment | cutFails | write | abandon | redirect | storeAlias =>
      refine h.kept.step h.sound ?_ hs
      exact trivial
    | trimRead | trimWrite | purgeRead | remove => cases hfil
  · cases e with
    | redirect r =>
      cases steps_of_step hs
      exact h.oneFile
    | storeAlias a =>
      cases steps_of_step hs
      exact h.oneFile
    | _ =>
      refine h.oneFile.step ?_ hs
      exact hfil

/-! ## What the entry takes over -/

theorem nextResponse_step (hs : s.step key interval e = some s') :
    s'.nextResponse = match e with
      | .beginSegment _ => s.nextResponse + 1
      | _ => s.nextResponse := by
  cases steps_of_step hs <;> rfl

theorem aliasOf_step (hfil : e.isFiling = true) (hne : ∀ a, e ≠ .storeAlias a)
    (hs : s.step key interval e = some s') {m' : Meta} (hm' : s'.entry = some m')
    (halias : m'.aliasOf ≠ []) : ∃ m, s.entry = some m ∧ m.aliasOf = m'.aliasOf := by
  -- the new entry has the alias of the old one, or none
  have hold : ∀ old : Option Meta, (old.map Meta.aliasOf).getD [] ≠ [] →
      ∃ m, old = some m ∧ m.aliasOf = (old.map Meta.aliasOf).getD [] := by
    intro old h
    cases old with
    | none => exact absurd rfl h
    | some m => exact ⟨m, rfl, rfl⟩
  cases steps_of_step hs with
  | beginSegment | cut | cutFails | write | abandon => exact ⟨m', hm', rfl⟩
  | checkpoint =>
    cases hm'
    rw [aliasOf_checkpointMeta] at halias ⊢
    exact hold _ halias
  | commit =>
    cases hm'
    rw [aliasOf_commitMeta] at halias ⊢
    exact hold _ halias
  | redirect =>
    cases hm'
    rw [aliasOf_redirectMeta] at halias ⊢
    exact hold _ halias
  | @storeAlias a => exact absurd rfl (hne a)
  | trimRead | trimWrite | purgeRead | remove => cases hfil

theorem location_step (hseg : e.isSegment = true) (hs : s.step key interval e = some s')
    {m' : Meta} (hm' : s'.entry = some m') (hloc : m'.location ≠ []) :
    ∃ m, s.entry = some m ∧ m.location = m'.location
      ∧ (isCacheableRedirectStatus m.statusCode = true → m'.statusCode = m.statusCode) := by
  cases steps_of_step hs with
  | beginSegment | cut | cutFails | write | abandon => exact ⟨m', hm', rfl, fun _ => rfl⟩
  | checkpoint =>
    cases hm'
    cases hm : s.entry with
    | none => exact absurd (by rw [hm]; rfl) hloc
    | some m => exact ⟨m, rfl, rfl, fun _ => rfl⟩
  | commit =>
    cases hm'
    cases hm : s.entry with
    | none => exact absurd (by rw [hm]; rfl) hloc
    | some m => exact ⟨m, rfl, rfl, statusCode_commitMeta _ _ _⟩
  | redirect | storeAlias | trimRead | trimWrite | purgeRead | remove => cases hseg

end Slot

end Cache
