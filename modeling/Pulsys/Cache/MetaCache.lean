import Pulsys.Base.Runs
import Pulsys.Cache.Meta
import Mathlib.Logic.Function.Basic

/-!
# Entries in memory

`LoadMeta` reads the file and later puts in what it has read, and a purge removes the file
and later drops the copy. A copy that differs is no harm as long as somebody is still to
replace or drop it (`Settled`); `Timely` is the exact condition on a step.

An operation that has written the file puts in the record as it was before, and not as it will
be read: the two differ in a text that is not in UTF-8. So such a record is never put in
timely, even if nothing else happens.
-/

namespace Cache

open Bytes

/-! ## The operations -/

inductive Publication
  | checkpoint (p : SegmentParams) (written : ℕ)
  | commit (p : SegmentParams) (written : ℕ)
  | redirect (r : Redirect)
  | storeAlias (a : Alias)

def Publication.newMeta : Publication → Option Meta → Option Meta
  | .checkpoint p written, old => some (p.checkpointMeta written old)
  | .commit p written, old => some (p.commitMeta written old)
  | .redirect r, old => some (redirectMeta r old)
  | .storeAlias a, old => aliasMeta a old

def Publication.syncs : Publication → Bool
  | .commit _ _ => true
  | .redirect _ => true
  | .storeAlias _ => true
  | .checkpoint _ _ => false

inductive Stage
  | locked (op : Publication)
  | ready (m : Meta)
  | written (m : Meta)
  | durable (m : Meta)

structure Publisher where
  syncs : Bool
  stage : Stage

def Publisher.owes (w : Publisher) : Bool :=
  match w.stage with
  | .written _ | .durable _ => true
  | .locked _ | .ready _ => false

inductive Loader
  | missed
  | read (m : Meta)

structure MetaCache where
  disk : Option Meta
  cached : Option Meta := none
  loaders : ℕ → Option Loader := fun _ => none
  nextLoader : ℕ := 0
  publisher : Option Publisher := none
  trims : ℕ → Option Meta := fun _ => none
  nextTrim : ℕ := 0
  removals : ℕ := 0
  deletes : ℕ := 0

inductive MetaEvent
  | loadGet
  | loadRead (i : ℕ)
  | loadInsert (i : ℕ)
  | lock (op : Publication)
  | publishRead (ok : Bool)
  | publishWrite (ok : Bool)
  | publishSync (ok : Bool)
  | publishInsert
  | trimRead (trim : Meta → Meta)
  | trimLock (t : ℕ)
  | purgeRead
  | removeAll
  | removeFails (gone : Bool)
  | deleteCached
  | evict

namespace MetaCache

def loadMeta (s : MetaCache) : Option Meta := s.cached.or s.disk

def step (s : MetaCache) : MetaEvent → Option MetaCache
  | .loadGet =>
    if s.cached.isSome then some s
    else some { s with
      loaders := Function.update s.loaders s.nextLoader (some .missed)
      nextLoader := s.nextLoader + 1 }
  | .loadRead i =>
    match s.loaders i with
    | some .missed => some { s with loaders := Function.update s.loaders i (s.disk.map .read) }
    | _ => none
  | .loadInsert i =>
    match s.loaders i with
    | some (.read m) => some { s with
        cached := some m, loaders := Function.update s.loaders i none }
    | _ => none
  | .lock op =>
    if s.publisher.isSome then none
    else some { s with publisher := some ⟨op.syncs, .locked op⟩ }
  | .publishRead ok =>
    match s.publisher with
    | some ⟨syncs, .locked op⟩ => some { s with
        publisher := (op.newMeta (if ok then s.disk else none)).map (⟨syncs, .ready ·⟩) }
    | _ => none
  | .publishWrite ok =>
    match s.publisher with
    | some ⟨syncs, .ready m⟩ =>
      if ok then some { s with
        disk := some m.reread
        publisher := some ⟨syncs, if syncs then .written m else .durable m⟩ }
      else some { s with publisher := none }
    | _ => none
  | .publishSync ok =>
    match s.publisher with
    | some ⟨syncs, .written m⟩ => some { s with
        publisher := if ok then some ⟨syncs, .durable m⟩ else none }
    | _ => none
  | .publishInsert =>
    match s.publisher with
    | some ⟨_, .durable m⟩ => some { s with cached := some m, publisher := none }
    | _ => none
  | .trimRead trim =>
    match s.disk with
    | none => none
    | some m => some { s with
        trims := Function.update s.trims s.nextTrim (some (trim m))
        nextTrim := s.nextTrim + 1 }
  | .trimLock t =>
    match s.trims t with
    | none => none
    | some m =>
      if s.publisher.isSome then none
      else some { s with
        publisher := some ⟨false, .ready m⟩, trims := Function.update s.trims t none }
  | .purgeRead => if s.disk.isSome then some { s with removals := s.removals + 1 } else none
  | .removeAll =>
    if s.removals = 0 then none
    else some { s with disk := none, removals := s.removals - 1, deletes := s.deletes + 1 }
  | .removeFails gone =>
    if s.removals = 0 then none
    else some { s with disk := if gone then none else s.disk, removals := s.removals - 1 }
  | .deleteCached =>
    if s.deletes = 0 then none
    else some { s with cached := none, deletes := s.deletes - 1 }
  | .evict => some { s with cached := none }

/-! ## Coherence -/

def Coherent (s : MetaCache) : Prop := ∀ m, s.cached = some m → s.disk = some m

structure Quiescent (s : MetaCache) : Prop where
  loaders : ∀ i, s.loaders i = none
  publisher : s.publisher = none
  trims : ∀ t, s.trims t = none
  removals : s.removals = 0
  deletes : s.deletes = 0

def WillInsert (s : MetaCache) : Prop := ∃ w, s.publisher = some w ∧ w.owes = true

def WillDelete (s : MetaCache) : Prop := s.deletes ≠ 0

def Settled (s : MetaCache) : Prop :=
  ∀ m, s.cached = some m → s.disk = some m ∨ s.WillInsert ∨ s.WillDelete

def Timely (s : MetaCache) : MetaEvent → Prop
  | .loadInsert i => ∀ m, s.loaders i = some (.read m) →
      s.disk = some m ∨ s.WillInsert ∨ s.WillDelete
  | .publishInsert => ∀ syncs m, s.publisher = some ⟨syncs, .durable m⟩ →
      s.disk = some m ∨ s.WillDelete
  | .publishSync false => ∀ m, s.cached = some m → s.disk = some m ∨ s.WillDelete
  | .removeFails true => s.cached.isSome → s.WillInsert ∨ s.WillDelete
  | _ => True

instance (s : MetaCache) : Decidable s.WillInsert :=
  inferInstanceAs (Decidable (∃ w ∈ s.publisher, w.owes = true))

instance (s : MetaCache) : Decidable s.WillDelete :=
  inferInstanceAs (Decidable (s.deletes ≠ 0))

instance (s : MetaCache) : (e : MetaEvent) → Decidable (s.Timely e)
  | .loadInsert i =>
    match h : s.loaders i with
    | some (.read m) => decidable_of_iff (s.disk = some m ∨ s.WillInsert ∨ s.WillDelete)
        (by simp [Timely, h])
    | some .missed | none => isTrue (by simp [Timely, h])
  | .publishInsert =>
    match h : s.publisher with
    | some ⟨_, .durable m⟩ => decidable_of_iff (s.disk = some m ∨ s.WillDelete)
        (by simp [Timely, h])
    | some ⟨_, .locked _⟩ | some ⟨_, .ready _⟩ | some ⟨_, .written _⟩ | none =>
      isTrue (by simp [Timely, h])
  | .publishSync false =>
    inferInstanceAs (Decidable (∀ m ∈ s.cached, s.disk = some m ∨ s.WillDelete))
  | .removeFails true =>
    inferInstanceAs (Decidable (s.cached.isSome → s.WillInsert ∨ s.WillDelete))
  | .publishSync true | .removeFails false | .loadGet | .loadRead _ | .lock _ | .publishRead _
  | .publishWrite _ | .trimRead _ | .trimLock _ | .purgeRead | .removeAll | .deleteCached
  | .evict => isTrue trivial

variable {s s' : MetaCache}

theorem not_willInsert (h : ∀ w, s.publisher = some w → w.owes = false) : ¬ s.WillInsert := by
  rintro ⟨w, hw, howes⟩
  rw [h w hw] at howes
  cases howes

theorem Settled.of_same (h : s.Settled) (hcached : s'.cached = s.cached)
    (hdisk : s'.disk = s.disk) (hinsert : s.WillInsert → s'.WillInsert)
    (hdelete : s.WillDelete → s'.WillDelete) : s'.Settled := by
  intro m hm
  rw [hcached] at hm
  rw [hdisk]
  exact (h m hm).imp_right (Or.imp hinsert hdelete)

theorem Settled.of_publisher (h : s.Settled) (hno : ∀ w, s.publisher = some w → w.owes = false)
    (hcached : s'.cached = s.cached) (hdisk : s'.disk = s.disk)
    (hdeletes : s'.deletes = s.deletes) : s'.Settled :=
  h.of_same hcached hdisk (fun hw => absurd hw (not_willInsert hno))
    (fun hd => show s'.deletes ≠ 0 from hdeletes ▸ hd)

theorem settled_of_willInsert (h : s.WillInsert) : s.Settled :=
  fun _ _ => .inr (.inl h)

theorem settled_of_none (h : s.cached = none) : s.Settled := by
  intro m hm
  rw [h] at hm
  cases hm

theorem settled_step_iff {e : MetaEvent} (h : s.Settled) (hs : s.step e = some s') :
    s'.Settled ↔ s.Timely e := by
  cases e with
  | loadGet =>
    refine iff_of_true ?_ trivial
    rw [step] at hs
    split at hs
    · cases hs
      exact h
    · cases hs
      exact h.of_same rfl rfl id id
  | loadRead i =>
    refine iff_of_true ?_ trivial
    rw [step] at hs
    split at hs
    · cases hs
      exact h.of_same rfl rfl id id
    · cases hs
  | loadInsert i =>
    rw [step] at hs
    split at hs
    · next m hm =>
      cases hs
      constructor
      · intro h' m' hm'
        obtain rfl : m = m' := by simpa [hm] using hm'
        exact h' m rfl
      · rintro htimely m' ⟨rfl⟩
        exact htimely m hm
    · cases hs
  | lock op =>
    refine iff_of_true ?_ trivial
    obtain ⟨hfree, hs⟩ := Option.ite_none_left_eq_some.mp hs
    cases hs
    refine h.of_publisher (fun w hw => ?_) rfl rfl rfl
    exact absurd (by rw [hw]; rfl) hfree
  | publishRead ok =>
    refine iff_of_true ?_ trivial
    rw [step] at hs
    split at hs
    · next syncs op hp =>
      cases hs
      refine h.of_publisher (fun w hw => ?_) rfl rfl rfl
      cases hp.symm.trans hw
      rfl
    · cases hs
  | publishWrite ok =>
    refine iff_of_true ?_ trivial
    rw [step] at hs
    split at hs
    · next syncs m hp =>
      cases ok with
      | true =>
        cases hs
        refine settled_of_willInsert ⟨_, rfl, ?_⟩
        cases syncs <;> rfl
      | false =>
        cases hs
        refine h.of_publisher (fun w hw => ?_) rfl rfl rfl
        cases hp.symm.trans hw
        rfl
    · cases hs
  | publishSync ok =>
    rw [step] at hs
    split at hs
    · next syncs m hp =>
      cases ok with
      | true =>
        cases hs
        exact iff_of_true (settled_of_willInsert ⟨_, rfl, rfl⟩) trivial
      | false =>
        cases hs
        refine forall₂_congr (fun m' hm' => or_congr_right ?_)
        exact or_iff_right (not_willInsert (by simp))
    · cases hs
  | publishInsert =>
    rw [step] at hs
    split at hs
    · next syncs m hp =>
      cases hs
      constructor
      · intro h' syncs' m' hp'
        obtain rfl : m = m' := by
          have := Option.some.inj (hp.symm.trans hp')
          simpa using congrArg Publisher.stage this
        exact (h' m rfl).imp_right (fun hw => hw.resolve_left (not_willInsert (by simp)))
      · rintro htimely m' ⟨rfl⟩
        exact (htimely syncs m hp).imp_right .inr
    · cases hs
  | trimRead trim =>
    refine iff_of_true ?_ trivial
    rw [step] at hs
    split at hs
    · cases hs
    · cases hs
      exact h.of_same rfl rfl id id
  | trimLock t =>
    refine iff_of_true ?_ trivial
    rw [step] at hs
    split at hs
    · cases hs
    · obtain ⟨hfree, hs⟩ := Option.ite_none_left_eq_some.mp hs
      cases hs
      refine h.of_publisher (fun w hw => ?_) rfl rfl rfl
      exact absurd (by rw [hw]; rfl) hfree
  | purgeRead =>
    refine iff_of_true ?_ trivial
    obtain ⟨-, hs⟩ := Option.ite_none_right_eq_some.mp hs
    cases hs
    exact h.of_same rfl rfl id id
  | removeAll =>
    refine iff_of_true ?_ trivial
    obtain ⟨-, hs⟩ := Option.ite_none_left_eq_some.mp hs
    cases hs
    exact fun m _ => .inr (.inr (Nat.succ_ne_zero _))
  | removeFails gone =>
    obtain ⟨-, hs⟩ := Option.ite_none_left_eq_some.mp hs
    cases hs
    cases gone with
    | false => exact iff_of_true (h.of_same rfl rfl id id) trivial
    | true =>
      constructor
      · intro h' hsome
        obtain ⟨m, hm⟩ := Option.isSome_iff_exists.mp hsome
        exact (h' m hm).resolve_left nofun
      · intro htimely m hm
        refine .inr (htimely ?_)
        rw [show s.cached = some m from hm]
        rfl
  | deleteCached =>
    obtain ⟨-, hs⟩ := Option.ite_none_left_eq_some.mp hs
    cases hs
    exact iff_of_true (settled_of_none rfl) trivial
  | evict =>
    cases hs
    exact iff_of_true (settled_of_none rfl) trivial

theorem Settled.coherent (h : s.Settled) (hq : s.Quiescent) : s.Coherent ∧ s.loadMeta = s.disk := by
  have hcoherent : s.Coherent := by
    intro m hm
    refine (h m hm).resolve_right ?_
    rintro (⟨w, hw, -⟩ | hd)
    · rw [hq.publisher] at hw
      cases hw
    · exact hd hq.deletes
  refine ⟨hcoherent, ?_⟩
  unfold loadMeta
  cases hc : s.cached with
  | none => rfl
  | some m =>
    rw [hcoherent m hc]
    rfl

theorem settled_throughout_iff {disk : Option Meta} {es : List MetaEvent}
    (hrun : Runs.run step { disk := disk } es = some s) :
    Runs.Throughout step Settled { disk := disk } es ↔ Runs.Meets step Timely { disk := disk } es :=
  @Runs.throughout_iff_meets _ _ _ Timely Settled (fun _ => True) (fun _ => True)
    (fun _ _ _ _ h _ hs => ⟨trivial, settled_step_iff h hs⟩) _ s es trivial
    (settled_of_none rfl) (fun _ _ => trivial) hrun

/-- **Once all operations have returned, the copy in memory is the entry on disk**, in every
run whose steps are timely. -/
theorem coherent_of_timely {disk : Option Meta} {es : List MetaEvent} {s : MetaCache}
    (hrun : Runs.run step { disk := disk } es = some s)
    (hmeets : Runs.Meets step Timely { disk := disk } es) :
    Runs.Throughout step (fun s => s.Quiescent → s.Coherent ∧ s.loadMeta = s.disk)
      { disk := disk } es :=
  ((settled_throughout_iff hrun).mpr hmeets).imp (fun _ h => h.coherent)

def firstByte : Meta where
  spans := [⟨0, 1⟩]
  total := some 2

def commitSecondByte : List MetaEvent :=
  [.lock (.commit { status := 206, start := 1, length := 1, total := 2 } 1), .publishRead true,
    .publishWrite true, .publishSync true, .publishInsert]

theorem coherent_of_timely_two :
    Runs.Throughout step (fun s => s.Quiescent → s.Coherent ∧ s.loadMeta = s.disk)
      { disk := some firstByte }
      ([.loadGet, .loadRead 0, .loadInsert 0] ++ commitSecondByte) := by
  obtain ⟨s, hs⟩ := Option.isSome_iff_exists.mp
    (show (Runs.run step { disk := some firstByte }
      ([.loadGet, .loadRead 0, .loadInsert 0] ++ commitSecondByte)).isSome = true by
        decide +kernel)
  exact coherent_of_timely hs (by decide +kernel)

/-- **A slow reader puts the old entry back.** -/
theorem slow_load_hides_commit :
    ∃ s, Runs.run step { disk := some firstByte }
        ([.loadGet, .loadRead 0] ++ commitSecondByte ++ [.loadInsert 0]) = some s
      ∧ s.Quiescent ∧ ¬ s.Coherent ∧ s.loadMeta ≠ s.disk := by
  refine ⟨_, rfl, ⟨fun i => ?_, rfl, fun _ => rfl, rfl, rfl⟩, fun h => ?_, by decide +kernel⟩
  · by_cases hi : i = 0
    · subst hi
      rfl
    · simp [Function.update_of_ne hi]
  · exact absurd (h firstByte rfl) (by decide +kernel)

end MetaCache

end Cache
