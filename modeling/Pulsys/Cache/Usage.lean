import Pulsys.Base.Directory
import Pulsys.Cache.MetaCache

/-!
# Counting what is stored

The counters are what a restart would count (`accounted_throughout_iff`), apart from three
failures: the sync of the directory, a removal that takes the entry away and then fails,
and an entry that cannot be read.
-/

namespace Cache

open Bytes Text

def metaTotal (m : Option Meta) : ℤ :=
  match m with
  | none => 0
  | some m =>
    match m.total with
    | none => 0
    | some t => if t ≤ 0 then 0 else t

theorem metaTotal_checkpointMeta (p : SegmentParams) (n : ℕ) (old : Option Meta) :
    metaTotal (some (p.checkpointMeta n old)) = if 0 < p.total then p.total else metaTotal old := by
  rw [metaTotal, total_checkpointMeta]
  by_cases hp : 0 < p.total
  · simp only [hp, if_true]
    rw [if_neg (not_le.mpr hp)]
  · simp only [hp, if_false]
    cases old <;> rfl

def bytesOn (disk : Directory Bytes Meta) : ℤ := disk.sum (fun m => metaTotal (some m))

def scanUsageCounters (disk : Directory Bytes Meta) : ℤ × ℤ :=
  (wrap64 (bytesOn disk), wrap64 disk.count)

structure Usage where
  disk : Directory Bytes Meta
  usedBytes : ℤ
  entryCount : ℤ

inductive UsageEvent
  | publish (key : Bytes) (op : Publication) (readOk writeOk syncOk : Bool)
  | trim (key originPath : Bytes) (originPaths : List Bytes) (writeOk : Bool)
  | remove (key : Bytes)
  | removeFails (key : Bytes) (gone : Bool)

namespace Usage

def warm (disk : Directory Bytes Meta) : Usage :=
  ⟨disk, (scanUsageCounters disk).1, (scanUsageCounters disk).2⟩

def accountMetaTransition (s : Usage) (oldTotal : ℤ) (oldExists : Bool) (newMeta : Meta) :
    Usage :=
  let newTotal := metaTotal (some newMeta)
  { s with
    usedBytes :=
      if newTotal ≠ oldTotal then wrap64 (s.usedBytes + (newTotal - oldTotal)) else s.usedBytes
    entryCount := if oldExists then s.entryCount else wrap64 (s.entryCount + 1) }

def step (s : Usage) : UsageEvent → Option Usage
  | .publish key op readOk writeOk syncOk =>
    let old := if readOk then s.disk.get key else none
    match op.newMeta old with
    | none => some s
    | some m =>
      if !writeOk then some s
      else
        let s' := { s with disk := s.disk.write key m }
        if op.syncs && !syncOk then some s'
        else some (s'.accountMetaTransition (metaTotal old) old.isSome m)
  | .trim key originPath originPaths writeOk =>
    match s.disk.get key with
    | none => none
    | some m =>
      if !writeOk then some s
      else some { s with
        disk := s.disk.write key
          { m with originPath := originPath, originPaths := originPaths } }
  | .remove key =>
    match s.disk.get key with
    | none => none
    | some m =>
      let freed := m.total.getD 0
      some { s with
        disk := s.disk.remove key
        usedBytes := if 0 < freed then wrap64 (s.usedBytes - freed) else s.usedBytes
        entryCount := wrap64 (s.entryCount - 1) }
  | .removeFails key gone =>
    match s.disk.get key with
    | none => none
    | some _ => some { s with disk := if gone then s.disk.remove key else s.disk }

structure Accounted (s : Usage) : Prop where
  used : s.usedBytes = (scanUsageCounters s.disk).1
  entries : s.entryCount = (scanUsageCounters s.disk).2

def Clean (s : Usage) : UsageEvent → Prop
  | .publish key op readOk writeOk syncOk =>
    ∀ m, op.newMeta (if readOk then s.disk.get key else none) = some m → writeOk = true →
      if op.syncs && !syncOk then (s.disk.get key).isSome = true
        ∧ wrap64 (metaTotal (some m)) = wrap64 (metaTotal (s.disk.get key))
      else readOk = true ∨ s.disk.get key = none
  | .removeFails _ gone => gone = false
  | _ => True

/-! ## One operation -/

theorem weight_metaTotal (o : Option Meta) :
    Directory.weight (fun m => metaTotal (some m)) o = metaTotal o := by
  cases o <;> rfl

variable {s : Usage} {key : Bytes} {m : Meta} {c : ℤ}

theorem accounted_iff :
    s.Accounted ↔ s.usedBytes = wrap64 (bytesOn s.disk) ∧ s.entryCount = wrap64 s.disk.count := by
  constructor
  · rintro ⟨hused, hentries⟩
    simp only [scanUsageCounters] at hused hentries
    exact ⟨hused, hentries⟩
  · rintro ⟨hused, hentries⟩
    constructor
    · rw [scanUsageCounters, hused]
    · rw [scanUsageCounters, hentries]

theorem accounted_write_iff {disk : Directory Bytes Meta} {u : ℤ} :
    (⟨disk.write key m, u, c⟩ : Usage).Accounted
      ↔ u = wrap64 (bytesOn disk + (metaTotal (some m) - metaTotal (disk.get key)))
        ∧ c = wrap64 (disk.count + if (disk.get key).isSome then 0 else 1) := by
  rw [accounted_iff, bytesOn, Directory.sum_write, Directory.count_write, weight_metaTotal]
  rfl

theorem accounted_remove_iff {disk : Directory Bytes Meta} {u : ℤ} (hm : disk.get key = some m) :
    (⟨disk.remove key, u, c⟩ : Usage).Accounted
      ↔ u = wrap64 (bytesOn disk - metaTotal (some m)) ∧ c = wrap64 (disk.count - 1) := by
  rw [accounted_iff, bytesOn, Directory.sum_remove, Directory.count_remove (by rw [hm]; rfl),
    weight_metaTotal, hm]
  rfl

theorem wrap64_entries_iff (a : ℤ) (b : Bool) :
    wrap64 a = wrap64 (a + if b then 0 else 1) ↔ b = true := by
  rw [wrap64_eq_add_iff]
  cases b <;> decide

theorem accountMetaTransition_eq {a : ℤ} (hused : s.usedBytes = wrap64 a)
    (hentries : s.entryCount = wrap64 c) (oldTotal : ℤ) (oldExists : Bool) (m : Meta) :
    s.accountMetaTransition oldTotal oldExists m
      = ⟨s.disk, wrap64 (a + (metaTotal (some m) - oldTotal)),
        wrap64 (c + if oldExists then 0 else 1)⟩ := by
  have hu : (if metaTotal (some m) ≠ oldTotal
      then wrap64 (s.usedBytes + (metaTotal (some m) - oldTotal)) else s.usedBytes)
      = wrap64 (a + (metaTotal (some m) - oldTotal)) := by
    rw [hused]
    split
    · exact Int.bmod_add_bmod
    · next hsame => rw [not_not.mp hsame, sub_self, add_zero]
  have he : (if oldExists then s.entryCount else wrap64 (s.entryCount + 1))
      = wrap64 (c + if oldExists then 0 else 1) := by
    rw [hentries]
    cases oldExists with
    | true => rw [if_pos rfl, if_pos rfl, add_zero]
    | false => exact Int.bmod_add_bmod
  unfold accountMetaTransition
  dsimp only
  rw [hu, he]

theorem accounted_unsynced_iff (h : s.Accounted) (key : Bytes) (m : Meta) :
    ({ s with disk := s.disk.write key m } : Usage).Accounted
      ↔ (s.disk.get key).isSome = true
        ∧ wrap64 (metaTotal (some m)) = wrap64 (metaTotal (s.disk.get key)) := by
  obtain ⟨hused, hentries⟩ := accounted_iff.mp h
  rw [accounted_write_iff, hused, hentries, wrap64_entries_iff, wrap64_eq_add_iff,
    wrap64_sub_eq_zero_iff, and_comm]

theorem accounted_transition_iff (h : s.Accounted) (key : Bytes) (m : Meta) (readOk : Bool) :
    (({ s with disk := s.disk.write key m } : Usage).accountMetaTransition
        (metaTotal (if readOk then s.disk.get key else none))
        (if readOk then s.disk.get key else none).isSome m).Accounted
      ↔ readOk = true ∨ s.disk.get key = none := by
  obtain ⟨hused, hentries⟩ := accounted_iff.mp h
  rw [@accountMetaTransition_eq { s with disk := s.disk.write key m } _ _ hused hentries,
    accounted_write_iff]
  cases readOk with
  | true => exact iff_of_true ⟨rfl, rfl⟩ (.inl rfl)
  | false =>
    cases hold : s.disk.get key with
    | none => exact iff_of_true ⟨rfl, rfl⟩ (.inr rfl)
    | some old =>
      -- the entry was there, and is counted once more
      refine iff_of_false (fun hacc => ?_) nofun
      have hcount : wrap64 s.disk.count = wrap64 (s.disk.count + 1) :=
        (congrArg wrap64 (add_zero s.disk.count).symm).trans hacc.2.symm
      exact absurd ((wrap64_eq_add_iff _ _).mp hcount) (by decide)

theorem accounted_publish_iff {s' : Usage} {op : Publication} {readOk writeOk syncOk : Bool}
    (h : s.Accounted) (hs : s.step (.publish key op readOk writeOk syncOk) = some s') :
    s'.Accounted ↔ s.Clean (.publish key op readOk writeOk syncOk) := by
  rw [step] at hs
  rw [Clean]
  cases hnew : op.newMeta (if readOk then s.disk.get key else none) with
  | none =>
    simp only [hnew] at hs
    cases hs
    exact iff_of_true h (fun _ => nofun)
  | some m =>
    simp only [hnew, Option.some.injEq, forall_eq'] at hs ⊢
    cases writeOk with
    | false =>
      cases hs
      exact iff_of_true h nofun
    | true =>
      rw [if_neg (by decide)] at hs
      refine Iff.trans ?_ (forall_prop_of_true rfl).symm
      by_cases hsync : (op.syncs && !syncOk) = true
      · rw [if_pos hsync] at hs ⊢
        cases hs
        exact accounted_unsynced_iff h key m
      · rw [if_neg hsync] at hs ⊢
        cases hs
        exact accounted_transition_iff h key m readOk

theorem Accounted.trim (h : s.Accounted) (hm : s.disk.get key = some m) (originPath : Bytes)
    (originPaths : List Bytes) :
    (⟨s.disk.write key { m with originPath := originPath, originPaths := originPaths },
      s.usedBytes, s.entryCount⟩ : Usage).Accounted := by
  refine (accounted_unsynced_iff h key _).mpr ?_
  rw [hm]
  exact ⟨rfl, rfl⟩

theorem metaTotal_some (m : Meta) :
    metaTotal (some m) = if 0 < m.total.getD 0 then m.total.getD 0 else 0 := by
  cases ht : m.total with
  | none => simp [metaTotal, ht]
  | some t =>
    simp only [metaTotal, ht, Option.getD_some]
    by_cases hpos : 0 < t
    · rw [if_neg (by omega), if_pos hpos]
    · rw [if_pos (by omega), if_neg hpos]

theorem Accounted.remove (h : s.Accounted) (hm : s.disk.get key = some m) :
    (⟨s.disk.remove key,
      if 0 < m.total.getD 0 then wrap64 (s.usedBytes - m.total.getD 0) else s.usedBytes,
      wrap64 (s.entryCount - 1)⟩ : Usage).Accounted := by
  obtain ⟨hused, hentries⟩ := accounted_iff.mp h
  rw [accounted_remove_iff hm, metaTotal_some, hused, hentries]
  refine ⟨?_, Int.bmod_sub_bmod⟩
  by_cases hpos : 0 < m.total.getD 0
  · rw [if_pos hpos, if_pos hpos]
    exact Int.bmod_sub_bmod
  · rw [if_neg hpos, if_neg hpos, sub_zero]

theorem accounted_step_iff {s' : Usage} {e : UsageEvent} (h : s.Accounted)
    (hs : s.step e = some s') : s'.Accounted ↔ s.Clean e := by
  cases e with
  | publish key op readOk writeOk syncOk => exact accounted_publish_iff h hs
  | trim key originPath originPaths writeOk =>
    refine iff_of_true ?_ trivial
    rw [step] at hs
    cases hm : s.disk.get key with
    | none => simp [hm] at hs
    | some m =>
      simp only [hm] at hs
      split at hs
      · cases hs
        exact h
      · cases hs
        exact h.trim hm originPath originPaths
  | remove key =>
    refine iff_of_true ?_ trivial
    rw [step] at hs
    cases hm : s.disk.get key with
    | none => simp [hm] at hs
    | some m =>
      simp only [hm] at hs
      cases hs
      exact h.remove hm
  | removeFails key gone =>
    rw [step] at hs
    cases hm : s.disk.get key with
    | none => simp [hm] at hs
    | some m =>
      simp only [hm] at hs
      cases hs
      cases gone with
      | false => exact iff_of_true h rfl
      | true =>
        -- the entry is gone, and still counted
        refine iff_of_false (fun hacc => ?_) nofun
        have hcount := ((accounted_remove_iff hm).mp hacc).2
        rw [(accounted_iff.mp h).2, sub_eq_add_neg] at hcount
        exact absurd ((wrap64_eq_add_iff _ _).mp hcount) (by decide)

theorem accounted_warm (disk : Directory Bytes Meta) : (warm disk).Accounted :=
  ⟨by rw [warm], by rw [warm]⟩

/-- **The counters are what a restart would count, exactly if no failure comes between an
entry and its account.** -/
theorem accounted_throughout_iff {disk : Directory Bytes Meta} {es : List UsageEvent} {s : Usage}
    (hrun : Runs.run step (warm disk) es = some s) :
    Runs.Throughout step Accounted (warm disk) es ↔ Runs.Meets step Clean (warm disk) es :=
  @Runs.throughout_iff_meets _ _ _ Clean Accounted (fun _ => True) (fun _ => True)
    (fun _ _ _ _ h _ hs => ⟨trivial, accounted_step_iff h hs⟩) _ s es trivial
    (accounted_warm disk) (fun _ _ => trivial) hrun

instance (s : Usage) : (e : UsageEvent) → Decidable (s.Clean e)
  | .publish key op readOk writeOk syncOk =>
    inferInstanceAs (Decidable (∀ m ∈ op.newMeta (if readOk then s.disk.get key else none),
      writeOk = true → if op.syncs && !syncOk then (s.disk.get key).isSome = true
        ∧ wrap64 (metaTotal (some m)) = wrap64 (metaTotal (s.disk.get key))
      else readOk = true ∨ s.disk.get key = none))
  | .removeFails _ gone => inferInstanceAs (Decidable (gone = false))
  | .trim _ _ _ _ | .remove _ => isTrue trivial

def commitThree : Publication := .commit { status := 200, start := 0, length := 3, total := 3 } 3

/-- It is stored, trimmed, fetched again with a directory that cannot be synced, and
removed. -/
theorem accounted_throughout_three :
    Runs.Throughout step Accounted (warm .empty)
      [.publish [107] commitThree true true true, .trim [107] [] [] true,
        .publish [107] commitThree true true false, .remove [107]] := by
  obtain ⟨s, hs⟩ := Option.isSome_iff_exists.mp
    (show (Runs.run step (warm .empty)
      [.publish [107] commitThree true true true, .trim [107] [] [] true,
        .publish [107] commitThree true true false, .remove [107]]).isSome = true by
        decide +kernel)
  exact (accounted_throughout_iff hs).mpr (by decide +kernel)

/-- **A directory that cannot be synced leaves an entry that nobody counts.** -/
theorem unsynced_commit_not_counted :
    ∃ s, Runs.run step (warm .empty) [.publish [107] commitThree true true false] = some s
      ∧ (s.usedBytes, s.entryCount) = (0, 0) ∧ scanUsageCounters s.disk = (3, 1)
      ∧ ¬ s.Accounted := by
  have hcounted : ∃ s ∈ Runs.run step (warm .empty) [.publish [107] commitThree true true false],
      (s.usedBytes, s.entryCount) = (0, 0) ∧ scanUsageCounters s.disk = (3, 1) := by
    decide +kernel
  obtain ⟨s, hs, hcounters, hscan⟩ := hcounted
  refine ⟨s, hs, hcounters, hscan, fun h => ?_⟩
  have hused : s.usedBytes = 3 := by rw [h.used, hscan]
  have hzero : s.usedBytes = 0 := congrArg Prod.fst hcounters
  omega

end Usage

end Cache
