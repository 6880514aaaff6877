import Pulsys.Admin.Models

/-!
# Purging a model

A purge should leave nothing that the model owns, touch nothing else, and keep what others
own. Missing is exactly an entry whose own path names the model while its origin fields
name another one (`purged_iff_pathsUnshared`).
-/

namespace Admin

open Bytes Cache

structure Object where
  entry : Option Meta
  body : Bytes
  deriving DecidableEq

abbrev Objects := List (Bytes × Object)

inductive PurgeDecision
  | keep
  | trim (trimmed : Option Meta)
  | remove
  deriving DecidableEq

structure PurgeResult where
  purged : ℕ := 0
  trimmed : ℕ := 0
  bytesFreed : ℤ := 0
  deriving DecidableEq, Repr

inductive PurgeError
  | nilMeta (key : Bytes)
  | failed
  deriving DecidableEq

structure Walk where
  objects : Objects
  res : PurgeResult
  err : Option PurgeError
  deriving DecidableEq

def Walk.keeping (e : Bytes × Object) (w : Walk) : Walk := { w with objects := e :: w.objects }

def purgeOrTrim (writes : Bytes → Bool) (decision : Bytes → Meta → PurgeDecision) :
    Objects → PurgeResult → Walk
  | [], res => ⟨[], res, none⟩
  | (key, obj) :: rest, res =>
    match obj.entry with
    | none => (purgeOrTrim writes decision rest res).keeping (key, obj)
    | some m =>
      match decision key m with
      | .keep => (purgeOrTrim writes decision rest res).keeping (key, obj)
      | .trim none => ⟨(key, obj) :: rest, res, some (.nilMeta key)⟩
      | .trim (some trimmed) =>
        if writes key then
          (purgeOrTrim writes decision rest { res with trimmed := res.trimmed + 1 }).keeping
            (key, { obj with entry := some trimmed })
        else ⟨(key, obj) :: rest, res, some .failed⟩
      | .remove =>
        let res := { res with bytesFreed := Text.wrap64 (res.bytesFreed + m.total.getD 0) }
        if writes key then purgeOrTrim writes decision rest { res with purged := res.purged + 1 }
        else ⟨(key, obj) :: rest, res, some .failed⟩

def validHFNameSegment (s : Bytes) : Bool :=
  if s = [] ∨ 96 < s.length then false
  else if s.head? = some 46 then false
  else if s = ascii ".." ∨ s = ascii "." then false
  else s.all (fun c => (97 ≤ c && c ≤ 122) || (65 ≤ c && c ≤ 90) || (48 ≤ c && c ≤ 57)
    || (c == 45 || c == 95 || c == 46))

def purgeDecision (org name : Bytes) (m : Meta) : PurgeDecision :=
  if !ownedBy m org name then .keep
  else
    let trimmed := removeOwner m org name
    if !hasAnyOwner trimmed then .remove else .trim (some trimmed)

inductive PurgeReply
  | error (status : ℕ) (text : Bytes)
  | done (res : PurgeResult)
  deriving DecidableEq

def purgeCacheByPrefix (available : Bool) (writes : Bytes → Bool) (req : Option (Bytes × Bytes))
    (objects : Objects) : Objects × PurgeReply :=
  if !available then (objects, .error 503 (ascii "cache store unavailable"))
  else
    match req with
    | none => (objects, .error 400 (ascii "invalid json"))
    | some (org, name) =>
      if org = [] ∨ name = [] then (objects, .error 400 (ascii "org and name required"))
      else if !validHFNameSegment org then (objects, .error 400 (ascii "invalid org segment"))
      else if !validHFNameSegment name then (objects, .error 400 (ascii "invalid name segment"))
      else
        let walk := purgeOrTrim writes (fun _ m => purgeDecision org name m) objects {}
        match walk.err with
        | some _ => (walk.objects, .error 500 (ascii "purge failed"))
        | none => (walk.objects, .done walk.res)

def PurgeDecision.act (decision : Bytes → Meta → PurgeDecision) (e : Bytes × Object) :
    Option (Bytes × Object) :=
  match e.2.entry with
  | none => some e
  | some m =>
    match decision e.1 m with
    | .keep => some e
    | .trim none => some e
    | .trim (some trimmed) => some (e.1, { e.2 with entry := some trimmed })
    | .remove => none

theorem objects_purgeOrTrim {writes : Bytes → Bool} {decision : Bytes → Meta → PurgeDecision}
    {objects : Objects} {res : PurgeResult}
    (h : (purgeOrTrim writes decision objects res).err = none) :
    (purgeOrTrim writes decision objects res).objects
      = objects.filterMap (PurgeDecision.act decision) := by
  induction objects generalizing res with
  | nil => rfl
  | cons e rest ih =>
    obtain ⟨key, obj⟩ := e
    rw [List.filterMap_cons, PurgeDecision.act]
    rw [purgeOrTrim] at h ⊢
    cases hentry : obj.entry with
    | none =>
      simp only [hentry] at h ⊢
      exact congrArg _ (ih h)
    | some m =>
      simp only [hentry] at h ⊢
      cases hdec : decision key m with
      | keep =>
        simp only [hdec] at h ⊢
        exact congrArg _ (ih h)
      | trim trimmed =>
        cases trimmed with
        | none => simp [hdec] at h
        | some trimmed =>
          simp only [hdec] at h ⊢
          by_cases hw : writes key = true
          · rw [if_pos hw] at h ⊢
            exact congrArg _ (ih h)
          · rw [if_neg hw] at h
            cases h
      | remove =>
        simp only [hdec] at h ⊢
        by_cases hw : writes key = true
        · rw [if_pos hw] at h ⊢
          exact ih h
        · rw [if_neg hw] at h
          cases h

theorem objects_purgeCacheByPrefix {available : Bool} {writes : Bytes → Bool} {org name : Bytes}
    {objects after : Objects} {res : PurgeResult}
    (h : purgeCacheByPrefix available writes (some (org, name)) objects = (after, .done res)) :
    after = objects.filterMap (PurgeDecision.act (fun _ m => purgeDecision org name m)) := by
  unfold purgeCacheByPrefix at h
  split at h
  · cases h
  dsimp only at h
  split at h
  · cases h
  split at h
  · cases h
  split at h
  · cases h
  split at h
  · cases h
  · next herr =>
    obtain ⟨rfl, -⟩ := Prod.mk.inj h
    exact objects_purgeOrTrim herr

theorem act_purgeDecision {org name key : Bytes} {obj : Object} {m : Meta}
    (hm : obj.entry = some m) :
    PurgeDecision.act (fun _ m => purgeDecision org name m) (key, obj)
      = if ownedBy m org name = true then
          if SharedBeside m org name then
            some (key, { obj with entry := some (removeOwner m org name) })
          else none
        else some (key, obj) := by
  unfold PurgeDecision.act
  simp only [hm, purgeDecision]
  by_cases howned : ownedBy m org name = true
  · by_cases hshared : SharedBeside m org name
    · simp [howned, hshared, hasAnyOwner_removeOwner.mpr hshared]
    · simp [howned, hshared, mt hasAnyOwner_removeOwner.mp hshared]
  · simp [howned]

structure Purged (org name : Bytes) (before after : Objects) : Prop where
  complete : ∀ e ∈ after, ∀ m, e.2.entry = some m → ownedBy m org name = false
  others : ∀ e ∈ before, (∀ m, e.2.entry = some m → ownedBy m org name = false) → e ∈ after
  shared : ∀ e ∈ before, ∀ m, e.2.entry = some m → SharedBeside m org name →
    ∃ m', (e.1, { e.2 with entry := some m' }) ∈ after ∧ m'.spans = m.spans
      ∧ m'.total = m.total
      ∧ ∀ o n, (o, n) ≠ (org, name) → ownedBy m o n = true → ownedBy m' o n = true

def PathsUnshared (org name : Bytes) (objects : Objects) : Prop :=
  ∀ e ∈ objects, ∀ m, e.2.entry = some m → modelOf m.path = some (org, name) →
    ¬ SharedBeside m org name

/-- **A purge is precise whatever the entries are**, and complete exactly if no
entry is the purged model's by its own path and another's by its origin. -/
theorem purged_iff_pathsUnshared {available : Bool} {writes : Bytes → Bool} {org name : Bytes}
    {objects after : Objects} {res : PurgeResult}
    (h : purgeCacheByPrefix available writes (some (org, name)) objects = (after, .done res)) :
    Purged org name objects after ↔ PathsUnshared org name objects := by
  have hafter := objects_purgeCacheByPrefix h
  constructor
  · -- such an entry would be trimmed, and its own path still names the model
    intro hp e he m hm hpath hshared
    have howned : ownedBy m org name = true := ownedBy_iff.mpr (.inl hpath)
    have hact := @act_purgeDecision org name e.1 e.2 m hm
    rw [if_pos howned, if_pos hshared] at hact
    have hmem : (e.1, { e.2 with entry := some (removeOwner m org name) }) ∈ after := by
      rw [hafter]
      exact List.mem_filterMap.mpr ⟨e, he, hact⟩
    have := hp.complete _ hmem _ rfl
    rw [ownedBy_removeOwner_self.mpr hpath] at this
    cases this
  · intro hun
    refine ⟨fun e' he' m' hm' => ?_, fun e he hnot => ?_, fun e he m hm hshared => ?_⟩
    · rw [hafter] at he'
      obtain ⟨e, he, hact⟩ := List.mem_filterMap.mp he'
      obtain ⟨key, obj⟩ := e
      cases hm : obj.entry with
      | none =>
        obtain rfl : (key, obj) = e' := by
          simpa [PurgeDecision.act, hm] using hact
        exact absurd (hm.symm.trans hm') nofun
      | some m =>
        rw [act_purgeDecision hm] at hact
        by_cases howned : ownedBy m org name = true
        · rw [if_pos howned] at hact
          obtain ⟨hshared, hact⟩ := Option.ite_none_right_eq_some.mp hact
          cases hact
          cases hm'
          rw [← Bool.not_eq_true, ownedBy_removeOwner_self]
          exact fun hpath => hun (key, obj) he m hm hpath hshared
        · rw [if_neg howned] at hact
          cases hact
          cases hm.symm.trans hm'
          simpa using howned
    · rw [hafter]
      refine List.mem_filterMap.mpr ⟨e, he, ?_⟩
      cases hm : e.2.entry with
      | none => simp [PurgeDecision.act, hm]
      | some m => rw [act_purgeDecision hm, if_neg (by simp [hnot m hm])]
    · by_cases howned : ownedBy m org name = true
      · refine ⟨removeOwner m org name, ?_, rfl, rfl, fun o n hne ho => ?_⟩
        · rw [hafter]
          refine List.mem_filterMap.mpr ⟨e, he, ?_⟩
          rw [act_purgeDecision hm, if_pos howned, if_pos hshared]
        · rwa [ownedBy_removeOwner_of_ne hne]
      · refine ⟨m, ?_, rfl, rfl, fun o n _ ho => ho⟩
        rw [hafter]
        refine List.mem_filterMap.mpr ⟨e, he, ?_⟩
        rw [act_purgeDecision hm, if_neg howned, ← hm]

def sharedBody : Meta where
  path := ascii "/xet/2"
  originPath := ascii "/o/n/resolve/main/g"
  originPaths := [ascii "/o/n/resolve/main/g", ascii "/p/q/resolve/main/g"]
  spans := [⟨0, 1⟩]
  total := some 1

def ownAndShared : Objects :=
  [(ascii "1", ⟨some { path := ascii "/o/n/resolve/main/f" }, [1]⟩),
    (ascii "2", ⟨some sharedBody, [2]⟩)]

theorem purged_ownAndShared :
    ∃ after, purgeCacheByPrefix true (fun _ => true) (some (ascii "o", ascii "n")) ownAndShared
        = (after, .done { purged := 1, trimmed := 1 })
      ∧ Purged (ascii "o") (ascii "n") ownAndShared after := by
  have hrun : purgeCacheByPrefix true (fun _ => true) (some (ascii "o", ascii "n")) ownAndShared
      = ([(ascii "2", ⟨some (removeOwner sharedBody (ascii "o") (ascii "n")), [2]⟩)],
        .done { purged := 1, trimmed := 1 }) := by
    decide +kernel
  refine ⟨_, hrun, (purged_iff_pathsUnshared hrun).mpr ?_⟩
  have hun : ∀ e ∈ ownAndShared, ∀ m ∈ e.2.entry, modelOf m.path = some (ascii "o", ascii "n") →
      ¬ SharedBeside m (ascii "o") (ascii "n") := by
    decide +kernel
  exact hun

def borrowedFile : Meta where
  path := ascii "/o/n/resolve/main/f"
  originPath := ascii "/p/q/resolve/main/f"

/-- **An entry can survive the purge of its own model.** -/
theorem purge_leaves_owned_entry :
    purgeCacheByPrefix true (fun _ => true) (some (ascii "o", ascii "n"))
        [(ascii "1", ⟨some borrowedFile, [1]⟩)]
      = ([(ascii "1", ⟨some borrowedFile, [1]⟩)], .done { trimmed := 1 })
      ∧ ownedBy borrowedFile (ascii "o") (ascii "n") = true
      ∧ ¬ Purged (ascii "o") (ascii "n") [(ascii "1", ⟨some borrowedFile, [1]⟩)]
          [(ascii "1", ⟨some borrowedFile, [1]⟩)] := by
  have howned : ownedBy borrowedFile (ascii "o") (ascii "n") = true := by
    decide +kernel
  refine ⟨by decide +kernel, howned, fun h => ?_⟩
  have hnot := h.complete _ (List.mem_singleton_self _) _ rfl
  rw [howned] at hnot
  cases hnot

end Admin
