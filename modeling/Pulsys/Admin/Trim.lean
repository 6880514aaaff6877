import Pulsys.Admin.Purge
import Pulsys.Cache.WellFormed

/-!
# Trimming beside writers

A trim reads the entry and later replaces it, not under one lock. The entry keeps up with
all that was published, less the owner trimmed, exactly if no trim overwrites anything
that it had not read (`kept_throughout_iff`).
-/

namespace Admin

open Bytes Cache Parties

def owners (m : Meta) : List Bytes := (originFields m).filter (· ≠ [])

def ownersOf (old : Option Meta) : List Bytes := (old.map owners).getD []

variable {p : Bytes}

theorem mem_owners {m : Meta} : p ∈ owners m ↔ p ∈ originFields m ∧ p ≠ [] := by
  simp [owners]

theorem mem_owners_removeOwner {m : Meta} {org name : Bytes} :
    p ∈ owners (removeOwner m org name) ↔ p ∈ owners m ∧ modelOf p ≠ some (org, name) := by
  rw [mem_owners, mem_owners]
  constructor
  · rintro ⟨hmem, hne⟩
    obtain ⟨hold, hother⟩ := (mem_originFields_removeOwner hne).mp hmem
    exact ⟨⟨hold, hne⟩, hother⟩
  · rintro ⟨⟨hold, hne⟩, hother⟩
    exact ⟨(mem_originFields_removeOwner hne).mpr ⟨hold, hother⟩, hne⟩

theorem mem_appendOwner {paths : List Bytes} {owner : Bytes} (h : p ∈ paths) :
    p ∈ appendOwner paths owner := by
  unfold appendOwner
  split
  · exact h
  dsimp only
  split
  · exact h
  split
  · exact h
  · generalize searchStrings paths owner (paths.length + 1) 0 paths.length = i
    by_cases hi : i ≤ paths.length
    · exact (List.mem_insertIdx hi).mpr (.inr h)
    · rwa [List.insertIdx_of_length_lt (by omega)]

theorem mem_owners_owned {params : SegmentParams} {old : Option Meta} (h : p ∈ ownersOf old) :
    p ∈ owners (params.owned old) := by
  cases old with
  | none => simp [ownersOf] at h
  | some m =>
    obtain ⟨hmem, hne⟩ := mem_owners.mp h
    refine mem_owners.mpr ⟨?_, hne⟩
    rcases List.mem_cons.mp hmem with rfl | hmem
    · have hkeep : (params.owned (some m)).originPath = m.originPath := if_neg hne
      rw [originFields, hkeep]
      exact List.mem_cons_self
    · refine List.mem_cons_of_mem _ ?_
      show p ∈ if params.originPath = [] then m.originPaths
        else appendOwner m.originPaths params.originPath
      split
      · exact hmem
      · exact mem_appendOwner hmem

inductive TrimEvent
  | segment (e : Event)
  | read
  | write (t : ℕ)

structure Ledger where
  spans : List Span
  total : Option ℤ
  owners : List Bytes

def Ledger.ofEntry (old : Option Meta) : Ledger :=
  ⟨spansOf old, old.bind Meta.total, ownersOf old⟩

def Ledger.publish (l : Ledger) (old : Option Meta) : Ledger :=
  ⟨l.spans ++ spansOf old, old.bind Meta.total, l.owners ++ ownersOf old⟩

def Ledger.strike (l : Ledger) (org name : Bytes) : Ledger :=
  { l with owners := l.owners.filter (fun p => !pathMatches p org name) }

structure Trimming where
  slot : Slot
  ledger : Ledger

namespace Trimming

variable (key : Bytes) (interval : ℤ) (org name : Bytes)

def slotStep (s : Slot) : TrimEvent → Option Slot
  | .segment e => if e.isSegment then s.step key interval e else none
  | .read =>
    match s.entry with
    | none => none
    | some m =>
      match purgeDecision org name m with
      | .trim _ => s.step key interval .trimRead
      | _ => none
  | .write t =>
    match s.trims t with
    | none => none
    | some tr =>
      let trimmed := removeOwner tr.entry org name
      s.step key interval (.trimWrite t trimmed.originPath trimmed.originPaths)

def note (l : Ledger) (s : Slot) : TrimEvent → Ledger
  | .segment (.checkpoint _) => l.publish s.entry
  | .segment (.commit _) => l.publish s.entry
  | .write _ => l.strike org name
  | _ => l

def step (st : Trimming) (e : TrimEvent) : Option Trimming :=
  (slotStep key interval org name st.slot e).map
    (fun s => ⟨s, note org name st.ledger s e⟩)

structure Kept (st : Trimming) : Prop where
  spans : ∀ o, Covered st.ledger.spans o → Covered (spansOf st.slot.entry) o
  total : st.slot.entry.bind Meta.total = st.ledger.total
  owners : ∀ p ∈ st.ledger.owners, p ∈ ownersOf st.slot.entry

structure Contains (old : Option Meta) (m : Meta) : Prop where
  spans : ∀ o, Covered (spansOf old) o → Covered m.spans o
  total : old.bind Meta.total = m.total
  owners : ∀ p ∈ ownersOf old, modelOf p ≠ some (org, name) → p ∈ Admin.owners m

def UpToDate (st : Trimming) : TrimEvent → Prop
  | .write t => ∀ tr, st.slot.trims t = some tr → Contains org name st.slot.entry tr.entry
  | _ => True

instance (old : Option Meta) (m : Meta) : Decidable (Contains org name old m) :=
  decidable_of_iff ((∀ o, Covered (spansOf old) o → Covered m.spans o)
      ∧ old.bind Meta.total = m.total
      ∧ ∀ p ∈ ownersOf old, modelOf p ≠ some (org, name) → p ∈ Admin.owners m)
    ⟨fun h => ⟨h.1, h.2.1, h.2.2⟩, fun h => ⟨h.spans, h.total, h.owners⟩⟩

instance (st : Trimming) : (e : TrimEvent) → Decidable (UpToDate org name st e)
  | .write t => inferInstanceAs
      (Decidable (∀ tr ∈ st.slot.trims t, Contains org name st.slot.entry tr.entry))
  | .segment _ | .read => isTrue trivial

inductive Outcome (st : Trimming) : TrimEvent → Trimming → Prop
  | other {e : TrimEvent} {s : Slot} (hentry : s.entry = st.slot.entry)
      (htrims : s.trims = st.slot.trims) (hnote : ∀ t, e ≠ .write t) :
      Outcome st e ⟨s, st.ledger⟩
  | publish {e : TrimEvent} {s : Slot} {m : Meta} (hentry : s.entry = some m)
      (htrims : s.trims = st.slot.trims) (hnote : ∀ t, e ≠ .write t)
      (hspans : ∀ o, Covered (spansOf st.slot.entry) o → Covered m.spans o)
      (howners : ∀ p ∈ ownersOf st.slot.entry, p ∈ Admin.owners m) :
      Outcome st e ⟨s, st.ledger.publish (some m)⟩
  | read {s : Slot} {m : Meta} {file : Option ℕ} (hm : st.slot.entry = some m)
      (hentry : s.entry = some m)
      (htrims : s.trims = Function.update st.slot.trims st.slot.nextTrim (some ⟨m, file⟩)) :
      Outcome st .read ⟨s, st.ledger⟩
  | write {t : ℕ} {tr : Trim} {s : Slot} (ht : st.slot.trims t = some tr)
      (hentry : s.entry = some (removeOwner tr.entry org name))
      (htrims : s.trims = Function.update st.slot.trims t none) :
      Outcome st (.write t) ⟨s, st.ledger.strike org name⟩

variable {key interval org name}

variable {st st' : Trimming} {e : TrimEvent} {l : Ledger}

theorem outcome_of_step (h : step key interval org name st e = some st') :
    Outcome org name st e st' := by
  obtain ⟨s, hs, rfl⟩ := Option.map_eq_some_iff.mp h
  cases e with
  | segment e =>
    obtain ⟨hseg, hs⟩ := Option.ite_none_right_eq_some.mp hs
    cases Slot.steps_of_step hs with
    | beginSegment | cut | cutFails | write | abandon => exact .other rfl rfl nofun
    | checkpoint hw hr hpos =>
      refine .publish rfl rfl nofun (fun o ho => ?_) (fun p hp => mem_owners_owned hp)
      exact (covered_checkpointMeta _ _ _ o).mpr (.inl ho)
    | commit hw hr =>
      refine .publish rfl rfl nofun (fun o ho => ?_) (fun p hp => mem_owners_owned hp)
      exact (covered_commitMeta _ _ _ o).mpr (.inl ho)
    | redirect | storeAlias | trimRead | trimWrite | purgeRead | remove => cases hseg
  | read =>
    cases hm : st.slot.entry with
    | none => simp [slotStep, hm] at hs
    | some m =>
      simp only [slotStep, hm] at hs
      cases hd : purgeDecision org name m with
      | keep | remove => simp [hd] at hs
      | trim trimmed =>
        simp only [hd] at hs
        cases Slot.steps_of_step hs with
        | trimRead hm' =>
          cases hm.symm.trans hm'
          exact .read hm hm rfl
  | write t =>
    cases ht : st.slot.trims t with
    | none => simp [slotStep, ht] at hs
    | some tr =>
      simp only [slotStep, ht] at hs
      cases Slot.steps_of_step hs with
      | trimWrite ht' =>
        cases ht.symm.trans ht'
        exact .write ht rfl rfl

structure Within (org name : Bytes) (l : Ledger) (old : Option Meta) : Prop where
  spans : ∀ o, Covered (spansOf old) o → Covered l.spans o
  owners : ∀ p ∈ ownersOf old, modelOf p ≠ some (org, name) → p ∈ l.owners

theorem within_ofEntry (old : Option Meta) : Within org name (.ofEntry old) old :=
  ⟨fun _ h => h, fun _ h _ => h⟩

theorem within_publish (l : Ledger) (old : Option Meta) :
    Within org name (l.publish old) old :=
  ⟨fun _ h => covered_append.mpr (.inr h), fun _ h _ => List.mem_append_right _ h⟩

theorem Within.publish {old : Option Meta} (h : Within org name l old) (new : Option Meta) :
    Within org name (l.publish new) old :=
  ⟨fun o ho => covered_append.mpr (.inl (h.spans o ho)),
    fun p hp hne => List.mem_append_left _ (h.owners p hp hne)⟩

theorem mem_strike {p : Bytes} :
    p ∈ (l.strike org name).owners ↔ p ∈ l.owners ∧ modelOf p ≠ some (org, name) := by
  rw [Ledger.strike, List.mem_filter, ne_eq, ← pathMatches_iff]
  simp

theorem Within.strike {old : Option Meta} (h : Within org name l old) :
    Within org name (l.strike org name) old :=
  ⟨h.spans, fun p hp hne => mem_strike.mpr ⟨h.owners p hp hne, hne⟩⟩

theorem Within.removeOwner {m : Meta} (h : Within org name l (some m)) :
    Within org name (l.strike org name) (some (removeOwner m org name)) :=
  ⟨h.spans, fun p hp hne =>
    mem_strike.mpr ⟨h.owners p (mem_owners_removeOwner.mp hp).1 hne, hne⟩⟩

structure Backed (org name : Bytes) (st : Trimming) : Prop where
  entry : Within org name st.ledger st.slot.entry
  trim : ∀ t tr, st.slot.trims t = some tr → Within org name st.ledger (some tr.entry)

theorem Backed.step (h : Backed org name st) (hs : step key interval org name st e = some st') :
    Backed org name st' := by
  cases outcome_of_step hs with
  | other hentry htrims _ => exact ⟨hentry ▸ h.entry, htrims ▸ h.trim⟩
  | publish hentry htrims _ hspans howners =>
    refine ⟨?_, htrims ▸ fun t tr ht => (h.trim t tr ht).publish _⟩
    rw [hentry]
    exact within_publish _ _
  | read hm hentry htrims =>
    refine ⟨hentry ▸ hm ▸ h.entry, htrims ▸ fun t tr ht => ?_⟩
    rcases update_eq_some ht with ⟨-, heq⟩ | ⟨-, hold⟩
    · cases heq
      exact hm ▸ h.entry
    · exact h.trim t tr hold
  | write ht hentry htrims =>
    refine ⟨hentry ▸ (h.trim _ _ ht).removeOwner, htrims ▸ fun t' tr' ht' => ?_⟩
    rcases update_eq_some ht' with ⟨-, heq⟩ | ⟨-, hold⟩
    · cases heq
    · exact (h.trim t' tr' hold).strike

theorem kept_step_iff (hb : Backed org name st) (h : st.Kept)
    (hs : step key interval org name st e = some st') : st'.Kept ↔ UpToDate org name st e := by
  have hfree : (∀ t, e ≠ .write t) → UpToDate org name st e := by
    intro hnote
    cases e with
    | write t => exact absurd rfl (hnote t)
    | _ => exact trivial
  cases outcome_of_step hs with
  | other hentry htrims hnote =>
    refine iff_of_true ⟨?_, ?_, ?_⟩ (hfree hnote)
    · exact fun o ho => hentry ▸ h.spans o ho
    · exact hentry ▸ h.total
    · exact fun p hp => hentry ▸ h.owners p hp
  | publish hentry htrims hnote hspans howners =>
    refine iff_of_true ⟨fun o ho => ?_, ?_, fun p hp => ?_⟩ (hfree hnote)
    · rw [hentry]
      rcases covered_append.mp ho with ho | ho
      · exact hspans o (h.spans o ho)
      · exact ho
    · rw [hentry]
      rfl
    · rw [hentry]
      rcases List.mem_append.mp hp with hp | hp
      · exact howners p (h.owners p hp)
      · exact hp
  | read hm hentry htrims =>
    have hsame := hentry.trans hm.symm
    refine iff_of_true ⟨?_, ?_, ?_⟩ trivial
    · exact fun o ho => hsame ▸ h.spans o ho
    · exact hsame ▸ h.total
    · exact fun p hp => hsame ▸ h.owners p hp
  | @write t tr s ht hentry htrims =>
    -- the ledger lies between what is on record and what the trim has read
    constructor
    · intro h' tr' ht'
      cases ht.symm.trans ht'
      refine ⟨fun o ho => ?_, ?_, fun p hp hne => ?_⟩
      · have := h'.spans o (hb.entry.spans o ho)
        rwa [hentry] at this
      · have hnew : tr.entry.total = st.ledger.total := by
          have := h'.total
          rwa [hentry] at this
        exact h.total.trans hnew.symm
      · have := h'.owners p (mem_strike.mpr ⟨hb.entry.owners p hp hne, hne⟩)
        rw [hentry] at this
        exact (mem_owners_removeOwner.mp this).1
    · intro hup
      obtain ⟨hspans, htotal, howners⟩ := hup tr ht
      refine ⟨fun o ho => ?_, ?_, fun p hp => ?_⟩
      · rw [hentry]
        exact hspans o (h.spans o ho)
      · rw [hentry]
        exact htotal.symm.trans h.total
      · obtain ⟨hold, hne⟩ := mem_strike.mp hp
        rw [hentry]
        exact mem_owners_removeOwner.mpr ⟨howners p (h.owners p hold) hne, hne⟩

/-- **Trimming an owner loses nothing else, exactly as long as no trim overwrites what it has
not read.** -/
theorem kept_throughout_iff {s₀ : Slot} (hnone : ∀ t, s₀.trims t = none)
    {es : List TrimEvent} {st : Trimming}
    (hrun : Runs.run (step key interval org name) ⟨s₀, .ofEntry s₀.entry⟩ es = some st) :
    Runs.Throughout (step key interval org name) Kept ⟨s₀, .ofEntry s₀.entry⟩ es
      ↔ Runs.Meets (step key interval org name) (UpToDate org name)
          ⟨s₀, .ofEntry s₀.entry⟩ es := by
  refine @Runs.throughout_iff_meets _ _ _ (UpToDate org name) Kept (Backed org name)
    (fun _ => True) (fun st e st' hb hk _ hs => ⟨hb.step hs, kept_step_iff hb hk hs⟩) _ st es
    ⟨within_ofEntry _, fun t tr ht => ?_⟩ ⟨fun _ h => h, rfl, fun _ h => h⟩
    (fun _ _ => trivial) hrun
  rw [hnone t] at ht
  cases ht

def sixBytesPart (start length : ℤ) (originPath : Bytes) : SegmentParams :=
  { status := 206, start := start, length := length, total := 6, originPath := originPath }

def sharedFetches : List TrimEvent :=
  [.beginSegment (sixBytesPart 0 3 (ascii "/o/n/resolve/main/f")), .truncate 0 true,
    .write 0 [1, 2, 3] 3, .commit 0,
    .beginSegment (sixBytesPart 3 2 (ascii "/p/q/resolve/main/f")), .truncate 1 true,
    .write 1 [4, 5] 2, .commit 1,
    .beginSegment (sixBytesPart 5 1 (ascii "/p/q/resolve/main/f")), .truncate 2 true,
    .write 2 [6] 1].map .segment

def sharedRun (es : List TrimEvent) : Option Trimming :=
  Runs.run (step [107] 0 (ascii "o") (ascii "n")) ⟨.empty, .ofEntry none⟩ (sharedFetches ++ es)

theorem kept_throughout_sharedFetches :
    Runs.Throughout (step [107] 0 (ascii "o") (ascii "n")) Kept ⟨.empty, .ofEntry none⟩
      (sharedFetches ++ [.read, .write 0, .segment (.commit 2)]) := by
  obtain ⟨st, hst⟩ := Option.isSome_iff_exists.mp
    (show (sharedRun [.read, .write 0, .segment (.commit 2)]).isSome = true by decide +kernel)
  exact (kept_throughout_iff (fun _ => rfl) hst).mpr (by decide +kernel)

/-- **A trim loses what is committed between its read and its write.** -/
theorem trim_loses_commit :
    (∃ st, sharedRun [.read, .segment (.commit 2)] = some st
      ∧ Covered (spansOf st.slot.entry) 5)
    ∧ (∃ st, sharedRun [.read, .segment (.commit 2), .write 0] = some st
      ∧ ¬ Covered (spansOf st.slot.entry) 5)
    ∧ ¬ Runs.Throughout (step [107] 0 (ascii "o") (ascii "n")) Kept ⟨.empty, .ofEntry none⟩
        (sharedFetches ++ [.read, .segment (.commit 2), .write 0]) := by
  have hbefore : ∃ st ∈ sharedRun [.read, .segment (.commit 2)],
      Covered (spansOf st.slot.entry) 5 := by
    decide +kernel
  have hafter : ∃ st ∈ sharedRun [.read, .segment (.commit 2), .write 0],
      ¬ Covered (spansOf st.slot.entry) 5 ∧ Covered st.ledger.spans 5 := by
    decide +kernel
  obtain ⟨st, hst, hlost, howed⟩ := hafter
  refine ⟨hbefore, ⟨st, hst, hlost⟩, fun h => ?_⟩
  exact hlost ((Runs.throughout_iff.mp h _ st List.prefix_rfl hst).spans 5 howed)

end Trimming

end Admin
