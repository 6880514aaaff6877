import Pulsys.Base.Runs
import Pulsys.Base.SparseFile
import Pulsys.Cache.Meta

/-!
# The directory of a key

A key has one directory with the body and the entry. Each writer has its own open file. A
step is a file operation or a critical section; beside the code's state the machine keeps
the responses, and with every byte the response that it is from.
-/

namespace Cache

open Bytes

structure Response where
  params : SegmentParams
  delivered : Bytes

structure SegmentWriter where
  file : ℕ
  ready : Bool := false
  written : ℕ := 0
  lastCheckpoint : ℕ := 0
  failed : Bool := false
  deriving DecidableEq, Repr

structure Trim where
  entry : Meta
  file : Option ℕ

abbrev Cell := ℕ × UInt8

structure Slot where
  entry : Option Meta
  body : Option ℕ
  files : ℕ → SparseFile Cell
  nextFile : ℕ
  responses : ℕ → Response
  nextResponse : ℕ
  writers : ℕ → Option SegmentWriter
  trims : ℕ → Option Trim
  nextTrim : ℕ
  removals : ℕ

inductive Event
  | beginSegment (p : SegmentParams)
  | truncate (id : ℕ) (ok : Bool)
  | write (id : ℕ) (bs : Bytes) (n : ℕ)
  | checkpoint (id : ℕ)
  | commit (id : ℕ)
  | abandon (id : ℕ)
  | redirect (r : Redirect)
  | storeAlias (a : Alias)
  | trimRead
  | trimWrite (t : ℕ) (originPath : Bytes) (originPaths : List Bytes)
  | purgeRead
  | remove

namespace Slot

def empty : Slot where
  entry := none
  body := none
  files := fun _ => .empty
  nextFile := 0
  responses := fun _ => ⟨{ status := 200, start := 0, length := -1, total := -1 }, []⟩
  nextResponse := 0
  writers := fun _ => none
  trims := fun _ => none
  nextTrim := 0
  removals := 0

def params (s : Slot) (id : ℕ) : SegmentParams := (s.responses id).params

def cell (s : Slot) (o : ℕ) : Option Cell := s.body.bind (fun i => (s.files i).get o)

def maxOffset : ℤ := 2 ^ 63 - 1

def openBody (s : Slot) (p : SegmentParams) : Slot :=
  let file := s.body.getD s.nextFile
  { s with
    body := some file
    files := if s.body.isSome then s.files else Function.update s.files s.nextFile .empty
    nextFile := if s.body.isSome then s.nextFile else s.nextFile + 1
    responses := Function.update s.responses s.nextResponse ⟨p, []⟩
    nextResponse := s.nextResponse + 1
    writers := Function.update s.writers s.nextResponse (some { file := file }) }

def cutBody (s : Slot) (id : ℕ) (w : SegmentWriter) : Slot :=
  { s with
    files := if 0 < (s.params id).total
      then Function.update s.files w.file ((s.files w.file).truncate (s.params id).total.toNat)
      else s.files
    writers := Function.update s.writers id (some { w with ready := true }) }

def writeBody (s : Slot) (id : ℕ) (w : SegmentWriter) (bs : Bytes) (n : ℕ) : Slot :=
  { s with
    files := Function.update s.files w.file ((s.files w.file).write
      ((s.params id).start.toNat + w.written) ((bs.take n).map (id, ·)))
    responses := Function.update s.responses id
      { s.responses id with delivered := (s.responses id).delivered ++ bs }
    writers := Function.update s.writers id
      (some { w with written := w.written + n, failed := decide (n < bs.length) }) }

def step (key : Bytes) (interval : ℤ) (s : Slot) : Event → Option Slot
  | .beginSegment p => if validateSegmentParams key p then some (s.openBody p) else none
  | .truncate id ok =>
    match s.writers id with
    | none => none
    | some w =>
      if w.ready then none
      else if ok then some (s.cutBody id w)
      else some { s with writers := Function.update s.writers id none }
  | .write id bs n =>
    match s.writers id with
    | none => none
    | some w =>
      if w.ready ∧ w.failed = false ∧ bs ≠ [] ∧ n ≤ bs.length
          ∧ (s.params id).start + w.written + n ≤ maxOffset
      then some (s.writeBody id w bs n)
      else none
  | .checkpoint id =>
    match s.writers id with
    | none => none
    | some w =>
      if w.ready ∧ w.failed = false ∧ 0 < interval
          ∧ interval ≤ (w.written : ℤ) - w.lastCheckpoint
      then some { s with
        entry := some ((s.params id).checkpointMeta w.written s.entry)
        writers := Function.update s.writers id (some { w with lastCheckpoint := w.written }) }
      else none
  | .commit id =>
    match s.writers id with
    | none => none
    | some w =>
      if w.ready then some { s with
        entry := some ((s.params id).commitMeta w.written s.entry)
        writers := Function.update s.writers id none }
      else none
  | .abandon id =>
    match s.writers id with
    | none => none
    | some w =>
      if w.ready then some { s with writers := Function.update s.writers id none } else none
  | .redirect r =>
    if r.valid then some { s with entry := some (redirectMeta r s.entry) } else none
  | .storeAlias a =>
    if a.canonicalKey = [] ∨ a.canonicalKey = key then none
    else some { s with entry := (aliasMeta a s.entry).or s.entry }
  | .trimRead =>
    match s.entry with
    | none => none
    | some m => some { s with
        trims := Function.update s.trims s.nextTrim (some ⟨m, s.body⟩)
        nextTrim := s.nextTrim + 1 }
  | .trimWrite t originPath originPaths =>
    match s.trims t with
    | none => none
    | some tr => some { s with
        entry := some { tr.entry with originPath := originPath, originPaths := originPaths }
        trims := Function.update s.trims t none }
  | .purgeRead =>
    if s.entry.isSome then some { s with removals := s.removals + 1 } else none
  | .remove =>
    if s.removals = 0 then none
    else some { s with entry := none, body := none, removals := s.removals - 1 }

@[simp]
theorem cell_openBody (s : Slot) (p : SegmentParams) (o : ℕ) :
    (s.openBody p).cell o = s.cell o := by
  unfold openBody cell
  cases s.body with
  | none => simp
  | some i => simp

theorem cell_cutBody (s : Slot) (id : ℕ) (w : SegmentWriter) (o : ℕ) :
    (s.cutBody id w).cell o
      = if 0 < (s.params id).total ∧ s.body = some w.file ∧ (s.params id).total.toNat ≤ o
        then none else s.cell o := by
  unfold cutBody cell
  cases hb : s.body with
  | none => simp
  | some i =>
    by_cases ht : 0 < (s.params id).total
    · by_cases hi : i = w.file
      · subst hi
        simp only [ht, if_true, Option.bind_some, Function.update_self,
          SparseFile.get_truncate, true_and]
        by_cases ho : (s.params id).total.toNat ≤ o
        · rw [if_neg (by omega), if_pos ho]
        · rw [if_pos (by omega), if_neg ho]
      · simp [ht, hi, Function.update_of_ne]
    · simp [ht]

theorem cell_writeBody_of_mem {s : Slot} {id : ℕ} {w : SegmentWriter} {bs : Bytes} {n k : ℕ}
    (hb : s.body = some w.file) (hn : n ≤ bs.length) (hk : k < n) :
    ((s.writeBody id w bs n).cell ((s.params id).start.toNat + w.written + k)) 
      = some (id, bs.get ⟨k, by omega⟩) := by
  unfold writeBody cell
  simp only [hb, Option.bind_some, Function.update_self]
  rw [SparseFile.get_write_of_mem _ (by omega) (by simp; omega)]
  simp [show (s.params id).start.toNat + w.written + k
    - ((s.params id).start.toNat + w.written) = k by omega, hk]

theorem cell_writeBody_of_notMem {s : Slot} {id : ℕ} {w : SegmentWriter} {bs : Bytes}
    {n o : ℕ} (h : ¬ (s.body = some w.file ∧ (s.params id).start.toNat + w.written ≤ o
      ∧ o < (s.params id).start.toNat + w.written + n)) :
    (s.writeBody id w bs n).cell o = s.cell o := by
  unfold writeBody cell
  cases hb : s.body with
  | none => rfl
  | some i =>
    by_cases hi : i = w.file
    · subst hi
      simp only [Option.bind_some, Function.update_self]
      refine SparseFile.get_write_of_notMem _ ?_
      intro hmem
      refine h ⟨hb, hmem.1, ?_⟩
      have := hmem.2
      simp only [List.length_map, List.length_take] at this
      omega
    · simp [Function.update_of_ne, hi]

theorem isSome_cell_writeBody {s : Slot} {id : ℕ} {w : SegmentWriter} {bs : Bytes} {n o : ℕ}
    (h : (s.cell o).isSome) : ((s.writeBody id w bs n).cell o).isSome := by
  unfold writeBody
  unfold cell at h ⊢
  cases hb : s.body with
  | none => simp [hb] at h
  | some i =>
    simp only [hb, Option.bind_some] at h ⊢
    by_cases hi : i = w.file
    · subst hi
      rw [Function.update_self]
      exact SparseFile.isSome_get_write h
    · rwa [Function.update_of_ne hi]

inductive Steps (key : Bytes) (interval : ℤ) (s : Slot) : Event → Slot → Prop
  | beginSegment {p : SegmentParams} (hv : validateSegmentParams key p = true) :
      Steps key interval s (.beginSegment p) (s.openBody p)
  | cut {id : ℕ} {w : SegmentWriter} (hw : s.writers id = some w) (hr : w.ready = false) :
      Steps key interval s (.truncate id true) (s.cutBody id w)
  | cutFails {id : ℕ} {w : SegmentWriter} (hw : s.writers id = some w)
      (hr : w.ready = false) :
      Steps key interval s (.truncate id false)
        { s with writers := Function.update s.writers id none }
  | write {id : ℕ} {w : SegmentWriter} {bs : Bytes} {n : ℕ} (hw : s.writers id = some w)
      (hr : w.ready = true) (hf : w.failed = false) (hn : n ≤ bs.length)
      (hmax : (s.params id).start + w.written + n ≤ maxOffset) :
      Steps key interval s (.write id bs n) (s.writeBody id w bs n)
  | checkpoint {id : ℕ} {w : SegmentWriter} (hw : s.writers id = some w)
      (hr : w.ready = true) (hpos : w.lastCheckpoint < w.written) :
      Steps key interval s (.checkpoint id) { s with
        entry := some ((s.params id).checkpointMeta w.written s.entry)
        writers := Function.update s.writers id (some { w with lastCheckpoint := w.written }) }
  | commit {id : ℕ} {w : SegmentWriter} (hw : s.writers id = some w) (hr : w.ready = true) :
      Steps key interval s (.commit id) { s with
        entry := some ((s.params id).commitMeta w.written s.entry)
        writers := Function.update s.writers id none }
  | abandon {id : ℕ} {w : SegmentWriter} (hw : s.writers id = some w) :
      Steps key interval s (.abandon id)
        { s with writers := Function.update s.writers id none }
  | redirect {r : Redirect} (hv : r.valid = true) :
      Steps key interval s (.redirect r) { s with entry := some (redirectMeta r s.entry) }
  | storeAlias {a : Alias} (hne : a.canonicalKey ≠ []) :
      Steps key interval s (.storeAlias a)
        { s with entry := (aliasMeta a s.entry).or s.entry }
  | trimRead {m : Meta} (hm : s.entry = some m) :
      Steps key interval s .trimRead { s with
        trims := Function.update s.trims s.nextTrim (some ⟨m, s.body⟩)
        nextTrim := s.nextTrim + 1 }
  | trimWrite {t : ℕ} {tr : Trim} {op : Bytes} {ops : List Bytes} (ht : s.trims t = some tr) :
      Steps key interval s (.trimWrite t op ops) { s with
        entry := some { tr.entry with originPath := op, originPaths := ops }
        trims := Function.update s.trims t none }
  | purgeRead (hm : s.entry.isSome = true) :
      Steps key interval s .purgeRead { s with removals := s.removals + 1 }
  | remove (hr : s.removals ≠ 0) :
      Steps key interval s .remove
        { s with entry := none, body := none, removals := s.removals - 1 }

theorem steps_of_step {key : Bytes} {interval : ℤ} {s s' : Slot} {e : Event}
    (h : s.step key interval e = some s') : Steps key interval s e s' := by
  unfold step at h
  cases e with
  | beginSegment p =>
    obtain ⟨hv, h⟩ := Option.ite_none_right_eq_some.mp h
    cases h
    exact .beginSegment hv
  | truncate id ok =>
    cases hw : s.writers id with
    | none => simp [hw] at h
    | some w =>
      simp only [hw] at h
      obtain ⟨hr, h⟩ := Option.ite_none_left_eq_some.mp h
      have hr' : w.ready = false := by simpa using hr
      cases ok with
      | true =>
        cases h
        exact .cut hw hr'
      | false =>
        cases h
        exact .cutFails hw hr'
  | write id bs n =>
    cases hw : s.writers id with
    | none => simp [hw] at h
    | some w =>
      simp only [hw] at h
      obtain ⟨⟨hr, hf, -, hn, hmax⟩, h⟩ := Option.ite_none_right_eq_some.mp h
      cases h
      exact .write hw hr hf hn hmax
  | checkpoint id =>
    cases hw : s.writers id with
    | none => simp [hw] at h
    | some w =>
      simp only [hw] at h
      obtain ⟨⟨hr, -, hpos, hle⟩, h⟩ := Option.ite_none_right_eq_some.mp h
      cases h
      exact .checkpoint hw hr (by omega)
  | commit id =>
    cases hw : s.writers id with
    | none => simp [hw] at h
    | some w =>
      simp only [hw] at h
      obtain ⟨hr, h⟩ := Option.ite_none_right_eq_some.mp h
      cases h
      exact .commit hw hr
  | abandon id =>
    cases hw : s.writers id with
    | none => simp [hw] at h
    | some w =>
      simp only [hw] at h
      obtain ⟨hr, h⟩ := Option.ite_none_right_eq_some.mp h
      cases h
      exact .abandon hw
  | redirect r =>
    obtain ⟨hv, h⟩ := Option.ite_none_right_eq_some.mp h
    cases h
    exact .redirect hv
  | storeAlias a =>
    obtain ⟨hv, h⟩ := Option.ite_none_left_eq_some.mp h
    cases h
    exact .storeAlias (fun hnil => hv (.inl hnil))
  | trimRead =>
    cases hm : s.entry with
    | none => simp [hm] at h
    | some m =>
      simp only [hm] at h
      cases h
      exact hm ▸ .trimRead hm
  | trimWrite t op ops =>
    cases ht : s.trims t with
    | none => simp [ht] at h
    | some tr =>
      simp only [ht] at h
      cases h
      exact .trimWrite ht
  | purgeRead =>
    obtain ⟨hv, h⟩ := Option.ite_none_right_eq_some.mp h
    cases h
    exact .purgeRead hv
  | remove =>
    obtain ⟨hv, h⟩ := Option.ite_none_left_eq_some.mp h
    cases h
    exact .remove hv

end Slot

end Cache
