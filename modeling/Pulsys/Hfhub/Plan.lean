import Pulsys.Base.Overwrites
import Pulsys.Base.Text

/-!
# What a download is to fetch

`Download` creates each wanted file at its full length and cuts it into ranges, which reach
all of it (`exists_task`). The arithmetic is that of 64 bits: the loop over almost `2 ^ 63`
bytes may wrap and not end, so the plan goes by fuel.
-/

namespace Hfhub

open Bytes Text

/-! ## The files -/

structure TreeEntry where
  type : Bytes
  path : Bytes
  size : ℤ

structure FileEntry where
  path : Bytes
  size : ℤ
  deriving DecidableEq

structure DownloadOpts where
  workers : ℤ := 0
  rangeChunk : ℤ := 0
  minBytes : ℤ := 0
  files : List Bytes := []
  includes : List Bytes := []
  excludes : List Bytes := []

def listFiles (entries : List TreeEntry) : List FileEntry :=
  entries.filterMap (fun e =>
    if e.type ≠ ascii "file" ∨ e.path = [] then none else some ⟨e.path, e.size⟩)

def filepathBase (p : Bytes) : Bytes := (p.reverse.takeWhile (fun c => c != 47)).reverse

def trimSlash : Bytes → Bytes
  | 47 :: rest => rest
  | b => b

section
variable (glob : Bytes → Bytes → Option Bool)

def globAny (patterns : List Bytes) (path : Bytes) : Bool :=
  patterns.any (fun p => glob p path = some true || glob p (filepathBase path) = some true)

def wanted (opts : DownloadOpts) (f : FileEntry) : Bool :=
  (opts.files.isEmpty || opts.files.any (fun p => trimSlash p = f.path))
    && (opts.includes.isEmpty || globAny glob opts.includes f.path)
    && !globAny glob opts.excludes f.path

def filterFiles (opts : DownloadOpts) (files : List FileEntry) : Option (List FileEntry) :=
  if opts.files.isEmpty && opts.includes.isEmpty && opts.excludes.isEmpty then some files
  else if (opts.includes ++ opts.excludes).any (fun p => (glob p (ascii "validate")).isNone) then
    none
  else some (files.filter (wanted glob opts))

def selected (opts : DownloadOpts) (entries : List TreeEntry) : Option (List FileEntry) :=
  (filterFiles glob opts (listFiles entries)).map
    (fun files => files.filter (fun f => !(0 < opts.minBytes && f.size < opts.minBytes)))

end

/-! ## The tasks -/

structure FetchTask where
  path : Bytes
  start : ℤ
  last : ℤ
  size : ℤ
  deriving DecidableEq

def defaultRangeChunk : ℤ := 16 * 2 ^ 20

def DownloadOpts.chunk (opts : DownloadOpts) : ℤ :=
  if opts.rangeChunk ≤ 0 then defaultRangeChunk else opts.rangeChunk

def rangeEnd (size chunk off : ℤ) : ℤ :=
  if size ≤ wrap64 (off + chunk - 1) then size - 1 else wrap64 (off + chunk - 1)

def rangesFrom (path : Bytes) (size chunk : ℤ) : ℕ → ℤ → Option (List FetchTask)
  | 0, _ => none
  | fuel + 1, off =>
    if off < size then
      (rangesFrom path size chunk fuel (rangeEnd size chunk off + 1)).map
        (fun tasks => ⟨path, off, rangeEnd size chunk off, size⟩ :: tasks)
    else some []

def tasksOf (chunk : ℤ) (fuel : ℕ) (f : FileEntry) : Option (List FetchTask) :=
  if f.size ≤ chunk then some [⟨f.path, 0, wrap64 (f.size - 1), f.size⟩]
  else rangesFrom f.path f.size chunk fuel 0

def plan (chunk : ℤ) (fuel : ℕ) : List FileEntry → Option (List FetchTask)
  | [] => some []
  | f :: files => do
    let first ← tasksOf chunk fuel f
    let rest ← plan chunk fuel files
    some (first ++ rest)

/-! ## The tasks of a file reach all of it -/

def FetchTask.Reaches (t : FetchTask) (path : Bytes) (i : ℤ) : Prop :=
  t.path = path ∧ t.start ≤ i ∧ i ≤ t.last

variable {chunk i : ℤ} {fuel : ℕ} {tasks : List FetchTask}

theorem exists_range {path : Bytes} {size : ℤ} (hchunk : 0 < chunk)
    (hsize : size + chunk ≤ 2 ^ 63) {off : ℤ} (hoff : 0 ≤ off)
    (h : rangesFrom path size chunk fuel off = some tasks) (hi : off ≤ i) (hlt : i < size) :
    ∃ t ∈ tasks, t.Reaches path i := by
  induction fuel generalizing off tasks with
  | zero => cases h
  | succ fuel ih =>
    rw [rangesFrom, if_pos (by omega)] at h
    obtain ⟨rest, hrest, rfl⟩ := Option.map_eq_some_iff.mp h
    have hwrap : wrap64 (off + chunk - 1) = off + chunk - 1 :=
      wrap64_eq_self (by omega) (by omega)
    have hend : rangeEnd size chunk off = min (size - 1) (off + chunk - 1) := by
      rw [rangeEnd, hwrap]
      split <;> omega
    by_cases hin : i ≤ rangeEnd size chunk off
    · exact ⟨_, List.mem_cons_self, rfl, hi, hin⟩
    · obtain ⟨t, ht, hreaches⟩ := ih (by omega) hrest (by omega)
      exact ⟨t, List.mem_cons_of_mem _ ht, hreaches⟩

theorem exists_task_of_file {f : FileEntry} (hchunk : 0 < chunk) (hsize : f.size + chunk ≤ 2 ^ 63)
    (h : tasksOf chunk fuel f = some tasks) (hi : 0 ≤ i) (hlt : i < f.size) :
    ∃ t ∈ tasks, t.Reaches f.path i := by
  unfold tasksOf at h
  by_cases hsmall : f.size ≤ chunk
  · rw [if_pos hsmall] at h
    obtain rfl := Option.some.inj h
    have hwrap : wrap64 (f.size - 1) = f.size - 1 := wrap64_eq_self (by omega) (by omega)
    refine ⟨_, List.mem_singleton.mpr rfl, rfl, hi, ?_⟩
    show i ≤ wrap64 (f.size - 1)
    omega
  · rw [if_neg hsmall] at h
    exact exists_range hchunk hsize (Int.le_refl 0) h hi hlt

theorem exists_task (hchunk : 0 < chunk) {files : List FileEntry}
    (h : plan chunk fuel files = some tasks) {f : FileEntry} (hf : f ∈ files)
    (hsize : f.size + chunk ≤ 2 ^ 63) (hi : 0 ≤ i) (hlt : i < f.size) :
    ∃ t ∈ tasks, t.Reaches f.path i := by
  induction files generalizing tasks with
  | nil => cases hf
  | cons g files ih =>
    obtain ⟨first, hfirst, h⟩ := Option.bind_eq_some_iff.mp h
    obtain ⟨rest, hrest, h⟩ := Option.bind_eq_some_iff.mp h
    obtain rfl := Option.some.inj h
    rcases List.mem_cons.mp hf with rfl | hmem
    · obtain ⟨t, ht, hreaches⟩ := exists_task_of_file hchunk hsize hfirst hi hlt
      exact ⟨t, List.mem_append_left _ ht, hreaches⟩
    · obtain ⟨t, ht, hreaches⟩ := ih hrest hmem
      exact ⟨t, List.mem_append_right _ ht, hreaches⟩

/-! ## The disk -/

abbrev Disk := Bytes → Option (SparseFile UInt8)

section
variable (dest : Bytes → Bytes)

def prepareFile (disk : Disk) (f : FileEntry) : Disk :=
  Function.update disk (dest f.path)
    (some
      (if 0 < f.size then ((disk (dest f.path)).getD SparseFile.empty).truncate f.size.toNat
      else (disk (dest f.path)).getD SparseFile.empty))

def prepareAll : Disk → List Bytes → List FileEntry → Disk
  | disk, _, [] => disk
  | disk, entries, f :: files =>
    if entries.contains f.path then prepareAll disk entries files
    else prepareAll (prepareFile dest disk f) (f.path :: entries) files

variable {dest}

variable {disk : Disk}

theorem isSome_prepareFile (f : FileEntry) {d : Bytes} (h : (disk d).isSome = true) :
    (prepareFile dest disk f d).isSome = true := by
  unfold prepareFile
  by_cases hd : d = dest f.path
  · rw [hd, Function.update_self]
    rfl
  · rwa [Function.update_of_ne hd]

theorem isSome_prepareAll_of_isSome {entries : List Bytes} {files : List FileEntry} {d : Bytes}
    (h : (disk d).isSome = true) : (prepareAll dest disk entries files d).isSome = true := by
  induction files generalizing disk entries with
  | nil => exact h
  | cons f files ih =>
    unfold prepareAll
    by_cases hin : entries.contains f.path = true
    · rw [if_pos hin]
      exact ih h
    · rw [if_neg hin]
      exact ih (isSome_prepareFile f h)

theorem isSome_prepareAll {entries : List Bytes} {files : List FileEntry}
    (hentries : ∀ p ∈ entries, (disk (dest p)).isSome = true) {f : FileEntry} (hf : f ∈ files) :
    (prepareAll dest disk entries files (dest f.path)).isSome = true := by
  induction files generalizing disk entries with
  | nil => cases hf
  | cons g files ih =>
    unfold prepareAll
    by_cases hin : entries.contains g.path = true
    · rw [if_pos hin]
      rcases List.mem_cons.mp hf with rfl | hmem
      · exact isSome_prepareAll_of_isSome (hentries _ (List.contains_iff_mem.mp hin))
      · exact ih hentries hmem
    · rw [if_neg hin]
      have hself : (prepareFile dest disk g (dest g.path)).isSome = true := by
        rw [prepareFile, Function.update_self]
        rfl
      rcases List.mem_cons.mp hf with rfl | hmem
      · exact isSome_prepareAll_of_isSome hself
      · refine ih (fun p hp => ?_) hmem
        rcases List.mem_cons.mp hp with rfl | hp
        · exact hself
        · exact isSome_prepareFile g (hentries p hp)

end

end Hfhub
