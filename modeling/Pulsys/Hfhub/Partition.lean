import Pulsys.Hfhub.Plan

/-!
# Cutting a file into ranges

The loop of `Download` goes by `off + RangeChunk - 1`, in 64 bits. The ranges follow each
other from the first byte to the last exactly if the size, rounded up to whole chunks, has
room there (`plan_partitions_iff`).
-/

namespace Hfhub

open Bytes Text

variable {path : Bytes} {size chunk off : ℤ} {fuel n : ℕ} {tasks : List FetchTask}

def Consecutive (size chunk : ℤ) : ℤ → List FetchTask → Prop
  | off, [] => off = size
  | off, t :: ts => t.start = off ∧ t.start ≤ t.last ∧ t.last + 1 - t.start ≤ chunk
    ∧ t.last < size ∧ Consecutive size chunk (t.last + 1) ts

def covering (i : ℤ) (tasks : List FetchTask) : ℕ :=
  tasks.countP (fun t => t.start ≤ i ∧ i ≤ t.last)

theorem covering_of_consecutive (h : Consecutive size chunk off tasks) (i : ℤ) :
    covering i tasks = if off ≤ i ∧ i < size then 1 else 0 := by
  induction tasks generalizing off with
  | nil =>
    obtain rfl : off = size := h
    rw [if_neg (by omega)]
    rfl
  | cons t ts ih =>
    obtain ⟨rfl, hne, -, hlast, hrest⟩ := h
    have hts := ih hrest
    unfold covering at hts ⊢
    rw [List.countP_cons, hts]
    simp only [decide_eq_true_eq]
    split <;> split <;> split <;> omega

structure Ahead (size chunk off : ℤ) (n : ℕ) : Prop where
  pos : 0 < chunk
  start : 0 ≤ off
  before : off + n * chunk < size
  upTo : size ≤ off + n * chunk + chunk

theorem Ahead.next (h : Ahead size chunk off (n + 1)) : Ahead size chunk (off + chunk) n := by
  obtain ⟨hpos, hstart, hbefore, hupTo⟩ := h
  rw [Int.natCast_succ, Int.add_mul, Int.one_mul] at hbefore hupTo
  exact ⟨hpos, by omega, by omega, by omega⟩

theorem Ahead.lt (h : Ahead size chunk off n) : off < size := by
  have hpos := Int.mul_nonneg (Int.natCast_nonneg n) (Int.le_of_lt h.pos)
  have hbefore := h.before
  omega

theorem Ahead.rangeEnd_eq (h : Ahead size chunk off (n + 1)) (hsize : size < 2 ^ 63) :
    rangeEnd size chunk off = off + chunk - 1 := by
  have hlt := h.next.lt
  have hpos := h.pos
  have hstart := h.start
  rw [rangeEnd, wrap64_eq_self (by omega) (by omega), if_neg (by omega)]

theorem exists_ranges (h : Ahead size chunk off n) (hsize : size < 2 ^ 63)
    (hroom : off + n * chunk + chunk < 2 ^ 63) :
    ∃ tasks, rangesFrom path size chunk (n + 2) off = some tasks
      ∧ Consecutive size chunk off tasks ∧ ∀ t ∈ tasks, t.start + chunk < 2 ^ 63 := by
  induction n generalizing off with
  | zero =>
    obtain ⟨hpos, hstart, hbefore, hupTo⟩ := h
    rw [Int.natCast_zero, Int.zero_mul, Int.add_zero] at hbefore hupTo hroom
    have hend : rangeEnd size chunk off = size - 1 := by
      rw [rangeEnd, wrap64_eq_self (by omega) (by omega)]
      split <;> omega
    refine ⟨[⟨path, off, size - 1, size⟩], ?_, ⟨rfl, ?_, ?_, ?_, ?_⟩, ?_⟩
    · rw [rangesFrom, if_pos hbefore, hend, rangesFrom, if_neg (by omega)]
      rfl
    · exact Int.le_sub_one_of_lt hbefore
    · show size - 1 + 1 - off ≤ chunk
      omega
    · exact Int.sub_one_lt_iff.mpr (Int.le_refl size)
    · exact Int.sub_add_cancel size 1
    · intro t ht
      obtain rfl := List.mem_singleton.mp ht
      exact hroom
  | succ n ih =>
    have hend := h.rangeEnd_eq hsize
    have hlt := h.next.lt
    have hpos := h.pos
    rw [Int.natCast_succ, Int.add_mul, Int.one_mul] at hroom
    obtain ⟨ts, hts, hcon, hsums⟩ := ih h.next (by omega)
    have hnext : rangeEnd size chunk off + 1 = off + chunk := by omega
    refine ⟨⟨path, off, rangeEnd size chunk off, size⟩ :: ts, ?_, ⟨rfl, ?_, ?_, ?_, ?_⟩, ?_⟩
    · rw [rangesFrom, if_pos h.lt, hnext, hts]
      rfl
    · show off ≤ rangeEnd size chunk off
      omega
    · show rangeEnd size chunk off + 1 - off ≤ chunk
      omega
    · show rangeEnd size chunk off < size
      omega
    · exact hnext ▸ hcon
    · intro t ht
      rcases List.mem_cons.mp ht with rfl | ht
      · dsimp only
        omega
      · exact hsums t ht

theorem last_range_mem (h : Ahead size chunk off n) (hsize : size < 2 ^ 63)
    (htasks : rangesFrom path size chunk fuel off = some tasks) :
    ⟨path, off + n * chunk, rangeEnd size chunk (off + n * chunk), size⟩ ∈ tasks := by
  induction n generalizing off fuel tasks with
  | zero =>
    rw [Int.natCast_zero, Int.zero_mul, Int.add_zero]
    cases fuel with
    | zero => cases htasks
    | succ fuel =>
      rw [rangesFrom, if_pos h.lt] at htasks
      obtain ⟨ts, -, rfl⟩ := Option.map_eq_some_iff.mp htasks
      exact List.mem_cons_self
  | succ n ih =>
    cases fuel with
    | zero => cases htasks
    | succ fuel =>
      rw [rangesFrom, if_pos h.lt, h.rangeEnd_eq hsize, Int.sub_add_cancel] at htasks
      obtain ⟨ts, hts, rfl⟩ := Option.map_eq_some_iff.mp htasks
      have hsame : off + (n + 1 : ℕ) * chunk = off + chunk + n * chunk := by
        rw [Int.natCast_succ, Int.add_mul, Int.one_mul]
        omega
      rw [hsame]
      exact List.mem_cons_of_mem _ (ih h.next hts)

theorem ahead_of_size (hchunk : 1 ≤ chunk) (hlarger : chunk < size) :
    Ahead size chunk 0 ((size - 1) / chunk).toNat
      ∧ 0 + ((size - 1) / chunk).toNat * chunk + chunk = chunk * ((size - 1) / chunk + 1) := by
  have hnonneg : 0 ≤ (size - 1) / chunk := Int.ediv_nonneg (by omega) (by omega)
  have hdiv := Int.mul_ediv_self_le (x := size - 1) (k := chunk) (by omega)
  have hmod := Int.lt_mul_ediv_self_add (x := size - 1) (k := chunk) (by omega)
  rw [Int.mul_add, Int.mul_one, Int.mul_comm chunk] at *
  refine ⟨⟨by omega, Int.le_refl 0, ?_, ?_⟩, ?_⟩
  all_goals rw [Int.toNat_of_nonneg hnonneg]; omega

/-- **When a file is cut into its parts**, every byte in one of them: exactly if the size,
rounded up to whole chunks, has room in 64 bits. -/
theorem plan_partitions_iff (f : FileEntry) (hchunk : 1 ≤ chunk) (hlarger : chunk < f.size)
    (hsize : f.size < 2 ^ 63) :
    (∃ fuel tasks, tasksOf chunk fuel f = some tasks ∧ Consecutive f.size chunk 0 tasks
        ∧ (∀ i, 0 ≤ i → i < f.size → covering i tasks = 1)
        ∧ ∀ t ∈ tasks, t.start + chunk < 2 ^ 63)
      ↔ chunk * ((f.size - 1) / chunk + 1) < 2 ^ 63 := by
  obtain ⟨hahead, hround⟩ := ahead_of_size hchunk hlarger
  rw [← hround]
  unfold tasksOf
  simp only [if_neg (Int.not_le.mpr hlarger)]
  constructor
  · rintro ⟨fuel, tasks, htasks, -, -, hsums⟩
    exact hsums _ (last_range_mem hahead hsize htasks)
  · intro hroom
    obtain ⟨tasks, htasks, hcon, hsums⟩ := exists_ranges hahead hsize hroom
    refine ⟨_, tasks, htasks, hcon, fun i hi hlt => ?_, hsums⟩
    rw [covering_of_consecutive hcon, if_pos ⟨hi, hlt⟩]

theorem plan_partitions_ten :
    ∃ fuel tasks, tasksOf 4 fuel ⟨[], 10⟩ = some tasks ∧ Consecutive 10 4 0 tasks
      ∧ (∀ i, 0 ≤ i → i < 10 → covering i tasks = 1) ∧ ∀ t ∈ tasks, t.start + 4 < 2 ^ 63 :=
  (plan_partitions_iff ⟨[], 10⟩ (by decide) (by decide) (by decide)).mpr (by decide)

/-- **A file of almost `2 ^ 63` bytes is not cut right.** -/
theorem second_range_wraps :
    ¬ ∃ fuel tasks, tasksOf (2 ^ 62 + 1) fuel ⟨[], 2 ^ 63 - 1⟩ = some tasks
      ∧ ∀ t ∈ tasks, t.start ≤ t.last := by
  rintro ⟨fuel, tasks, htasks, hordered⟩
  have hahead : Ahead (2 ^ 63 - 1) (2 ^ 62 + 1) 0 1 := ⟨by decide, by decide, by decide, by decide⟩
  exact absurd (hordered _ (last_range_mem hahead (by decide) htasks)) (by decide)

end Hfhub
