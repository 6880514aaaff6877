import Mathlib.Tactic.Common

/-!
# Sparse files

A file that is written at offsets and cut to lengths has a size, and at each offset below
it a byte or a hole, which reads as zero. Cutting forgets what lies behind the cut.
-/

structure SparseFile (α : Type) where
  size : ℕ
  get : ℕ → Option α
  bounded : ∀ o, size ≤ o → get o = none

namespace SparseFile

variable {α : Type}

def empty : SparseFile α := ⟨0, fun _ => none, fun _ _ => rfl⟩

def truncate (f : SparseFile α) (n : ℕ) : SparseFile α where
  size := n
  get o := if o < n then f.get o else none
  bounded o h := if_neg (by omega)

def write (f : SparseFile α) (off : ℕ) (l : List α) : SparseFile α where
  size := if l = [] then f.size else max f.size (off + l.length)
  get o := if off ≤ o ∧ o < off + l.length then l[o - off]? else f.get o
  bounded o h := by
    by_cases hl : l = []
    · rw [if_pos hl] at h
      rw [hl, List.length_nil, if_neg (by omega), f.bounded o h]
    · rw [if_neg hl] at h
      rw [if_neg (by omega), f.bounded o (by omega)]

@[simp]
theorem get_empty (o : ℕ) : (empty : SparseFile α).get o = none := rfl

@[simp]
theorem get_truncate (f : SparseFile α) (n o : ℕ) :
    (f.truncate n).get o = if o < n then f.get o else none := rfl

theorem get_write_of_mem (f : SparseFile α) {off o : ℕ} {l : List α} (h : off ≤ o)
    (h' : o < off + l.length) : (f.write off l).get o = l[o - off]? :=
  if_pos ⟨h, h'⟩

theorem get_write_of_notMem (f : SparseFile α) {off o : ℕ} {l : List α}
    (h : ¬ (off ≤ o ∧ o < off + l.length)) : (f.write off l).get o = f.get o :=
  if_neg h

theorem isSome_get_write {f : SparseFile α} {off o : ℕ} {l : List α}
    (h : (f.get o).isSome) : ((f.write off l).get o).isSome := by
  by_cases hmem : off ≤ o ∧ o < off + l.length
  · rw [get_write_of_mem f hmem.1 hmem.2, List.getElem?_eq_getElem (by omega)]
    rfl
  · rwa [get_write_of_notMem f hmem]

theorem size_le_write (f : SparseFile α) (off : ℕ) (l : List α) :
    f.size ≤ (f.write off l).size := by
  unfold write
  dsimp only
  split
  · exact Nat.le_refl _
  · exact Nat.le_max_left _ _

end SparseFile
