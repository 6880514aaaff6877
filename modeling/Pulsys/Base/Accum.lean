import Pulsys.Base.Slice

/-!
# Accumulators

An array that is filled from the front and compacted: what stands behind a part dealt with
is moved to the front. `Accum.take_compact_iff` says when a window there still reads the
same.
-/

structure Accum (size : ℕ) where
  mem : Bytes
  len : ℕ
  size_eq : mem.length = size
  len_le : len ≤ size

namespace Accum

variable {size : ℕ}

def filled (a : Accum size) : Bytes := a.mem.take a.len

def push (a : Accum size) (d : Bytes) (h : a.len + d.length ≤ size) : Accum size where
  mem := a.mem.take a.len ++ d ++ a.mem.drop (a.len + d.length)
  len := a.len + d.length
  size_eq := by
    have := a.size_eq
    simp only [List.length_append, List.length_take, List.length_drop]
    omega
  len_le := h

def compact (a : Accum size) (n : ℕ) : Accum size where
  mem := a.filled.drop n ++ a.mem.drop (a.len - n)
  len := a.len - n
  size_eq := by
    have := a.size_eq
    have := a.len_le
    simp only [filled, List.length_append, List.length_take, List.length_drop]
    omega
  len_le := by
    have := a.len_le
    omega

theorem length_filled (a : Accum size) : a.filled.length = a.len := by
  rw [filled, List.length_take, a.size_eq]
  exact min_eq_left a.len_le

theorem filled_push {a : Accum size} {d : Bytes} (h : a.len + d.length ≤ size) :
    (a.push d h).filled = a.filled ++ d := by
  have hl := a.length_filled
  unfold filled at *
  show (a.mem.take a.len ++ d ++ a.mem.drop (a.len + d.length)).take (a.len + d.length) = _
  rw [List.take_append_of_le_length (by rw [List.length_append, hl])]
  exact List.take_of_length_le (by rw [List.length_append, hl])

theorem filled_compact (a : Accum size) (n : ℕ) :
    (a.compact n).filled = a.filled.drop n := by
  have hl : (a.filled.drop n).length = a.len - n := by
    rw [List.length_drop, a.length_filled]
  show (a.filled.drop n ++ a.mem.drop (a.len - n)).take (a.len - n) = _
  rw [List.take_append_of_le_length (by omega)]
  exact List.take_of_length_le (by omega)

theorem take_compact_iff (a : Accum size) {n : ℕ} (hn : n ≤ a.len) :
    (a.compact n).mem.take n = a.mem.take n
      ↔ a.filled.drop n <+: a.filled.take n ∨ a.filled.take n <+: a.filled.drop n := by
  have hlen := a.length_filled
  have htake : a.filled.take n = a.mem.take n := by
    rw [filled, List.take_take, min_eq_left hn]
  rw [htake]
  set left := a.filled.drop n with hleft
  have hll : left.length = a.len - n := by rw [hleft, List.length_drop, hlen]
  have hbl : (a.mem.take n).length = n := by
    have := a.size_eq
    have := a.len_le
    rw [List.length_take]
    omega
  have hmem : (a.compact n).mem = left ++ a.mem.drop left.length := by rw [hll]; rfl
  rw [hmem]
  by_cases hle : n ≤ left.length
  · -- the part behind covers the front, of which nothing is left
    rw [List.take_append_of_le_length hle]
    constructor
    · intro h
      refine .inr ?_
      rw [← h]
      exact List.take_prefix n left
    · rintro (h | h)
      · have heq : left = a.mem.take n := h.eq_of_length (le_antisymm h.length_le (by omega))
        rw [heq, List.take_take, min_self]
      · rw [List.prefix_iff_eq_take.mp h, hbl]
  · -- only the first bytes are written over
    have hdrop : (left ++ a.mem.drop left.length).take n
        = left ++ (a.mem.drop left.length).take (n - left.length) := by
      rw [List.take_append, List.take_of_length_le (by omega)]
    have hcut : a.mem.take n
        = a.mem.take left.length ++ (a.mem.drop left.length).take (n - left.length) := by
      conv_lhs => rw [show n = left.length + (n - left.length) by omega, List.take_add]
    constructor
    · intro h
      refine .inl ?_
      rw [← h, hdrop]
      exact List.prefix_append _ _
    · rintro (h | h)
      · have hpre : left = a.mem.take left.length := by
          have := List.prefix_iff_eq_take.mp h
          rwa [List.take_take, min_eq_left (by omega)] at this
        rw [hdrop, hcut, ← hpre]
      · have := h.length_le
        omega

end Accum
