import Pulsys.Base.Bytes

/-!
# Slices of a shared buffer

A slice is a window into an array: `off` and the length of `data` are the window, `data` is
what it showed when it was cut. A slice is `Stable` in an array when `Slice.reload` gives
the same.
-/

structure Slice where
  off : ℕ
  data : Bytes
  deriving DecidableEq, Repr

namespace Slice

def nil : Slice := ⟨0, []⟩

def upTo (s : Slice) (n : ℕ) : Slice := ⟨s.off, s.data.take n⟩

def after (s : Slice) (n : ℕ) : Slice := ⟨s.off + n, s.data.drop n⟩

def reload (s : Slice) (mem : Bytes) : Bytes :=
  (mem.drop s.off).take s.data.length

def Stable (mem : Bytes) (s : Slice) : Prop := s.reload mem = s.data

def Within (n : ℕ) (s : Slice) : Prop := s.off + s.data.length ≤ n

@[simp] theorem data_upTo (s : Slice) (n : ℕ) : (s.upTo n).data = s.data.take n := rfl

@[simp] theorem data_after (s : Slice) (n : ℕ) : (s.after n).data = s.data.drop n := rfl

@[simp] theorem data_nil : nil.data = [] := rfl

theorem stable_nil (mem : Bytes) : nil.Stable mem := by
  simp [Stable, reload]

theorem within_nil (n : ℕ) : nil.Within n := by
  simp [Within, nil]

theorem stable_part (l d r : Bytes) : Stable (l ++ d ++ r) ⟨l.length, d⟩ := by
  simp [Stable, reload]

theorem length_reload {s : Slice} {mem : Bytes} (h : s.Within mem.length) :
    (s.reload mem).length = s.data.length := by
  unfold Within at h
  simp only [reload, List.length_take, List.length_drop]
  omega

theorem Stable.upTo {mem : Bytes} {s : Slice} (h : s.Stable mem) (n : ℕ) :
    (s.upTo n).Stable mem := by
  unfold Stable reload at *
  show (mem.drop s.off).take (s.data.take n).length = s.data.take n
  conv_rhs => rw [← h]
  rw [List.take_take, List.length_take]

theorem Stable.after {mem : Bytes} {s : Slice} (h : s.Stable mem) (n : ℕ) :
    (s.after n).Stable mem := by
  unfold Stable reload at *
  show (mem.drop (s.off + n)).take (s.data.drop n).length = s.data.drop n
  conv_rhs => rw [← h]
  rw [List.drop_take, List.drop_drop, List.length_drop]

theorem Within.upTo {k : ℕ} {s : Slice} (h : s.Within k) (n : ℕ) :
    (s.upTo n).Within k := by
  unfold Within at *
  simp only [Slice.upTo, List.length_take]
  omega

theorem Within.after {k n : ℕ} {s : Slice} (h : s.Within k)
    (hn : n ≤ s.data.length) : (s.after n).Within k := by
  unfold Within at *
  simp only [Slice.after, List.length_drop]
  omega

theorem reload_congr {s : Slice} {n : ℕ} {mem mem' : Bytes} (hw : s.Within n)
    (h : mem.take n = mem'.take n) : s.reload mem = s.reload mem' := by
  unfold Within at hw
  have key : ∀ m : Bytes, s.reload m = ((m.take n).drop s.off).take s.data.length := by
    intro m
    rw [reload, List.drop_take, List.take_take]
    congr 1
    omega
  rw [key, key, h]

end Slice
