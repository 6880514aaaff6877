import Mathlib.Algebra.Order.Group.Nat
import Mathlib.Data.List.Basic
import Mathlib.Tactic.Common

/-!
# Loops that write until all is taken

A device takes as much of what it is offered as it likes. The loop reads nothing of the
text: `Pump.count` is the loop without one, and what the device has taken is a beginning of
the text, of that length (`pump_eq`).
-/

namespace Pump

inductive Errno
  | again (ready : Bool)
  | interrupted
  | failed
  deriving DecidableEq, Repr

structure Taken where
  count : ℕ
  err : Option Errno
  deriving DecidableEq, Repr

inductive Ending
  | pending
  | returned
  | failed
  deriving DecidableEq, Repr

structure Sent (α : Type) where
  sent : List α
  ending : Ending
  deriving DecidableEq, Repr

variable {α : Type}

def Sent.after (out : List α) (s : Sent α) : Sent α := ⟨out ++ s.sent, s.ending⟩

def pump (text : List α) (goal : ℕ) (most : ℕ → ℕ) : ℕ → List Taken → Sent α
  | pos, [] => ⟨[], if goal ≤ pos then .returned else .pending⟩
  | pos, t :: rest =>
    if goal ≤ pos then ⟨[], .returned⟩
    else
      let out := (text.drop pos).take (min t.count (most pos))
      match t.err with
      | none =>
        if out.length = 0 then ⟨[], .returned⟩
        else (pump text goal most (pos + out.length) rest).after out
      | some (.again true) | some .interrupted =>
        (pump text goal most (pos + out.length) rest).after out
      | some (.again false) | some .failed => ⟨out, .failed⟩

def count (len goal : ℕ) (most : ℕ → ℕ) : ℕ → List Taken → ℕ × Ending
  | pos, [] => (0, if goal ≤ pos then .returned else .pending)
  | pos, t :: rest =>
    if goal ≤ pos then (0, .returned)
    else
      let k := min (min t.count (most pos)) (len - pos)
      match t.err with
      | none =>
        if k = 0 then (0, .returned)
        else (k + (count len goal most (pos + k) rest).1, (count len goal most (pos + k) rest).2)
      | some (.again true) | some .interrupted =>
        (k + (count len goal most (pos + k) rest).1, (count len goal most (pos + k) rest).2)
      | some (.again false) | some .failed => (k, .failed)

theorem pump_eq (text : List α) (goal : ℕ) (most : ℕ → ℕ) (pos : ℕ) (calls : List Taken) :
    pump text goal most pos calls
      = ⟨(text.drop pos).take (count text.length goal most pos calls).1,
          (count text.length goal most pos calls).2⟩ := by
  induction calls generalizing pos with
  | nil => simp [pump, count]
  | cons t rest ih =>
    rw [pump, count]
    split
    · rw [List.take_zero]
    · dsimp only
      -- the length of what is taken, and the text behind it
      have hlen : ((text.drop pos).take (min t.count (most pos))).length
          = min (min t.count (most pos)) (text.length - pos) := by
        rw [List.length_take, List.length_drop]
      generalize hout : (text.drop pos).take (min t.count (most pos)) = out at hlen ⊢
      generalize min (min t.count (most pos)) (text.length - pos) = k at hlen ⊢
      have htake : out = (text.drop pos).take k := by
        rw [← hlen, ← hout]
        exact List.prefix_iff_eq_take.mp (List.take_prefix _ _)
      have hnext (j : ℕ) : out ++ (text.drop (pos + k)).take j = (text.drop pos).take (k + j) := by
        rw [htake, ← List.drop_drop, List.take_add]
      have hcont : (pump text goal most (pos + out.length) rest).after out
          = ⟨(text.drop pos).take (k + (count text.length goal most (pos + k) rest).1),
              (count text.length goal most (pos + k) rest).2⟩ := by
        rw [hlen, ih (pos + k), Sent.after, hnext]
      split
      · rw [hlen]
        split
        · rw [List.take_zero]
        · rw [← hlen] at hcont ⊢
          exact hcont
      · exact hcont
      · exact hcont
      · rw [← htake]
      · rw [← htake]

variable {goal len : ℕ} {most : ℕ → ℕ}

theorem count_le {bound : ℕ} (hbound : ∀ pos n, min (min n (most pos)) (len - pos) ≤ bound - pos)
    (pos : ℕ) (calls : List Taken) : (count len goal most pos calls).1 ≤ bound - pos := by
  induction calls generalizing pos with
  | nil => exact Nat.zero_le _
  | cons t rest ih =>
    rw [count]
    split
    · exact Nat.zero_le _
    · dsimp only
      have hk := hbound pos t.count
      generalize min (min t.count (most pos)) (len - pos) = k at hk ⊢
      have hrest := ih (pos + k)
      split
      · split
        · exact Nat.zero_le _
        · dsimp only
          omega
      · dsimp only
        omega
      · dsimp only
        omega
      · exact hk
      · exact hk

theorem count_le_length (len goal : ℕ) (most : ℕ → ℕ) (pos : ℕ) (calls : List Taken) :
    (count len goal most pos calls).1 ≤ len - pos :=
  count_le (fun _ _ => min_le_right _ _) pos calls

theorem count_le_goal (hmost : ∀ pos, most pos ≤ goal - pos) (pos : ℕ) (calls : List Taken) :
    (count len goal most pos calls).1 ≤ goal - pos :=
  count_le (fun pos _ => (min_le_left _ _).trans ((min_le_right _ _).trans (hmost pos))) pos calls

def Stalls (len goal : ℕ) (most : ℕ → ℕ) : ℕ → List Taken → Prop
  | _, [] => False
  | pos, t :: rest =>
    pos < goal
      ∧ match t.err with
        | none => min (min t.count (most pos)) (len - pos) = 0
          ∨ Stalls len goal most (pos + min (min t.count (most pos)) (len - pos)) rest
        | some (.again true) | some .interrupted =>
          Stalls len goal most (pos + min (min t.count (most pos)) (len - pos)) rest
        | some (.again false) | some .failed => False

theorem count_eq_goal_iff (hmost : ∀ pos, most pos ≤ goal - pos) {pos : ℕ} (hpos : pos ≤ goal)
    (calls : List Taken) :
    ((count len goal most pos calls).2 = .returned → pos + (count len goal most pos calls).1 = goal)
      ↔ ¬ Stalls len goal most pos calls := by
  induction calls generalizing pos with
  | nil =>
    refine iff_of_true (fun hret => ?_) id
    rw [count] at hret ⊢
    split at hret
    · omega
    · cases hret
  | cons t rest ih =>
    rw [count, Stalls]
    by_cases hgoal : goal ≤ pos
    · rw [if_pos hgoal]
      exact iff_of_true (fun _ => by omega) (fun h => by omega)
    rw [if_neg hgoal]
    dsimp only
    have hk : min (min t.count (most pos)) (len - pos) ≤ goal - pos :=
      (min_le_left _ _).trans ((min_le_right _ _).trans (hmost pos))
    generalize min (min t.count (most pos)) (len - pos) = k at hk ⊢
    have hrest := @ih (pos + k) (by omega)
    rw [Nat.add_assoc] at hrest
    have hlt : pos < goal := not_le.mp hgoal
    split
    · by_cases hzero : k = 0
      · rw [if_pos hzero]
        refine iff_of_false (fun hall => ?_) (fun h => h ⟨hlt, .inl hzero⟩)
        have := hall rfl
        omega
      · rw [if_neg hzero, hrest]
        exact ⟨fun h hs => h (hs.2.resolve_left hzero), fun h hs => h ⟨hlt, .inr hs⟩⟩
    · rw [hrest]
      exact ⟨fun h hs => h hs.2, fun h hs => h ⟨hlt, hs⟩⟩
    · rw [hrest]
      exact ⟨fun h hs => h hs.2, fun h hs => h ⟨hlt, hs⟩⟩
    · exact iff_of_true (fun hret => by cases hret) (fun hs => hs.2)
    · exact iff_of_true (fun hret => by cases hret) (fun hs => hs.2)

end Pump
