import Pulsys.Base.SparseFile

/-!
# Files that are written again and again

Many writers may write to one file, each at its own offsets, and in whatever order.
What is found at an offset afterwards was put there by the last write that reaches it
(`get_writes`). So it does not matter in which order writers come that agree about an offset
(`read_writes_of_agree`).
-/

namespace SparseFile

variable {α : Type}

def writes (f : SparseFile α) (ws : List (ℕ × List α)) : SparseFile α :=
  ws.foldl (fun f w => f.write w.1 w.2) f

theorem writes_append (f : SparseFile α) (ws ws' : List (ℕ × List α)) :
    f.writes (ws ++ ws') = (f.writes ws).writes ws' :=
  List.foldl_append

def read (f : SparseFile α) (zero : α) (o : ℕ) : Option α :=
  if o < f.size then some ((f.get o).getD zero) else none

def putAt (o : ℕ) (w : ℕ × List α) : Option α := if w.1 ≤ o then w.2[o - w.1]? else none

def lastAt (o : ℕ) : List (ℕ × List α) → Option α
  | [] => none
  | w :: ws => (lastAt o ws).or (putAt o w)

theorem putAt_eq_some {o : ℕ} {w : ℕ × List α} {a : α} (h : putAt o w = some a) :
    w.1 ≤ o ∧ w.2[o - w.1]? = some a :=
  Option.ite_none_right_eq_some.mp h

theorem isSome_putAt {o : ℕ} {w : ℕ × List α} (h : w.1 ≤ o) (h' : o < w.1 + w.2.length) :
    (putAt o w).isSome = true := by
  rw [putAt, if_pos h, List.getElem?_eq_getElem (by omega)]
  rfl

theorem get_write_eq_or (f : SparseFile α) (w : ℕ × List α) (o : ℕ) :
    (f.write w.1 w.2).get o = (putAt o w).or (f.get o) := by
  by_cases hmem : w.1 ≤ o ∧ o < w.1 + w.2.length
  · rw [get_write_of_mem f hmem.1 hmem.2, putAt, if_pos hmem.1,
      List.getElem?_eq_getElem (by omega), Option.some_or]
  · have hnone : putAt o w = none := by
      unfold putAt
      by_cases hle : w.1 ≤ o
      · rw [if_pos hle, List.getElem?_eq_none (by omega)]
      · rw [if_neg hle]
    rw [get_write_of_notMem f hmem, hnone, Option.none_or]

theorem get_writes (f : SparseFile α) (ws : List (ℕ × List α)) (o : ℕ) :
    (f.writes ws).get o = (lastAt o ws).or (f.get o) := by
  induction ws generalizing f with
  | nil => rfl
  | cons w ws ih =>
    rw [lastAt, Option.or_assoc, ← get_write_eq_or]
    exact ih (f.write w.1 w.2)

theorem exists_of_lastAt {o : ℕ} {ws : List (ℕ × List α)} {a : α} (h : lastAt o ws = some a) :
    ∃ w ∈ ws, putAt o w = some a := by
  induction ws with
  | nil => cases h
  | cons w ws ih =>
    rw [lastAt] at h
    rcases Option.or_eq_some_iff.mp h with hlast | ⟨-, hput⟩
    · obtain ⟨w', hw', hput⟩ := ih hlast
      exact ⟨w', List.mem_cons_of_mem _ hw', hput⟩
    · exact ⟨w, List.mem_cons_self, hput⟩

theorem isSome_lastAt {o : ℕ} {ws : List (ℕ × List α)} {w : ℕ × List α} (hw : w ∈ ws)
    (h : (putAt o w).isSome = true) : (lastAt o ws).isSome = true := by
  induction ws with
  | nil => cases hw
  | cons w' ws ih =>
    rw [lastAt, Option.isSome_or, Bool.or_eq_true]
    rcases List.mem_cons.mp hw with rfl | hw
    · exact .inr h
    · exact .inl (ih hw)

theorem read_writes_of_lastAt (f : SparseFile α) (zero : α) {ws : List (ℕ × List α)} {o : ℕ}
    {a : α} (h : lastAt o ws = some a) : (f.writes ws).read zero o = some a := by
  have hget : (f.writes ws).get o = some a := by rw [get_writes, h, Option.some_or]
  have hlt : o < (f.writes ws).size := by
    by_contra hge
    rw [(f.writes ws).bounded o (Nat.le_of_not_lt hge)] at hget
    cases hget
  rw [read, if_pos hlt, hget]
  rfl

theorem read_writes_of_agree (f : SparseFile α) (zero : α) {ws : List (ℕ × List α)} {o : ℕ}
    {a : α} {w : ℕ × List α} (hw : w ∈ ws) (hreach : (putAt o w).isSome = true)
    (hagree : ∀ w ∈ ws, ∀ b, putAt o w = some b → b = a) :
    (f.writes ws).read zero o = some a := by
  obtain ⟨b, hlast⟩ := Option.isSome_iff_exists.mp (isSome_lastAt hw hreach)
  obtain ⟨w', hw', hput⟩ := exists_of_lastAt hlast
  obtain rfl := hagree w' hw' b hput
  exact f.read_writes_of_lastAt zero hlast

end SparseFile
