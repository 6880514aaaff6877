import Mathlib.Algebra.Order.BigOperators.Group.Finset
import Mathlib.Tactic.Linarith

/-!
# Directories

A directory has finitely many names, and a value for each of them. What is
counted and summed over it changes with a write or a removal by what was and
what is there under the one name. A counter that is to follow the directory
must be moved by exactly that much.
-/

structure Directory (κ α : Type) where
  names : Finset κ
  get : κ → Option α
  mem_names : ∀ k, k ∈ names ↔ (get k).isSome = true

namespace Directory

variable {κ α : Type} [DecidableEq κ]

def empty : Directory κ α := ⟨∅, fun _ => none, by simp⟩

def write (d : Directory κ α) (k : κ) (v : α) : Directory κ α where
  names := insert k d.names
  get := Function.update d.get k (some v)
  mem_names k' := by
    by_cases h : k' = k
    · simp [h]
    · simp [h, d.mem_names]

def remove (d : Directory κ α) (k : κ) : Directory κ α where
  names := d.names.erase k
  get := Function.update d.get k none
  mem_names k' := by
    by_cases h : k' = k
    · simp [h]
    · simp [h, d.mem_names]

def weight (f : α → ℤ) (o : Option α) : ℤ := o.elim 0 f

def sum (d : Directory κ α) (f : α → ℤ) : ℤ := ∑ k ∈ d.names, weight f (d.get k)

def count (d : Directory κ α) : ℤ := d.names.card

@[simp]
theorem get_write (d : Directory κ α) (k : κ) (v : α) : (d.write k v).get k = some v :=
  Function.update_self _ _ _

@[simp]
theorem get_remove (d : Directory κ α) (k : κ) : (d.remove k).get k = none :=
  Function.update_self _ _ _

theorem get_write_of_ne (d : Directory κ α) {k k' : κ} (v : α) (h : k' ≠ k) :
    (d.write k v).get k' = d.get k' :=
  Function.update_of_ne h _ _

theorem get_write_eq_some {d : Directory κ α} {k k' : κ} {v w : α}
    (h : (d.write k v).get k' = some w) : (k' = k ∧ v = w) ∨ (k' ≠ k ∧ d.get k' = some w) := by
  by_cases hk : k' = k
  · rw [hk, get_write] at h
    exact .inl ⟨hk, Option.some.inj h⟩
  · rw [get_write_of_ne d v hk] at h
    exact .inr ⟨hk, h⟩

theorem forall_write {d : Directory κ α} {k : κ} {v : α} {P : κ → α → Prop} (hnew : P k v)
    (hold : ∀ k' w, d.get k' = some w → P k' w) :
    ∀ k' w, (d.write k v).get k' = some w → P k' w := by
  intro k' w h
  rcases get_write_eq_some h with ⟨rfl, rfl⟩ | ⟨-, hw⟩
  · exact hnew
  · exact hold k' w hw

theorem get_remove_of_ne (d : Directory κ α) {k k' : κ} (h : k' ≠ k) :
    (d.remove k).get k' = d.get k' :=
  Function.update_of_ne h _ _

theorem sum_eq_add_erase (d : Directory κ α) (f : α → ℤ) (k : κ) :
    d.sum f = weight f (d.get k) + ∑ k' ∈ d.names.erase k, weight f (d.get k') := by
  by_cases hk : k ∈ d.names
  · exact (Finset.add_sum_erase _ (fun k' => weight f (d.get k')) hk).symm
  · have hnone : d.get k = none := by
      simpa using mt (d.mem_names k).mpr hk
    rw [Finset.erase_eq_of_notMem hk, hnone]
    exact (zero_add _).symm

theorem sum_erase_congr {d d' : Directory κ α} {k : κ} (f : α → ℤ)
    (hnames : d'.names.erase k = d.names.erase k)
    (hget : ∀ k' ≠ k, d'.get k' = d.get k') :
    ∑ k' ∈ d'.names.erase k, weight f (d'.get k')
      = ∑ k' ∈ d.names.erase k, weight f (d.get k') := by
  rw [hnames]
  exact Finset.sum_congr rfl (fun k' hk' => by rw [hget k' (Finset.ne_of_mem_erase hk')])

theorem sum_write (d : Directory κ α) (f : α → ℤ) (k : κ) (v : α) :
    (d.write k v).sum f = d.sum f + (f v - weight f (d.get k)) := by
  have hrest := @sum_erase_congr _ _ _ d (d.write k v) k f
    (Finset.erase_insert_eq_erase _ _) (fun _ hk' => d.get_write_of_ne v hk')
  rw [(d.write k v).sum_eq_add_erase f k, d.sum_eq_add_erase f k, hrest, get_write]
  show f v + _ = _
  linarith

theorem sum_remove (d : Directory κ α) (f : α → ℤ) (k : κ) :
    (d.remove k).sum f = d.sum f - weight f (d.get k) := by
  have hrest := @sum_erase_congr _ _ _ d (d.remove k) k f
    (Finset.erase_idem) (fun _ hk' => d.get_remove_of_ne hk')
  rw [(d.remove k).sum_eq_add_erase f k, d.sum_eq_add_erase f k, hrest, get_remove]
  show 0 + _ = _
  linarith

omit [DecidableEq κ] in
theorem sum_nonneg {d : Directory κ α} {f : α → ℤ} (h : ∀ k v, d.get k = some v → 0 ≤ f v) :
    0 ≤ d.sum f := by
  refine Finset.sum_nonneg (fun k _ => ?_)
  cases hk : d.get k with
  | none => exact le_rfl
  | some v => exact h k v hk

theorem le_sum {d : Directory κ α} {f : α → ℤ} (h : ∀ k v, d.get k = some v → 0 ≤ f v) {k : κ}
    {v : α} (hk : d.get k = some v) : f v ≤ d.sum f := by
  have hothers : 0 ≤ (d.remove k).sum f := by
    refine sum_nonneg (fun k' v' hk' => ?_)
    by_cases heq : k' = k
    · rw [heq, get_remove] at hk'
      cases hk'
    · rw [get_remove_of_ne _ heq] at hk'
      exact h k' v' hk'
  rw [sum_remove, hk] at hothers
  have hweight : weight f (some v) = f v := rfl
  linarith

theorem count_write (d : Directory κ α) (k : κ) (v : α) :
    (d.write k v).count = d.count + (if (d.get k).isSome then 0 else 1) := by
  unfold count
  show ((insert k d.names).card : ℤ) = _
  by_cases hk : (d.get k).isSome = true
  · rw [Finset.insert_eq_of_mem ((d.mem_names k).mpr hk), if_pos hk, add_zero]
  · rw [Finset.card_insert_of_notMem (fun hmem => hk ((d.mem_names k).mp hmem)), if_neg hk]
    exact Nat.cast_succ _

theorem count_remove {d : Directory κ α} {k : κ} (hk : (d.get k).isSome = true) :
    (d.remove k).count = d.count - 1 := by
  have hmem := (d.mem_names k).mpr hk
  have hpos : 0 < d.names.card := Finset.card_pos.mpr ⟨k, hmem⟩
  unfold count
  show ((d.names.erase k).card : ℤ) = _
  rw [Finset.card_erase_of_mem hmem]
  omega

section
variable {β : Type}

omit [DecidableEq κ] in
theorem ext_get {d e : Directory κ α} (h : ∀ k, d.get k = e.get k) : d = e := by
  have hget : d.get = e.get := funext h
  have hnames : d.names = e.names := by
    ext k
    rw [d.mem_names, e.mem_names, h k]
  cases d
  cases e
  subst hget hnames
  rfl

def filterMap (d : Directory κ α) (f : κ → α → Option β) : Directory κ β where
  names := d.names.filter (fun k => ((d.get k).bind (f k)).isSome)
  get k := (d.get k).bind (f k)
  mem_names k := by
    rw [Finset.mem_filter, d.mem_names]
    refine ⟨And.right, fun h => ⟨?_, h⟩⟩
    cases hk : d.get k with
    | none => simp [hk] at h
    | some v => rfl

def map (d : Directory κ α) (f : κ → α → β) : Directory κ β :=
  d.filterMap (fun k v => some (f k v))

def overlay (e d : Directory κ α) : Directory κ α where
  names := e.names ∪ d.names
  get k := (e.get k).or (d.get k)
  mem_names k := by
    rw [Finset.mem_union, e.mem_names, d.mem_names]
    cases e.get k <;> simp

omit [DecidableEq κ] in
theorem get_filterMap (d : Directory κ α) (f : κ → α → Option β) (k : κ) :
    (d.filterMap f).get k = (d.get k).bind (f k) := rfl

omit [DecidableEq κ] in
@[simp]
theorem get_map (d : Directory κ α) (f : κ → α → β) (k : κ) :
    (d.map f).get k = (d.get k).map (f k) := by
  show (d.get k).bind _ = _
  cases d.get k <;> rfl

@[simp]
theorem get_overlay (e d : Directory κ α) (k : κ) :
    (e.overlay d).get k = (e.get k).or (d.get k) := rfl

omit [DecidableEq κ] in
theorem forall_names {d : Directory κ α} {P : κ → α → Prop} :
    (∀ k ∈ d.names, ∀ v ∈ d.get k, P k v) ↔ ∀ k v, d.get k = some v → P k v := by
  refine ⟨fun h k v hk => h k ((d.mem_names k).mpr (by rw [hk]; rfl)) v hk, fun h k _ v hv => ?_⟩
  exact h k v hv

end

theorem write_write (d : Directory κ α) (k : κ) (v w : α) :
    (d.write k v).write k w = d.write k w := by
  refine ext_get (fun k' => ?_)
  show Function.update (Function.update d.get k (some v)) k (some w) k' = _
  rw [Function.update_idem]
  rfl

def amend (d : Directory κ α) (k : κ) (f : α → Option α) : Directory κ α :=
  match d.get k with
  | none => d
  | some v =>
    match f v with
    | none => d.remove k
    | some v' => d.write k v'

theorem get_amend (d : Directory κ α) (k : κ) (f : α → Option α) :
    (d.amend k f).get k = (d.get k).bind f := by
  unfold amend
  cases hk : d.get k with
  | none => exact hk
  | some v =>
    dsimp only
    cases hv : f v with
    | none => exact (get_remove d k).trans hv.symm
    | some v' => exact (get_write d k v').trans hv.symm

theorem get_amend_of_ne (d : Directory κ α) {k k' : κ} (f : α → Option α) (h : k' ≠ k) :
    (d.amend k f).get k' = d.get k' := by
  unfold amend
  split
  · rfl
  · split
    · exact get_remove_of_ne d h
    · exact get_write_of_ne d _ h

end Directory
