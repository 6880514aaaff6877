import Mathlib.Data.List.Basic
import Mathlib.Data.Nat.Notation
import Mathlib.Tactic.Common

/-!
# Readers, and loops that read to the end

A `Source` is what is left of a stream and how the next reads take it. `copy` reads until
the reader says that it is over; `copy_rule` is the rule for it, with a measure that says
how much fuel is enough.
-/

namespace Readers

variable {α ε ρ : Type}

structure Read (α ε ρ : Type) where
  data : List α
  err : Option (Option ε)
  next : ρ

structure Source (α ε : Type) where
  rest : List α
  sizes : List ℕ := []
  eager : Bool := false
  failure : Option ε := none

def Source.size (s : Source α ε) (len : ℕ) : ℕ := min (s.sizes.headD len) len

def Source.ends (s : Source α ε) (len : ℕ) : Bool :=
  0 < s.size len && s.rest.length ≤ s.size len && (s.eager || s.rest.length = 0)

def Source.read (s : Source α ε) (len : ℕ) : Read α ε (Source α ε) where
  data := s.rest.take (s.size len)
  err := if s.ends len then some s.failure else none
  next := { s with rest := s.rest.drop (s.size len), sizes := s.sizes.tail }

theorem Source.size_le (s : Source α ε) (len : ℕ) : s.size len ≤ len := Nat.min_le_right _ _

theorem Source.ends_iff (s : Source α ε) (len : ℕ) :
    s.ends len = true ↔ 0 < s.size len ∧ s.rest.length ≤ s.size len
      ∧ (s.eager = true ∨ s.rest.length = 0) := by
  simp only [Source.ends, Bool.and_eq_true, Bool.or_eq_true, decide_eq_true_eq, and_assoc]

theorem Source.read_err_eq_none {s : Source α ε} {len : ℕ} :
    (s.read len).err = none ↔ s.ends len = false := by
  rw [Source.read]
  cases s.ends len <;> simp

theorem Source.read_err_eq_some {s : Source α ε} {len : ℕ} {failure : Option ε} :
    (s.read len).err = some failure ↔ s.ends len = true ∧ failure = s.failure := by
  rw [Source.read]
  cases s.ends len <;> simp [eq_comm]

def Source.measure (s : Source α ε) : ℕ := s.rest.length + s.sizes.length

theorem Source.measure_read {s : Source α ε} {len : ℕ} (hlen : 0 < len)
    (h : (s.read len).err = none) : (s.read len).next.measure < s.measure := by
  have hends := Source.read_err_eq_none.mp h
  rw [Source.read, Source.measure, Source.measure, List.length_drop, List.length_tail]
  cases hsizes : s.sizes with
  | cons k sizes =>
    rw [List.length_cons]
    omega
  | nil =>
    -- the read gives all that it is asked for, and something is left
    have hsize : s.size len = len := by rw [Source.size, hsizes, List.headD_nil, Nat.min_self]
    have hrest : s.rest.length ≠ 0 := by
      intro hzero
      have hmust := (s.ends_iff len).mpr ⟨by omega, by omega, .inr hzero⟩
      rw [hends] at hmust
      cases hmust
    rw [hsize, List.length_nil]
    omega

structure Copied (α ε ρ : Type) where
  data : List α
  failure : Option ε
  reader : ρ

def copy (read : ρ → Read α ε ρ) : ℕ → ρ → Option (Copied α ε ρ)
  | 0, _ => none
  | fuel + 1, r =>
    match (read r).err with
    | some failure => some ⟨(read r).data, failure, (read r).next⟩
    | none =>
      (copy read fuel (read r).next).map (fun c => { c with data := (read r).data ++ c.data })

theorem copy_rule {read : ρ → Read α ε ρ} (measure : ρ → ℕ) {Post : ρ → Copied α ε ρ → Prop}
    (hless : ∀ r, (read r).err = none → measure (read r).next < measure r)
    (hlast : ∀ r failure, (read r).err = some failure →
      Post r ⟨(read r).data, failure, (read r).next⟩)
    (hread : ∀ r c, (read r).err = none → Post (read r).next c →
      Post r { c with data := (read r).data ++ c.data })
    (fuel : ℕ) (r : ρ) (hfuel : measure r < fuel) :
    ∃ c, copy read fuel r = some c ∧ Post r c := by
  induction fuel generalizing r with
  | zero => exact absurd hfuel (Nat.not_lt_zero _)
  | succ fuel ih =>
    rw [copy]
    cases herr : (read r).err with
    | some failure => exact ⟨_, rfl, hlast r failure herr⟩
    | none =>
      have hnext := hless r herr
      obtain ⟨c, hc, hpost⟩ := ih (read r).next (by omega)
      refine ⟨_, ?_, hread r c herr hpost⟩
      rw [hc]
      rfl

end Readers
