import Mathlib.Algebra.Order.Group.Nat
import Mathlib.Data.List.Basic
import Mathlib.Data.Nat.ModEq
import Mathlib.Logic.Function.Basic
import Mathlib.Tactic.Common

/-!
# Rings with counters that wrap

Two parties share `2 ^ k` slots, each with a counter modulo `2 ^ 32` (`word`). As long as
the positions lie within `2 ^ k` of each other, counters tell them apart (`word_inj`) and
the slots hold what was put in and not yet given up (`Holds`).
-/

namespace WrapRing

def word (n : ℕ) : UInt32 := UInt32.ofNat n

def mask (k : ℕ) : UInt32 := word (2 ^ k) - 1

def slotOf (mask w : UInt32) : ℕ := (w &&& mask).toNat

theorem add_word (w : UInt32) (n : ℕ) : w + word n = word (w.toNat + n) := by
  rw [word, word, UInt32.ofNat_add, UInt32.ofNat_toNat]

variable {k m n : ℕ}

theorem word_sub (h : m ≤ n) : word n - word m = word (n - m) :=
  (UInt32.ofNat_sub h).symm

theorem word_add_one (n : ℕ) : word n + 1 = word (n + 1) := (UInt32.ofNat_add n 1).symm

theorem toNat_word_sub (h : m ≤ n) (hlt : n - m < 2 ^ 32) : (word n - word m).toNat = n - m := by
  rw [word_sub h, word, UInt32.toNat_ofNat', Nat.mod_eq_of_lt hlt]

theorem word_inj (h : m ≤ n) (hlt : n - m < 2 ^ 32) : word m = word n ↔ m = n := by
  refine ⟨fun heq => ?_, fun heq => by rw [heq]⟩
  have hzero : (word n - word m).toNat = 0 := by rw [heq, UInt32.sub_self, UInt32.toNat_zero]
  rw [toNat_word_sub h hlt] at hzero
  omega

theorem two_pow_lt (hk : k ≤ 31) : 2 ^ k < 2 ^ 32 :=
  Nat.pow_lt_pow_right (by decide) (by omega)

theorem toNat_word_two_pow (hk : k ≤ 31) : (word (2 ^ k)).toNat = 2 ^ k := by
  rw [word, UInt32.toNat_ofNat', Nat.mod_eq_of_lt (two_pow_lt hk)]

theorem toNat_mask (hk : k ≤ 31) : (mask k).toNat = 2 ^ k - 1 :=
  toNat_word_sub Nat.one_le_two_pow (lt_of_le_of_lt (Nat.sub_le _ _) (two_pow_lt hk))

theorem mask_add_one (k : ℕ) : mask k + 1 = word (2 ^ k) := UInt32.sub_add_cancel _ _

theorem eq_two_pow_of_and_eq_zero {w : UInt32} (hne : w ≠ 0) (h : w &&& (w - 1) = 0) :
    ∃ k, k ≤ 31 ∧ w = word (2 ^ k) := by
  have hnat : w.toNat ≠ 0 := fun hzero => hne (UInt32.toNat_inj.mp hzero)
  have hone : 1 ≤ w := UInt32.le_iff_toNat_le.mpr (by rw [UInt32.toNat_one]; omega)
  have hand : w.toNat &&& w.toNat - 1 = 0 := by
    have hzero := congrArg UInt32.toNat h
    rwa [UInt32.toNat_and, UInt32.toNat_sub_of_le _ _ hone] at hzero
  obtain ⟨k, hk⟩ := (Nat.and_sub_one_eq_zero_iff_isPowerOfTwo hnat).mp hand
  have hlt : 2 ^ k < 2 ^ 32 := hk ▸ w.toNat_lt
  refine ⟨k, Nat.lt_succ_iff.mp ((Nat.pow_lt_pow_iff_right (by decide)).mp hlt), ?_⟩
  rw [← hk, word, UInt32.ofNat_toNat]

theorem slotOf_word (hk : k ≤ 31) (n : ℕ) : slotOf (mask k) (word n) = n % 2 ^ k := by
  have hdvd : 2 ^ k ∣ 2 ^ 32 := Nat.pow_dvd_pow 2 (by omega)
  rw [slotOf, UInt32.toNat_and, toNat_mask hk, Nat.and_two_pow_sub_one_eq_mod, word,
    UInt32.toNat_ofNat', Nat.mod_mod_of_dvd n hdvd]

theorem slotOf_ne (hk : k ≤ 31) (h : m < n) (hlt : n < m + 2 ^ k) :
    slotOf (mask k) (word m) ≠ slotOf (mask k) (word n) := by
  rw [slotOf_word hk, slotOf_word hk]
  intro heq
  have hdvd : 2 ^ k ∣ n - m := (Nat.modEq_iff_dvd' (Nat.le_of_lt h)).mp heq
  have hle := Nat.le_of_dvd (by omega) hdvd
  omega

section
variable {α : Type} {k b lo : ℕ} {slots : ℕ → α} {log : List α}

def Holds (k b : ℕ) (slots : ℕ → α) (lo : ℕ) (log : List α) : Prop :=
  ∀ j, lo ≤ j → ∀ a, log[j]? = some a → slots (slotOf (mask k) (word (b + j))) = a

theorem holds_nil : Holds k b slots lo ([] : List α) := fun _ _ _ h => by
  rw [List.getElem?_nil] at h
  cases h

theorem Holds.mono (h : Holds k b slots lo log) {lo' : ℕ} (hle : lo ≤ lo') :
    Holds k b slots lo' log := fun j hj => h j (hle.trans hj)

theorem Holds.read (h : Holds k b slots lo log) {j : ℕ} (hlo : lo ≤ j) (hj : j < log.length) :
    log[j]? = some (slots (slotOf (mask k) (word (b + j)))) := by
  rw [List.getElem?_eq_getElem hj, h j hlo _ (List.getElem?_eq_getElem hj)]

theorem Holds.write (h : Holds k b slots lo log) (hk : k ≤ 31) (hroom : log.length < lo + 2 ^ k)
    (a : α) : Holds k b (Function.update slots (slotOf (mask k) (word (b + log.length))) a) lo log := by
  intro j hj x hx
  obtain ⟨hlt, -⟩ := List.getElem?_eq_some_iff.mp hx
  have hne := slotOf_ne (m := b + j) (n := b + log.length) hk (by omega) (by omega)
  rw [Function.update_of_ne hne]
  exact h j hj x hx

theorem Holds.publish (h : Holds k b slots lo log) :
    Holds k b slots lo (log ++ [slots (slotOf (mask k) (word (b + log.length)))]) := by
  intro j hj x hx
  rcases Nat.lt_or_ge j log.length with hlt | hge
  · rw [List.getElem?_append_left hlt] at hx
    exact h j hj x hx
  · rw [List.getElem?_append_right hge] at hx
    obtain ⟨hzero, hx⟩ := List.getElem?_eq_some_iff.mp hx
    rw [List.length_singleton] at hzero
    have heq : j = log.length := by omega
    subst heq
    rw [← hx]
    simp

theorem Holds.append (h : Holds k b slots lo log) (hk : k ≤ 31) (hroom : log.length < lo + 2 ^ k)
    (a : α) :
    Holds k b (Function.update slots (slotOf (mask k) (word (b + log.length))) a) lo
      (log ++ [a]) := by
  have hput := (h.write hk hroom a).publish
  rwa [Function.update_self] at hput

theorem prefix_concat {got : List α} (h : got <+: log) {a : α} (ha : log[got.length]? = some a) :
    got ++ [a] <+: log := by
  obtain ⟨rest, rfl⟩ := h
  rw [List.getElem?_append_right (Nat.le_refl _), Nat.sub_self] at ha
  cases rest with
  | nil => cases ha
  | cons x rest =>
    cases ha
    exact ⟨rest, by rw [List.append_assoc]; rfl⟩

end

end WrapRing
