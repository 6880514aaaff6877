import Mathlib.Data.Nat.Digits.Lemmas
import Pulsys.Base.Text

/-!
# Numerals

A number as text, most significant digit first, in a base up to sixteen, and
the value of such a text. The digits are Mathlib's; what is added is their
spelling. Reading a numeral back gives the number (`Numeral.value_format`),
and how long a numeral is says how large the number is.
-/

namespace Numeral

open Bytes

def digit (d : ℕ) : UInt8 := if d < 10 then (48 + d).toUInt8 else (87 + d).toUInt8

def digitValue (c : UInt8) : ℕ :=
  if c ≤ 57 then (c - 48).toNat else if c ≤ 70 then (c - 55).toNat else (c - 87).toNat

def isHexDigit (c : UInt8) : Bool :=
  (48 ≤ c && c ≤ 57) || (65 ≤ c && c ≤ 70) || (97 ≤ c && c ≤ 102)

def format (base n : ℕ) : Bytes :=
  if n = 0 then [48] else (Nat.digits base n).reverse.map digit

def value (base : ℕ) (b : Bytes) : ℕ := b.foldl (fun v c => v * base + digitValue c) 0

variable {base d n : ℕ} {c : UInt8}

theorem digitValue_digit (h : d < 16) : digitValue (digit d) = d := by
  have hall : ∀ d : Fin 16, digitValue (digit d) = d := by decide
  exact hall ⟨d, h⟩

theorem isHexDigit_digit (h : d < 16) : isHexDigit (digit d) = true := by
  have hall : ∀ d : Fin 16, isHexDigit (digit d) = true := by decide
  exact hall ⟨d, h⟩

theorem isDigit_digit (h : d < 10) : Text.isDigit (digit d) = true := by
  have hall : ∀ d : Fin 10, Text.isDigit (digit d) = true := by decide
  exact hall ⟨d, h⟩

theorem digitValue_of_isDigit (h : Text.isDigit c = true) : digitValue c = (c - 48).toNat := by
  rw [Text.isDigit, Bool.and_eq_true, decide_eq_true_eq, decide_eq_true_eq] at h
  rw [digitValue, if_pos h.2]

theorem value_format (hb : 1 < base) (hb' : base ≤ 16) : value base (format base n) = n := by
  unfold value format
  split
  · next h =>
    have h0 : digitValue 48 = 0 := by decide
    simp [h, h0]
  · rw [List.foldl_map, List.foldl_reverse]
    have hfold : ∀ L : List ℕ, (∀ d ∈ L, d < base) →
        L.foldr (fun d v => v * base + digitValue (digit d)) 0 = Nat.ofDigits base L := by
      intro L hL
      induction L with
      | nil => rfl
      | cons d L ih =>
        rw [List.foldr_cons, ih (fun x hx => hL x (List.mem_cons_of_mem _ hx)),
          digitValue_digit (lt_of_lt_of_le (hL d List.mem_cons_self) hb'), Nat.ofDigits_cons,
          Nat.mul_comm, Nat.add_comm]
    rw [hfold _ (fun d hd => Nat.digits_lt_base hb hd), Nat.ofDigits_digits]

theorem exists_of_mem_format (hb : 1 < base) (h : c ∈ format base n) : ∃ d < base, c = digit d := by
  unfold format at h
  split at h
  · exact ⟨0, by omega, by rw [List.mem_singleton.mp h]; rfl⟩
  · obtain ⟨d, hd, rfl⟩ := List.mem_map.mp h
    exact ⟨d, Nat.digits_lt_base hb (List.mem_reverse.mp hd), rfl⟩

theorem format_ne_nil (n : ℕ) : format base n ≠ [] := by
  unfold format
  split
  · simp
  · next h => simpa [Nat.digits_eq_nil_iff_eq_zero] using h

theorem format_eq_append (hb : 1 < base) :
    format base n = (if base ≤ n then format base (n / base) else []) ++ [digit (n % base)] := by
  by_cases hn : n = 0
  · rw [hn, if_neg (by omega), Nat.zero_mod]
    rfl
  rw [format, if_neg hn, Nat.digits_def' hb (Nat.pos_of_ne_zero hn), List.reverse_cons,
    List.map_append, List.map_singleton]
  split
  · next hle =>
    have hdiv : n / base ≠ 0 := (Nat.div_pos hle (by omega)).ne'
    rw [format, if_neg hdiv]
  · next hlt =>
    rw [Nat.div_eq_of_lt (not_le.mp hlt), Nat.digits_zero]
    rfl

theorem lt_length_format_iff {k : ℕ} (hb : 1 < base) (hk : 0 < k) :
    k < (format base n).length ↔ base ^ k ≤ n := by
  unfold format
  split
  · next h =>
    have : 0 < base ^ k := Nat.pow_pos (by omega)
    simp only [List.length_singleton, h]
    omega
  · rw [List.length_map, List.length_reverse, Nat.lt_digits_length_iff hb]

theorem length_format_eq_three : (format 10 n).length = 3 ↔ 100 ≤ n ∧ n ≤ 999 := by
  have h2 := lt_length_format_iff (n := n) (show 1 < 10 by omega) (show 0 < 2 by omega)
  have h3 := lt_length_format_iff (n := n) (show 1 < 10 by omega) (show 0 < 3 by omega)
  omega

theorem decimal_eq_value {b : Bytes} (h : ∀ c ∈ b, Text.isDigit c = true) :
    Text.decimal b = value 10 b := by
  unfold Text.decimal value
  refine List.foldl_ext _ _ 0 (fun v c hc => ?_)
  rw [digitValue_of_isDigit (h c hc)]

theorem isDigit_of_mem_format (h : c ∈ format 10 n) : Text.isDigit c = true := by
  obtain ⟨d, hd, rfl⟩ := exists_of_mem_format (by omega) h
  exact isDigit_digit hd

theorem notMem_format (hc : Text.isDigit c = false) (n : ℕ) : c ∉ format 10 n := by
  intro hmem
  rw [isDigit_of_mem_format hmem] at hc
  cases hc

theorem parseInt_format_eq (n : ℕ) :
    Text.parseInt (format 10 n) = if n < 2 ^ 63 then some (n : ℤ) else none := by
  have hdigits : ∀ c ∈ format 10 n, Text.isDigit c = true := fun c => isDigit_of_mem_format
  have hsign : Text.splitSign (format 10 n) = (false, format 10 n) := by
    unfold Text.splitSign
    split
    · next heq => exact absurd (hdigits 43 (by rw [heq]; simp)) (by decide)
    · next heq => exact absurd (hdigits 45 (by rw [heq]; simp)) (by decide)
    · rfl
  have hvalue : Text.decimal (format 10 n) = n := by
    rw [decimal_eq_value hdigits, value_format (by omega) (by omega)]
  have hall : (format 10 n).all Text.isDigit = true := List.all_eq_true.mpr hdigits
  have hne : (format 10 n).isEmpty = false := by simp [format_ne_nil]
  unfold Text.parseInt
  simp only [hsign, hall, hne, hvalue, Bool.not_true, Bool.or_self, Bool.false_eq_true, if_false,
    Bool.or_eq_true, decide_eq_true_eq]
  by_cases h : n < 2 ^ 63
  · rw [if_neg (by omega), if_pos h]
  · rw [if_pos (by omega), if_neg h]

theorem parseInt_format (h : n < 2 ^ 63) : Text.parseInt (format 10 n) = some (n : ℤ) := by
  rw [parseInt_format_eq, if_pos h]

theorem isGraph_of_mem_format (h : c ∈ format 10 n) : Text.isGraph c = true := by
  obtain ⟨d, hd, rfl⟩ := exists_of_mem_format (by omega) h
  have hall : ∀ d : Fin 10, Text.isGraph (digit d) = true := by decide
  exact hall ⟨d, hd⟩

theorem trimSpace_format (n : ℕ) : Text.trimSpace (format 10 n) = format 10 n :=
  Text.trimSpace_of_graph (fun _ hc => isGraph_of_mem_format hc)

end Numeral
