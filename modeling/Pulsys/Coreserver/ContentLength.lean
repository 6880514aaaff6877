import Pulsys.Coreserver.Parser

/-!
# The declared length

`parseDecimalInt64` multiplies digits up in a 64-bit word and looks at the sign after every
digit, but the word can go all the way round. It is right about a text exactly if every
number too large is noticed (`parseDecimalInt64_exact_iff`).
-/

namespace Coreserver

open Bytes Bufio Text

/-! ## What the loop computes -/

theorem decimalStep_decimal (b : Bytes) (c : UInt8) :
    decimalStep ((decimal b % 2 ^ 64 : ℕ) : ℤ) c
      = if isDigit c = true ∧ decimal (b ++ [c]) % 2 ^ 64 < 2 ^ 63 then
          some ((decimal (b ++ [c]) % 2 ^ 64 : ℕ) : ℤ)
        else none := by
  have hdigit : isDigit c = true ↔ ¬ (c < 48 ∨ 57 < c) := by
    simp [isDigit, UInt8.not_lt]
  -- the remainder can be taken before the multiplication or after it
  have hwrap : wrap64 (((decimal b % 2 ^ 64 : ℕ) : ℤ) * 10 + (c - 48).toNat)
      = wrap64 (decimal (b ++ [c]) : ℕ) := by
    have hcast : ((decimal b % 2 ^ 64 : ℕ) : ℤ) * 10 + (c - 48).toNat
        = ((decimal b % 2 ^ 64 * 10 + (c - 48).toNat : ℕ) : ℤ) := by push_cast; rfl
    rw [hcast, wrap64_natCast, wrap64_natCast, decimal_concat]
    have hmod : (decimal b % 2 ^ 64 * 10 + (c - 48).toNat) % 2 ^ 64
        = (decimal b * 10 + (c - 48).toNat) % 2 ^ 64 := by omega
    rw [hmod]
  unfold decimalStep
  simp only [hwrap, wrap64_natCast, hdigit, Bool.or_eq_true, decide_eq_true_eq]
  by_cases hc : c < 48 ∨ 57 < c
  · rw [if_pos hc, if_neg (fun h => h.1 hc)]
  · rw [if_neg hc]
    by_cases hsmall : decimal (b ++ [c]) % 2 ^ 64 < 2 ^ 63
    · rw [if_pos hsmall, if_neg (by omega), if_pos ⟨hc, hsmall⟩]
    · rw [if_neg hsmall, if_pos (by omega), if_neg (fun h => hsmall h.2)]

theorem foldlM_decimalStep_eq_some_iff (b : Bytes) (v : ℤ) :
    b.foldlM decimalStep 0 = some v
      ↔ (∀ c ∈ b, isDigit c = true) ∧ (∀ p, p <+: b → decimal p % 2 ^ 64 < 2 ^ 63)
        ∧ v = (decimal b % 2 ^ 64 : ℕ) := by
  induction b using List.reverseRecOn generalizing v with
  | nil =>
    have hnil : ∀ p : Bytes, p <+: [] → decimal p % 2 ^ 64 < 2 ^ 63 := by
      intro p hp
      rw [List.prefix_nil.mp hp]
      decide
    constructor
    · intro h
      obtain rfl : (0 : ℤ) = v := Option.some.inj h
      exact ⟨fun c hc => absurd hc List.not_mem_nil, hnil, by decide⟩
    · rintro ⟨-, -, rfl⟩
      rfl
  | append_singleton b c ih =>
    have hprefix : ∀ p, p <+: b ++ [c] ↔ p = b ++ [c] ∨ p <+: b := fun p =>
      List.prefix_concat_iff
    rw [List.foldlM_append, Option.bind_eq_bind, Option.bind_eq_some_iff]
    simp only [ih, List.foldlM_cons, List.foldlM_nil, Option.bind_eq_bind, hprefix]
    constructor
    · rintro ⟨w, ⟨hdigits, hsmall, rfl⟩, hstep⟩
      rw [decimalStep_decimal] at hstep
      split at hstep
      · next hc =>
        refine ⟨?_, ?_, ?_⟩
        · intro d hd
          rcases List.mem_append.mp hd with hd | hd
          · exact hdigits d hd
          · rw [List.mem_singleton.mp hd]
            exact hc.1
        · rintro p (rfl | hp)
          · exact hc.2
          · exact hsmall p hp
        · exact (Option.some.inj hstep).symm
      · cases hstep
    · rintro ⟨hdigits, hsmall, rfl⟩
      refine ⟨_, ⟨fun d hd => hdigits d (List.mem_append_left _ hd),
        fun p hp => hsmall p (.inr hp), rfl⟩, ?_⟩
      rw [decimalStep_decimal, if_pos ⟨hdigits c (by simp), hsmall _ (.inl rfl)⟩]
      rfl

theorem parseDecimalInt64_eq_some_iff (b : Bytes) (v : ℤ) :
    parseDecimalInt64 b = some v
      ↔ b ≠ [] ∧ (∀ c ∈ b, isDigit c = true) ∧ (∀ p, p <+: b → decimal p % 2 ^ 64 < 2 ^ 63)
        ∧ v = (decimal b % 2 ^ 64 : ℕ) := by
  unfold parseDecimalInt64
  by_cases hb : b = []
  · simp [hb]
  · rw [if_neg hb, foldlM_decimalStep_eq_some_iff]
    simp [hb]

/-! ## When it is right -/

def OverflowShows (b : Bytes) : Prop :=
  (∀ c ∈ b, isDigit c = true) → 2 ^ 63 ≤ decimal b →
    ∃ p, p <+: b ∧ 2 ^ 63 ≤ decimal p % 2 ^ 64

/-- **The declared length is exact where an overflow shows.** -/
theorem parseDecimalInt64_exact_iff (b : Bytes) :
    (∀ v : ℤ, parseDecimalInt64 b = some v
        ↔ b ≠ [] ∧ (∀ c ∈ b, isDigit c = true) ∧ v = decimal b ∧ v < 2 ^ 63)
      ↔ OverflowShows b := by
  constructor
  · intro hexact hdigits hlarge
    by_contra hno
    have hsmall : ∀ p, p <+: b → decimal p % 2 ^ 64 < 2 ^ 63 := fun p hp =>
      Nat.lt_of_not_le (fun hle => hno ⟨p, hp, hle⟩)
    have hne : b ≠ [] := by
      rintro rfl
      exact absurd hlarge (by decide)
    have hparse := (parseDecimalInt64_eq_some_iff b _).mpr ⟨hne, hdigits, hsmall, rfl⟩
    obtain ⟨-, -, hv, hlt⟩ := (hexact _).mp hparse
    omega
  · intro hshows v
    rw [parseDecimalInt64_eq_some_iff]
    constructor
    · rintro ⟨hne, hdigits, hsmall, rfl⟩
      have hlt : decimal b < 2 ^ 63 := by
        by_contra hlarge
        obtain ⟨p, hp, hle⟩ := hshows hdigits (by omega)
        exact absurd (hsmall p hp) (by omega)
      refine ⟨hne, hdigits, ?_, ?_⟩ <;> omega
    · rintro ⟨hne, hdigits, rfl, hlt⟩
      have hsmall : ∀ p, p <+: b → decimal p % 2 ^ 64 < 2 ^ 63 := by
        intro p hp
        have := decimal_le_of_prefix hp
        omega
      refine ⟨hne, hdigits, hsmall, ?_⟩
      omega

def wrappedRequest : Bytes :=
  ascii "PUT / HTTP/1.1\r\nHost: h\r\nContent-Length: 20000000000000000000\r\n\r\n"

/-- **A length that goes round is accepted**, and the parser reports what it comes round
to. -/
theorem content_length_wraps :
    parseDecimalInt64 (ascii "20000000000000000000") = some 1553255926290448384
      ∧ decimal (ascii "20000000000000000000") = 20000000000000000000
      ∧ (readRequest (Reader.new bufReadSize (Conn.ofBytes wrappedRequest))
          headerScratchSize {}).1.1 = .ok ()
      ∧ (readRequest (Reader.new bufReadSize (Conn.ofBytes wrappedRequest))
          headerScratchSize {}).1.2.contentLen = 1553255926290448384 := by
  refine ⟨?_, ?_, ?_, ?_⟩ <;> decide +kernel

end Coreserver
