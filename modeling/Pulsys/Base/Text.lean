import Mathlib.Algebra.Ring.Int.Defs
import Mathlib.Algebra.Ring.Nat
import Pulsys.Base.Bytes

/-!
# Texts as byte strings

The string functions of the source's standard library. White space is the Unicode notion,
in UTF-8; letter case is handled in ASCII. Integers are read as `strconv.ParseInt` reads
them in base ten.
-/

namespace Text

open Bytes

def spaces : List Bytes :=
  [[9], [10], [11], [12], [13], [32], [0xC2, 0x85], [0xC2, 0xA0], [0xE1, 0x9A, 0x80],
    [0xE2, 0x80, 0x80], [0xE2, 0x80, 0x81], [0xE2, 0x80, 0x82], [0xE2, 0x80, 0x83],
    [0xE2, 0x80, 0x84], [0xE2, 0x80, 0x85], [0xE2, 0x80, 0x86], [0xE2, 0x80, 0x87],
    [0xE2, 0x80, 0x88], [0xE2, 0x80, 0x89], [0xE2, 0x80, 0x8A], [0xE2, 0x80, 0xA8],
    [0xE2, 0x80, 0xA9], [0xE2, 0x80, 0xAF], [0xE2, 0x81, 0x9F], [0xE3, 0x80, 0x80]]

def strip (pats : List Bytes) : ℕ → Bytes → Bytes
  | 0, b => b
  | n + 1, b =>
    match pats.find? (·.isPrefixOf b) with
    | none => b
    | some p => strip pats n (b.drop p.length)

def trimSpace (b : Bytes) : Bytes :=
  let front := strip spaces b.length b
  (strip (spaces.map List.reverse) front.length front.reverse).reverse

def isGraph (c : UInt8) : Bool := 33 ≤ c && c ≤ 126

variable {b : Bytes} {c : UInt8}

theorem strip_eq_self {pats : List Bytes} (h : ∀ p ∈ pats, p.isPrefixOf b = false) (n : ℕ) :
    strip pats n b = b := by
  cases n with
  | zero => rfl
  | succ n => rw [strip, List.find?_eq_none.mpr (fun p hp => by simp [h p hp])]

theorem not_isPrefixOf_of_isGraph (h : ∀ c ∈ b.head?, isGraph c = true) {p : Bytes}
    (hp : p ∈ spaces ∨ p ∈ spaces.map List.reverse) : p.isPrefixOf b = false := by
  have hspaces : ∀ p ∈ spaces ++ spaces.map List.reverse,
      ∃ c ∈ p.head?, isGraph c = false := by decide
  obtain ⟨c, hc, hgraph⟩ := hspaces p (List.mem_append.mpr hp)
  cases p with
  | nil => cases hc
  | cons d p =>
    obtain rfl := Option.some.inj hc
    cases b with
    | nil => rfl
    | cons e b =>
      have hne : d ≠ e := by
        rintro rfl
        rw [h d rfl] at hgraph
        cases hgraph
      simp [List.isPrefixOf, hne]

theorem trimSpace_eq_self (hfirst : ∀ c ∈ b.head?, isGraph c = true)
    (hlast : ∀ c ∈ b.getLast?, isGraph c = true) : trimSpace b = b := by
  have hfront : strip spaces b.length b = b :=
    strip_eq_self (fun p hp => not_isPrefixOf_of_isGraph hfirst (.inl hp)) _
  have hback : strip (spaces.map List.reverse) b.length b.reverse = b.reverse := by
    refine strip_eq_self (fun p hp => not_isPrefixOf_of_isGraph ?_ (.inr hp)) _
    rwa [List.head?_reverse]
  simp only [trimSpace, hfront, hback, List.reverse_reverse]

theorem trimSpace_of_graph (h : ∀ c ∈ b, isGraph c = true) : trimSpace b = b :=
  trimSpace_eq_self (fun c hc => h c (List.mem_of_mem_head? hc))
    (fun c hc => h c (List.mem_of_mem_getLast? hc))

theorem find?_blank {c : UInt8} (hc : c = 32 ∨ c = 9) (b : Bytes) :
    spaces.find? (·.isPrefixOf (c :: b)) = some [c]
      ∧ (spaces.map List.reverse).find? (·.isPrefixOf (c :: b)) = some [c] := by
  rcases hc with rfl | rfl
  · exact ⟨rfl, rfl⟩
  · exact ⟨rfl, rfl⟩

theorem strip_blanks {pats : List Bytes}
    (hpats : ∀ c b, c = 32 ∨ c = 9 → pats.find? (·.isPrefixOf (c :: b)) = some [c])
    {a : Bytes} (ha : ∀ c ∈ a, c = 32 ∨ c = 9) (b : Bytes) :
    strip pats (a ++ b).length (a ++ b) = strip pats b.length b := by
  induction a with
  | nil => rfl
  | cons c a ih =>
    rw [List.cons_append, List.length_cons, strip, hpats c _ (ha c List.mem_cons_self)]
    exact ih (fun d hd => ha d (List.mem_cons_of_mem c hd))

theorem trimSpace_blanks {a b t : Bytes} (ha : ∀ c ∈ a, c = 32 ∨ c = 9)
    (hb : ∀ c ∈ b, c = 32 ∨ c = 9) (hne : t ≠ []) (hfirst : ∀ c ∈ t.head?, isGraph c = true)
    (hlast : ∀ c ∈ t.getLast?, isGraph c = true) : trimSpace (a ++ (t ++ b)) = t := by
  have hfront : strip spaces (a ++ (t ++ b)).length (a ++ (t ++ b)) = t ++ b := by
    rw [strip_blanks (fun c b hc => (find?_blank hc b).1) ha]
    refine strip_eq_self (fun p hp => not_isPrefixOf_of_isGraph (fun c hc => ?_) (.inl hp)) _
    rw [List.head?_append_of_ne_nil _ hne] at hc
    exact hfirst c hc
  have hback : strip (spaces.map List.reverse) (t ++ b).length (t ++ b).reverse = t.reverse := by
    rw [← List.length_reverse, List.reverse_append,
      strip_blanks (fun c b hc => (find?_blank hc b).2)
        (fun c hc => hb c (List.mem_reverse.mp hc))]
    refine strip_eq_self (fun p hp => not_isPrefixOf_of_isGraph ?_ (.inr hp)) _
    rwa [List.head?_reverse]
  simp only [trimSpace, hfront, hback, List.reverse_reverse]

theorem strip_suffix (pats : List Bytes) (n : ℕ) (b : Bytes) : strip pats n b <:+ b := by
  induction n generalizing b with
  | zero => exact List.suffix_rfl
  | succ n ih =>
    rw [strip]
    split
    · exact List.suffix_rfl
    · exact (ih _).trans (List.drop_suffix _ _)

theorem trimSpace_infix (b : Bytes) : trimSpace b <:+: b := by
  have hback := List.reverse_prefix.mpr (strip_suffix (spaces.map List.reverse)
    (strip spaces b.length b).length (strip spaces b.length b).reverse)
  rw [List.reverse_reverse] at hback
  exact hback.isInfix.trans (strip_suffix spaces b.length b).isInfix

theorem strip_split (pats : List Bytes) (n : ℕ) (b : Bytes) :
    ∃ ps : List Bytes, (∀ p ∈ ps, p ∈ pats) ∧ b = ps.flatten ++ strip pats n b := by
  induction n generalizing b with
  | zero => exact ⟨[], fun p hp => (by cases hp), rfl⟩
  | succ n ih =>
    rw [strip]
    split
    · exact ⟨[], fun p hp => (by cases hp), rfl⟩
    · next p hfind =>
      obtain ⟨ps, hps, heq⟩ := ih (b.drop p.length)
      have hfound : p.isPrefixOf b = true := @List.find?_some _ (·.isPrefixOf b) p pats hfind
      have hprefix : p <+: b := List.isPrefixOf_iff_prefix.mp hfound
      refine ⟨p :: ps, List.forall_mem_cons.mpr ⟨List.mem_of_find?_eq_some hfind, hps⟩, ?_⟩
      rw [List.flatten_cons, List.append_assoc, ← heq]
      exact (List.prefix_iff_eq_append.mp hprefix).symm

theorem trimSpace_split (b : Bytes) :
    ∃ front back : List Bytes, (∀ p ∈ front ++ back, p ∈ spaces)
      ∧ b = front.flatten ++ (trimSpace b ++ back.flatten) := by
  obtain ⟨front, hfront, heq⟩ := strip_split spaces b.length b
  obtain ⟨back, hback, hrev⟩ := strip_split (spaces.map List.reverse)
    (strip spaces b.length b).length (strip spaces b.length b).reverse
  refine ⟨front, (back.map List.reverse).reverse, fun p hp => ?_, ?_⟩
  · rcases List.mem_append.mp hp with hp | hp
    · exact hfront p hp
    · obtain ⟨q, hq, rfl⟩ := List.mem_map.mp (List.mem_reverse.mp hp)
      obtain ⟨r, hr, rfl⟩ := List.mem_map.mp (hback q hq)
      rwa [List.reverse_reverse]
  · have hinner := congrArg List.reverse hrev
    rw [List.reverse_reverse, List.reverse_append, List.reverse_flatten] at hinner
    exact heq.trans (congrArg (front.flatten ++ ·) hinner)

theorem strip_append_singleton {pats : List Bytes} (h : ∀ p ∈ pats, c ∉ p) (n : ℕ) (b : Bytes) :
    ∃ b', strip pats n (b ++ [c]) = b' ++ [c] := by
  induction n generalizing b with
  | zero => exact ⟨b, rfl⟩
  | succ n ih =>
    rw [strip]
    split
    · exact ⟨b, rfl⟩
    · next p hp =>
      have hpre : p <+: b ++ [c] := by
        have := List.find?_some hp
        exact List.isPrefixOf_iff_prefix.mp this
      have hmem : c ∉ p := h p (List.mem_of_find?_eq_some hp)
      -- the pattern lies in front of the byte
      have hle : p.length ≤ b.length := by
        rcases List.prefix_concat_iff.mp hpre with rfl | hpre
        · simp at hmem
        · exact hpre.length_le
      rw [List.drop_append_of_le_length hle]
      exact ih _

theorem head?_trimSpace (h : b.head? = some c) (hc : isGraph c = true) :
    (trimSpace b).head? = some c := by
  have hfront : strip spaces b.length b = b := by
    refine strip_eq_self (fun p hp => not_isPrefixOf_of_isGraph (fun d hd => ?_) (.inl hp)) _
    obtain rfl : c = d := Option.some.inj (h.symm.trans hd)
    exact hc
  have hpats : ∀ p ∈ spaces.map List.reverse, c ∉ p := by
    have hspaces : (spaces.map List.reverse).all
        (fun p => p.all (fun d => decide (isGraph d = false))) = true := by decide
    have hall : ∀ p ∈ spaces.map List.reverse, ∀ d ∈ p, isGraph d = false :=
      fun p hp => forall_mem_of_all (List.all_eq_true.mp hspaces p hp)
    intro p hp hmem
    rw [hall p hp c hmem] at hc
    cases hc
  obtain ⟨b', rfl⟩ : ∃ b', b = c :: b' := by
    cases b with
    | nil => cases h
    | cons d b' =>
      cases h
      exact ⟨b', rfl⟩
  unfold trimSpace
  dsimp only
  rw [hfront, List.reverse_cons]
  obtain ⟨l, hl⟩ := strip_append_singleton hpats (c :: b').length b'.reverse
  rw [hl, List.reverse_append]
  rfl

def toLower (b : Bytes) : Bytes :=
  b.map (fun c => if 65 ≤ c && c ≤ 90 then c + 32 else c)

def toUpper (b : Bytes) : Bytes :=
  b.map (fun c => if 97 ≤ c && c ≤ 122 then c - 32 else c)

def lowerByte (c : UInt8) : UInt8 := if 65 ≤ c && c ≤ 90 then c + 32 else c

theorem toLower_eq_map (b : Bytes) : toLower b = b.map lowerByte := rfl

theorem lowerByte_cases (c : UInt8) :
    lowerByte c = c ∨ (97 ≤ lowerByte c ∧ lowerByte c ≤ 122) := by
  unfold lowerByte
  split
  · next h =>
    simp only [Bool.and_eq_true, decide_eq_true_eq, UInt8.le_iff_toNat_le] at h
    obtain ⟨hlo, hhi⟩ := h
    have hlo' : 65 ≤ c.toNat := hlo
    have hhi' : c.toNat ≤ 90 := hhi
    have hsum : (c + 32).toNat = c.toNat + 32 := by
      rw [UInt8.toNat_add]
      exact Nat.mod_eq_of_lt (show c.toNat + 32 < 256 by omega)
    refine .inr ⟨UInt8.le_iff_toNat_le.mpr ?_, UInt8.le_iff_toNat_le.mpr ?_⟩
    · show 97 ≤ (c + 32).toNat
      omega
    · show (c + 32).toNat ≤ 122
      omega
  · exact .inl rfl

theorem lowerByte_eq_iff {d : UInt8} (hlt : c < 97) (hfix : lowerByte c = c) :
    lowerByte d = c ↔ d = c := by
  constructor
  · intro h
    rcases lowerByte_cases d with hsame | ⟨hlo, -⟩
    · exact hsame.symm.trans h
    · exact absurd (h ▸ hlt) (UInt8.not_lt.mpr hlo)
  · rintro rfl
    exact hfix

theorem mem_toLower (hc : c < 97) (h : c ∈ toLower b) : c ∈ b := by
  obtain ⟨d, hd, rfl⟩ := List.mem_map.mp (toLower_eq_map b ▸ h)
  rcases lowerByte_cases d with heq | ⟨hlo, -⟩
  · rwa [heq]
  · exact absurd hc (UInt8.not_lt.mpr hlo)

theorem isGraph_toLower (h : ∀ c ∈ b, isGraph c = true) : ∀ c ∈ toLower b, isGraph c = true := by
  intro c hc
  obtain ⟨d, hd, rfl⟩ := List.mem_map.mp (toLower_eq_map b ▸ hc)
  rcases lowerByte_cases d with heq | ⟨hlo, hhi⟩
  · rw [heq]
    exact h d hd
  · simp only [isGraph, Bool.and_eq_true, decide_eq_true_eq]
    exact ⟨UInt8.le_trans (show (33 : UInt8) ≤ 97 by decide) hlo,
      UInt8.le_trans hhi (show (122 : UInt8) ≤ 126 by decide)⟩

theorem toLower_toLower (b : Bytes) : toLower (toLower b) = toLower b := by
  rw [toLower_eq_map, toLower_eq_map, List.map_map]
  refine List.map_congr_left (fun c _ => ?_)
  show lowerByte (lowerByte c) = lowerByte c
  rcases lowerByte_cases c with heq | ⟨hlo, -⟩
  · rw [heq, heq]
  · refine if_neg (fun h => ?_)
    simp only [Bool.and_eq_true, decide_eq_true_eq] at h
    exact absurd (UInt8.le_trans hlo h.2) (by decide)

def wrap64 (v : ℤ) : ℤ := v.bmod (2 ^ 64)

theorem wrap64_eq_self {v : ℤ} (hlo : -2 ^ 63 ≤ v) (hhi : v < 2 ^ 63) : wrap64 v = v :=
  Int.bmod_eq_of_le (by omega) (by omega)

theorem wrap64_of_le {v : ℤ} (hlo : 2 ^ 63 ≤ v) (hhi : v < 2 ^ 64) : wrap64 v = v - 2 ^ 64 := by
  unfold wrap64 Int.bmod
  dsimp only
  rw [if_neg (by omega), Int.emod_eq_of_lt (by omega) (by omega)]
  omega

theorem wrap64_eq_add_iff (a x : ℤ) : wrap64 a = wrap64 (a + x) ↔ wrap64 x = 0 := by
  have h := @Int.bmod_add_cancel_left 0 (2 ^ 64) x a
  rw [add_zero] at h
  exact h.trans eq_comm

theorem wrap64_sub_eq_zero_iff (x y : ℤ) : wrap64 (x - y) = 0 ↔ wrap64 x = wrap64 y :=
  Int.bmod_eq_bmod_iff_bmod_sub_eq_zero.symm

theorem wrap64_add_wrap64 (a b : ℤ) : wrap64 (a + wrap64 b) = wrap64 (a + b) := Int.add_bmod_bmod

def decimal (b : Bytes) : ℕ := b.foldl (fun v c => v * 10 + (c - 48).toNat) 0

@[simp]
theorem decimal_concat (b : Bytes) (c : UInt8) :
    decimal (b ++ [c]) = decimal b * 10 + (c - 48).toNat := by
  simp [decimal]

theorem decimal_le_of_prefix {p : Bytes} (h : p <+: b) : decimal p ≤ decimal b := by
  obtain ⟨t, rfl⟩ := h
  induction t using List.reverseRecOn with
  | nil => simp
  | append_singleton t c ih =>
    rw [← List.append_assoc, decimal_concat]
    omega

theorem wrap64_natCast (n : ℕ) : wrap64 n
    = if n % 2 ^ 64 < 2 ^ 63 then ((n % 2 ^ 64 : ℕ) : ℤ) else ((n % 2 ^ 64 : ℕ) : ℤ) - 2 ^ 64 := by
  unfold wrap64 Int.bmod
  dsimp only
  split <;> split <;> omega

def isDigit (c : UInt8) : Bool := 48 ≤ c && c ≤ 57

def splitSign : Bytes → Bool × Bytes
  | 43 :: b => (false, b)
  | 45 :: b => (true, b)
  | b => (false, b)

def parseInt (b : Bytes) : Option ℤ :=
  let (neg, digits) := splitSign b
  if digits.isEmpty || !digits.all isDigit then none
  else
    let v : ℤ := if neg then -(decimal digits) else decimal digits
    if v < -2 ^ 63 || 2 ^ 63 ≤ v then none else some v

theorem nonneg_of_parseInt {v : ℤ} (hsign : 45 ∉ b) (h : parseInt b = some v) : 0 ≤ v := by
  have hneg : (splitSign b).1 = false := by
    unfold splitSign
    split
    · rfl
    · exact absurd List.mem_cons_self hsign
    · rfl
  unfold parseInt at h
  rw [show splitSign b = (false, (splitSign b).2) from Prod.ext hneg rfl] at h
  dsimp only at h
  obtain ⟨-, h⟩ := Option.ite_none_left_eq_some.mp h
  obtain ⟨-, h⟩ := Option.ite_none_left_eq_some.mp h
  cases h
  exact Int.natCast_nonneg _

end Text
