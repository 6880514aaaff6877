import Pulsys.Base.Bytes

/-!
# Percent-decoding

Decoding fails at a percent sign without two hexadecimal digits behind it; in a query
component a plus sign stands for a blank. It never lengthens a text, and shortens every
text with a percent sign in it.
-/

namespace Percent

open Bytes

def PERCENT : UInt8 := 37

def PLUS : UInt8 := 43

def unhex (c : UInt8) : Option UInt8 :=
  if 48 ≤ c && c ≤ 57 then some (c - 48)
  else if 97 ≤ c && c ≤ 102 then some (c - 87)
  else if 65 ≤ c && c ≤ 70 then some (c - 55)
  else none

def unescape (plus : Bool) : Bytes → Option Bytes
  | [] => some []
  | c :: b =>
    if c = PERCENT then
      match b with
      | hi :: lo :: b' =>
        match unhex hi, unhex lo with
        | some hi, some lo => (unescape plus b').map ((hi * 16 + lo) :: ·)
        | _, _ => none
      | _ => none
    else (unescape plus b).map ((if plus && c == PLUS then SP else c) :: ·)

def pathUnescape (b : Bytes) : Option Bytes := unescape false b

def queryUnescape (b : Bytes) : Option Bytes := unescape true b

theorem unescape_cons_of_ne {plus : Bool} {c : UInt8} {b : Bytes} (h : c ≠ PERCENT) :
    unescape plus (c :: b)
      = (unescape plus b).map ((if plus && c == PLUS then SP else c) :: ·) := by
  conv_lhs => unfold unescape
  exact if_neg h

theorem unescape_append {plus : Bool} {a d : Bytes} (h : unescape plus a = some d) (b : Bytes) :
    unescape plus (a ++ b) = (unescape plus b).map (d ++ ·) := by
  fun_induction unescape plus a generalizing d with
  | case1 =>
    cases h
    simp
  | case2 hi lo b' h' l' hlo hhi ih =>
    obtain ⟨d', hd', rfl⟩ := Option.map_eq_some_iff.mp h
    show unescape plus (PERCENT :: hi :: lo :: (b' ++ b)) = _
    rw [unescape, if_pos rfl, hhi, hlo]
    dsimp only
    rw [ih hd', Option.map_map]
    rfl
  | case3 => cases h
  | case4 => cases h
  | case5 c b' hc ih =>
    obtain ⟨d', hd', rfl⟩ := Option.map_eq_some_iff.mp h
    rw [List.cons_append, unescape_cons_of_ne hc, ih hd', Option.map_map]
    rfl

theorem unescape_flatMap {plus : Bool} {code : UInt8 → Bytes}
    (h : ∀ c, unescape plus (code c) = some [c]) (b : Bytes) :
    unescape plus (b.flatMap code) = some b := by
  induction b with
  | nil => rfl
  | cons c b ih =>
    rw [List.flatMap_cons, unescape_append (h c), ih]
    rfl

theorem pathUnescape_eq_self {b : Bytes} (h : PERCENT ∉ b) : pathUnescape b = some b := by
  unfold pathUnescape
  induction b with
  | nil => rfl
  | cons c b ih =>
    have hc := List.ne_of_not_mem_cons h
    have hb := List.not_mem_of_not_mem_cons h
    rw [unescape_cons_of_ne (Ne.symm hc), ih hb]
    rfl

theorem length_unescape {plus : Bool} {b d : Bytes} (h : unescape plus b = some d) :
    d.length ≤ b.length ∧ (PERCENT ∈ b → d.length < b.length) := by
  fun_induction unescape plus b generalizing d with
  | case1 =>
    cases h
    simp
  | case2 hi lo b' h' l' hlo hhi ih =>
    obtain ⟨d', hd', rfl⟩ := Option.map_eq_some_iff.mp h
    have := (ih hd').1
    simp only [List.length_cons]
    omega
  | case3 => cases h
  | case4 => cases h
  | case5 c b hc ih =>
    obtain ⟨d', hd', rfl⟩ := Option.map_eq_some_iff.mp h
    obtain ⟨hle, hlt⟩ := ih hd'
    refine ⟨by simpa using hle, fun hmem => ?_⟩
    rcases List.mem_cons.mp hmem with rfl | hmem
    · exact absurd rfl hc
    · simpa using hlt hmem

theorem percent_notMem_of_length {b d : Bytes} (h : pathUnescape b = some d)
    (hlen : b.length ≤ d.length) : PERCENT ∉ b := fun hmem =>
  absurd ((length_unescape h).2 hmem) (by omega)

example : pathUnescape (ascii "/a%2520b") = some (ascii "/a%20b") := by decide +kernel

end Percent
