import Pulsys.Coreserver.WarmHead
import Pulsys.Proxy.Upstream

/-!
# The content range of a part

The reader of `bytes first-last/total` compares the first offset with the last one, but not
the last with the total, and adds one in 64 bits. The interval is one within the body
exactly if neither matters (`contentRange_validated_iff`).
-/

namespace Proxy

open Bytes
open Coreserver (dash_notMem_itoa formatContentRange itoa notMem_itoa)

def writtenNumbers (s : Bytes) : Option (ℤ × Option ℤ) :=
  let s := (Text.trimSpace s).drop 6
  (indexByte s SLASH).bind (fun slash =>
    let se := Text.trimSpace (s.take slash)
    (indexByte se 45).bind (fun dash =>
      (Text.parseInt (se.drop (dash + 1))).map
        (·, Text.parseInt (Text.trimSpace (s.drop (slash + 1))))))

def ValidRange (start stop total : ℤ) : Prop :=
  0 ≤ start ∧ start < stop ∧ (0 ≤ total → stop ≤ total)

theorem lt_of_parseInt {b : Bytes} {v : ℤ} (h : Text.parseInt b = some v) : v < 2 ^ 63 := by
  unfold Text.parseInt at h
  obtain ⟨-, h⟩ := Option.ite_none_left_eq_some.mp h
  obtain ⟨hrange, h⟩ := Option.ite_none_left_eq_some.mp h
  cases h
  simp only [Bool.or_eq_true, decide_eq_true_eq, not_or, not_le] at hrange
  exact hrange.2

theorem written_of_parse {s : Bytes} {start stop total : ℤ}
    (h : parseContentRangeResponse s = some (start, stop, total)) :
    ∃ last t, writtenNumbers s = some (last, t) ∧ 0 ≤ start ∧ start ≤ last ∧ last < 2 ^ 63
      ∧ stop = Text.wrap64 (last + 1) ∧ total < 2 ^ 63
      ∧ (t = none ∧ total = -1 ∨ t = some total ∧ 0 ≤ total) := by
  have hstar : Text.parseInt (ascii "*") = none := by decide
  unfold parseContentRangeResponse at h
  dsimp only at h
  obtain ⟨-, h⟩ := Option.ite_none_left_eq_some.mp h
  split at h
  · cases h
  next slash hslash =>
  obtain ⟨-, h⟩ := Option.ite_none_left_eq_some.mp h
  split at h
  · cases h
  next dash hdash =>
  split at h
  · next a b ha hb =>
    obtain ⟨hab, h⟩ := Option.ite_none_left_eq_some.mp h
    have hlast := lt_of_parseInt hb
    have hread : writtenNumbers s = some (b, Text.parseInt (Text.trimSpace
        (((Text.trimSpace s).drop 6).drop (slash + 1)))) := by
      simp only [writtenNumbers, hslash, hdash, hb, Option.bind_some, Option.map_some]
    refine ⟨b, _, hread, ?_⟩
    split at h
    · next htext =>
      cases h
      rw [htext, hstar]
      exact ⟨by omega, by omega, hlast, rfl, by omega, .inl ⟨rfl, rfl⟩⟩
    · split at h
      · cases h
      · next t ht =>
        obtain ⟨hpos, h⟩ := Option.ite_none_left_eq_some.mp h
        cases h
        exact ⟨by omega, by omega, hlast, rfl, lt_of_parseInt ht, .inr ⟨ht, by omega⟩⟩
  · cases h

/-! ## Written back -/

theorem parseInt_itoa {n : ℤ} (h0 : 0 ≤ n) (hn : n < 2 ^ 63) : Text.parseInt (itoa n) = some n := by
  rw [itoa, if_neg (by omega), Numeral.parseInt_format (by omega)]
  exact congrArg some (by omega)

theorem isGraph_of_mem_itoa {n : ℤ} {c : UInt8} (h0 : 0 ≤ n) (hc : c ∈ itoa n) :
    Text.isGraph c = true := by
  rw [itoa, if_neg (by omega)] at hc
  exact Numeral.isGraph_of_mem_format hc

theorem parse_formatContentRange {start stop total : ℤ} (h : ValidRange start stop total)
    (hstop : stop < 2 ^ 63) (htotal : total = -1 ∨ 0 ≤ total ∧ total < 2 ^ 63) :
    parseContentRangeResponse (formatContentRange start stop total)
      = some (start, stop, total) := by
  obtain ⟨h0, hlt, -⟩ := h
  set tot : Bytes := if 0 ≤ total then itoa total else ascii "*" with htot
  have hgraph : ∀ c ∈ tot, Text.isGraph c = true ∧ c ≠ SLASH := by
    intro c hc
    rw [htot] at hc
    split at hc
    · next hpos =>
      refine ⟨isGraph_of_mem_itoa hpos hc, ?_⟩
      rintro rfl
      exact notMem_itoa (by decide) (by decide) total hc
    · exact forall_mem_of_all (p := fun c => Text.isGraph c = true ∧ c ≠ SLASH) (by decide) c hc
  have hse : ∀ c ∈ itoa start ++ 45 :: itoa (stop - 1), Text.isGraph c = true := by
    simp only [List.forall_mem_append, List.forall_mem_cons]
    exact ⟨fun c => isGraph_of_mem_itoa h0, by decide, fun c => isGraph_of_mem_itoa (by omega)⟩
  have hslash : SLASH ∉ itoa start ++ 45 :: itoa (stop - 1) := by
    simp only [List.mem_append, List.mem_cons, not_or]
    exact ⟨notMem_itoa (by decide) (by decide) _, by decide, notMem_itoa (by decide) (by decide) _⟩
  have htext : formatContentRange start stop total
      = ascii "bytes " ++ ((itoa start ++ 45 :: itoa (stop - 1)) ++ SLASH :: tot) := by
    simp [formatContentRange, htot]
  have htrim : Text.trimSpace (formatContentRange start stop total)
      = formatContentRange start stop total := by
    refine Text.trimSpace_eq_self (fun c hc => ?_) (fun c hc => ?_)
    · cases hc
      decide
    · rw [htext, ← List.append_assoc, List.getLast?_append_cons] at hc
      rcases List.mem_cons.mp (List.mem_of_mem_getLast? hc) with rfl | hc
      · decide
      · exact (hgraph c hc).1
  have hprefix : (ascii "bytes ").isPrefixOf
      (Text.toLower (formatContentRange start stop total)) = true := by
    rw [htext, Text.toLower, List.map_append]
    exact List.isPrefixOf_iff_prefix.mpr (List.prefix_append _ _)
  have hdrop : (formatContentRange start stop total).drop 6
      = (itoa start ++ 45 :: itoa (stop - 1)) ++ SLASH :: tot := by
    rw [htext]
    rfl
  have hnoslash : SLASH ∉ tot := fun hmem => (hgraph _ hmem).2 rfl
  have htot' : Text.trimSpace tot = tot := Text.trimSpace_of_graph (fun c hc => (hgraph c hc).1)
  have hend : Text.wrap64 (stop - 1 + 1) = stop := by
    rw [sub_add_cancel, Text.wrap64_eq_self (by omega) hstop]
  have hcut : ∀ (l r : Bytes) (c : UInt8), (l ++ c :: r).drop (l.length + 1) = r := fun l r c => by
    rw [← List.drop_drop, List.drop_left, List.drop_one, List.tail_cons]
  unfold parseContentRangeResponse
  simp only [htrim, hprefix, hdrop, indexByte_append hslash, List.take_left, hcut,
    Text.trimSpace_of_graph hse, indexByte_append (dash_notMem_itoa h0), hnoslash, htot', hend,
    parseInt_itoa h0 (by omega), parseInt_itoa (show 0 ≤ stop - 1 by omega) (by omega),
    Bool.not_true, Bool.false_eq_true, if_false]
  rw [if_neg (by omega)]
  rcases htotal with rfl | ⟨hpos, hmax⟩
  · exact if_pos (htot.trans (if_neg (by omega)))
  · have hstar : itoa total ≠ ascii "*" := fun hstar =>
      @notMem_itoa 42 (by decide) (by decide) total (by rw [hstar]; decide)
    rw [htot, if_pos hpos, if_neg hstar, parseInt_itoa hpos hmax]
    exact if_neg (by omega)

/-- **The content range of a part is an interval within the body** exactly if the last offset
is not the largest number and is below the total, if there is one. -/
theorem contentRange_validated_iff {s : Bytes} {start stop total : ℤ}
    (h : parseContentRangeResponse s = some (start, stop, total)) :
    (ValidRange start stop total
        ∧ parseContentRangeResponse (formatContentRange start stop total)
          = some (start, stop, total))
      ↔ ∃ last t, writtenNumbers s = some (last, t) ∧ last < 2 ^ 63 - 1 ∧ ∀ n ∈ t, last < n := by
  obtain ⟨last, t, hread, h0, hle, hmax, rfl, htotal, ht⟩ := written_of_parse h
  have hwrap : last < 2 ^ 63 - 1 → Text.wrap64 (last + 1) = last + 1 := fun hlt =>
    Text.wrap64_eq_self (by omega) (by omega)
  have hover : ¬ last < 2 ^ 63 - 1 → Text.wrap64 (last + 1) = -2 ^ 63 := by
    intro hlt
    obtain rfl : last = 2 ^ 63 - 1 := by omega
    decide
  constructor
  · rintro ⟨⟨-, hlt, hfits⟩, -⟩
    have hlast : last < 2 ^ 63 - 1 := by
      by_contra hno
      rw [hover hno] at hlt
      omega
    refine ⟨last, t, hread, hlast, fun n hn => ?_⟩
    rw [hwrap hlast] at hfits
    rcases ht with ⟨rfl, -⟩ | ⟨rfl, hpos⟩
    · cases hn
    · cases hn
      have := hfits hpos
      omega
  · rintro ⟨last', t', hread', hlast, hfits⟩
    cases hread.symm.trans hread'
    rw [hwrap hlast]
    have hvalid : ValidRange start (last + 1) total := by
      refine ⟨h0, by omega, fun hpos => ?_⟩
      rcases ht with ⟨-, rfl⟩ | ⟨rfl, -⟩
      · omega
      · have := hfits total rfl
        omega
    refine ⟨hvalid, parse_formatContentRange hvalid (by omega) ?_⟩
    rcases ht with ⟨-, rfl⟩ | ⟨-, hpos⟩
    · exact .inl rfl
    · exact .inr ⟨hpos, htotal⟩

theorem contentRange_validated_part :
    parseContentRangeResponse (ascii "bytes 3-5/6") = some (3, 6, 6) ∧ ValidRange 3 6 6 := by
  have h : parseContentRangeResponse (ascii "bytes 3-5/6") = some (3, 6, 6) := by decide
  exact ⟨h, ((contentRange_validated_iff h).mpr ⟨5, some 6, by decide, by decide, by decide⟩).1⟩

/-- **A part that ends behind the body, and one that ends at no offset.** -/
theorem contentRange_behind_total :
    parseContentRangeResponse (ascii "bytes 0-9/5") = some (0, 10, 5)
      ∧ parseContentRangeResponse (ascii "bytes 0-9223372036854775807/*")
        = some (0, -9223372036854775808, -1) := by
  decide

end Proxy
