import Pulsys.Coreserver.Response

/-!
# Parts of a file from the registry

The registry knows `bytes=a-b`, `bytes=a-` and `bytes=-n`, one at a time, and takes a range
exactly if it lies within the file (`parseSimpleRange_exact`); one that reaches past the
end is refused.
-/

namespace Registry

open Bytes
open Coreserver (Header itoa contentLengthKey)

def boundsOf (a b : Bytes) (size : ℤ) : Option (ℤ × ℤ) :=
  if a = [] then
    (Text.parseInt b).bind (fun n =>
      if n ≤ 0 ∨ size < n then none else some (size - n, size - 1))
  else
    (Text.parseInt a).bind (fun start =>
      if start < 0 ∨ size ≤ start then none
      else if b = [] then some (start, size - 1)
      else (Text.parseInt b).bind (fun stop =>
        if stop < start ∨ size ≤ stop then none else some (start, stop)))

def parseSimpleRange (h : Bytes) (size : ℤ) : Option (ℤ × ℤ) :=
  if !(ascii "bytes=").isPrefixOf h then none
  else
    let r := h.drop 6
    if r.contains 44 then none
    else (indexByte r 45).bind (fun dash => boundsOf (r.take dash) (r.drop (dash + 1)) size)

theorem parseSimpleRange_cut {a b : Bytes} (ha : 45 ∉ a) (hcomma : 44 ∉ a ++ 45 :: b) (size : ℤ) :
    parseSimpleRange (ascii "bytes=" ++ (a ++ 45 :: b)) size = boundsOf a b size := by
  have hpre : (ascii "bytes=").isPrefixOf (ascii "bytes=" ++ (a ++ 45 :: b)) = true :=
    List.isPrefixOf_iff_prefix.mpr (List.prefix_append _ _)
  have hdrop : (ascii "bytes=" ++ (a ++ 45 :: b)).drop 6 = a ++ 45 :: b := rfl
  have hbehind : (a ++ 45 :: b).drop (a.length + 1) = b := by
    rw [← List.drop_drop, List.drop_left, List.drop_one, List.tail_cons]
  unfold parseSimpleRange
  rw [hpre, hdrop, if_neg (by decide)]
  dsimp only
  rw [if_neg (by rwa [List.contains_iff_mem]), indexByte_append ha, Option.bind_some,
    List.take_left, hbehind]

theorem exists_of_parseSimpleRange {h : Bytes} {size : ℤ} {x : ℤ × ℤ}
    (hx : parseSimpleRange h size = some x) :
    ∃ a b, boundsOf a b size = some x ∧ 44 ∉ h := by
  unfold parseSimpleRange at hx
  obtain ⟨hpre, hx⟩ := Option.ite_none_left_eq_some.mp hx
  dsimp only at hx
  obtain ⟨hcomma, hx⟩ := Option.ite_none_left_eq_some.mp hx
  obtain ⟨dash, -, hx⟩ := Option.bind_eq_some_iff.mp hx
  refine ⟨_, _, hx, fun hmem => ?_⟩
  rw [Bool.not_eq_true', Bool.not_eq_false, List.isPrefixOf_iff_prefix] at hpre
  obtain ⟨r, rfl⟩ := hpre
  rw [List.contains_iff_mem] at hcomma
  rcases List.mem_append.mp hmem with hmem | hmem
  · exact absurd hmem (by decide)
  · exact hcomma hmem

theorem boundsOf_sound {a b : Bytes} {size start stop : ℤ}
    (h : boundsOf a b size = some (start, stop)) : 0 ≤ start ∧ start ≤ stop ∧ stop < size := by
  unfold boundsOf at h
  split at h
  · obtain ⟨n, -, h⟩ := Option.bind_eq_some_iff.mp h
    obtain ⟨hn, h⟩ := Option.ite_none_left_eq_some.mp h
    cases h
    omega
  · obtain ⟨first, -, h⟩ := Option.bind_eq_some_iff.mp h
    obtain ⟨hfirst, h⟩ := Option.ite_none_left_eq_some.mp h
    split at h
    · cases h
      omega
    · obtain ⟨last, -, h⟩ := Option.bind_eq_some_iff.mp h
      obtain ⟨hlast, h⟩ := Option.ite_none_left_eq_some.mp h
      cases h
      omega

/-! ## The ranges that are taken -/

inductive RangeSpec
  | closed (a b : ℕ)
  | openEnded (a : ℕ)
  | suffix (n : ℕ)

namespace RangeSpec

def render : RangeSpec → Bytes
  | closed a b => ascii "bytes=" ++ (Numeral.format 10 a ++ 45 :: Numeral.format 10 b)
  | openEnded a => ascii "bytes=" ++ (Numeral.format 10 a ++ 45 :: [])
  | suffix n => ascii "bytes=" ++ ([] ++ 45 :: Numeral.format 10 n)

def within (size : ℤ) : RangeSpec → Option (ℤ × ℤ)
  | closed a b => if a ≤ b ∧ b < size then some (a, b) else none
  | openEnded a => if a < size then some (a, size - 1) else none
  | suffix n => if 0 < n ∧ n ≤ size then some (size - n, size - 1) else none

end RangeSpec

theorem bind_parseInt_format {size : ℤ} (hsize : size < 2 ^ 63) (n : ℕ)
    {k : ℤ → Option (ℤ × ℤ)} (hk : ∀ v, size < v → k v = none) :
    (Text.parseInt (Numeral.format 10 n)).bind k = k n := by
  rw [Numeral.parseInt_format_eq]
  split
  · rfl
  · next hbig => exact (hk n (by omega)).symm

theorem parseSimpleRange_render {size : ℤ} (hsize : size < 2 ^ 63) (spec : RangeSpec) :
    parseSimpleRange spec.render size = spec.within size := by
  have hcomma : ∀ n, 44 ∉ Numeral.format 10 n := Numeral.notMem_format (by decide)
  have hdash : ∀ n, 45 ∉ Numeral.format 10 n := Numeral.notMem_format (by decide)
  cases spec with
  | closed a b =>
    rw [RangeSpec.render, parseSimpleRange_cut (hdash a) (by simp [hcomma]), boundsOf,
      if_neg (Numeral.format_ne_nil a),
      bind_parseInt_format hsize a (fun v hv => if_pos (.inr (Int.le_of_lt hv))),
      if_neg (Numeral.format_ne_nil b),
      bind_parseInt_format hsize b (fun v hv => if_pos (.inr (Int.le_of_lt hv)))]
    by_cases hin : a ≤ b ∧ (b : ℤ) < size
    · rw [if_neg (by omega), if_neg (by omega)]
      exact (if_pos hin).symm
    · refine Eq.trans ?_ (if_neg hin).symm
      split
      · rfl
      · exact if_pos (by omega)
  | openEnded a =>
    rw [RangeSpec.render, parseSimpleRange_cut (hdash a) (by simp [hcomma]), boundsOf,
      if_neg (Numeral.format_ne_nil a),
      bind_parseInt_format hsize a (fun v hv => if_pos (.inr (Int.le_of_lt hv))), if_pos rfl]
    by_cases hin : (a : ℤ) < size
    · rw [if_neg (by omega)]
      exact (if_pos hin).symm
    · rw [if_pos (by omega)]
      exact (if_neg hin).symm
  | suffix n =>
    rw [RangeSpec.render, parseSimpleRange_cut List.not_mem_nil (by simp [hcomma]), boundsOf,
      if_pos rfl, bind_parseInt_format hsize n (fun v hv => if_pos (.inr hv))]
    by_cases hin : 0 < n ∧ (n : ℤ) ≤ size
    · rw [if_neg (by omega)]
      exact (if_pos hin).symm
    · rw [if_pos (by omega)]
      exact (if_neg hin).symm

/-! ## The answer -/

structure Served where
  status : ℤ
  header : Header
  body : Bytes

def contentRangeKey : Bytes := ascii "Content-Range"

def resolveHeader (oid sha : Bytes) (size : ℤ) : Header :=
  let etag := 34 :: (oid ++ [34])
  (((((Header.empty.set (ascii "Content-Type") (ascii "application/octet-stream")).set
    (ascii "Etag") etag).set (ascii "X-Repo-Commit") sha).set
    (ascii "X-Linked-Etag") etag).set (ascii "X-Linked-Size") (itoa size)).set
    (ascii "Accept-Ranges") (ascii "bytes")

def serveResolve (method rangeHdr oid sha : Bytes) (size : ℤ) (blob : Bytes) : Served :=
  let hdr := resolveHeader oid sha size
  if rangeHdr = [] then
    ⟨200, hdr.set contentLengthKey (itoa size), if method = ascii "HEAD" then [] else blob⟩
  else
    match parseSimpleRange rangeHdr size with
    | none => ⟨416, hdr.set contentRangeKey (ascii "bytes */" ++ itoa size), []⟩
    | some (start, stop) =>
      ⟨206, (hdr.set contentRangeKey
          (ascii "bytes " ++ (itoa start ++ 45 :: (itoa stop ++ 47 :: itoa size)))).set
          contentLengthKey (itoa (stop - start + 1)),
        if method = ascii "HEAD" then []
        else (blob.drop start.toNat).take (stop - start + 1).toNat⟩

structure Served.IsPart (a : Served) (blob : Bytes) (size start stop : ℤ) : Prop where
  status : a.status = 206
  body : a.body = (blob.drop start.toNat).take (stop - start + 1).toNat
  length : a.header.get contentLengthKey = itoa a.body.length
  range : a.header.get contentRangeKey
    = ascii "bytes " ++ (itoa start ++ 45 :: (itoa stop ++ 47 :: itoa size))

theorem serveResolve_isPart {method rangeHdr oid sha blob : Bytes} {size start stop : ℤ}
    (hmethod : method ≠ ascii "HEAD") (hblob : blob.length = size)
    (h : parseSimpleRange rangeHdr size = some (start, stop)) :
    (serveResolve method rangeHdr oid sha size blob).IsPart blob size start stop := by
  have hne : rangeHdr ≠ [] := by
    rintro rfl
    cases h
  obtain ⟨a, b, hbounds, -⟩ := exists_of_parseSimpleRange h
  obtain ⟨h0, hle, hlt⟩ := boundsOf_sound hbounds
  have hlength : ((blob.drop start.toNat).take (stop - start + 1).toNat).length
      = (stop - start + 1).toNat := by
    rw [List.length_take, List.length_drop]
    omega
  unfold serveResolve
  dsimp only
  rw [if_neg hne, h]
  dsimp only
  rw [if_neg hmethod]
  refine ⟨rfl, rfl, ?_, ?_⟩
  · rw [Header.get_set, hlength, Int.toNat_of_nonneg (by omega)]
  · rw [Header.get_set_of_ne _ (by decide), Header.get_set]

/-- **Ranges are read exactly**: each is accepted exactly if it lies within the file, and the
header of the answer is about the bytes that are copied. -/
theorem parseSimpleRange_exact {size : ℤ} (hsize : size < 2 ^ 63) :
    (∀ h start stop, parseSimpleRange h size = some (start, stop) →
        0 ≤ start ∧ start ≤ stop ∧ stop < size ∧ 44 ∉ h)
      ∧ (∀ spec : RangeSpec, parseSimpleRange spec.render size = spec.within size)
      ∧ ∀ method rangeHdr oid sha blob start stop, method ≠ ascii "HEAD" → blob.length = size →
        parseSimpleRange rangeHdr size = some (start, stop) →
        (serveResolve method rangeHdr oid sha size blob).IsPart blob size start stop := by
  refine ⟨fun h start stop hparse => ?_, parseSimpleRange_render hsize,
    fun _ _ _ _ _ _ _ => serveResolve_isPart⟩
  obtain ⟨a, b, hbounds, hcomma⟩ := exists_of_parseSimpleRange hparse
  obtain ⟨h0, hle, hlt⟩ := boundsOf_sound hbounds
  exact ⟨h0, hle, hlt, hcomma⟩

theorem parseSimpleRange_exact_suffix :
    parseSimpleRange (ascii "bytes=-3") 10 = some (7, 9) :=
  (parseSimpleRange_exact (by decide)).2.1 (.suffix 3)

/-- **A range that reaches past the end is refused**, as is a suffix longer than the file. -/
theorem overlong_ranges_refused :
    parseSimpleRange (ascii "bytes=0-4096") 4096 = none
      ∧ parseSimpleRange (ascii "bytes=-4097") 4096 = none := by
  decide +kernel

end Registry
