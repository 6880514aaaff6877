import Pulsys.Coreserver.Warm

/-!
# Answers from the cache

The handler reads the entry of the request's key, and for an alias, later, the entry it
points at. The entry settles what is sent: a redirect, a head, or a part of the body.

`ParseSingleRange` does not compare the ends of a range, and `Covers` has every range covered
that has no offset. So an inverted range, such as `bytes=2-0`, is a hit; and since the section
reader of a negative length has no end, the handler then sends the body from there to the end
of the file, also what nobody has written (`Copies`).
-/

namespace Proxy

open Bytes Cache

inductive Hit
  | redirect (m : Meta)
  | head (m : Meta)
  | body (key : Bytes) (m : Meta) (wantStart wantEnd : ℤ)
  deriving DecidableEq, Repr

def Copies (size : ℕ) (wantStart wantEnd o : ℤ) : Prop :=
  wantStart ≤ o ∧ if wantEnd < wantStart then o < size else o < wantEnd

def Hit.Straight : Hit → Prop
  | .body _ _ wantStart wantEnd => wantStart ≤ wantEnd
  | .redirect _ | .head _ => True

theorem Copies.lt {size : ℕ} {wantStart wantEnd o : ℤ} (h : Copies size wantStart wantEnd o)
    (hle : wantStart ≤ wantEnd) : wantStart ≤ o ∧ o < wantEnd := by
  obtain ⟨hlo, hhi⟩ := h
  rw [if_neg (not_lt.mpr hle)] at hhi
  exact ⟨hlo, hhi⟩

def resolveEntry (first second : Bytes → Option Meta) (keyHex : Bytes) :
    Option (Bytes × Meta) :=
  match first keyHex with
  | none => none
  | some m =>
    if m.aliasOf ≠ [] then (second m.aliasOf).map (fun canonical => (m.aliasOf, canonical))
    else some (keyHex, m)

def serveEntry (acquireBody : Bytes → Bool) (rangeHdr : Bytes) (headOnly : Bool)
    (keyHex : Bytes) (m : Meta) : Option Hit :=
  if isCacheableRedirectStatus m.statusCode ∧ m.location ≠ [] then some (.redirect m)
  else if headOnly then some (.head m)
  else if m.spans = [] then none
  else
    match Coreserver.wanted rangeHdr (m.total.getD (-1)) with
    | none => none
    | some (wantStart, wantEnd) =>
      if !covers m.spans wantStart wantEnd then none
      else if !acquireBody keyHex then none
      else some (.body keyHex m wantStart wantEnd)

def tryServeFromCache (first second : Bytes → Option Meta) (acquireBody : Bytes → Bool)
    (rangeHdr keyHex : Bytes) (headOnly : Bool) : Option Hit :=
  match resolveEntry first second keyHex with
  | none => none
  | some (keyHex, m) => serveEntry acquireBody rangeHdr headOnly keyHex m

/-! ## What an answer is made from -/

inductive Answers (key : Bytes) (m : Meta) : Hit → Prop
  | redirect (hstatus : isCacheableRedirectStatus m.statusCode = true)
      (hloc : m.location ≠ []) : Answers key m (.redirect m)
  | head : Answers key m (.head m)
  | body {wantStart wantEnd : ℤ} (hcov : covers m.spans wantStart wantEnd = true) :
      Answers key m (.body key m wantStart wantEnd)

variable {acquireBody : Bytes → Bool} {key keyHex rangeHdr : Bytes} {headOnly : Bool} {m : Meta}
  {hit : Hit} {first second : Bytes → Option Meta}

theorem answers_of_serveEntry (h : serveEntry acquireBody rangeHdr headOnly key m = some hit) :
    Answers key m hit := by
  unfold serveEntry at h
  split at h
  · next hred =>
    cases h
    exact .redirect hred.1 hred.2
  split at h
  · cases h
    exact .head
  split at h
  · cases h
  split at h
  · cases h
  · next wantStart wantEnd _ =>
    rw [Option.ite_none_left_eq_some, Option.ite_none_left_eq_some] at h
    obtain ⟨hcov, -, h⟩ := h
    cases h
    exact .body (by simpa using hcov)

theorem exists_of_tryServeFromCache
    (h : tryServeFromCache first second acquireBody rangeHdr keyHex headOnly = some hit) :
    ∃ e, resolveEntry first second keyHex = some e
      ∧ serveEntry acquireBody rangeHdr headOnly e.1 e.2 = some hit := by
  unfold tryServeFromCache at h
  split at h
  · cases h
  · next key m hresolve => exact ⟨(key, m), hresolve, h⟩

theorem answers_of_tryServeFromCache
    (h : tryServeFromCache first second acquireBody rangeHdr keyHex headOnly = some hit) :
    ∃ m, first keyHex = some m
      ∧ ((m.aliasOf = [] ∧ Answers keyHex m hit)
        ∨ (m.aliasOf ≠ [] ∧ ∃ canonical, second m.aliasOf = some canonical
          ∧ Answers m.aliasOf canonical hit)) := by
  obtain ⟨⟨key, m'⟩, hresolve, hserve⟩ := exists_of_tryServeFromCache h
  have hans : Answers key m' hit := answers_of_serveEntry hserve
  unfold resolveEntry at hresolve
  cases hm : first keyHex with
  | none => simp [hm] at hresolve
  | some m =>
    refine ⟨m, rfl, ?_⟩
    simp only [hm] at hresolve
    by_cases halias : m.aliasOf = []
    · rw [if_neg (by simp [halias])] at hresolve
      obtain ⟨rfl, rfl⟩ := Prod.mk.inj (Option.some.inj hresolve)
      exact .inl ⟨halias, hans⟩
    · rw [if_pos halias] at hresolve
      obtain ⟨canonical, hc, heq⟩ := Option.map_eq_some_iff.mp hresolve
      obtain ⟨rfl, rfl⟩ := Prod.mk.inj heq
      exact .inr ⟨halias, canonical, hc, hans⟩

theorem covered_of_body {wantStart wantEnd : ℤ}
    (h : tryServeFromCache first second acquireBody rangeHdr keyHex headOnly
      = some (.body key m wantStart wantEnd)) :
    (first key = some m ∨ second key = some m)
      ∧ ∀ o, wantStart ≤ o → o < wantEnd → Covered m.spans o := by
  obtain ⟨m₀, hfirst, ⟨-, hans⟩ | ⟨-, canonical, hsecond, hans⟩⟩ := answers_of_tryServeFromCache h
  · cases hans with
    | body hcov => exact ⟨.inl hfirst, fun o hlo hhi => covered_of_covers hcov ⟨hlo, hhi⟩⟩
  · cases hans with
    | body hcov => exact ⟨.inr hsecond, fun o hlo hhi => covered_of_covers hcov ⟨hlo, hhi⟩⟩

theorem tryServeFromCache_rangeOf {o : ℕ} (hm : first key = some m) (halias : m.aliasOf = [])
    (hloc : m.location = []) (hne : ∀ sp ∈ m.spans, sp.start < sp.stop) (ho : Covered m.spans o)
    (hmax : o + 1 < 2 ^ 63) :
    tryServeFromCache first second (fun _ => true) (rangeOf o o) key false
      = some (.body key m o (o + 1)) := by
  have hspans : m.spans ≠ [] := by
    rintro hnil
    simp [hnil, Covered] at ho
  have hwanted : Coreserver.wanted (rangeOf o o) (m.total.getD (-1))
      = some ((o : ℤ), (o : ℤ) + 1) := by
    unfold Coreserver.wanted
    rw [if_neg (by simp [rangeOf, ascii]), parseSingleRange_rangeOf (by omega) hmax]
    exact if_neg (by omega)
  simp [tryServeFromCache, resolveEntry, serveEntry, hm, halias, hloc, hspans, hwanted,
    covers_of_covered hne ho]

end Proxy
