import Pulsys.Proxy.WarmAgreement

/-!
# Partial answers

A `Range` is read by `ParseSingleRange` and checked by `Covers` alone, which says yes to an
empty interval and does not look at the total. An answer is valid exactly if the header
names positions in order and none behind the end (`partial_valid_iff`).
-/

namespace Text

theorem lt_of_parseInt {b : Bytes} {v : ℤ} (h : parseInt b = some v) :
    -2 ^ 63 ≤ v ∧ v < 2 ^ 63 := by
  unfold parseInt at h
  dsimp only at h
  obtain ⟨-, h⟩ := Option.ite_none_left_eq_some.mp h
  obtain ⟨hrange, h⟩ := Option.ite_none_left_eq_some.mp h
  cases h
  simp only [Bool.or_eq_true, decide_eq_true_eq, not_or, not_lt, not_le] at hrange
  exact hrange

end Text

namespace Proxy

open Bytes Cache
open Coreserver (Header Server View WarmPlan itoa wanted)

/-! ## What a header names -/

def namedRange (range : Bytes) : Option (ℤ × Option ℤ) :=
  let v := Text.trimSpace range
  if !(ascii "bytes=").isPrefixOf (Text.toLower v) then none
  else
    match indexByte (v.drop 6) 45 with
    | none => none
    | some dash =>
      match Text.parseInt (Text.trimSpace ((v.drop 6).take dash)) with
      | none => none
      | some first =>
        let lastStr := Text.trimSpace ((v.drop 6).drop (dash + 1))
        if lastStr = [] then some (first, none)
        else (Text.parseInt lastStr).map (fun last => (first, some last))

def NamesBytes (range : Bytes) (m : Meta) : Prop :=
  ∀ first last, namedRange range = some (first, last) →
    first ≤ last.getD (m.total.getD (-1) - 1)
      ∧ (0 ≤ m.total.getD (-1) → last.getD (m.total.getD (-1) - 1) < m.total.getD (-1))

theorem parseSingleRange_eq_namedRange (range : Bytes) (total : ℤ) :
    parseSingleRange range total = (namedRange range).map (fun n => (n.1,
      n.2.elim (if total ≤ 0 then -1 else total) (fun last => Text.wrap64 (last + 1)))) := by
  unfold parseSingleRange namedRange
  dsimp only
  cases (!(ascii "bytes=").isPrefixOf (Text.toLower (Text.trimSpace range))) with
  | true => rfl
  | false =>
  rw [if_neg Bool.false_ne_true, if_neg Bool.false_ne_true]
  cases indexByte ((Text.trimSpace range).drop 6) 45 with
  | none => rfl
  | some dash =>
  dsimp only
  cases Text.parseInt (Text.trimSpace (((Text.trimSpace range).drop 6).take dash)) with
  | none => rfl
  | some first =>
  dsimp only
  by_cases hnil : Text.trimSpace (((Text.trimSpace range).drop 6).drop (dash + 1)) = []
  · rw [if_pos hnil, if_pos hnil]
    rfl
  · rw [if_neg hnil, if_neg hnil]
    cases Text.parseInt (Text.trimSpace (((Text.trimSpace range).drop 6).drop (dash + 1))) with
    | none => rfl
    | some last => rfl

variable {range : Bytes}

theorem lt_of_namedRange {first last : ℤ} (h : namedRange range = some (first, some last)) :
    -2 ^ 63 ≤ last ∧ last < 2 ^ 63 := by
  unfold namedRange at h
  dsimp only at h
  obtain ⟨-, h⟩ := Option.ite_none_left_eq_some.mp h
  split at h
  · cases h
  split at h
  · cases h
  split at h
  · cases h
  · obtain ⟨last', hlast, heq⟩ := Option.map_eq_some_iff.mp h
    obtain ⟨-, hsome⟩ := Prod.mk.inj heq
    cases hsome
    exact Text.lt_of_parseInt hlast

theorem exists_named_of_wanted {total a b : ℤ} (hne : range ≠ [])
    (h : wanted range total = some (a, b)) :
    ∃ last, namedRange range = some (a, last) ∧ b = last.getD (total - 1) + 1 := by
  unfold wanted at h
  rw [if_neg hne, parseSingleRange_eq_namedRange] at h
  cases hnamed : namedRange range with
  | none => simp [hnamed] at h
  | some n =>
    obtain ⟨first, last⟩ := n
    simp only [hnamed, Option.map_some, Option.ite_none_left_eq_some, Option.some.injEq,
      Prod.mk.injEq] at h
    obtain ⟨hpos, rfl, rfl⟩ := h
    refine ⟨last, rfl, ?_⟩
    cases last with
    | none =>
      -- an open end is the total, which is known
      have htotal : ¬ total ≤ 0 := by
        intro hle
        rw [Option.elim_none, if_pos hle] at hpos
        exact hpos (by decide)
      rw [Option.elim_none, if_neg htotal, Option.getD_none]
      omega
    | some last =>
      -- the largest position would wrap to a negative end
      obtain ⟨hlo, hhi⟩ := lt_of_namedRange hnamed
      have hmax : last ≠ 2 ^ 63 - 1 := by
        rintro rfl
        rw [Option.elim_some] at hpos
        exact hpos (by decide)
      exact Text.wrap64_eq_self (by omega) (by omega)

/-! ## What an answer says -/

structure PartialContent where
  first : ℤ
  last : ℤ
  total : ℤ
  contentLength : ℤ
  planned : ℕ
  spans : List Span

namespace PartialContent

def contentRange (p : PartialContent) : Bytes :=
  ascii "bytes " ++ itoa p.first ++ 45 :: (itoa p.last ++ SLASH
    :: (if 0 ≤ p.total then itoa p.total else ascii "*"))

structure Valid (p : PartialContent) : Prop where
  first_nonneg : 0 ≤ p.first
  first_le_last : p.first ≤ p.last
  last_lt_total : 0 ≤ p.total → p.last < p.total
  contentLength : p.contentLength = p.last - p.first + 1
  planned : (p.planned : ℤ) = p.contentLength
  covered : ∀ o, p.first ≤ o → o ≤ p.last → Covered p.spans o

def ofInterval (m : Meta) (wantStart wantEnd : ℤ) : PartialContent where
  first := wantStart
  last := wantEnd - 1
  total := m.total.getD (-1)
  contentLength := wantEnd - wantStart
  planned := (wantEnd - wantStart).toNat
  spans := m.spans

structure Sent (p : PartialContent) (a : Coreserver.CacheAnswer) : Prop where
  contentRange : a.contentRange = p.contentRange
  length : a.length = p.contentLength

theorem contentRange_ofInterval (m : Meta) (wantStart wantEnd : ℤ) :
    (ofInterval m wantStart wantEnd).contentRange
      = Coreserver.formatContentRange wantStart wantEnd (m.total.getD (-1)) := rfl

variable {range : Bytes}

theorem valid_ofInterval_iff {m : Meta} {a b : ℤ} (hne : range ≠ [])
    (hw : wanted range (m.total.getD (-1)) = some (a, b))
    (hcov : covers m.spans a b = true) : (ofInterval m a b).Valid ↔ NamesBytes range m := by
  obtain ⟨last, hnamed, hb⟩ := exists_named_of_wanted hne hw
  constructor
  · intro hvalid first last' h
    obtain ⟨rfl, rfl⟩ := Prod.mk.inj (Option.some.inj (hnamed.symm.trans h))
    have hle : a ≤ b - 1 := hvalid.first_le_last
    have hlt : 0 ≤ m.total.getD (-1) → b - 1 < m.total.getD (-1) := hvalid.last_lt_total
    refine ⟨by omega, fun hknown => ?_⟩
    have := hlt hknown
    omega
  · intro hbytes
    obtain ⟨hle, hlt⟩ := hbytes a last hnamed
    have hlen : ((b - a).toNat : ℤ) = b - a := Int.toNat_of_nonneg (by omega)
    have hpos := nonneg_of_wanted hne hw
    refine ⟨hpos, ?_, fun hknown => ?_, ?_, hlen, fun o hlo hhi => ?_⟩
    · show a ≤ b - 1
      omega
    · have := hlt hknown
      show b - 1 < m.total.getD (-1)
      omega
    · show b - a = b - 1 - a + 1
      omega
    · have hhi' : o ≤ b - 1 := hhi
      exact covered_of_covers hcov ⟨hlo, by omega⟩

theorem sent_warm (plan : WarmPlan) (hne : range ≠ []) (body : Bytes) :
    (ofInterval plan.entry plan.wantStart plan.wantEnd).Sent (plan.answer range body) := by
  refine ⟨?_, rfl⟩
  rw [contentRange_ofInterval]
  exact if_neg hne

theorem sent_hit (st : Store) (hne : range ≠ []) (key : Bytes) (m : Meta) (a b : ℤ) :
    (ofInterval m a b).Sent ((Hit.body key m a b).answer st range) := by
  refine ⟨?_, rfl⟩
  rw [contentRange_ofInterval]
  show (bodyHeader range m a b).get (ascii "Content-Range") = _
  rw [bodyHeader, if_neg hne, Header.get_set]

theorem range_ne_nil_of_warm {plan : WarmPlan} {body : Bytes}
    (h : (plan.answer range body).status = 206) : range ≠ [] := by
  rintro rfl
  have hcode : (200 : ℤ) = 206 := h
  exact absurd hcode (by decide)

end PartialContent

theorem exists_body_of_partial {first second : Bytes → Option Meta} {acquireBody : Bytes → Bool}
    {keyHex : Bytes} {headOnly : Bool} {hit : Hit} {st : Store}
    (h : tryServeFromCache first second acquireBody range keyHex headOnly = some hit)
    (hstatus : (hit.answer st range).status = 206) :
    ∃ key m a b, hit = .body key m a b ∧ range ≠ []
      ∧ wanted range (m.total.getD (-1)) = some (a, b)
      ∧ covers m.spans a b = true := by
  obtain ⟨⟨key, m⟩, -, hserve⟩ := exists_of_tryServeFromCache h
  unfold serveEntry at hserve
  split at hserve
  · next hred =>
    cases hserve
    have hcode : m.statusCode = 206 := hstatus
    rw [hcode] at hred
    exact absurd hred.1 (by decide)
  split at hserve
  · cases hserve
    have hcode : (200 : ℤ) = 206 := hstatus
    exact absurd hcode (by decide)
  split at hserve
  · cases hserve
  split at hserve
  · cases hserve
  · next a b hwanted =>
    rw [Option.ite_none_left_eq_some, Option.ite_none_left_eq_some] at hserve
    obtain ⟨hcov, -, hserve⟩ := hserve
    cases hserve
    refine ⟨key, m, a, b, rfl, ?_, hwanted, by simpa using hcov⟩
    rintro rfl
    have hcode : (200 : ℤ) = 206 := hstatus
    exact absurd hcode (by decide)

/-- **Partial answers are valid exactly where the header names bytes of the object**: those
of the server, blocking or not, and those of the handler. -/
theorem partial_valid_iff (range : Bytes) :
    (∀ (s : Server) (v : View) (plan : WarmPlan) (body : Bytes),
        v.range = range → s.warmPlan v = some plan → (plan.answer range body).status = 206 →
          ∃ p : PartialContent, p.Sent (plan.answer range body)
            ∧ p.first = plan.wantStart ∧ p.planned = (plan.wantEnd - plan.wantStart).toNat
            ∧ p.spans = plan.entry.spans ∧ (p.Valid ↔ NamesBytes range plan.entry))
      ∧ (∀ (first second : Bytes → Option Meta) (acquireBody : Bytes → Bool)
          (keyHex : Bytes) (headOnly : Bool) (hit : Hit) (st : Store),
          tryServeFromCache first second acquireBody range keyHex headOnly = some hit →
          (hit.answer st range).status = 206 →
            ∃ (p : PartialContent) (key : Bytes) (m : Meta) (wantStart wantEnd : ℤ),
              hit = .body key m wantStart wantEnd ∧ p.Sent (hit.answer st range)
              ∧ p.first = wantStart ∧ p.planned = (wantEnd - wantStart).toNat
              ∧ p.spans = m.spans ∧ (p.Valid ↔ NamesBytes range m)) := by
  refine ⟨?_, ?_⟩
  · rintro s v plan body rfl hplan hstatus
    have hne := PartialContent.range_ne_nil_of_warm hstatus
    have hw := Server.isWarm_of_warmPlan hplan
    exact ⟨.ofInterval plan.entry plan.wantStart plan.wantEnd,
      PartialContent.sent_warm plan hne body, rfl, rfl, rfl,
      PartialContent.valid_ofInterval_iff hne hw.wanted hw.covers⟩
  · intro first second acquireBody keyHex headOnly hit st hserve hstatus
    obtain ⟨key, m, a, b, rfl, hne, hwanted, hcov⟩ := exists_body_of_partial hserve hstatus
    exact ⟨.ofInterval m a b, key, m, a, b, rfl, PartialContent.sent_hit st hne key m a b,
      rfl, rfl, rfl, PartialContent.valid_ofInterval_iff hne hwanted hcov⟩

def viewOfThree (range : Bytes) : View :=
  { blockView (bareBlock lineA) with range := range }

theorem partial_valid_two :
    (∃ plan, (storeOfThree.server plainServer).warmPlan (viewOfThree (ascii "bytes=0-1"))
          = some plan
        ∧ ∃ p : PartialContent, p.Sent (plan.answer (ascii "bytes=0-1") (ascii "ab")) ∧ p.Valid)
      ∧ ∃ hit, tryServeFromCache storeOfThree.loadMeta storeOfThree.loadMeta
          storeOfThree.acquireBody (ascii "bytes=0-1") planOfThree.key false = some hit
        ∧ ∃ p : PartialContent, p.Sent (hit.answer storeOfThree (ascii "bytes=0-1"))
          ∧ p.Valid := by
  have hnamed : namedRange (ascii "bytes=0-1") = some (0, some 1) := by decide +kernel
  have hbytes : NamesBytes (ascii "bytes=0-1") entryOfThree := by
    intro first last h
    obtain ⟨rfl, rfl⟩ := Prod.mk.inj (Option.some.inj (hnamed.symm.trans h))
    decide
  have hplan : (storeOfThree.server plainServer).warmPlan (viewOfThree (ascii "bytes=0-1"))
      = some ⟨planOfThree.key, entryOfThree, 0, 2⟩ := by decide +kernel
  have hserve : tryServeFromCache storeOfThree.loadMeta storeOfThree.loadMeta
      storeOfThree.acquireBody (ascii "bytes=0-1") planOfThree.key false
      = some (.body planOfThree.key entryOfThree 0 2) := by decide +kernel
  refine ⟨⟨_, hplan, ?_⟩, ⟨_, hserve, ?_⟩⟩
  · obtain ⟨p, hsent, -, -, -, hvalid⟩ := (partial_valid_iff _).1 _ _ _ (ascii "ab") rfl hplan rfl
    exact ⟨p, hsent, hvalid.mpr hbytes⟩
  · obtain ⟨p, key, m, a, b, hbody, hsent, -, -, -, hvalid⟩ :=
      (partial_valid_iff _).2 _ _ _ _ _ _ storeOfThree hserve rfl
    obtain ⟨-, rfl, -, -⟩ := Hit.body.inj hbody
    exact ⟨p, hsent, hvalid.mpr hbytes⟩

/-- **A range that names no byte is answered**, with a length below zero. -/
theorem empty_range_answered :
    (∃ plan, (storeOfThree.server plainServer).warmPlan (viewOfThree (ascii "bytes=2-0"))
          = some plan
        ∧ (plan.answer (ascii "bytes=2-0") []).status = 206
        ∧ (plan.answer (ascii "bytes=2-0") []).contentRange = ascii "bytes 2-0/3"
        ∧ (plan.answer (ascii "bytes=2-0") []).length = -1)
      ∧ ∃ hit, tryServeFromCache storeOfThree.loadMeta storeOfThree.loadMeta
          storeOfThree.acquireBody (ascii "bytes=2-0") planOfThree.key false = some hit
        ∧ (hit.answer storeOfThree (ascii "bytes=2-0")).status = 206
        ∧ (hit.answer storeOfThree (ascii "bytes=2-0")).contentRange = ascii "bytes 2-0/3"
        ∧ (hit.answer storeOfThree (ascii "bytes=2-0")).length = -1 :=
  ⟨⟨⟨planOfThree.key, entryOfThree, 2, 1⟩, by decide +kernel, rfl, by decide +kernel, rfl⟩,
    ⟨.body planOfThree.key entryOfThree 2 1, by decide +kernel, rfl, by decide +kernel, rfl⟩⟩

end Proxy
