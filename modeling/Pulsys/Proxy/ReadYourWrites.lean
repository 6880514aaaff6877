import Pulsys.Cache.Fetched
import Pulsys.Proxy.Serve

/-!
# Reading what was written

Once an object was delivered and its writer closed, the key should answer for all of it.
Aliases and redirects stay, no bytes leave no record, and a suffix or an end behind the last
byte is not understood; `readsBack_iff_readable` says that these are all.
-/

namespace Proxy

open Bytes Cache Text
open Coreserver (wanted)

/-! ## What is asked for -/

inductive Part
  | whole
  | between (first last : ℕ)
  | onward (first : ℕ)
  | final (n : ℕ)
  deriving DecidableEq, Repr

namespace Part

def header : Part → Bytes
  | whole => []
  | between first last => rangeOf first last
  | onward first => ascii "bytes=" ++ (Numeral.format 10 first ++ [45])
  | final n => ascii "bytes=-" ++ Numeral.format 10 n

def Satisfiable (size : ℕ) : Part → Prop
  | whole => True
  | between first last => first ≤ last ∧ first < size
  | onward first => first < size
  | final n => 0 < n ∧ 0 < size

def first (size : ℕ) : Part → ℕ
  | whole => 0
  | between first _ => first
  | onward first => first
  | final n => size - n

def stop (size : ℕ) : Part → ℕ
  | whole => size
  | between _ last => min (last + 1) size
  | onward _ => size
  | final _ => size

def Understood (size : ℕ) (sizeKnown : Prop) : Part → Prop
  | whole => sizeKnown
  | between _ last => last < size
  | onward _ => sizeKnown
  | final _ => False

theorem stop_le (size : ℕ) (part : Part) : part.stop size ≤ size := by
  cases part with
  | between first last => exact min_le_right _ _
  | _ => exact le_rfl

theorem parseSingleRange_onward {first : ℕ} (h : first < 2 ^ 63) (total : ℤ) :
    parseSingleRange (onward first).header total
      = some ((first : ℤ), if total ≤ 0 then -1 else total) := by
  rw [header, parseSingleRange_bytes (dash_notMem_format first) (by simp),
    Numeral.trimSpace_format, Numeral.parseInt_format h]
  rfl

theorem parseSingleRange_final (n : ℕ) (total : ℤ) :
    parseSingleRange (final n).header total = none := by
  have hsplit : (final n).header = ascii "bytes=" ++ ([] ++ 45 :: Numeral.format 10 n) := rfl
  rw [hsplit, parseSingleRange_bytes (by simp)
    (fun c hc => Numeral.isGraph_of_mem_format (List.mem_of_mem_getLast? hc))]
  rfl

theorem wanted_header_iff {size : ℕ} (hmax : (size : ℤ) ≤ Slot.maxOffset) {part : Part}
    (hsat : part.Satisfiable size) (total : Option ℤ) :
    wanted part.header (total.getD (-1))
        = some ((part.first size : ℤ), (part.stop size : ℤ))
      ↔ part.Understood size (total = some (size : ℤ)) := by
  have hknown : total.getD (-1) = (size : ℤ) ↔ total = some (size : ℤ) := by
    cases total with
    | none => simp
    | some t => simp
  unfold Slot.maxOffset at hmax
  cases part with
  | whole =>
    show (if total.getD (-1) < 0 then none else some (0, total.getD (-1)))
      = some ((0 : ℤ), (size : ℤ)) ↔ total = some (size : ℤ)
    rw [← hknown]
    by_cases ht : total.getD (-1) < 0
    · rw [if_pos ht]
      refine ⟨fun h => ?_, fun h => by omega⟩
      cases h
    · rw [if_neg ht]
      simp
  | between first last =>
    obtain ⟨hle, hlt⟩ := hsat
    have hfirst : first < 2 ^ 63 := by omega
    have hne : (between first last).header ≠ [] := by simp [header, rangeOf, ascii]
    have hheader : (between first last).header = rangeOf first last := rfl
    have hfrom : (between first last).first size = first := rfl
    have hstop : (between first last).stop size = min (last + 1) size := rfl
    have hunderstood : (between first last).Understood size (total = some (size : ℤ))
        ↔ last < size := Iff.rfl
    unfold wanted
    rw [if_neg hne, hheader, hfrom, hstop, hunderstood, parseSingleRange_rangeOf_eq]
    by_cases hlast : last + 1 < 2 ^ 63
    · rw [if_pos ⟨hfirst, by omega⟩, wrap64_add_one hlast]
      dsimp only
      rw [if_neg (by omega)]
      simp only [Option.some.injEq, Prod.mk.injEq, true_and]
      omega
    · refine ⟨fun h => ?_, fun h => by omega⟩
      by_cases hfits : last < 2 ^ 63
      · -- the end behind the last byte there can be wraps to a negative number
        obtain rfl : last = 2 ^ 63 - 1 := by omega
        rw [if_pos ⟨hfirst, hfits⟩] at h
        dsimp only at h
        rw [if_pos (by decide)] at h
        cases h
      · rw [if_neg (fun hf => hfits hf.2)] at h
        cases h
  | onward first =>
    have hne : (onward first).header ≠ [] := by simp [header, ascii]
    have hlt : first < size := hsat
    have hfirst : first < 2 ^ 63 := by omega
    unfold wanted
    rw [if_neg hne, parseSingleRange_onward hfirst]
    show (if (if total.getD (-1) ≤ 0 then -1 else total.getD (-1)) < 0 then none
      else some ((first : ℤ), if total.getD (-1) ≤ 0 then -1 else total.getD (-1)))
        = some ((first : ℤ), (size : ℤ)) ↔ total = some (size : ℤ)
    rw [← hknown]
    by_cases ht : total.getD (-1) ≤ 0
    · rw [if_pos ht, if_pos (by decide)]
      refine ⟨fun h => ?_, fun h => by omega⟩
      cases h
    · rw [if_neg ht, if_neg (by omega)]
      simp
  | final n =>
    have hne : (final n).header ≠ [] := by simp [header, ascii]
    unfold wanted
    rw [if_neg hne, parseSingleRange_final]
    refine ⟨fun h => ?_, False.elim⟩
    cases h

end Part

/-! ## What is answered -/

def ReadsBack (key : Bytes) (s : Slot) (data : Bytes) (part : Part) : Prop :=
  ∀ (first second : Bytes → Option Meta) (acquireBody : Bytes → Bool),
    first key = s.entry → second key = s.entry → acquireBody key = s.body.isSome →
    (∃ m, tryServeFromCache first second acquireBody part.header key false
      = some (.body key m (part.first data.length) (part.stop data.length)))
    ∧ ∀ o, part.first data.length ≤ o → o < part.stop data.length →
      (s.cell o).map Prod.snd = data[o]?

structure OfWhole (p : SegmentParams) (size : ℕ) : Prop where
  start : p.start = 0
  length : p.length = size ∨ p.length = -1
  total : p.total = size ∨ p.total = -1

def SizeKnown (old : Option Meta) (p : SegmentParams) (size : ℕ) : Prop :=
  p.total = size ∨ (p.status = 200 ∧ p.length = -1)
    ∨ old.bind Meta.total = some (size : ℤ)

structure Readable (key : Bytes) (old : Option Meta) (p : SegmentParams) (size : ℕ)
    (part : Part) : Prop where
  direct : Cache.aliasOf old = [] ∨ Cache.aliasOf old = key
  stays : ¬ Leads old
  nonempty : 0 < size
  understood : part.Understood size (SizeKnown old p size)

theorem direct_of_readsBack {key : Bytes} {s : Slot} {data : Bytes} {part : Part}
    (h : ReadsBack key s data part) :
    Cache.aliasOf s.entry = [] ∨ Cache.aliasOf s.entry = key := by
  by_contra hother
  rw [not_or] at hother
  -- the other key has nothing by the time it is asked
  have hhit := (h (fun k => if k = key then s.entry else none)
    (fun k => if k = key then s.entry else none) (fun _ => s.body.isSome)
    (if_pos rfl) (if_pos rfl) rfl).1
  obtain ⟨m, hhit⟩ := hhit
  unfold tryServeFromCache resolveEntry at hhit
  cases hm : s.entry with
  | none => simp [hm] at hhit
  | some old =>
    obtain ⟨halias, hkey⟩ : old.aliasOf ≠ [] ∧ old.aliasOf ≠ key := by
      simpa [hm, Cache.aliasOf] using hother
    simp [hm, halias, hkey] at hhit

theorem tryServeFromCache_eq {first second : Bytes → Option Meta} {acquireBody : Bytes → Bool}
    {rangeHdr key : Bytes} {headOnly : Bool} {m : Meta} (hfirst : first key = some m)
    (hsecond : second key = some m) (halias : m.aliasOf = [] ∨ m.aliasOf = key) :
    tryServeFromCache first second acquireBody rangeHdr key headOnly
      = serveEntry acquireBody rangeHdr headOnly key m := by
  unfold tryServeFromCache resolveEntry
  simp only [hfirst]
  by_cases hnil : m.aliasOf = []
  · rw [if_neg (not_not.mpr hnil)]
  · rw [if_pos hnil, halias.resolve_left hnil, hsecond]
    rfl

theorem serveEntry_eq_body_iff {acquireBody : Bytes → Bool} {rangeHdr key : Bytes} {m m' : Meta}
    {a b : ℤ} (hbody : acquireBody key = true) :
    serveEntry acquireBody rangeHdr false key m = some (.body key m' a b)
      ↔ m' = m ∧ ¬ Leads (some m) ∧ m.spans ≠ []
        ∧ wanted rangeHdr (m.total.getD (-1)) = some (a, b)
        ∧ covers m.spans a b = true := by
  rw [leads_some]
  unfold serveEntry
  by_cases hred : isCacheableRedirectStatus m.statusCode = true ∧ m.location ≠ []
  · rw [if_pos hred]
    exact ⟨nofun, fun h => absurd hred h.2.1⟩
  rw [if_neg hred, if_neg Bool.false_ne_true]
  by_cases hspans : m.spans = []
  · rw [if_pos hspans]
    exact ⟨nofun, fun h => absurd hspans h.2.2.1⟩
  rw [if_neg hspans]
  cases hw : wanted rangeHdr (m.total.getD (-1)) with
  | none => exact ⟨nofun, fun h => by cases h.2.2.2.1⟩
  | some want =>
    obtain ⟨wantStart, wantEnd⟩ := want
    dsimp only
    by_cases hcov : covers m.spans wantStart wantEnd = true
    · rw [if_neg (by simp [hcov]), if_neg (by simp [hbody])]
      simp only [Option.some.injEq, Hit.body.injEq, Prod.mk.injEq, true_and]
      constructor
      · rintro ⟨rfl, rfl, rfl⟩
        exact ⟨rfl, hred, hspans, ⟨rfl, rfl⟩, hcov⟩
      · rintro ⟨rfl, -, -, ⟨rfl, rfl⟩, -⟩
        exact ⟨rfl, rfl, rfl⟩
    · rw [if_pos (by simp [hcov])]
      refine ⟨nofun, fun h => absurd h.2.2.2.2 ?_⟩
      obtain ⟨rfl, rfl⟩ := Prod.mk.inj (Option.some.inj h.2.2.2.1)
      exact hcov

theorem total_eq_iff {s₀ s₁ : Slot} {id : ℕ} {p : SegmentParams} {data : Bytes}
    (hfill : Slot.Filling s₀ id p data s₁) (hof : OfWhole p data.length)
    (hpos : 0 < data.length) :
    (p.commitMeta data.length s₁.entry).total = some (data.length : ℤ)
      ↔ SizeKnown s₀.entry p data.length := by
  rw [total_commitMeta, SegmentParams.commitTotal, SizeKnown]
  by_cases hp : 0 < p.total
  · have htotal : p.total = data.length := hof.total.resolve_right (by omega)
    rw [if_pos hp, htotal]
    exact ⟨fun _ => .inl rfl, fun _ => rfl⟩
  · have hne : p.total ≠ data.length := by omega
    rw [if_neg hp, hfill.total (by omega)]
    have hlength : p.length < 0 ↔ p.length = -1 := by
      rcases hof.length with h | h <;> omega
    by_cases hread : p.status = 200 ∧ p.length = -1
    · rw [if_pos ⟨hread.1, hof.start, hlength.mpr hread.2, hpos⟩]
      exact ⟨fun _ => .inr (.inl hread), fun _ => rfl⟩
    · rw [if_neg (fun h => hread ⟨h.1, hlength.mp h.2.2.1⟩)]
      simp [hne, hread]

theorem size_pos_of_wanted {m : Meta} (htidy : m.Tidy) {size : ℕ} {part : Part}
    (hsat : part.Satisfiable size)
    (h : wanted part.header (m.total.getD (-1))
      = some ((part.first size : ℤ), (part.stop size : ℤ))) : 0 < size := by
  cases part with
  | whole =>
    cases ht : m.total with
    | none => simp [ht, Part.header, wanted] at h
    | some t =>
      have heq : 0 ≤ t ∧ t = size := by
        simpa [ht, Part.header, wanted, Part.first, Part.stop] using h
      have := htidy.total t ht
      omega
  | between first last => exact lt_of_le_of_lt (Nat.zero_le _) hsat.2
  | onward first => exact lt_of_le_of_lt (Nat.zero_le _) hsat
  | final n => exact hsat.2

theorem covers_commitMeta {p : SegmentParams} {size : ℕ} {old : Option Meta} {a b : ℤ}
    (hstart : p.start = 0) (htidy : (p.commitMeta size old).Tidy) (ha : 0 ≤ a)
    (hb : b ≤ size) : covers (p.commitMeta size old).spans a b = true := by
  refine covers_of_forall_covered (fun s hs => (htidy.spans s hs).le) (fun o hlo hhi => ?_)
  refine (covered_commitMeta p size old o).mpr (.inr ⟨?_, ?_⟩)
  · show p.start ≤ o
    omega
  · show o < p.start + size
    omega

/-- **A key answers with what was written to it, exactly where the record that was there
before lets it and the part can be told.** -/
theorem readsBack_iff_readable {key : Bytes} {interval : ℤ} {history es : List Event}
    {s₀ s : Slot} {p : SegmentParams} {part : Part}
    (hhistory : Runs.run (Slot.step key interval) .empty history = some s₀)
    (hown : ∀ e ∈ es, e.IsOwn s₀.nextResponse) (hof : OfWhole p (deliveredBy es).length)
    (hfetch : Runs.run (Slot.step key interval) s₀ (fetch s₀.nextResponse p es) = some s)
    (hsat : part.Satisfiable (deliveredBy es).length) :
    ReadsBack key s (deliveredBy es) part
      ↔ Readable key s₀.entry p (deliveredBy es).length part := by
  obtain ⟨hvalid, s₁, hfill, hentry, hbody, hcell⟩ :=
    Slot.exists_of_fetch hof.start hown hfetch
  have htidy : (p.commitMeta (deliveredBy es).length s₁.entry).Tidy := by
    have hrun := Runs.run_append.mpr ⟨s₀, hhistory, hfetch⟩
    exact (Slot.tidyRecords_of_run hrun).entry _ hentry
  have halias : (p.commitMeta (deliveredBy es).length s₁.entry).aliasOf
      = Cache.aliasOf s₀.entry :=
    (aliasOf_commitMeta _ _ _).trans hfill.aliasOf
  have hleads : Leads s.entry ↔ Leads s₀.entry := by
    rw [hentry]
    exact (leads_commitMeta (not_redirect_of_valid hvalid) _ _).trans hfill.leads
  constructor
  · intro h
    have hdirect := direct_of_readsBack h
    rw [hentry] at hdirect
    obtain ⟨⟨m, hhit⟩, -⟩ :=
      h (fun _ => s.entry) (fun _ => s.entry) (fun _ => s.body.isSome) rfl rfl rfl
    rw [tryServeFromCache_eq hentry hentry hdirect,
      serveEntry_eq_body_iff hbody] at hhit
    obtain ⟨-, hstays, -, hwanted, -⟩ := hhit
    have hpos := size_pos_of_wanted htidy hsat hwanted
    refine ⟨halias ▸ hdirect, fun hl => hstays (hentry ▸ hleads.mpr hl), hpos, ?_⟩
    have := (Part.wanted_header_iff hfill.fits hsat _).mp hwanted
    rwa [total_eq_iff hfill hof hpos] at this
  · rintro ⟨hdirect, hstays, hpos, hunderstood⟩ first second acquireBody hfirst hsecond hacquire
    refine ⟨⟨p.commitMeta (deliveredBy es).length s₁.entry, ?_⟩, fun o hlo hhi => ?_⟩
    · rw [tryServeFromCache_eq (hfirst.trans hentry) (hsecond.trans hentry)
          (halias ▸ hdirect), serveEntry_eq_body_iff (hacquire.trans hbody)]
      refine ⟨rfl, fun hl => hstays (hleads.mp (hentry ▸ hl)), ?_, ?_, ?_⟩
      · -- the first byte is covered, so there is a span
        intro hnil
        obtain ⟨sp, hsp, -⟩ := (covered_commitMeta p (deliveredBy es).length s₁.entry 0).mpr
          (.inr ⟨hof.start.le, by simpa [SegmentParams.span, hof.start] using hpos⟩)
        rw [hnil] at hsp
        cases hsp
      · rw [Part.wanted_header_iff hfill.fits hsat, total_eq_iff hfill hof hpos]
        exact hunderstood
      · exact covers_commitMeta hof.start htidy (Int.natCast_nonneg _)
          (by exact_mod_cast part.stop_le _)
    · rw [hcell]
      exact hfill.cells o (lt_of_lt_of_le hhi (part.stop_le _))

def threeBytes : SegmentParams :=
  { status := 200, start := 0, length := 3, total := 3 }

/-- A fetch of it into a key of which nothing was stored: the last two bytes are
read back. -/
theorem readsBack_three :
    ∃ s, Runs.run (Slot.step [107] 0) .empty (fetch 0 threeBytes [.write 0 [1, 2, 3] 3]) = some s
      ∧ ReadsBack [107] s [1, 2, 3] (.onward 1) := by
  obtain ⟨s, hs⟩ := Option.isSome_iff_exists.mp
    (show (Runs.run (Slot.step [107] 0) .empty
      (fetch 0 threeBytes [.write 0 [1, 2, 3] 3])).isSome = true by decide +kernel)
  refine ⟨s, hs, ?_⟩
  refine (@readsBack_iff_readable [107] 0 [] [.write 0 [1, 2, 3] 3] .empty s threeBytes
    (.onward 1) rfl ?_ ⟨rfl, .inl rfl, .inl rfl⟩ hs (show 1 < 3 by decide)).mpr ?_
  · intro e he
    obtain rfl := List.mem_singleton.mp he
    exact ⟨rfl, rfl⟩
  · exact ⟨.inl rfl, by simp [Leads, Slot.empty], by decide, .inl rfl⟩

/-- **A key that was an alias does not answer with what is written to it.** -/
theorem alias_hides_fetched_bytes :
    ∃ s₀ s, Runs.run (Slot.step [107] 0) .empty [.storeAlias { canonicalKey := [99] }] = some s₀
      ∧ Runs.run (Slot.step [107] 0) s₀ (fetch 0 threeBytes [.write 0 [1, 2, 3] 3]) = some s
      ∧ (∃ m, s.entry = some m ∧ m.spans = [⟨0, 3⟩] ∧ m.total = some 3)
      ∧ ¬ ReadsBack [107] s [1, 2, 3] .whole := by
  obtain ⟨s₀, hs₀⟩ := Option.isSome_iff_exists.mp
    (show (Runs.run (Slot.step [107] 0) .empty
      [.storeAlias { canonicalKey := [99] }]).isSome = true by decide +kernel)
  have hrun : ∀ s₀ ∈ Runs.run (Slot.step [107] 0) .empty [.storeAlias { canonicalKey := [99] }],
      ∃ s ∈ Runs.run (Slot.step [107] 0) s₀ (fetch 0 threeBytes [.write 0 [1, 2, 3] 3]),
        (∃ m ∈ s.entry, m.spans = [⟨0, 3⟩] ∧ m.total = some 3)
          ∧ Cache.aliasOf s.entry = [99] := by
    decide +kernel
  obtain ⟨s, hs, hm, halias⟩ := hrun s₀ hs₀
  refine ⟨s₀, s, hs₀, hs, hm, fun h => ?_⟩
  rcases direct_of_readsBack h with hd | hd <;> rw [halias] at hd <;> exact absurd hd (by decide)

end Proxy
