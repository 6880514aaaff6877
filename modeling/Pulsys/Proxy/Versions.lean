import Pulsys.Cache.Versions
import Pulsys.Proxy.Serve

/-!
# Whether an answer is of one version

An answer carries the entity tag of its entry, and bytes that are read from the body
afterwards. The question is the one about entry and body, asked at two times; and anything
on record can be asked for, so no weaker condition would do.

Two kinds of requests and responses are left out. To an inverted range the handler sends the
file to its end, which has nothing to do with what is on record. And a tag that is not in UTF-8
is sent as it is from memory, but altered once the entry is read from the file again.
-/

namespace Proxy

open Bytes Cache Cache.Slot

def ServesOneVersion (key : Bytes) (interval : ℤ) (es : List Event) : Prop :=
  ∀ es₁ es₂ s₁ s₂, es₁ ++ es₂ <+: es →
    Runs.run (step key interval) Slot.empty es₁ = some s₁ →
    Runs.run (step key interval) s₁ es₂ = some s₂ →
    (∀ (first second : Bytes → Option Meta) (acquireBody : Bytes → Bool)
        (rangeHdr keyHex : Bytes) (headOnly : Bool) (m : Meta) (wantStart wantEnd : ℤ),
      s₁.Loads (first key) → s₁.Loads (second key) →
      tryServeFromCache first second acquireBody rangeHdr keyHex headOnly
        = some (.body key m wantStart wantEnd) → wantStart ≤ wantEnd →
      ∀ o, Copies s₂.bodySize wantStart wantEnd o → s₂.From m.eTag o)
    ∧ ∀ (srv : Coreserver.Server) (v : Coreserver.View) (plan : Coreserver.WarmPlan),
      s₁.Loads (srv.loadMeta key) → srv.warmPlan v = some plan → plan.key = key →
      ∀ o, plan.wantStart ≤ o → o < plan.wantEnd → s₂.From plan.entry.eTag o

theorem sound_of_run {key : Bytes} {interval : ℤ} {es : List Event} {s : Slot}
    (hes : ∀ e ∈ es, e.isSegment = true ∧ ∀ p, e = .beginSegment p → JSONText.Valid p.eTag)
    (hrun : Runs.run (step key interval) Slot.empty es = some s) :
    s.Sound ∧ s.OneFile ∧ s.Plain ∧ s.TagsReadable :=
  @Runs.invariant _ _ _ (fun _ e => (e.isSegment = true
      ∧ ∀ p, e = .beginSegment p → JSONText.Valid p.eTag) ∧ True)
    (fun s : Slot => s.Sound ∧ s.OneFile ∧ s.Plain ∧ s.TagsReadable)
    (fun _ _ _ h hc hs => ⟨h.1.step hs, h.2.1.step hc.1.1 hs, h.2.2.1.step h.1 hc.1.1 hs,
      h.2.2.2.step hc.1.1 hc.1.2 hs⟩) _ _ _
    ⟨sound_empty, oneFile_empty, plain_empty, tagsReadable_empty⟩
    ((Runs.meets_true _ _).and_of_forall hes) hrun

/-- **What is served of a key is of one version exactly if every step of the
responses that are written to it keeps to one version**, for responses whose tags are in
UTF-8. -/
theorem servesOneVersion_iff {key : Bytes} {interval : ℤ} {es : List Event} {s : Slot}
    (hseg : ∀ e ∈ es, e.isSegment = true)
    (htag : ∀ p, Event.beginSegment p ∈ es → JSONText.Valid p.eTag)
    (hrun : Runs.run (step key interval) Slot.empty es = some s) :
    ServesOneVersion key interval es
      ↔ Runs.Meets (step key interval) SameVersion Slot.empty es := by
  have hes : ∀ e ∈ es, e.isSegment = true ∧ ∀ p, e = .beginSegment p → JSONText.Valid p.eTag :=
    fun e he => ⟨hseg e he, fun p hp => htag p (hp ▸ he)⟩
  rw [← oneVersion_throughout_iff hseg hrun, Runs.throughout_iff]
  constructor
  · -- an offset on record is asked for alone, and read at once
    intro h es₁ s₁ hpre hrun₁ m hm o ho
    obtain ⟨-, -, hplain, -⟩ := sound_of_run (fun e he => hes e (hpre.subset he)) hrun₁
    have hspans := hplain.spans
    rw [hm, spansOf_some] at hspans
    obtain ⟨sp, hsp, hlo, hhi⟩ := ho
    obtain ⟨hnonneg, -, hmax⟩ := hspans sp hsp
    have hnat : ((o.toNat : ℕ) : ℤ) = o := Int.toNat_of_nonneg (by omega)
    have hserve := @tryServeFromCache_rangeOf key m (fun _ => s₁.entry) (fun _ => s₁.entry)
      o.toNat hm (hplain.aliasOf m hm) (hplain.location m hm) (fun sp hsp => (hspans sp hsp).2.1)
      (by rw [hnat]; exact ⟨sp, hsp, hlo, hhi⟩) (by unfold maxOffset at hmax; omega)
    exact (h es₁ [] s₁ s₁ (by rwa [List.append_nil]) hrun₁ rfl).1 _ _ _ _ _ _ _ _ _ (.inl rfl)
      (.inl rfl) hserve (by omega) o ⟨by omega, by rw [if_neg (by omega)]; omega⟩
  · intro h es₁ es₂ s₁ s₂ hpre hrun₁ hrun₂
    have hpre₁ : es₁ <+: es := (List.prefix_append _ _).trans hpre
    have hseg' : ∀ e ∈ es₁ ++ es₂, e.isSegment = true := fun e he => hseg e (hpre.subset he)
    obtain ⟨hsound, hone, -, htags⟩ := sound_of_run (fun e he => hes e (hpre₁.subset he)) hrun₁
    have hver : s₁.OneVersion := h es₁ s₁ hpre₁ hrun₁
    -- what is left of the run meets the condition as well
    have hsame : Runs.Meets (step key interval) SameVersion Slot.empty (es₁ ++ es₂) :=
      (oneVersion_throughout_iff hseg' (Runs.run_append.mpr ⟨s₁, hrun₁, hrun₂⟩)).mp
        (Runs.throughout_iff.mpr (fun es' s' hpre' => h es' s' (hpre'.trans hpre)))
    have hlater : ∀ m, s₁.Loads (some m) → ∀ o, Covered m.spans o → s₂.From m.eTag o := by
      intro m hm o ho
      obtain ⟨m₀, hm₀, hspans, heTag⟩ := htags.exists_of_loads hm
      rw [heTag]
      exact hver.later hsound hone (fun e he => hseg' e (List.mem_append_right _ he))
        (Runs.meets_append hsame hrun₁).2 hrun₂ hm₀ (hspans ▸ ho)
    constructor
    · intro first second acquireBody rangeHdr keyHex headOnly m a b hfirst hsecond hhit hle o ho
      obtain ⟨hm, hcov⟩ := covered_of_body hhit
      obtain ⟨hlo, hhi⟩ := ho.lt hle
      have hloads : s₁.Loads (some m) := by
        rcases hm with hm | hm
        · exact hm ▸ hfirst
        · exact hm ▸ hsecond
      exact hlater m hloads o (hcov o hlo hhi)
    · intro srv v plan hload hplan hkey o hlo hhi
      obtain ⟨hm, hcov⟩ := Coreserver.Server.covered_of_warmPlan hplan
      rw [hkey] at hm
      exact hlater _ (hm ▸ hload) o (hcov o hlo hhi)

def fetchParts (v v' : Bytes) : List Event :=
  [.beginSegment { status := 206, eTag := v, start := 0, length := 3, total := 6 },
    .truncate 0 true, .write 0 (ascii "abc") 3, .commit 0,
    .beginSegment { status := 206, eTag := v', start := 3, length := 3, total := 6 },
    .truncate 1 true, .write 1 (ascii "xyz") 3, .commit 1]

theorem servesOneVersion_of_one :
    (Runs.run (step [107] 0) Slot.empty (fetchParts (ascii "v1") (ascii "v1"))).isSome = true
      ∧ ServesOneVersion [107] 0 (fetchParts (ascii "v1") (ascii "v1")) := by
  have hsome : (Runs.run (step [107] 0) Slot.empty
      (fetchParts (ascii "v1") (ascii "v1"))).isSome = true := by decide +kernel
  obtain ⟨s, hs⟩ := Option.isSome_iff_exists.mp hsome
  have hsame : Runs.Meets (step [107] 0) SameVersion Slot.empty
      (fetchParts (ascii "v1") (ascii "v1")) := by decide +kernel
  have htag : ∀ e ∈ fetchParts (ascii "v1") (ascii "v1"),
      ∀ p, e = .beginSegment p → JSONText.Valid p.eTag := by
    simp only [fetchParts, List.forall_mem_cons]
    refine ⟨?_, ?_, ?_, ?_, ?_, ?_, ?_, ?_, nofun⟩ <;> rintro p ⟨⟩ <;> decide
  exact ⟨hsome, (servesOneVersion_iff (by decide) (fun p hp => htag _ hp p rfl) hs).mpr hsame⟩

/-- **Two parts of two versions are served as one object**, with the entity tag of the second.
-/
theorem parts_of_two_versions_served :
    ∃ s, Runs.run (step [107] 0) Slot.empty (fetchParts (ascii "v1") (ascii "v2")) = some s
      ∧ (∃ m, tryServeFromCache (fun _ => s.entry) (fun _ => s.entry) (fun _ => true) [] [107]
          false = some (.body [107] m 0 6) ∧ m.eTag = ascii "v2")
      ∧ s.cell 0 = some (0, 97) ∧ (s.params 0).eTag = ascii "v1"
      ∧ ¬ ServesOneVersion [107] 0 (fetchParts (ascii "v1") (ascii "v2")) := by
  obtain ⟨s, hs, ⟨m, -, hserve, htag⟩, hcell, hfirst, hnot⟩ :
      ∃ s ∈ Runs.run (step [107] 0) Slot.empty (fetchParts (ascii "v1") (ascii "v2")),
        (∃ m ∈ s.entry, tryServeFromCache (fun _ => s.entry) (fun _ => s.entry) (fun _ => true)
            [] [107] false = some (.body [107] m 0 6) ∧ m.eTag = ascii "v2")
          ∧ s.cell 0 = some (0, 97) ∧ (s.params 0).eTag = ascii "v1"
          ∧ ¬ s.From (ascii "v2") 0 := by decide +kernel
  refine ⟨s, hs, ⟨m, hserve, htag⟩, hcell, hfirst, fun h => hnot ?_⟩
  rw [← htag]
  exact (h _ [] s s (by rw [List.append_nil]) hs rfl).1 _ _ _ _ _ _ _ _ _ (.inl rfl)
    (.inl rfl) hserve (by decide) 0 ⟨le_rfl, by rw [if_neg (by decide)]; decide⟩

end Proxy
