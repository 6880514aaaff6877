import Mathlib.Data.Finset.Card
import Pulsys.Cache.Fetched

/-!
# One list for one set of offsets

Merged spans are meant to be canonical, one list for a set of offsets (`eq_of_apart`). But
a list without overlaps is returned as it is, and touching spans are not overlaps: the
result is canonical exactly if there are none such (`canonical_iff_spaced`).
-/

namespace Cache

variable {as bs spans : List Span} {o : ℤ} {a b : Span}

def Apart (spans : List Span) : Prop :=
  (∀ s ∈ spans, s.start < s.stop) ∧ spans.Pairwise (fun a b => a.stop < b.start)

def Spaced (spans : List Span) : Prop :=
  isSortedAndDisjoint spans = true → spans.Pairwise (fun a b => a.stop < b.start)

instance : DecidablePred Spaced := fun spans =>
  inferInstanceAs (Decidable (isSortedAndDisjoint spans = true → _))

def pieces (spans : List Span) : ℕ :=
  ((spans.map Span.start).toFinset.filter (fun o => ¬ Covered spans (o - 1))).card

/-! ## Lists with gaps -/

theorem Apart.tail (h : Apart (a :: as)) : Apart as :=
  ⟨fun s hs => h.1 s (List.mem_cons_of_mem _ hs), (List.pairwise_cons.mp h.2).2⟩

theorem Apart.lt_of_covered (h : Apart (a :: as)) (ho : Covered as o) : a.stop < o := by
  obtain ⟨s, hs, hlo, -⟩ := ho
  have := (List.pairwise_cons.mp h.2).1 s hs
  omega

theorem Apart.head_le (ha : Apart (a :: as)) (hb : Apart (b :: bs))
    (h : ∀ o, Covered (a :: as) o → Covered (b :: bs) o) :
    b.start ≤ a.start ∧ (a.start = b.start → a.stop ≤ b.stop) := by
  have hne := ha.1 a List.mem_cons_self
  have hne' := hb.1 b List.mem_cons_self
  constructor
  · rcases covered_cons.mp (h a.start ⟨a, by simp, by omega, hne⟩) with hin | hin
    · exact hin.1
    · have := hb.lt_of_covered hin
      omega
  · intro hstart
    by_contra hlt
    -- the offset at which the other span ends is in a gap of the other list
    rcases covered_cons.mp (h b.stop ⟨a, by simp, by omega, by omega⟩) with hin | hin
    · have := hin.2
      omega
    · have := hb.lt_of_covered hin
      omega

theorem Apart.covered_tail (ha : Apart (a :: as))
    (h : ∀ o, Covered (a :: as) o → Covered (a :: bs) o) (ho : Covered as o) : Covered bs o := by
  have hlt := ha.lt_of_covered ho
  refine (covered_cons.mp (h o (covered_cons.mpr (.inr ho)))).resolve_left (fun hin => ?_)
  have := hin.2
  omega

theorem eq_of_apart (ha : Apart as) (hb : Apart bs) (h : ∀ o, Covered as o ↔ Covered bs o) :
    as = bs := by
  have hstarts : ∀ {c : Span} {cs : List Span}, Apart (c :: cs) → Covered (c :: cs) c.start :=
    fun hc => ⟨_, by simp, le_rfl, hc.1 _ List.mem_cons_self⟩
  have hnil : ∀ {o : ℤ}, ¬ Covered [] o := fun ⟨_, hs, _⟩ => List.not_mem_nil hs
  induction as generalizing bs with
  | nil =>
    cases bs with
    | nil => rfl
    | cons b bs => exact absurd ((h _).mpr (hstarts hb)) hnil
  | cons a as ih =>
    cases bs with
    | nil => exact absurd ((h _).mp (hstarts ha)) hnil
    | cons b bs =>
      have hab := ha.head_le hb (fun o => (h o).mp)
      have hba := hb.head_le ha (fun o => (h o).mpr)
      have hstart : a.start = b.start := le_antisymm hba.1 hab.1
      have hstop : a.stop = b.stop := le_antisymm (hab.2 hstart) (hba.2 hstart.symm)
      obtain rfl : a = b := by
        cases a
        cases b
        simp_all
      have htail : ∀ o, Covered as o ↔ Covered bs o := fun o =>
        ⟨ha.covered_tail (fun o => (h o).mp), hb.covered_tail (fun o => (h o).mpr)⟩
      rw [ih ha.tail hb.tail htail]

theorem Apart.length_eq (h : Apart spans) : spans.length = pieces spans := by
  have hstarts : (spans.map Span.start).Nodup := by
    refine List.pairwise_map.mpr (h.2.imp_of_mem (fun {a b} ha _ hab => ?_))
    have := h.1 a ha
    omega
  have hfirst : ∀ o ∈ (spans.map Span.start).toFinset, ¬ Covered spans (o - 1) := by
    rintro o ho ⟨t, ht, hlo, hhi⟩
    obtain ⟨s, hs, rfl⟩ := List.mem_map.mp (List.mem_toFinset.mp ho)
    -- a span with the offset before would touch or overlap
    have hne : s ≠ t := by
      rintro rfl
      omega
    have hsep : spans.Pairwise (fun a b => a.stop < b.start ∨ b.stop < a.start) := h.2.imp .inl
    have : Std.Symm (fun a b : Span => a.stop < b.start ∨ b.stop < a.start) := ⟨fun _ _ => .symm⟩
    have := hsep.forall hs ht hne
    have := h.1 s hs
    omega
  rw [pieces, Finset.filter_true_of_mem hfirst, List.toFinset_card_of_nodup hstarts,
    List.length_map]

/-! ## Merging -/

theorem gaps_mergeLoop {last : Span} {rest : List Span}
    (hs : (last :: rest).Pairwise (fun a b => a.start ≤ b.start)) :
    (mergeLoop last rest).Pairwise (fun a b => a.stop < b.start) := by
  induction rest generalizing last with
  | nil => exact List.pairwise_singleton _ _
  | cons s rest ih =>
    obtain ⟨hlast, hrest⟩ := List.pairwise_cons.mp hs
    obtain ⟨hfirst, hrest'⟩ := List.pairwise_cons.mp hrest
    rw [mergeLoop]
    split
    · exact ih (List.pairwise_cons.mpr ⟨fun x hx => hlast x (List.mem_cons_of_mem _ hx), hrest'⟩)
    · next hgap =>
      refine List.pairwise_cons.mpr ⟨fun m hm => ?_, ih hrest⟩
      obtain ⟨x, hx, -, -, hstart, -⟩ := mem_mergeLoop hrest hm
      rcases List.mem_cons.mp hx with rfl | hx
      · omega
      · have := hfirst x hx
        omega

theorem apart_mergeSpans_iff (hne : ∀ s ∈ spans, s.start < s.stop) :
    Apart (mergeSpans spans) ↔ Spaced spans := by
  rw [Apart, and_iff_right (nonempty_mergeSpans hne), Spaced]
  unfold mergeSpans
  split
  · simp
  · simp
  · split
    · next hsorted => simp [hsorted]
    · next hsorted =>
      refine iff_of_true ?_ (fun h => absurd h hsorted)
      have hstarts := pairwise_insertionSort spans
      split
      · exact List.Pairwise.nil
      · next hsort =>
        rw [hsort] at hstarts
        exact gaps_mergeLoop hstarts

/-- **Span lists are canonical exactly if the shortcut does no harm**: each list that is
sorted and without overlaps has gaps. -/
theorem canonical_iff_spaced (hne : ∀ s ∈ as ++ bs, s.start < s.stop)
    (hsame : ∀ o, Covered as o ↔ Covered bs o) :
    (mergeSpans as = mergeSpans bs ∧ Apart (mergeSpans as) ↔ Spaced as ∧ Spaced bs)
      ∧ ∀ (p : SegmentParams) (written : ℕ) (old : Option Meta), 0 < written →
        (∀ s ∈ spansOf old, s.start < s.stop) →
        (Apart (p.commitMeta written old).spans
            ∧ (p.commitMeta written old).spans.length ≤ pieces (p.commitMeta written old).spans
          ↔ Spaced (spansOf old ++ [p.span written])) := by
  have has : ∀ s ∈ as, s.start < s.stop := fun s hs => hne s (List.mem_append_left _ hs)
  have hbs : ∀ s ∈ bs, s.start < s.stop := fun s hs => hne s (List.mem_append_right _ hs)
  refine ⟨?_, fun p written old hpos hold => ?_⟩
  · rw [← apart_mergeSpans_iff has, ← apart_mergeSpans_iff hbs]
    refine ⟨fun ⟨heq, hapart⟩ => ⟨hapart, heq ▸ hapart⟩, fun ⟨ha, hb⟩ => ⟨?_, ha⟩⟩
    refine eq_of_apart ha hb (fun o => ?_)
    rw [covered_mergeSpans, covered_mergeSpans, hsame]
  · rw [and_iff_left_of_imp (fun h => h.length_eq.le), spans_commitMeta, if_pos hpos]
    refine apart_mergeSpans_iff (List.forall_mem_append.mpr ⟨hold, fun s hs => ?_⟩)
    obtain rfl := List.mem_singleton.mp hs
    show p.start < p.start + written
    omega

theorem canonical_two_orders :
    mergeSpans [⟨0, 4⟩, ⟨6, 9⟩] = mergeSpans [⟨6, 9⟩, ⟨0, 3⟩, ⟨2, 4⟩]
      ∧ Apart (mergeSpans [⟨0, 4⟩, ⟨6, 9⟩]) := by
  refine (@canonical_iff_spaced [⟨0, 4⟩, ⟨6, 9⟩] [⟨6, 9⟩, ⟨0, 3⟩, ⟨2, 4⟩] (by decide)
    (fun o => ?_)).1.mpr (by decide)
  simp only [Covered, Span.Has, List.mem_cons, List.not_mem_nil, or_false, exists_eq_or_imp,
    exists_eq_left]
  omega

/-- **Two ranges, the second from where the first one ended.** -/
theorem touching_spans_kept :
    ∃ p q : SegmentParams,
      (q.commitMeta 5 (some (p.commitMeta 4 none))).spans = [⟨0, 4⟩, ⟨4, 9⟩]
        ∧ pieces [⟨0, 4⟩, ⟨4, 9⟩] = 1
        ∧ mergeSpans [⟨0, 4⟩, ⟨4, 9⟩] = [⟨0, 4⟩, ⟨4, 9⟩]
        ∧ mergeSpans [⟨4, 9⟩, ⟨0, 4⟩] = [⟨0, 9⟩] :=
  ⟨⟨206, [], [], [], [], [], 0, 4, 9, [], []⟩, ⟨206, [], [], [], [], [], 4, 5, 9, [], []⟩,
    by decide, by decide, by decide, by decide⟩

end Cache
