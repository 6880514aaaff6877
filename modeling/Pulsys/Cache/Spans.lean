import Mathlib.Data.Int.Range
import Mathlib.Data.List.Sort
import Mathlib.Tactic.Common

/-!
# Spans of a cached object

Spans are half-open intervals of offsets that are present (`Covered`). Merging changes the
list and not the answer (`covered_mergeSpans`), and an interval that is said to be covered
is covered at every offset (`covered_of_covers`).
-/

namespace Cache

structure Span where
  start : ℤ
  stop : ℤ
  deriving DecidableEq, Repr

def Span.Has (s : Span) (o : ℤ) : Prop := s.start ≤ o ∧ o < s.stop

def Covered (spans : List Span) (o : ℤ) : Prop := ∃ s ∈ spans, s.Has o

/-! A list of spans has finitely many offsets, so what is said of all of them can
be computed. -/

instance (sp : Span) (o : ℤ) : Decidable (sp.Has o) :=
  inferInstanceAs (Decidable (sp.start ≤ o ∧ o < sp.stop))

instance (spans : List Span) (o : ℤ) : Decidable (Covered spans o) :=
  inferInstanceAs (Decidable (∃ s ∈ spans, s.Has o))

instance decidableForallHas (sp : Span) (P : ℤ → Prop) [DecidablePred P] :
    Decidable (∀ o, sp.Has o → P o) :=
  decidable_of_iff (∀ o, sp.start ≤ o → o < sp.stop → P o)
    (forall_congr' (fun _ => and_imp.symm))

instance decidableForallCovered (spans : List Span) (P : ℤ → Prop) [DecidablePred P] :
    Decidable (∀ o, Covered spans o → P o) :=
  decidable_of_iff (∀ s ∈ spans, ∀ o, s.Has o → P o)
    ⟨fun h o ⟨s, hs, ho⟩ => h s hs o ho, fun h s hs o ho => h o ⟨s, hs, ho⟩⟩

def Span.le (a b : Span) : Prop :=
  a.start < b.start ∨ (a.start = b.start ∧ a.stop ≤ b.stop)

instance : DecidableRel Span.le := fun a b =>
  inferInstanceAs (Decidable (a.start < b.start ∨ (a.start = b.start ∧ a.stop ≤ b.stop)))

def isSortedAndDisjoint : List Span → Bool
  | a :: b :: rest => decide (a.stop ≤ b.start) && isSortedAndDisjoint (b :: rest)
  | _ => true

def mergeLoop (last : Span) : List Span → List Span
  | [] => [last]
  | s :: rest =>
    if s.start ≤ last.stop then
      mergeLoop { last with stop := if last.stop < s.stop then s.stop else last.stop } rest
    else last :: mergeLoop s rest

def mergeSpans (spans : List Span) : List Span :=
  match spans with
  | [] => []
  | [s] => [s]
  | _ =>
    if isSortedAndDisjoint spans then spans
    else
      match spans.insertionSort Span.le with
      | [] => []
      | s :: rest => mergeLoop s rest

def coversLoop (stop : ℤ) : ℤ → List Span → Bool
  | _, [] => false
  | start, s :: rest =>
    if s.stop ≤ start then coversLoop stop start rest
    else if start < s.start then false
    else if stop ≤ s.stop then true
    else coversLoop stop s.stop rest

def covers (spans : List Span) (start stop : ℤ) : Bool :=
  if stop ≤ start then true
  else
    match spans with
    | [s] => decide (s.start ≤ start) && decide (stop ≤ s.stop)
    | _ => coversLoop stop start (mergeSpans spans)

/-! ## Merging -/

variable {rest spans : List Span} {o start stop : ℤ} {last : Span}

theorem covered_cons {s : Span} : Covered (s :: spans) o ↔ s.Has o ∨ Covered spans o := by
  simp [Covered]

theorem covered_append {as bs : List Span} :
    Covered (as ++ bs) o ↔ Covered as o ∨ Covered bs o := by
  simp only [Covered, List.mem_append, or_and_right, exists_or]

theorem covered_perm {as bs : List Span} (h : as.Perm bs) : Covered as o ↔ Covered bs o := by
  unfold Covered
  exact exists_congr (fun s => and_congr_left (fun _ => h.mem_iff))

theorem has_join {s : Span} (hle : last.start ≤ s.start) (htouch : s.start ≤ last.stop) (o : ℤ) :
    Span.Has { last with stop := if last.stop < s.stop then s.stop else last.stop } o
      ↔ last.Has o ∨ s.Has o := by
  unfold Span.Has
  dsimp only
  split <;> omega

theorem covered_mergeLoop (hs : (last :: rest).Pairwise (fun a b => a.start ≤ b.start)) :
    Covered (mergeLoop last rest) o ↔ Covered (last :: rest) o := by
  induction rest generalizing last with
  | nil => rfl
  | cons s rest ih =>
    obtain ⟨hlast, hrest⟩ := List.pairwise_cons.mp hs
    obtain ⟨hs', hrest'⟩ := List.pairwise_cons.mp hrest
    rw [mergeLoop]
    split
    · next htouch =>
      have hjoin : (⟨last.start, if last.stop < s.stop then s.stop else last.stop⟩
          :: rest : List Span).Pairwise (fun a b => a.start ≤ b.start) :=
        List.pairwise_cons.mpr
          ⟨fun x hx => hlast x (List.mem_cons_of_mem _ hx), hrest'⟩
      rw [ih hjoin, covered_cons, covered_cons, covered_cons,
        has_join (hlast s List.mem_cons_self) htouch, or_assoc]
    · rw [covered_cons, ih hrest, covered_cons (s := last)]

theorem pairwise_insertionSort (spans : List Span) :
    (spans.insertionSort Span.le).Pairwise (fun a b => a.start ≤ b.start) := by
  have : Std.Total Span.le := ⟨fun a b => by unfold Span.le; omega⟩
  have : IsTrans Span Span.le := ⟨fun a b c h h' => by unfold Span.le at *; omega⟩
  refine (List.pairwise_insertionSort Span.le spans).imp ?_
  intro a b h
  unfold Span.le at h
  omega

theorem covered_mergeSpans (spans : List Span) (o : ℤ) :
    Covered (mergeSpans spans) o ↔ Covered spans o := by
  unfold mergeSpans
  split
  · rfl
  · rfl
  · split
    · rfl
    · have hperm := List.perm_insertionSort Span.le spans
      have hsorted := pairwise_insertionSort spans
      split
      · next h =>
        rw [h] at hperm
        rw [covered_perm hperm]
      · next s rest h =>
        rw [h] at hperm hsorted
        rw [covered_mergeLoop hsorted, covered_perm hperm]

theorem mem_mergeLoop {m : Span} (hs : (last :: rest).Pairwise (fun a b => a.start ≤ b.start))
    (h : m ∈ mergeLoop last rest) :
    ∃ a ∈ last :: rest, ∃ b ∈ last :: rest, m.start = a.start ∧ m.stop = b.stop
      ∧ a.start ≤ b.start := by
  induction rest generalizing last with
  | nil =>
    obtain rfl := List.mem_singleton.mp h
    exact ⟨m, by simp, m, by simp, rfl, rfl, le_rfl⟩
  | cons s rest ih =>
    obtain ⟨hlast, hrest⟩ := List.pairwise_cons.mp hs
    obtain ⟨hs', hrest'⟩ := List.pairwise_cons.mp hrest
    rw [mergeLoop] at h
    split at h
    · have hjoin : (⟨last.start, if last.stop < s.stop then s.stop else last.stop⟩
          :: rest : List Span).Pairwise (fun a b => a.start ≤ b.start) :=
        List.pairwise_cons.mpr
          ⟨fun x hx => hlast x (List.mem_cons_of_mem _ hx), hrest'⟩
      obtain ⟨a, ha, b, hb, h1, h2, h3⟩ := ih hjoin h
      -- an end of the joined span is an end of one of the two
      have hstart : ∃ a' ∈ last :: s :: rest, a'.start = a.start := by
        rcases List.mem_cons.mp ha with rfl | ha
        · exact ⟨last, by simp, rfl⟩
        · exact ⟨a, by simp [ha], rfl⟩
      have hstop : ∃ b' ∈ last :: s :: rest, b'.stop = b.stop ∧ b.start ≤ b'.start := by
        rcases List.mem_cons.mp hb with rfl | hb
        · by_cases hlt : last.stop < s.stop
          · exact ⟨s, by simp, by simp [hlt], hlast s (by simp)⟩
          · exact ⟨last, by simp, by simp [hlt], le_rfl⟩
        · exact ⟨b, by simp [hb], rfl, le_rfl⟩
      obtain ⟨a', ha', hea⟩ := hstart
      obtain ⟨b', hb', heb, hle⟩ := hstop
      exact ⟨a', ha', b', hb', h1.trans hea.symm, h2.trans heb.symm,
        by omega⟩
    · rcases List.mem_cons.mp h with rfl | h
      · exact ⟨m, by simp, m, by simp, rfl, rfl, le_rfl⟩
      · obtain ⟨a, ha, b, hb, h1, h2, h3⟩ := ih hrest h
        exact ⟨a, List.mem_cons_of_mem _ ha, b, List.mem_cons_of_mem _ hb, h1, h2, h3⟩

theorem mem_mergeSpans {m : Span} (h : m ∈ mergeSpans spans) :
    ∃ a ∈ spans, ∃ b ∈ spans, m.start = a.start ∧ m.stop = b.stop ∧ a.start ≤ b.start := by
  unfold mergeSpans at h
  split at h
  · simp at h
  · exact ⟨m, h, m, h, rfl, rfl, le_rfl⟩
  · split at h
    · exact ⟨m, h, m, h, rfl, rfl, le_rfl⟩
    · have hperm := List.perm_insertionSort Span.le spans
      have hsorted := pairwise_insertionSort spans
      split at h
      · simp at h
      · next s rest hsort =>
        rw [hsort] at hperm hsorted
        obtain ⟨a, ha, b, hb, h1, h2, h3⟩ := mem_mergeLoop hsorted h
        exact ⟨a, hperm.mem_iff.mp ha, b, hperm.mem_iff.mp hb, h1, h2, h3⟩

theorem mergeSpans_bounds {lo hi : ℤ}
    (h : ∀ s ∈ spans, lo ≤ s.start ∧ s.start < s.stop ∧ s.stop ≤ hi) :
    ∀ m ∈ mergeSpans spans, lo ≤ m.start ∧ m.start < m.stop ∧ m.stop ≤ hi := by
  intro m hm
  obtain ⟨a, ha, b, hb, h1, h2, h3⟩ := mem_mergeSpans hm
  have hA := h a ha
  have hB := h b hb
  omega

theorem stop_le_of_mergeSpans {hi : ℤ} (hne : ∀ s ∈ spans, s.start < s.stop)
    (h : ∀ m ∈ mergeSpans spans, m.stop ≤ hi) : ∀ s ∈ spans, s.stop ≤ hi := by
  intro s hs
  have hlt := hne s hs
  -- the last offset of the span is in some merged span
  have hlast : Covered spans (s.stop - 1) := ⟨s, hs, by omega, by omega⟩
  obtain ⟨m, hm, -, hstop⟩ := (covered_mergeSpans spans _).mpr hlast
  have := h m hm
  omega

/-! ## Covering -/

theorem covered_of_coversLoop (h : coversLoop stop start spans = true) (ho : start ≤ o ∧ o < stop) :
    Covered spans o := by
  induction spans generalizing start with
  | nil => simp [coversLoop] at h
  | cons s rest ih =>
    rw [coversLoop] at h
    rw [covered_cons]
    split at h
    · exact .inr (ih h ho)
    split at h
    · cases h
    split at h
    · exact .inl ⟨by omega, by omega⟩
    · by_cases hin : o < s.stop
      · exact .inl ⟨by omega, hin⟩
      · exact .inr (ih h ⟨by omega, ho.2⟩)

theorem covered_of_covers (h : covers spans start stop = true) (ho : start ≤ o ∧ o < stop) :
    Covered spans o := by
  unfold covers at h
  rw [if_neg (by omega)] at h
  split at h
  · next s =>
    rw [Bool.and_eq_true, decide_eq_true_eq, decide_eq_true_eq] at h
    exact ⟨s, by simp, by omega, by omega⟩
  · exact (covered_mergeSpans _ _).mp (covered_of_coversLoop h ho)

theorem pairwise_mergeLoop (hs : (last :: rest).Pairwise (fun a b => a.start ≤ b.start)) :
    (mergeLoop last rest).Pairwise (fun a b => a.start ≤ b.start) := by
  induction rest generalizing last with
  | nil => exact List.pairwise_singleton _ _
  | cons s rest ih =>
    obtain ⟨hlast, hrest⟩ := List.pairwise_cons.mp hs
    rw [mergeLoop]
    split
    · exact ih (List.pairwise_cons.mpr ⟨fun x hx => hlast x (List.mem_cons_of_mem _ hx),
        (List.pairwise_cons.mp hrest).2⟩)
    · refine List.pairwise_cons.mpr ⟨fun m hm => ?_, ih hrest⟩
      obtain ⟨a, ha, -, -, hstart, -⟩ := mem_mergeLoop hrest hm
      rw [hstart]
      exact hlast a ha

theorem pairwise_of_isSortedAndDisjoint (hle : ∀ s ∈ spans, s.start ≤ s.stop)
    (h : isSortedAndDisjoint spans = true) : spans.Pairwise (fun a b => a.start ≤ b.start) := by
  induction spans with
  | nil => exact List.Pairwise.nil
  | cons a spans ih =>
    cases spans with
    | nil => exact List.pairwise_singleton _ _
    | cons b rest =>
      rw [isSortedAndDisjoint, Bool.and_eq_true, decide_eq_true_eq] at h
      have hrest := ih (fun s hs => hle s (List.mem_cons_of_mem _ hs)) h.2
      refine List.pairwise_cons.mpr ⟨fun s hs => ?_, hrest⟩
      have hab : a.start ≤ b.start := (hle a List.mem_cons_self).trans h.1
      rcases List.mem_cons.mp hs with rfl | hs
      · exact hab
      · exact hab.trans ((List.pairwise_cons.mp hrest).1 s hs)

theorem pairwise_mergeSpans (hle : ∀ s ∈ spans, s.start ≤ s.stop) :
    (mergeSpans spans).Pairwise (fun a b => a.start ≤ b.start) := by
  unfold mergeSpans
  split
  · exact List.Pairwise.nil
  · exact List.pairwise_singleton _ _
  · split
    · next hsorted => exact pairwise_of_isSortedAndDisjoint hle hsorted
    · have hsorted := pairwise_insertionSort spans
      split
      · exact List.Pairwise.nil
      · next hsort =>
        rw [hsort] at hsorted
        exact pairwise_mergeLoop hsorted

theorem coversLoop_of_forall_covered (hlt : start < stop)
    (hs : spans.Pairwise (fun a b => a.start ≤ b.start))
    (h : ∀ o, start ≤ o → o < stop → Covered spans o) : coversLoop stop start spans = true := by
  induction spans generalizing start with
  | nil => simpa [Covered] using h start le_rfl hlt
  | cons s rest ih =>
    obtain ⟨hle, hrest⟩ := List.pairwise_cons.mp hs
    rw [coversLoop]
    -- an offset behind the first span is in one of the others
    have htail : ∀ o, start ≤ o → s.stop ≤ o → o < stop → Covered rest o := by
      intro o hlo hstop hhi
      refine (covered_cons.mp (h o hlo hhi)).resolve_left (fun hhas => ?_)
      have := hhas.2
      omega
    by_cases hstop : s.stop ≤ start
    · rw [if_pos hstop]
      exact ih hlt hrest (fun o hlo => htail o hlo (by omega))
    · -- the span with the first offset is this one or starts later
      have hstart : s.start ≤ start := by
        rcases covered_cons.mp (h start le_rfl hlt) with hhas | ⟨t, ht, hhas⟩
        · exact hhas.1
        · exact (hle t ht).trans hhas.1
      rw [if_neg hstop, if_neg (by omega)]
      by_cases hend : stop ≤ s.stop
      · rw [if_pos hend]
      · rw [if_neg hend]
        exact ih (by omega) hrest (fun o hlo => htail o (by omega) hlo)

theorem covers_of_forall_covered (hle : ∀ s ∈ spans, s.start ≤ s.stop)
    (h : ∀ o, start ≤ o → o < stop → Covered spans o) : covers spans start stop = true := by
  unfold covers
  by_cases hlt : stop ≤ start
  · rw [if_pos hlt]
  rw [if_neg hlt]
  split
  · next s =>
    obtain ⟨t, ht, hlo, -⟩ := h start le_rfl (by omega)
    obtain rfl := List.mem_singleton.mp ht
    obtain ⟨t', ht', -, hhi⟩ := h (stop - 1) (by omega) (by omega)
    obtain rfl := List.mem_singleton.mp ht'
    rw [Bool.and_eq_true, decide_eq_true_eq, decide_eq_true_eq]
    omega
  · exact coversLoop_of_forall_covered (by omega) (pairwise_mergeSpans hle)
      (fun o hlo hhi => (covered_mergeSpans _ _).mpr (h o hlo hhi))

theorem covers_of_covered (hne : ∀ s ∈ spans, s.start < s.stop) (h : Covered spans o) :
    covers spans o (o + 1) = true := by
  refine covers_of_forall_covered (fun s hs => (hne s hs).le) (fun o' hlo hhi => ?_)
  obtain rfl : o' = o := by omega
  exact h

/-- **Coverage is exact**, for spans in any order, overlapping or not, and empty ones among
them. -/
theorem coverage_exact (hle : ∀ s ∈ spans, s.start ≤ s.stop) :
    (∀ start stop, start < stop →
        (covers spans start stop = true ↔ ∀ o, start ≤ o → o < stop → Covered spans o))
      ∧ (mergeSpans spans).Pairwise (fun a b => a.start ≤ b.start)
      ∧ ∀ o, Covered (mergeSpans spans) o ↔ Covered spans o := by
  refine ⟨fun start stop _ => ⟨fun h o hlo hhi => ?_, covers_of_forall_covered hle⟩,
    pairwise_mergeSpans hle, covered_mergeSpans spans⟩
  exact covered_of_covers h ⟨hlo, hhi⟩

theorem coverage_exact_disorder :
    covers [⟨4, 9⟩, ⟨6, 6⟩, ⟨0, 5⟩] 2 8 = true
      ∧ ∀ o : ℤ, 2 ≤ o → o < 8 → Covered [⟨4, 9⟩, ⟨6, 6⟩, ⟨0, 5⟩] o := by
  have h := (@coverage_exact [⟨4, 9⟩, ⟨6, 6⟩, ⟨0, 5⟩] (by decide)).1 2 8 (by decide)
  exact ⟨by decide, h.mp (by decide)⟩

example : mergeSpans [⟨4, 9⟩, ⟨0, 4⟩, ⟨20, 22⟩] = [⟨0, 9⟩, ⟨20, 22⟩] := by decide

example : covers [⟨4, 9⟩, ⟨0, 4⟩] 2 8 = true := by decide

end Cache
