import Mathlib.Data.Finset.Insert
import Mathlib.Data.List.Perm.Subperm
import Mathlib.Tactic.Common

/-!
# The first of each key

A loop that skips what has a key it has met before works on `firsts`. A derived key counts
right in every group exactly if it is injective on what is there
(`injOn_of_length_filter_firsts`, `firsts_congr`). Lists that are as long in every group and of
which one has the keys of the other have the same keys (`map_subset_of_length_filter`).
-/

namespace Firsts

variable {α κ φ γ : Type} [DecidableEq κ] [DecidableEq φ] [DecidableEq γ]

def firstsFrom (k : α → κ) (seen : Finset κ) : List α → List α
  | [] => []
  | a :: l =>
    if k a ∈ seen then firstsFrom k seen l else a :: firstsFrom k (insert (k a) seen) l

def firsts (k : α → κ) (l : List α) : List α := firstsFrom k ∅ l

theorem firstsFrom_sublist (k : α → κ) (seen : Finset κ) (l : List α) :
    (firstsFrom k seen l).Sublist l := by
  induction l generalizing seen with
  | nil => exact List.Sublist.slnil
  | cons a l ih =>
    rw [firstsFrom]
    by_cases ha : k a ∈ seen
    · rw [if_pos ha]
      exact (ih seen).cons a
    · rw [if_neg ha]
      exact (ih _).cons_cons a

theorem mem_of_mem_firstsFrom {k : α → κ} {seen : Finset κ} {l : List α} {a : α}
    (h : a ∈ firstsFrom k seen l) : a ∈ l ∧ k a ∉ seen := by
  induction l generalizing seen with
  | nil => cases h
  | cons b l ih =>
    rw [firstsFrom] at h
    by_cases hb : k b ∈ seen
    · rw [if_pos hb] at h
      obtain ⟨hmem, hnot⟩ := ih h
      exact ⟨List.mem_cons_of_mem _ hmem, hnot⟩
    · rw [if_neg hb] at h
      rcases List.mem_cons.mp h with rfl | h
      · exact ⟨List.mem_cons_self, hb⟩
      · obtain ⟨hmem, hnot⟩ := ih h
        exact ⟨List.mem_cons_of_mem _ hmem, fun hs => hnot (Finset.mem_insert_of_mem hs)⟩

theorem exists_mem_firstsFrom {k : α → κ} {seen : Finset κ} {l : List α} {a : α} (h : a ∈ l)
    (hnew : k a ∉ seen) : ∃ b ∈ firstsFrom k seen l, k b = k a := by
  induction l generalizing seen with
  | nil => cases h
  | cons c l ih =>
    rw [firstsFrom]
    by_cases hc : k c ∈ seen
    · rw [if_pos hc]
      rcases List.mem_cons.mp h with rfl | h
      · exact absurd hc hnew
      · exact ih h hnew
    · rw [if_neg hc]
      by_cases hk : k c = k a
      · exact ⟨c, List.mem_cons_self, hk⟩
      · -- the element comes behind, and its key is still new
        have hne : a ≠ c := fun heq => hk (congrArg k heq.symm)
        obtain ⟨b, hb, hkb⟩ := ih (List.mem_of_ne_of_mem hne h)
          (fun hs => (Finset.mem_insert.mp hs).elim (fun heq => hk heq.symm) hnew)
        exact ⟨b, List.mem_cons_of_mem _ hb, hkb⟩

theorem nodup_map_firstsFrom (k : α → κ) (seen : Finset κ) (l : List α) :
    ((firstsFrom k seen l).map k).Nodup := by
  induction l generalizing seen with
  | nil => exact List.nodup_nil
  | cons a l ih =>
    rw [firstsFrom]
    by_cases ha : k a ∈ seen
    · rw [if_pos ha]
      exact ih seen
    · rw [if_neg ha, List.map_cons, List.nodup_cons]
      refine ⟨fun hmem => ?_, ih _⟩
      obtain ⟨b, hb, hkb⟩ := List.mem_map.mp hmem
      exact (mem_of_mem_firstsFrom hb).2 (hkb ▸ Finset.mem_insert_self _ _)

theorem firstsFrom_congr {k : α → κ} {f : α → φ} {seen : Finset κ} {seen' : Finset φ}
    {l : List α} (hseen : ∀ a ∈ l, k a ∈ seen ↔ f a ∈ seen')
    (hinj : ∀ a ∈ l, ∀ b ∈ l, k a = k b ↔ f a = f b) :
    firstsFrom k seen l = firstsFrom f seen' l := by
  induction l generalizing seen seen' with
  | nil => rfl
  | cons a l ih =>
    have hinj' : ∀ b ∈ l, ∀ c ∈ l, k b = k c ↔ f b = f c := fun b hb c hc =>
      hinj b (List.mem_cons_of_mem _ hb) c (List.mem_cons_of_mem _ hc)
    rw [firstsFrom, firstsFrom]
    by_cases ha : k a ∈ seen
    · rw [if_pos ha, if_pos ((hseen a List.mem_cons_self).mp ha)]
      exact ih (fun b hb => hseen b (List.mem_cons_of_mem _ hb)) hinj'
    · rw [if_neg ha, if_neg (mt (hseen a List.mem_cons_self).mpr ha)]
      congr 1
      refine ih (fun b hb => ?_) hinj'
      rw [Finset.mem_insert, Finset.mem_insert, hseen b (List.mem_cons_of_mem _ hb),
        hinj b (List.mem_cons_of_mem _ hb) a List.mem_cons_self]

theorem firsts_congr {k : α → κ} {f : α → φ} {l : List α}
    (hinj : ∀ a ∈ l, ∀ b ∈ l, k a = k b ↔ f a = f b) : firsts k l = firsts f l :=
  firstsFrom_congr (fun _ _ => by simp) hinj

omit [DecidableEq κ] [DecidableEq φ] in
theorem nodup_map_of_imp {k : α → κ} {f : α → φ} {l : List α}
    (hle : ∀ a ∈ l, ∀ b ∈ l, f a = f b → k a = k b) (h : (l.map k).Nodup) : (l.map f).Nodup := by
  rw [List.nodup_map_iff_inj_on (List.Nodup.of_map k h)]
  intro a ha b hb hf
  exact List.inj_on_of_nodup_map h ha hb (hle a ha b hb hf)

omit [DecidableEq κ] in
theorem map_subset_of_length_filter {k : α → κ} {g : α → γ} {l l' : List α}
    (hnodup : (l.map k).Nodup) (hsub : l.map k ⊆ l'.map k)
    (hlen : ∀ c, (l.filter (g · = c)).length = (l'.filter (g · = c)).length) :
    l'.map k ⊆ l.map k := by
  have hcount (l : List α) (c : γ) : (l.map g).count c = (l.filter (g · = c)).length := by
    rw [List.count, List.countP_map, List.countP_eq_length_filter]
    rfl
  have hgroups : (l.map g).Perm (l'.map g) :=
    List.perm_iff_count.mpr (fun c => by rw [hcount, hcount, hlen])
  have hle : (l'.map k).length ≤ (l.map k).length := by
    simpa using hgroups.length_eq.ge
  exact ((List.subperm_of_subset hnodup hsub).perm_of_length_le hle).symm.subset

theorem injOn_of_length_filter_firsts {k : α → κ} {f : α → φ} {g : α → γ} {l : List α}
    (hk : ∀ a ∈ l, ∀ b ∈ l, f a = f b → k a = k b)
    (hg : ∀ a ∈ l, ∀ b ∈ l, f a = f b → g a = g b)
    (hlen : ∀ c, ((firsts k l).filter (g · = c)).length = ((firsts f l).filter (g · = c)).length) :
    ∀ a ∈ l, ∀ b ∈ l, k a = k b → f a = f b := by
  have hmemk : ∀ {a}, a ∈ firsts k l → a ∈ l := fun h => (mem_of_mem_firstsFrom h).1
  have hmemf : ∀ {a}, a ∈ firsts f l → a ∈ l := fun h => (mem_of_mem_firstsFrom h).1
  -- what every element stands for is among the first elements by `k`
  have hfound : ∀ a ∈ l, ∃ a' ∈ firsts k l, f a' = f a := by
    intro a ha
    have hnodup : (((firsts k l).filter (g · = g a)).map f).Nodup :=
      (nodup_map_of_imp (fun b hb c hc => hk b (hmemk hb) c (hmemk hc))
        (nodup_map_firstsFrom k ∅ l)).sublist (List.filter_sublist.map f)
    have hsubset : ((firsts k l).filter (g · = g a)).map f
        ⊆ ((firsts f l).filter (g · = g a)).map f := by
      intro x hx
      obtain ⟨b, hb, rfl⟩ := List.mem_map.mp hx
      obtain ⟨hbl, hgb⟩ := List.mem_filter.mp hb
      obtain ⟨c, hc, hfc⟩ := @exists_mem_firstsFrom _ _ _ f ∅ l b (hmemk hbl) (by simp)
      refine List.mem_map.mpr ⟨c, List.mem_filter.mpr ⟨hc, ?_⟩, hfc⟩
      rw [decide_eq_true_eq] at hgb ⊢
      rw [hg c (hmemf hc) b (hmemk hbl) hfc, hgb]
    have hperm := (List.subperm_of_subset hnodup hsubset).perm_of_length_le
      (by rw [List.length_map, List.length_map, hlen])
    obtain ⟨c, hc, hfc⟩ := @exists_mem_firstsFrom _ _ _ f ∅ l a ha (by simp)
    have hca : f a ∈ ((firsts f l).filter (g · = g a)).map f :=
      List.mem_map.mpr ⟨c, List.mem_filter.mpr ⟨hc,
        decide_eq_true (hg c (hmemf hc) a ha hfc)⟩, hfc⟩
    obtain ⟨a', ha', hfa⟩ := List.mem_map.mp (hperm.mem_iff.mpr hca)
    exact ⟨a', (List.mem_filter.mp ha').1, hfa⟩
  intro a ha b hb hkab
  obtain ⟨a', ha', hfa⟩ := hfound a ha
  obtain ⟨b', hb', hfb⟩ := hfound b hb
  have hkey : k a' = k b' := by
    rw [hk a' (hmemk ha') a ha hfa, hkab, hk b' (hmemk hb') b hb hfb]
  have heq := List.inj_on_of_nodup_map (nodup_map_firstsFrom k ∅ l) ha' hb' hkey
  rw [← hfa, heq, hfb]

end Firsts
