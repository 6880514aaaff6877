import Pulsys.Base.Bytes

/-!
# Cleaning a path from the root

A path is a list of segments. Cleaning it drops the segments that are empty or one
dot, and takes two dots for a step back, which at the root leads nowhere. What is left
are proper segments, and a path of proper segments is left as it is. A slash at the
end is put back where paths are joined.
-/

namespace RootedPath

open Bytes

def Proper (s : Bytes) : Prop := s ≠ [] ∧ s ≠ [46] ∧ s ≠ [46, 46] ∧ SLASH ∉ s

def cleanStep (kept : List Bytes) (s : Bytes) : List Bytes :=
  if s = [] ∨ s = [46] then kept else if s = [46, 46] then kept.dropLast else kept ++ [s]

def ofSegments (ss : List Bytes) : Bytes := ss.flatMap (SLASH :: ·)

def clean (p : Bytes) : Bytes :=
  let kept := (p.splitOn SLASH).foldl cleanStep []
  if kept = [] then [SLASH] else ofSegments kept

def join (elems : List Bytes) : Bytes :=
  let p := clean (ofSegments elems)
  if elems.getLast?.bind List.getLast? = some SLASH ∧ p.getLast? ≠ some SLASH then p ++ [SLASH]
  else p

def Normal (p : Bytes) : Prop :=
  ∃ ss, ss ≠ [] ∧ (∀ s ∈ ss, Proper s) ∧ (p = ofSegments ss ∨ p = ofSegments ss ++ [SLASH])

theorem ofSegments_cons (s : Bytes) (ss : List Bytes) :
    ofSegments (s :: ss) = SLASH :: (s ++ ofSegments ss) :=
  rfl

theorem ofSegments_append (ss ts : List Bytes) :
    ofSegments (ss ++ ts) = ofSegments ss ++ ofSegments ts :=
  List.flatMap_append

theorem ofSegments_eq_cons_intercalate {ss : List Bytes} (h : ss ≠ []) :
    ofSegments ss = SLASH :: [SLASH].intercalate ss := by
  induction ss with
  | nil => exact absurd rfl h
  | cons s ss ih =>
    cases ss with
    | nil => simp [ofSegments, List.intercalate]
    | cons t ts =>
      rw [ofSegments_cons, ih (List.cons_ne_nil t ts)]
      simp [List.intercalate]

theorem ofSegments_splitOn (t : Bytes) : ofSegments (t.splitOn SLASH) = SLASH :: t := by
  rw [ofSegments_eq_cons_intercalate (List.splitOn_ne_nil _ _), List.intercalate_splitOn]

theorem splitOn_cons_slash (t : Bytes) : (SLASH :: t).splitOn SLASH = [] :: t.splitOn SLASH :=
  splitOn_append_cons List.not_mem_nil t

theorem splitOn_ofSegments {ss : List Bytes} (hss : ∀ s ∈ ss, SLASH ∉ s) :
    (ofSegments ss).splitOn SLASH = [] :: ss := by
  cases ss with
  | nil => rfl
  | cons s ss =>
    rw [ofSegments_eq_cons_intercalate (List.cons_ne_nil s ss), splitOn_cons_slash,
      List.splitOn_intercalate _ hss (List.cons_ne_nil s ss)]

theorem proper_foldl_cleanStep {ss kept : List Bytes} (hss : ∀ s ∈ ss, SLASH ∉ s)
    (hkept : ∀ s ∈ kept, Proper s) : ∀ s ∈ ss.foldl cleanStep kept, Proper s := by
  induction ss generalizing kept with
  | nil => exact hkept
  | cons s ss ih =>
    refine ih (fun t ht => hss t (List.mem_cons_of_mem _ ht)) (fun t ht => ?_)
    unfold cleanStep at ht
    split at ht
    · exact hkept t ht
    · next hne =>
      split at ht
      · exact hkept t (List.mem_of_mem_dropLast ht)
      · next hback =>
        rcases List.mem_append.mp ht with ht | ht
        · exact hkept t ht
        · rw [List.mem_singleton.mp ht]
          exact ⟨fun h => hne (.inl h), fun h => hne (.inr h), hback, hss s List.mem_cons_self⟩

theorem foldl_cleanStep_of_proper {ss : List Bytes} (hss : ∀ s ∈ ss, Proper s)
    (kept : List Bytes) : ss.foldl cleanStep kept = kept ++ ss := by
  induction ss generalizing kept with
  | nil => simp
  | cons s ss ih =>
    obtain ⟨hne, hdot, hback, -⟩ := hss s List.mem_cons_self
    rw [List.foldl_cons, cleanStep, if_neg (not_or.mpr ⟨hne, hdot⟩), if_neg hback,
      ih (fun t ht => hss t (List.mem_cons_of_mem _ ht)), List.append_assoc]
    rfl

theorem join_cases (elems : List Bytes) :
    join elems = [SLASH] ∨ Normal (join elems) := by
  have hclean : clean (ofSegments elems) = [SLASH] ∨ ∃ ss, ss ≠ [] ∧ (∀ s ∈ ss, Proper s)
      ∧ clean (ofSegments elems) = ofSegments ss := by
    have hproper := @proper_foldl_cleanStep ((ofSegments elems).splitOn SLASH) []
      (fun s hs => (mem_splitOn hs).1) (by simp)
    unfold clean
    dsimp only
    split
    · exact .inl rfl
    · next hne => exact .inr ⟨_, hne, hproper, rfl⟩
  unfold join
  dsimp only
  rcases hclean with hroot | ⟨ss, hne, hss, heq⟩
  · rw [hroot, if_neg (by simp)]
    exact .inl rfl
  · rw [heq]
    split
    · exact .inr ⟨ss, hne, hss, .inr rfl⟩
    · exact .inr ⟨ss, hne, hss, .inl rfl⟩

theorem getLast?_ofSegments {ss : List Bytes} (hne : ss ≠ []) (hss : ∀ s ∈ ss, Proper s) :
    (ofSegments ss).getLast? ≠ some SLASH := by
  obtain ⟨ss, s, rfl⟩ := (List.eq_nil_or_concat ss).resolve_left hne
  obtain ⟨hs, -, -, hslash⟩ := hss s (by simp)
  have hrender : ofSegments (ss.concat s) = (ofSegments ss ++ [SLASH]) ++ s := by
    rw [List.concat_eq_append, ofSegments_append]
    simp [ofSegments]
  rw [hrender, List.getLast?_append_of_ne_nil _ hs]
  exact fun hlast => hslash (List.mem_of_getLast? hlast)

theorem clean_ofSegments {ss : List Bytes} (hne : ss ≠ []) (hss : ∀ s ∈ ss, Proper s) :
    clean (ofSegments ss) = ofSegments ss ∧ clean (ofSegments ss ++ [SLASH]) = ofSegments ss := by
  have hfold := foldl_cleanStep_of_proper hss []
  have hslash : ofSegments ss ++ [SLASH] = ofSegments (ss ++ [[]]) := by rw [ofSegments_append]; rfl
  have hnot : ∀ s ∈ ss, SLASH ∉ s := fun s hs => (hss s hs).2.2.2
  have hnot' : ∀ s ∈ ss ++ [[]], SLASH ∉ s := by simpa [or_imp, forall_and] using hnot
  have hfirst : ∀ kept, cleanStep kept [] = kept := fun kept => if_pos (.inl rfl)
  rw [hslash]
  unfold clean
  rw [splitOn_ofSegments hnot, splitOn_ofSegments hnot', List.foldl_cons, List.foldl_cons,
    List.foldl_append, hfirst, hfold, List.nil_append, List.foldl_cons, hfirst, List.foldl_nil]
  exact ⟨if_neg hne, if_neg hne⟩

theorem join_of_normal {front : List Bytes} (hfront : ∀ s ∈ front, Proper s) {t : Bytes}
    (h : Normal (SLASH :: t)) : join (front ++ [t]) = ofSegments front ++ SLASH :: t := by
  obtain ⟨ss, hne, hss, ht⟩ := h
  have hall : ∀ s ∈ front ++ ss, Proper s := fun s hs =>
    (List.mem_append.mp hs).elim (hfront s) (hss s)
  have hnonempty : front ++ ss ≠ [] := List.append_ne_nil_of_right_ne_nil front hne
  have hlast := getLast?_ofSegments hnonempty hall
  obtain ⟨hclean, hclean'⟩ := clean_ofSegments hnonempty hall
  have htext : ofSegments (front ++ [t]) = ofSegments front ++ SLASH :: t := by
    rw [ofSegments_append]
    simp [ofSegments]
  have helem : (front ++ [t]).getLast?.bind List.getLast? = t.getLast? := by simp
  unfold join
  dsimp only
  rw [htext, helem]
  rcases ht with ht | ht
  · have hopen : t.getLast? ≠ some SLASH := by
      intro hslash
      have := getLast?_ofSegments hne hss
      rw [← ht, List.getLast?_cons, hslash] at this
      exact this rfl
    rw [ht, ← ofSegments_append, hclean, if_neg (fun hc => hopen hc.1)]
  · have hslash : t.getLast? = some SLASH := by
      have hend : (SLASH :: t).getLast? = some SLASH := by rw [ht]; simp
      cases t with
      | nil =>
        obtain ⟨s, ss, rfl⟩ := List.exists_cons_of_ne_nil hne
        simp [ofSegments] at ht
      | cons c t => rwa [List.getLast?_cons_cons] at hend
    rw [ht, ← List.append_assoc, ← ofSegments_append, hclean', if_pos ⟨hslash, hlast⟩]

end RootedPath
