import Pulsys.Admin.Models
import Pulsys.Cache.Checkpoints

/-!
# The set of owners

`appendOwner` looks for the place of a new owner by bisection, and `RemoveOwner` takes out
those of a model. The list stays sorted, without repetitions and never longer than 64
(`owners_throughout`). The empty path is not entered.
-/

namespace Admin

open Bytes Cache

inductive OwnerEvent
  | insert (owner : Bytes)
  | remove (org name : Bytes)

def ownerStep (m : Meta) : OwnerEvent → Meta
  | .insert owner => { m with originPaths := appendOwner m.originPaths owner }
  | .remove org name => removeOwner m org name

structure OwnerList (l : List Bytes) : Prop where
  sorted : l.Pairwise (· < ·)
  short : l.length ≤ maxOriginPaths

variable {l : List Bytes} {x : Bytes}

theorem insertIdx_eq_append {c : ℕ} (h : c ≤ l.length) :
    l.insertIdx c x = l.take c ++ x :: l.drop c := by
  induction c generalizing l with
  | zero => rfl
  | succ c ih =>
    cases l with
    | nil => cases h
    | cons a l =>
      rw [List.insertIdx_succ_cons, ih (Nat.le_of_succ_le_succ h)]
      rfl

theorem appendOwner_cases (h : l.Pairwise (· < ·)) (hx : x ≠ []) :
    appendOwner l x = l ∧ (x ∈ l ∨ maxOriginPaths ≤ l.length)
      ∨ ∃ a b, l = a ++ b ∧ appendOwner l x = a ++ x :: b ∧ l.length < maxOriginPaths
        ∧ (∀ y ∈ a, y < x) ∧ ∀ y ∈ b, x < y := by
  obtain ⟨c, hc⟩ := exists_place (h.imp List.le_of_lt) x
  have hget : ∀ {k : ℕ} (hk : k < l.length), l.getD k [] = l[k] := fun hk => by
    rw [List.getD_eq_getElem?_getD, List.getElem?_eq_getElem hk, Option.getD_some]
  rw [hc.appendOwner_eq hx]
  split
  · next hthere => exact .inl ⟨rfl, .inl (List.mem_of_getElem? hthere)⟩
  next hnot =>
  split
  · next hfull => exact .inl ⟨rfl, .inr hfull⟩
  next hroom =>
  refine .inr ⟨l.take c, l.drop c, (List.take_append_drop c l).symm, insertIdx_eq_append hc.le,
    Nat.lt_of_not_le hroom, fun y hy => ?_, fun y hy => ?_⟩
  · obtain ⟨k, hk, rfl⟩ := List.mem_take_iff_getElem.mp hy
    have hbelow := hc.below k (lt_of_lt_of_le hk (min_le_left _ _))
    rwa [hget (lt_of_lt_of_le hk (min_le_right _ _))] at hbelow
  · obtain ⟨k, hk, rfl⟩ := List.mem_drop_iff_getElem.mp hy
    have hge : ∀ {i : ℕ} (hi : i < l.length), c ≤ i → ¬ l[i] < x :=
      fun hi hci => hget hi ▸ hc.others _ hci hi
    have hk' : c + k < l.length := by omega
    refine Std.lt_of_le_of_ne (hge hk' (Nat.le_add_right c k)) ?_
    rintro rfl
    -- before an equal one there would be a smaller one, at the place itself
    cases k with
    | zero => exact hnot (List.getElem?_eq_getElem hk')
    | succ k =>
      exact hge (by omega) le_rfl
        (List.pairwise_iff_getElem.mp h c (c + (k + 1)) (by omega) hk' (by omega))

namespace OwnerList

theorem append (h : OwnerList l) (x : Bytes) : OwnerList (appendOwner l x) := by
  by_cases hx : x = []
  · rwa [appendOwner, if_pos hx]
  rcases appendOwner_cases h.sorted hx with ⟨hsame, -⟩ | ⟨a, b, rfl, hnew, hroom, hbelow, habove⟩
  · rwa [hsame]
  · obtain ⟨ha, hb, hab⟩ := List.pairwise_append.mp h.sorted
    rw [hnew]
    refine ⟨List.pairwise_append.mpr ⟨ha, List.pairwise_cons.mpr ⟨habove, hb⟩, ?_⟩, ?_⟩
    · intro y hy z hz
      rcases List.mem_cons.mp hz with rfl | hz
      · exact hbelow y hy
      · exact hab y hy z hz
    · rw [List.length_append, List.length_cons]
      rw [List.length_append] at hroom
      omega

theorem entered (h : OwnerList l) (x : Bytes) :
    (∀ p ∈ appendOwner l x, p = x ∨ p ∈ l) ∧ l.Sublist (appendOwner l x)
      ∧ (x ≠ [] → x ∉ appendOwner l x → l.length = 64) := by
  by_cases hx : x = []
  · rw [appendOwner, if_pos hx]
    exact ⟨fun p hp => .inr hp, .refl _, fun hne => absurd hx hne⟩
  rcases appendOwner_cases h.sorted hx with ⟨hsame, hwhy⟩ | ⟨a, b, rfl, hnew, -, -, -⟩
  · rw [hsame]
    exact ⟨fun p hp => .inr hp, .refl _, fun _ hno => le_antisymm h.short (hwhy.resolve_left hno)⟩
  · rw [hnew]
    refine ⟨fun p hp => ?_, (List.sublist_cons_self x b).append_left a,
      fun _ hno => absurd (List.mem_append_right a List.mem_cons_self) hno⟩
    rcases List.mem_append.mp hp with hp | hp
    · exact .inr (List.mem_append_left b hp)
    · exact (List.mem_cons.mp hp).imp_right (List.mem_append_right a)

theorem step {m : Meta} (h : OwnerList m.originPaths) (e : OwnerEvent) :
    OwnerList (ownerStep m e).originPaths := by
  cases e with
  | insert owner => exact h.append owner
  | remove org name =>
    have hsub : (removeOwner m org name).originPaths.Sublist m.originPaths := List.filter_sublist
    exact ⟨h.sorted.sublist hsub, hsub.length_le.trans h.short⟩

theorem run {m : Meta} (h : OwnerList m.originPaths) (es : List OwnerEvent) :
    OwnerList (es.foldl ownerStep m).originPaths := by
  induction es generalizing m with
  | nil => exact h
  | cons e es ih => exact ih (h.step e)

end OwnerList

/-- **The owners throughout**: strictly sorted and at most 64; an insertion enters nothing but
the owner, which is missing only if the list was full. -/
theorem owners_throughout {m : Meta} (hm : m.originPaths = []) (es : List OwnerEvent)
    (hl : (es.foldl ownerStep m).originPaths = l) :
    l.Pairwise (· < ·) ∧ l.length ≤ 64
      ∧ ∀ owner, (∀ p ∈ appendOwner l owner, p = owner ∨ p ∈ l) ∧ l.Sublist (appendOwner l owner)
        ∧ (owner ≠ [] → owner ∉ appendOwner l owner → l.length = 64) := by
  have hempty : OwnerList m.originPaths := hm ▸ ⟨.nil, Nat.zero_le _⟩
  have hlist : OwnerList l := hl ▸ hempty.run es
  exact ⟨hlist.sorted, hlist.short, hlist.entered⟩

theorem owners_throughout_three :
    [ascii "/a", ascii "/b", ascii "/c"].Pairwise (· < ·) :=
  (owners_throughout (m := {}) rfl
    [.insert (ascii "/c"), .insert (ascii "/a"), .insert (ascii "/b")] (by decide)).1

/-- **The empty path is not entered**, although there is room. -/
theorem empty_owner_not_entered : [] ∉ appendOwner [] [] ∧ ([] : List Bytes).length < 64 := by
  decide

end Admin
