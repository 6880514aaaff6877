import Mathlib.Algebra.Order.Group.Nat
import Mathlib.Data.List.Induction
import Mathlib.Data.List.Nodup
import Mathlib.Data.List.Pairwise
import Mathlib.Tactic.Common
import Pulsys.Base.Runs

/-!
# Lists ordered by last use

A cache that gives up what was not used for longest, as a list with the key used last in
front. That the list is in the order of the last use is proved of the calls that were made
(`ordered_answers`).
-/

namespace Recency

open Runs

variable {κ α : Type} [DecidableEq κ]

inductive Op (κ α : Type)
  | get (k : κ)
  | add (k : κ) (v : α)
  | getOrAdd (k : κ) (v : α)
  | delete (k : κ)

inductive Result (α : Type)
  | value (v : Option α)
  | done
  | got (v : α) (existed : Bool)
  | deleted (found : Bool)
  deriving DecidableEq

def lookup : List (κ × α) → κ → Option α
  | [], _ => none
  | e :: es, k => if e.1 = k then some e.2 else lookup es k

def without (es : List (κ × α)) (k : κ) : List (κ × α) := es.filter (fun e => e.1 ≠ k)

def touch (es : List (κ × α)) (k : κ) (v : α) : List (κ × α) := (k, v) :: without es k

def insert (cap : ℕ) (es : List (κ × α)) (k : κ) (v : α) : List (κ × α) × List (κ × α) :=
  if cap < ((k, v) :: es).length then
    (((k, v) :: es).dropLast, ((k, v) :: es).getLast?.toList)
  else ((k, v) :: es, [])

def step (cap : ℕ) (es : List (κ × α)) : Op κ α → List (κ × α) × Result α × List (κ × α)
  | .get k =>
    match lookup es k with
    | some v => (touch es k v, .value (some v), [])
    | none => (es, .value none, [])
  | .add k v =>
    match lookup es k with
    | some _ => (touch es k v, .done, [])
    | none => ((insert cap es k v).1, .done, (insert cap es k v).2)
  | .getOrAdd k v =>
    match lookup es k with
    | some w => (touch es k w, .got w true, [])
    | none => ((insert cap es k v).1, .got v false, (insert cap es k v).2)
  | .delete k =>
    match lookup es k with
    | some v => (without es k, .deleted true, [(k, v)])
    | none => (es, .deleted false, [])

theorem lookup_eq_none_iff {es : List (κ × α)} {k : κ} :
    lookup es k = none ↔ k ∉ es.map Prod.fst := by
  induction es with
  | nil => simp [lookup]
  | cons e es ih =>
    rw [lookup, List.map_cons, List.mem_cons, not_or, ← ih]
    by_cases hk : e.1 = k
    · simp [hk]
    · rw [if_neg hk]
      exact ⟨fun h => ⟨Ne.symm hk, h⟩, And.right⟩

theorem exists_of_lookup {es : List (κ × α)} {k : κ} {v : α} (h : lookup es k = some v) :
    ∃ xs ys, es = xs ++ (k, v) :: ys ∧ k ∉ xs.map Prod.fst := by
  induction es with
  | nil => cases h
  | cons e es ih =>
    obtain ⟨a, w⟩ := e
    rw [lookup] at h
    split at h
    · next hk =>
      obtain rfl : a = k := hk
      cases h
      exact ⟨[], es, rfl, List.not_mem_nil⟩
    · next hk =>
      obtain ⟨xs, ys, rfl, hxs⟩ := ih h
      exact ⟨(a, w) :: xs, ys, rfl, List.not_mem_cons_of_ne_of_not_mem (Ne.symm hk) hxs⟩

theorem without_of_notMem {es : List (κ × α)} {k : κ} (h : k ∉ es.map Prod.fst) :
    without es k = es := by
  refine List.filter_eq_self.mpr (fun e he => ?_)
  simp only [ne_eq, decide_eq_true_eq]
  rintro rfl
  exact h (List.mem_map_of_mem he)

theorem without_append {xs ys : List (κ × α)} {k : κ} {v : α}
    (h : ((xs ++ (k, v) :: ys).map Prod.fst).Nodup) :
    without (xs ++ (k, v) :: ys) k = xs ++ ys := by
  rw [List.map_append, List.nodup_append, List.map_cons, List.nodup_cons] at h
  have hxs : k ∉ xs.map Prod.fst := fun hmem => h.2.2 k hmem k List.mem_cons_self rfl
  have hcons : without ((k, v) :: ys) k = without ys k := by simp [without]
  rw [without, List.filter_append, ← without, ← without, without_of_notMem hxs, hcons,
    without_of_notMem h.2.1.1]

theorem lookup_append {xs ys : List (κ × α)} {k : κ} {v : α} (h : k ∉ xs.map Prod.fst) :
    lookup (xs ++ (k, v) :: ys) k = some v := by
  induction xs with
  | nil => exact if_pos rfl
  | cons e xs ih =>
    obtain ⟨hne, hxs⟩ := not_or.mp (mt List.mem_cons.mpr h)
    rw [List.cons_append, lookup, if_neg (Ne.symm hne)]
    exact ih hxs

theorem mem_without {es : List (κ × α)} {k : κ} {e : κ × α} (h : e ∈ without es k) :
    e ∈ es ∧ e.1 ≠ k := by
  simpa [without] using h

def Op.uses : Op κ α → Option κ
  | .get k => some k
  | .add k _ => some k
  | .getOrAdd k _ => some k
  | .delete _ => none

def lastUseBack : List (Op κ α) → κ → ℕ
  | [], _ => 0
  | op :: before, k => if op.uses = some k then before.length + 1 else lastUseBack before k

def lastUse (ops : List (Op κ α)) (k : κ) : ℕ := lastUseBack ops.reverse k

theorem lastUse_concat (ops : List (Op κ α)) (op : Op κ α) (k : κ) :
    lastUse (ops ++ [op]) k = if op.uses = some k then ops.length + 1 else lastUse ops k := by
  rw [lastUse, List.reverse_append, List.reverse_singleton, List.singleton_append, lastUseBack,
    List.length_reverse]
  rfl

theorem lastUse_le (ops : List (Op κ α)) (k : κ) : lastUse ops k ≤ ops.length := by
  induction ops using List.reverseRecOn with
  | nil => exact le_rfl
  | append_singleton ops op ih =>
    rw [lastUse_concat, List.length_append, List.length_singleton]
    split
    · exact le_rfl
    · exact ih.trans (Nat.le_succ _)

structure Ordered (cap : ℕ) (ops : List (Op κ α)) (es : List (κ × α)) : Prop where
  pairwise : es.Pairwise (fun a b => lastUse ops b.1 < lastUse ops a.1)
  length_le : es.length ≤ cap

theorem Ordered.nodup {cap : ℕ} {ops : List (Op κ α)} {es : List (κ × α)}
    (h : Ordered cap ops es) : (es.map Prod.fst).Nodup := by
  refine List.pairwise_map.mpr (h.pairwise.imp (fun {a b} hlt heq => ?_))
  rw [heq] at hlt
  exact lt_irrefl _ hlt

theorem pairwise_concat {ops : List (Op κ α)} {op : Op κ α} {es : List (κ × α)}
    (h : es.Pairwise (fun a b => lastUse ops b.1 < lastUse ops a.1))
    (hnot : ∀ e ∈ es, op.uses ≠ some e.1) :
    es.Pairwise (fun a b => lastUse (ops ++ [op]) b.1 < lastUse (ops ++ [op]) a.1) := by
  refine h.imp_of_mem (fun {a b} ha hb hlt => ?_)
  rw [lastUse_concat, lastUse_concat, if_neg (hnot a ha), if_neg (hnot b hb)]
  exact hlt

theorem pairwise_cons {ops : List (Op κ α)} {op : Op κ α} {es : List (κ × α)} {k : κ}
    (h : es.Pairwise (fun a b => lastUse ops b.1 < lastUse ops a.1)) (hop : op.uses = some k)
    (hnot : ∀ e ∈ es, e.1 ≠ k) (v : α) :
    ((k, v) :: es).Pairwise
      (fun a b => lastUse (ops ++ [op]) b.1 < lastUse (ops ++ [op]) a.1) := by
  have hother : ∀ e ∈ es, op.uses ≠ some e.1 := by
    intro e he heq
    rw [hop] at heq
    exact hnot e he (Option.some.inj heq).symm
  refine List.pairwise_cons.mpr ⟨fun e he => ?_, pairwise_concat h hother⟩
  show lastUse (ops ++ [op]) e.1 < lastUse (ops ++ [op]) k
  rw [lastUse_concat, lastUse_concat, if_pos hop, if_neg (hother e he)]
  exact Nat.lt_succ_of_le (lastUse_le ops e.1)

namespace Ordered

variable {cap : ℕ} {ops : List (Op κ α)} {es : List (κ × α)} {op : Op κ α} {k : κ}

theorem touch (h : Ordered cap ops es) (hop : op.uses = some k) {w : α}
    (hk : lookup es k = some w) (v : α) : Ordered cap (ops ++ [op]) (touch es k v) := by
  refine ⟨pairwise_cons (h.pairwise.sublist List.filter_sublist) hop
    (fun e he => (mem_without he).2) v, ?_⟩
  obtain ⟨xs, ys, rfl, -⟩ := exists_of_lookup hk
  rw [Recency.touch, without_append h.nodup]
  have hlen := h.length_le
  simp only [List.length_append, List.length_cons] at hlen ⊢
  omega

theorem insert (h : Ordered cap ops es) (hop : op.uses = some k) (hk : lookup es k = none)
    (v : α) : Ordered cap (ops ++ [op]) (insert cap es k v).1 := by
  have hnot : ∀ e ∈ es, e.1 ≠ k := by
    rintro e he rfl
    exact lookup_eq_none_iff.mp hk (List.mem_map_of_mem he)
  have hpairwise := pairwise_cons h.pairwise hop hnot v
  have hlen := h.length_le
  rw [Recency.insert]
  split
  · refine ⟨hpairwise.sublist (List.dropLast_sublist _), ?_⟩
    rw [List.length_dropLast]
    exact hlen
  · next hle => exact ⟨hpairwise, not_lt.mp hle⟩

theorem step (h : Ordered cap ops es) (op : Op κ α) :
    Ordered cap (ops ++ [op]) (step cap es op).1 := by
  -- a call that finds no entry uses none
  have hmiss : ∀ k, op.uses = some k → lookup es k = none → Ordered cap (ops ++ [op]) es := by
    intro k hop hk
    refine ⟨pairwise_concat h.pairwise (fun e he heq => ?_), h.length_le⟩
    rw [hop] at heq
    exact lookup_eq_none_iff.mp hk (Option.some.inj heq ▸ List.mem_map_of_mem he)
  cases op with
  | get k =>
    rw [Recency.step]
    split
    · next v hk => exact h.touch rfl hk v
    · next hk => exact hmiss k rfl hk
  | add k v =>
    rw [Recency.step]
    split
    · next w hk => exact h.touch rfl hk v
    · next hk => exact h.insert rfl hk v
  | getOrAdd k v =>
    rw [Recency.step]
    split
    · next w hk => exact h.touch rfl hk w
    · next hk => exact h.insert rfl hk v
  | delete k =>
    have hsame : ∀ es' : List (κ × α), es'.Sublist es →
        Ordered cap (ops ++ [.delete k]) es' := by
      intro es' hsub
      refine ⟨pairwise_concat (h.pairwise.sublist hsub) (fun e _ heq => ?_),
        hsub.length_le.trans h.length_le⟩
      cases heq
    rw [Recency.step]
    split
    · exact hsame _ List.filter_sublist
    · exact hsame _ (List.Sublist.refl es)

end Ordered

theorem ordered_answers (cap : ℕ) (ops : List (Op κ α)) :
    Ordered cap ops (answers (step cap) [] ops).1 := by
  induction ops using List.reverseRecOn with
  | nil => exact ⟨List.Pairwise.nil, Nat.zero_le _⟩
  | append_singleton ops op ih =>
    rw [answers_concat]
    exact ih.step op

end Recency
