import Mathlib.Data.List.Basic
import Mathlib.Logic.Function.Basic
import Mathlib.Tactic.Common

/-!
# Doubly linked lists

`Seg` says of a stretch of cells that they are linked to each other and on to a given
address at either end. Stretches can be put together (`seg_append`), do not mind other
writes (`Seg.congr`), and are linked elsewhere by one write.
-/

namespace Doubly

variable {α : Type}

structure Cell (α : Type) where
  item : α
  prev : Option ℕ
  next : Option ℕ

abbrev Heap (α : Type) := ℕ → Option (Cell α)

def modify (cells : Heap α) (a : ℕ) (f : Cell α → Cell α) : Heap α :=
  Function.update cells a ((cells a).map f)

def setPrev (cells : Heap α) (at? : Option ℕ) (p : Option ℕ) : Heap α :=
  match at? with
  | some a => modify cells a (fun c => { c with prev := p })
  | none => cells

def setNext (cells : Heap α) (at? : Option ℕ) (n : Option ℕ) : Heap α :=
  match at? with
  | some a => modify cells a (fun c => { c with next := n })
  | none => cells

def first (es : List (ℕ × α)) (n : Option ℕ) : Option ℕ :=
  match es with
  | [] => n
  | e :: _ => some e.1

def last (p : Option ℕ) : List (ℕ × α) → Option ℕ
  | [] => p
  | e :: es => last (some e.1) es

def Seg (cells : Heap α) : Option ℕ → List (ℕ × α) → Option ℕ → Prop
  | _, [], _ => True
  | p, (a, x) :: es, n => cells a = some ⟨x, p, first es n⟩ ∧ Seg cells (some a) es n

variable {a b : ℕ} {n p : Option ℕ}

@[simp] theorem modify_self {cells : Heap α} {c : Cell α} (h : cells a = some c) (f : Cell α → Cell α) :
    modify cells a f a = some (f c) := by
  rw [modify, Function.update_self, h, Option.map_some]

theorem modify_of_ne (cells : Heap α) (h : b ≠ a) (f : Cell α → Cell α) :
    modify cells a f b = cells b :=
  Function.update_of_ne h _ _

theorem setPrev_of_ne (cells : Heap α) {at? : Option ℕ} (h : at? ≠ some b) (p : Option ℕ) :
    setPrev cells at? p b = cells b := by
  cases at? with
  | none => rfl
  | some a => exact modify_of_ne cells (fun heq => h (congrArg some heq.symm)) _

theorem setNext_of_ne (cells : Heap α) {at? : Option ℕ} (h : at? ≠ some b) (n : Option ℕ) :
    setNext cells at? n b = cells b := by
  cases at? with
  | none => rfl
  | some a => exact modify_of_ne cells (fun heq => h (congrArg some heq.symm)) _

theorem first_append (xs ys : List (ℕ × α)) (n : Option ℕ) :
    first (xs ++ ys) n = first xs (first ys n) := by
  cases xs with
  | nil => rfl
  | cons e es => rfl

theorem last_append (p : Option ℕ) (xs ys : List (ℕ × α)) :
    last p (xs ++ ys) = last (last p xs) ys := by
  induction xs generalizing p with
  | nil => rfl
  | cons e es ih => exact ih _

theorem last_eq_or (p : Option ℕ) (es : List (ℕ × α)) : last p es = (last none es).or p := by
  rcases List.eq_nil_or_concat es with rfl | ⟨es, e, rfl⟩
  · rfl
  · rw [List.concat_eq_append, last_append, last_append]
    rfl

theorem last_eq_none_iff {es : List (ℕ × α)} : last none es = none ↔ es = [] := by
  rcases List.eq_nil_or_concat es with rfl | ⟨es, e, rfl⟩
  · exact ⟨fun _ => rfl, fun _ => rfl⟩
  · rw [List.concat_eq_append, last_append]
    exact ⟨fun h => (by cases h), fun h => (by simp at h)⟩

theorem mem_of_first {es : List (ℕ × α)} (h : first es none = some a) : a ∈ es.map Prod.fst := by
  cases es with
  | nil => cases h
  | cons e es =>
    cases h
    exact List.mem_cons_self

theorem mem_of_last {es : List (ℕ × α)} (h : last none es = some a) : a ∈ es.map Prod.fst := by
  rcases List.eq_nil_or_concat es with rfl | ⟨es, e, rfl⟩
  · cases h
  · rw [List.concat_eq_append, last_append] at h
    cases h
    simp

theorem seg_append (cells : Heap α) (p : Option ℕ) (xs ys : List (ℕ × α)) (n : Option ℕ) :
    Seg cells p (xs ++ ys) n
      ↔ Seg cells p xs (first ys n) ∧ Seg cells (last p xs) ys n := by
  induction xs generalizing p with
  | nil => exact ⟨fun h => ⟨trivial, h⟩, And.right⟩
  | cons e es ih =>
    obtain ⟨a, x⟩ := e
    rw [List.cons_append, Seg, Seg, ih, first_append, last, and_assoc]

theorem Seg.congr {cells cells' : Heap α} {es : List (ℕ × α)} (h : Seg cells p es n)
    (hsame : ∀ a ∈ es.map Prod.fst, cells' a = cells a) : Seg cells' p es n := by
  induction es generalizing p with
  | nil => trivial
  | cons e es ih =>
    obtain ⟨a, x⟩ := e
    refine ⟨?_, ih h.2 (fun b hb => hsame b (List.mem_cons_of_mem _ hb))⟩
    rw [hsame a List.mem_cons_self]
    exact h.1

theorem Seg.setNext_last {cells : Heap α} {es : List (ℕ × α)} (h : Seg cells p es n)
    (hnodup : (es.map Prod.fst).Nodup) (n' : Option ℕ) :
    Seg (setNext cells (last none es) n') p es n' := by
  rcases List.eq_nil_or_concat es with rfl | ⟨es, ⟨a, x⟩, rfl⟩
  · trivial
  rw [List.concat_eq_append] at h hnodup ⊢
  rw [List.map_append, List.nodup_append] at hnodup
  rw [seg_append] at h ⊢
  obtain ⟨hes, hcell, -⟩ := h
  rw [last_append]
  refine ⟨hes.congr (fun b hb => setNext_of_ne cells ?_ _), ?_, trivial⟩
  · intro heq
    exact hnodup.2.2 b hb a (by simp) (Option.some.inj heq).symm
  · exact modify_self hcell _

theorem Seg.setPrev_first {cells : Heap α} {es : List (ℕ × α)} (h : Seg cells p es n)
    (hnodup : (es.map Prod.fst).Nodup) (p' : Option ℕ) :
    Seg (setPrev cells (first es none) p') p' es n := by
  cases es with
  | nil => trivial
  | cons e es =>
    obtain ⟨a, x⟩ := e
    obtain ⟨hcell, hes⟩ := h
    refine ⟨modify_self hcell _, hes.congr (fun b hb => setPrev_of_ne cells ?_ _)⟩
    intro heq
    cases heq
    exact (List.nodup_cons.mp hnodup).1 hb

theorem Seg.setItem {cells : Heap α} {xs ys : List (ℕ × α)} {x : α}
    (h : Seg cells p (xs ++ (a, x) :: ys) n) (hnodup : ((xs ++ (a, x) :: ys).map Prod.fst).Nodup)
    (f : α → α) :
    Seg (modify cells a (fun c => { c with item := f c.item })) p (xs ++ (a, f x) :: ys) n := by
  rw [List.map_append, List.nodup_append, List.map_cons, List.nodup_cons] at hnodup
  rw [seg_append] at h ⊢
  obtain ⟨hxs, hcell, hys⟩ := h
  refine ⟨hxs.congr (fun b hb => modify_of_ne cells ?_ _), modify_self hcell _,
    hys.congr (fun b hb => modify_of_ne cells ?_ _)⟩
  · exact hnodup.2.2 b hb a List.mem_cons_self
  · rintro rfl
    exact hnodup.2.1.1 hb

end Doubly
