import Pulsys.Base.Directory
import Pulsys.Base.Doubly
import Pulsys.Base.Recency

/-!
# The cache of handles and metadata

`lru` is a doubly linked list with a map from keys to its cells. `lru_refines` says that it
is a `Recency`, for every capacity and all calls, and calls back once for each entry it
takes out for want of room or on request.
-/

namespace Cache

open Doubly Recency Runs

variable {κ α : Type}

structure LRU (κ α : Type) where
  cap : ℕ
  head : Option ℕ := none
  tail : Option ℕ := none
  cells : Heap (κ × α) := fun _ => none
  fresh : ℕ := 0
  m : Directory κ ℕ := .empty
  onEvict : Bool

def newLRU (capacity : ℤ) (onEvict : Bool) : LRU κ α :=
  { cap := if capacity < 1 then 1 else capacity.toNat, onEvict }

namespace LRU

def pushFrontLocked (l : LRU κ α) (e : ℕ) : LRU κ α :=
  { l with
    cells := setPrev (modify l.cells e (fun c => { c with prev := none, next := l.head }))
      l.head (some e)
    head := some e
    tail := l.tail.or (some e) }

def removeLocked (l : LRU κ α) (e : ℕ) : LRU κ α :=
  match l.cells e with
  | none => l
  | some c =>
    { l with
      cells := modify (setPrev (setNext l.cells c.prev c.next) c.next c.prev) e
        (fun c => { c with prev := none, next := none })
      head := if c.prev = none then c.next else l.head
      tail := if c.next = none then c.prev else l.tail }

def moveToFrontLocked (l : LRU κ α) (e : ℕ) : LRU κ α :=
  if l.head = some e then l else (l.removeLocked e).pushFrontLocked e

def setVal (l : LRU κ α) (e : ℕ) (val : α) : LRU κ α :=
  { l with cells := modify l.cells e (fun c => { c with item := (c.item.1, val) }) }

def evicts (l : LRU κ α) (out : List (κ × α)) : List (κ × α) := if l.onEvict then out else []

def val (l : LRU κ α) (e : ℕ) : Option α := (l.cells e).map (fun c => c.item.2)

def oldest (l : LRU κ α) : Option α := l.tail.bind l.val

/-! ## The links -/

structure Linked (l : LRU κ α) (es : List (ℕ × κ × α)) : Prop where
  addrs : (es.map Prod.fst).Nodup
  head : l.head = first es none
  tail : l.tail = last none es
  seg : Seg l.cells none es none

theorem Linked.pushFrontLocked {l : LRU κ α} {es : List (ℕ × κ × α)} (h : Linked l es) {e : ℕ}
    {c : Cell (κ × α)} (hc : l.cells e = some c) (hnew : e ∉ es.map Prod.fst) :
    Linked (l.pushFrontLocked e) ((e, c.item) :: es) := by
  have hne : l.head ≠ some e := by
    rw [h.head]
    exact fun heq => hnew (mem_of_first heq)
  refine ⟨List.nodup_cons.mpr ⟨hnew, h.addrs⟩, rfl, ?_, ?_, ?_⟩
  · show l.tail.or (some e) = last (some e) es
    rw [h.tail, ← last_eq_or]
  · show setPrev (modify l.cells e _) l.head (some e) e = _
    rw [setPrev_of_ne _ hne, modify_self hc, h.head]
  · show Seg (setPrev (modify l.cells e _) l.head (some e)) (some e) es none
    rw [h.head]
    refine Seg.setPrev_first (h.seg.congr (fun b hb => modify_of_ne _ ?_ _)) h.addrs _
    rintro rfl
    exact hnew hb

theorem Linked.removeLocked {l : LRU κ α} {xs ys : List (ℕ × κ × α)} {e : ℕ} {x : κ × α}
    (h : Linked l (xs ++ (e, x) :: ys)) :
    Linked (l.removeLocked e) (xs ++ ys)
      ∧ (l.removeLocked e).cells e = some ⟨x, none, none⟩ := by
  obtain ⟨haddrs, hhead, htail, hseg⟩ := h
  rw [List.map_append, List.map_cons] at haddrs
  obtain ⟨hxs, hcons, hdisj⟩ := List.nodup_append.mp haddrs
  obtain ⟨hnotys, hys⟩ := List.nodup_cons.mp hcons
  have hnotxs : e ∉ xs.map Prod.fst := fun hmem => hdisj e hmem e List.mem_cons_self rfl
  obtain ⟨hsegx, hcell, hsegy⟩ := (seg_append _ _ _ _ _).mp hseg
  -- the cells before it are linked on to those behind it, and these back to those
  have hlast : ∀ b ∈ ys.map Prod.fst, last none xs ≠ some b := by
    intro b hb heq
    exact hdisj b (mem_of_last heq) b (List.mem_cons_of_mem _ hb) rfl
  have hfirst : ∀ b ∈ xs.map Prod.fst, first ys none ≠ some b := by
    intro b hb heq
    exact hdisj b hb b (List.mem_cons_of_mem _ (mem_of_first heq)) rfl
  have hx : Seg (setPrev (setNext l.cells (last none xs) (first ys none)) (first ys none)
      (last none xs)) none xs (first ys none) :=
    (hsegx.setNext_last hxs _).congr (fun b hb => setPrev_of_ne _ (hfirst b hb) _)
  have hy : Seg (setPrev (setNext l.cells (last none xs) (first ys none)) (first ys none)
      (last none xs)) (last none xs) ys none :=
    (hsegy.congr (fun b hb => setNext_of_ne _ (hlast b hb) _)).setPrev_first hys _
  have hstill : setPrev (setNext l.cells (last none xs) (first ys none)) (first ys none)
      (last none xs) e = l.cells e := by
    rw [setPrev_of_ne _ (fun heq => hnotys (mem_of_first heq)),
      setNext_of_ne _ (fun heq => hnotxs (mem_of_last heq))]
  have heq : l.removeLocked e = { l with
      cells := modify (setPrev (setNext l.cells (last none xs) (first ys none)) (first ys none)
        (last none xs)) e (fun c => { c with prev := none, next := none })
      head := if last none xs = none then first ys none else l.head
      tail := if first ys none = none then last none xs else l.tail } := by
    rw [LRU.removeLocked, hcell]
  rw [heq]
  refine ⟨⟨?_, ?_, ?_, (seg_append _ _ _ _ _).mpr ⟨?_, ?_⟩⟩, ?_⟩
  · rw [List.map_append]
    exact haddrs.sublist (List.Sublist.append_left (List.sublist_cons_self _ _) _)
  · dsimp only
    rw [hhead, first_append, first_append]
    cases xs with
    | nil => rfl
    | cons e' xs =>
      rw [if_neg (fun hnone => (by cases last_eq_none_iff.mp hnone))]
      rfl
  · dsimp only
    rw [htail, last_append, last_append, last]
    cases ys with
    | nil => rfl
    | cons e' ys => rfl
  · exact hx.congr (fun b hb => modify_of_ne _ (ne_of_mem_of_not_mem hb hnotxs) _)
  · exact hy.congr (fun b hb => modify_of_ne _ (ne_of_mem_of_not_mem hb hnotys) _)
  · exact modify_self (hstill.trans hcell) _

theorem Linked.moveToFrontLocked {l : LRU κ α} {xs ys : List (ℕ × κ × α)} {e : ℕ} {x : κ × α}
    (h : Linked l (xs ++ (e, x) :: ys)) :
    Linked (l.moveToFrontLocked e) ((e, x) :: (xs ++ ys)) := by
  rw [LRU.moveToFrontLocked]
  split
  · next hfront =>
    rw [h.head, first_append] at hfront
    cases xs with
    | nil => exact h
    | cons e' xs =>
      -- the cell would be there twice
      cases hfront
      have hnot := (List.nodup_cons.mp h.addrs).1
      simp at hnot
  · obtain ⟨hlinked, hcell⟩ := h.removeLocked
    refine hlinked.pushFrontLocked hcell (fun hmem => ?_)
    have haddrs := h.addrs
    rw [List.map_append, List.map_cons, List.nodup_middle, ← List.map_append] at haddrs
    exact (List.nodup_cons.mp haddrs).1 hmem

/-! ## The map -/

theorem removeLocked_rest (l : LRU κ α) (e : ℕ) :
    (l.removeLocked e).m = l.m ∧ (l.removeLocked e).fresh = l.fresh
      ∧ (l.removeLocked e).cap = l.cap ∧ (l.removeLocked e).onEvict = l.onEvict := by
  rw [LRU.removeLocked]
  split
  · exact ⟨rfl, rfl, rfl, rfl⟩
  · exact ⟨rfl, rfl, rfl, rfl⟩

theorem moveToFrontLocked_rest (l : LRU κ α) (e : ℕ) :
    (l.moveToFrontLocked e).m = l.m ∧ (l.moveToFrontLocked e).fresh = l.fresh
      ∧ (l.moveToFrontLocked e).cap = l.cap ∧ (l.moveToFrontLocked e).onEvict = l.onEvict := by
  rw [LRU.moveToFrontLocked]
  split
  · exact ⟨rfl, rfl, rfl, rfl⟩
  · exact l.removeLocked_rest e

def places (es : List (ℕ × κ × α)) : List (ℕ × κ) := es.map (fun e => (e.1, e.2.1))

theorem mem_places {es : List (ℕ × κ × α)} {a : ℕ} {k : κ} :
    (a, k) ∈ places es ↔ ∃ v, (a, k, v) ∈ es := by
  simp [places]

theorem mem_keys {es : List (ℕ × κ × α)} {k : κ} :
    k ∈ (es.map Prod.snd).map Prod.fst ↔ ∃ a, (a, k) ∈ places es := by
  simp only [mem_places, List.map_map, List.mem_map, Function.comp_apply, Prod.exists]
  exact ⟨fun ⟨a, _, v, hmem, rfl⟩ => ⟨a, v, hmem⟩, fun ⟨a, v, hmem⟩ => ⟨a, k, v, hmem, rfl⟩⟩

structure Holds (l : LRU κ α) (es : List (ℕ × κ × α)) : Prop extends Linked l es where
  keys : ((es.map Prod.snd).map Prod.fst).Nodup
  map : ∀ k a, l.m.get k = some a ↔ (a, k) ∈ places es
  fresh : ∀ a ∈ es.map Prod.fst, a < l.fresh

namespace Holds

variable {l : LRU κ α} {es xs ys : List (ℕ × κ × α)} {e : ℕ} {k : κ} {v : α}

theorem reorder (h : Holds l es) {l' : LRU κ α} {es' : List (ℕ × κ × α)} (hlinked : Linked l' es')
    (hperm : es'.Perm es) (hm : l'.m = l.m) (hfresh : l'.fresh = l.fresh) : Holds l' es' := by
  refine ⟨hlinked, ?_, fun k a => ?_, fun a ha => ?_⟩
  · exact ((hperm.map Prod.snd).map Prod.fst).nodup_iff.mpr h.keys
  · rw [hm, h.map]
    exact (hperm.map _).mem_iff.symm
  · rw [hfresh]
    exact h.fresh a ((hperm.map Prod.fst).mem_iff.mp ha)

theorem moveToFrontLocked {x : κ × α} (h : Holds l (xs ++ (e, x) :: ys)) :
    Holds (l.moveToFrontLocked e) ((e, x) :: (xs ++ ys)) :=
  h.reorder h.toLinked.moveToFrontLocked List.perm_middle.symm (l.moveToFrontLocked_rest e).1
    (l.moveToFrontLocked_rest e).2.1

theorem val_eq (h : Holds l ((e, k, v) :: es)) : l.val e = some v := by
  rw [val, h.seg.1, Option.map_some]

theorem setVal (h : Holds l (xs ++ (e, k, v) :: ys)) (w : α) :
    Holds (l.setVal e w) (xs ++ (e, k, w) :: ys) := by
  have haddrs : (xs ++ (e, k, w) :: ys).map Prod.fst = (xs ++ (e, k, v) :: ys).map Prod.fst := by
    simp
  refine ⟨⟨haddrs ▸ h.addrs, ?_, ?_, ?_⟩, ?_, fun k' a => ?_, fun a ha => ?_⟩
  · show l.head = _
    rw [h.head, first_append, first_append]
    rfl
  · show l.tail = _
    rw [h.tail, last_append, last_append]
    rfl
  · exact Seg.setItem h.seg h.addrs (fun item => (item.1, w))
  · have hkeys := h.keys
    simpa using hkeys
  · show l.m.get k' = some a ↔ _
    rw [h.map, places, places, List.map_append, List.map_append]
    rfl
  · exact h.fresh a (haddrs ▸ ha)

end Holds

/-! ## The calls -/

section
variable [DecidableEq κ]

def alloc (l : LRU κ α) (key : κ) (val : α) : LRU κ α :=
  { l with
    cells := Function.update l.cells l.fresh (some ⟨(key, val), none, none⟩)
    fresh := l.fresh + 1
    m := l.m.write key l.fresh }

def unmap (l : LRU κ α) (key : κ) : LRU κ α := { l with m := l.m.remove key }

def insertLocked (l : LRU κ α) (key : κ) (val : α) : LRU κ α × List (κ × α) :=
  let l' := (l.alloc key val).pushFrontLocked l.fresh
  if (l'.cap : ℤ) < l'.m.count then
    match l'.tail with
    | none => (l', [])
    | some victim =>
      match l'.cells victim with
      | none => (l', [])
      | some c => ((l'.removeLocked victim).unmap c.item.1, l'.evicts [c.item])
  else (l', [])

def get (l : LRU κ α) (key : κ) : LRU κ α × Option α :=
  match l.m.get key with
  | none => (l, none)
  | some e => (l.moveToFrontLocked e, (l.moveToFrontLocked e).val e)

def add (l : LRU κ α) (key : κ) (val : α) : LRU κ α × List (κ × α) :=
  match l.m.get key with
  | some e => ((l.setVal e val).moveToFrontLocked e, [])
  | none => l.insertLocked key val

def getOrAdd (l : LRU κ α) (key : κ) (newVal : α) : LRU κ α × (α × Bool) × List (κ × α) :=
  match l.m.get key with
  | some e => (l.moveToFrontLocked e, (((l.moveToFrontLocked e).val e).getD newVal, true), [])
  | none => ((l.insertLocked key newVal).1, (newVal, false), (l.insertLocked key newVal).2)

def delete (l : LRU κ α) (key : κ) : LRU κ α × Bool × List (κ × α) :=
  match l.m.get key with
  | none => (l, false, [])
  | some e =>
    ((l.removeLocked e).unmap key, true,
      l.evicts ((l.val e).map (fun val => (key, val))).toList)

def step (l : LRU κ α) : Op κ α → LRU κ α × Result α × List (κ × α)
  | .get key => ((l.get key).1, .value (l.get key).2, [])
  | .add key val => ((l.add key val).1, .done, (l.add key val).2)
  | .getOrAdd key newVal =>
    ((l.getOrAdd key newVal).1,
      .got (l.getOrAdd key newVal).2.1.1 (l.getOrAdd key newVal).2.1.2,
      (l.getOrAdd key newVal).2.2)
  | .delete key => ((l.delete key).1, .deleted (l.delete key).2.1, (l.delete key).2.2)

namespace Holds

variable {l : LRU κ α} {es xs ys : List (ℕ × κ × α)} {e : ℕ} {k : κ} {v : α}

theorem count_eq (h : Holds l es) : l.m.count = es.length := by
  have hnames : l.m.names = ((es.map Prod.snd).map Prod.fst).toFinset := by
    ext k
    rw [l.m.mem_names, Option.isSome_iff_exists, List.mem_toFinset, mem_keys]
    exact exists_congr (h.map k)
  rw [Directory.count, hnames, List.toFinset_card_of_nodup h.keys, List.length_map,
    List.length_map]

theorem lookup_of_none (h : Holds l es) (hk : l.m.get k = none) :
    lookup (es.map Prod.snd) k = none := by
  refine lookup_eq_none_iff.mpr (fun hmem => ?_)
  obtain ⟨a, hmem⟩ := mem_keys.mp hmem
  rw [(h.map k a).mpr hmem] at hk
  cases hk

theorem exists_of_get (h : Holds l es) (hk : l.m.get k = some e) :
    ∃ xs ys v, es = xs ++ (e, k, v) :: ys ∧ lookup (es.map Prod.snd) k = some v
      ∧ without (es.map Prod.snd) k = (xs ++ ys).map Prod.snd := by
  obtain ⟨v, hmem⟩ := mem_places.mp ((h.map k e).mp hk)
  obtain ⟨xs, ys, rfl⟩ := List.append_of_mem hmem
  have hkeys := h.keys
  rw [List.map_append, List.map_cons] at hkeys
  refine ⟨xs, ys, v, rfl, ?_, ?_⟩
  · rw [List.map_append, List.map_cons]
    refine lookup_append (fun hmem => ?_)
    rw [List.map_append, List.nodup_append] at hkeys
    exact hkeys.2.2 k hmem k (by simp) rfl
  · rw [List.map_append, List.map_cons, without_append hkeys, ← List.map_append]

theorem removeLocked (h : Holds l (xs ++ (e, k, v) :: ys)) :
    Holds ((l.removeLocked e).unmap k) (xs ++ ys) := by
  obtain ⟨hm, hfresh, -, -⟩ := l.removeLocked_rest e
  obtain ⟨hlinked, -⟩ := h.toLinked.removeLocked
  have hkeys := h.keys
  rw [List.map_append, List.map_cons, List.map_append, List.map_cons, List.nodup_middle,
    ← List.map_append, ← List.map_append] at hkeys
  obtain ⟨hnot, hkeys⟩ := List.nodup_cons.mp hkeys
  refine ⟨⟨hlinked.addrs, hlinked.head, hlinked.tail, hlinked.seg⟩, hkeys, fun k' a => ?_,
    fun a ha => ?_⟩
  · show ((l.removeLocked e).m.remove k).get k' = some a ↔ _
    rw [hm]
    by_cases hk : k' = k
    · subst hk
      rw [Directory.get_remove]
      exact ⟨fun h => (by cases h), fun hmem => absurd (mem_keys.mpr ⟨a, hmem⟩) hnot⟩
    · rw [Directory.get_remove_of_ne _ hk, h.map]
      simp [places, hk]
  · show a < (l.removeLocked e).fresh
    rw [hfresh]
    refine h.fresh a ?_
    simp only [List.map_append, List.mem_append, List.map_cons, List.mem_cons] at ha ⊢
    exact ha.imp_right .inr

theorem alloc (h : Holds l es) (hk : l.m.get k = none) (v : α) :
    Holds ((l.alloc k v).pushFrontLocked l.fresh) ((l.fresh, k, v) :: es) := by
  have hnew : l.fresh ∉ es.map Prod.fst := fun hmem => lt_irrefl _ (h.fresh _ hmem)
  have hnone := lookup_eq_none_iff.mp (h.lookup_of_none hk)
  have hlinked : Linked (l.alloc k v) es := by
    refine ⟨h.addrs, h.head, h.tail, h.seg.congr (fun a ha => ?_)⟩
    exact Function.update_of_ne (ne_of_mem_of_not_mem ha hnew) _ _
  have hcell : (l.alloc k v).cells l.fresh = some ⟨(k, v), none, none⟩ :=
    Function.update_self _ _ _
  refine ⟨hlinked.pushFrontLocked hcell hnew, List.nodup_cons.mpr ⟨hnone, h.keys⟩,
    fun k' a => ?_, fun a ha => ?_⟩
  · show (l.m.write k l.fresh).get k' = some a ↔ _
    by_cases hk' : k' = k
    · subst hk'
      rw [Directory.get_write]
      constructor
      · intro heq
        cases heq
        exact List.mem_cons_self
      · intro hmem
        rcases List.mem_cons.mp hmem with heq | hmem
        · cases heq
          rfl
        · exact absurd (mem_keys.mpr ⟨a, hmem⟩) hnone
    · rw [Directory.get_write_of_ne _ _ hk', h.map]
      simp [places, hk']
  · show a < l.fresh + 1
    rcases List.mem_cons.mp ha with rfl | ha
    · exact Nat.lt_succ_self _
    · exact Nat.lt_succ_of_lt (h.fresh a ha)

theorem insertLocked (h : Holds l es) (hk : l.m.get k = none) (v : α) :
    (∃ es', Holds (l.insertLocked k v).1 es'
        ∧ es'.map Prod.snd = (insert l.cap (es.map Prod.snd) k v).1)
      ∧ (l.insertLocked k v).2 = l.evicts (insert l.cap (es.map Prod.snd) k v).2
      ∧ (l.insertLocked k v).1.cap = l.cap ∧ (l.insertLocked k v).1.onEvict = l.onEvict := by
  have hall := h.alloc hk v
  have hlength : ((l.alloc k v).pushFrontLocked l.fresh).m.count = (es.length + 1 : ℕ) := by
    rw [hall.count_eq, List.length_cons]
  have hcap : ((l.alloc k v).pushFrontLocked l.fresh).cap = l.cap := rfl
  have hnone : l.evicts [] = [] := ite_self _
  rw [LRU.insertLocked, Recency.insert, List.length_cons, List.length_map, hcap, hlength]
  simp only [Nat.cast_lt]
  by_cases hfull : l.cap < es.length + 1
  · -- the last cell of the list
    obtain ⟨zs, ⟨a, k', w⟩, hzs⟩ : ∃ zs z, (l.fresh, k, v) :: es = zs ++ [z] :=
      ⟨_, _, (List.dropLast_append_getLast (List.cons_ne_nil _ _)).symm⟩
    have hentries : (k, v) :: es.map Prod.snd = zs.map Prod.snd ++ [(k', w)] := by
      have hmap := congrArg (List.map Prod.snd) hzs
      rwa [List.map_cons, List.map_append] at hmap
    rw [hzs] at hall
    have htail : ((l.alloc k v).pushFrontLocked l.fresh).tail = some a := by
      rw [hall.tail, last_append]
      rfl
    have hcell := ((seg_append _ _ _ _ _).mp hall.seg).2.1
    rw [if_pos hfull, if_pos hfull, htail, hentries, List.dropLast_concat, List.getLast?_concat]
    dsimp only
    rw [hcell]
    refine ⟨⟨zs, ?_, rfl⟩, rfl, ?_, ?_⟩
    · have hrest := hall.removeLocked
      rwa [List.append_nil] at hrest
    · exact (removeLocked_rest _ a).2.2.1
    · exact (removeLocked_rest _ a).2.2.2
  · rw [if_neg hfull, if_neg hfull]
    exact ⟨⟨_, hall, rfl⟩, hnone.symm, rfl, rfl⟩

end Holds

/-! ## The refinement -/

def Refines (cap : ℕ) (onEvict : Bool) (l : LRU κ α) (entries : List (κ × α)) : Prop :=
  (∃ es, Holds l es ∧ es.map Prod.snd = entries) ∧ l.cap = cap ∧ l.onEvict = onEvict

namespace Refines

variable {cap : ℕ} {onEvict : Bool} {l : LRU κ α} {entries : List (κ × α)}

theorem get (h : Refines cap onEvict l entries) (k : κ) :
    (l.get k).2 = lookup entries k
      ∧ Refines cap onEvict (l.get k).1
        ((lookup entries k).elim entries (touch entries k)) := by
  obtain ⟨⟨es, hes, rfl⟩, rfl, rfl⟩ := h
  rw [LRU.get]
  cases hk : l.m.get k with
  | none =>
    rw [hes.lookup_of_none hk]
    exact ⟨rfl, ⟨es, hes, rfl⟩, rfl, rfl⟩
  | some e =>
    obtain ⟨xs, ys, v, rfl, hlookup, hwithout⟩ := hes.exists_of_get hk
    have hfront := hes.moveToFrontLocked
    rw [hlookup]
    dsimp only [Option.elim_some]
    rw [hfront.val_eq, touch, hwithout]
    exact ⟨rfl, ⟨_, hfront, rfl⟩, (l.moveToFrontLocked_rest e).2.2⟩

theorem insertLocked (h : Refines cap onEvict l entries) {k : κ} (hk : l.m.get k = none) (v : α) :
    Refines cap onEvict (l.insertLocked k v).1 (insert cap entries k v).1
      ∧ (l.insertLocked k v).2 = if onEvict then (insert cap entries k v).2 else [] := by
  obtain ⟨⟨es, hes, rfl⟩, rfl, rfl⟩ := h
  obtain ⟨hentries, hevicts, hcap, honEvict⟩ := hes.insertLocked hk v
  exact ⟨⟨hentries, hcap, honEvict⟩, hevicts⟩

theorem lookup_eq_none (h : Refines cap onEvict l entries) {k : κ} (hk : l.m.get k = none) :
    lookup entries k = none := by
  obtain ⟨⟨es, hes, rfl⟩, -, -⟩ := h
  exact hes.lookup_of_none hk

omit [DecidableEq κ] in
theorem nodup (h : Refines cap onEvict l entries) : (entries.map Prod.fst).Nodup := by
  obtain ⟨⟨es, hes, rfl⟩, -, -⟩ := h
  exact hes.keys

theorem count_eq (h : Refines cap onEvict l entries) : l.m.count = entries.length := by
  obtain ⟨⟨es, hes, rfl⟩, -, -⟩ := h
  rw [hes.count_eq, List.length_map]

omit [DecidableEq κ] in
theorem oldest_eq (h : Refines cap onEvict l entries) :
    l.oldest = entries.getLast?.map Prod.snd := by
  obtain ⟨⟨es, hes, rfl⟩, -, -⟩ := h
  rw [LRU.oldest, hes.tail]
  rcases List.eq_nil_or_concat es with rfl | ⟨es, ⟨a, k, v⟩, rfl⟩
  · rfl
  · rw [List.concat_eq_append] at hes ⊢
    have hcell := ((seg_append _ _ _ _ _).mp hes.seg).2.1
    rw [last_append, List.map_append, List.map_singleton, List.getLast?_concat, Option.map_some]
    show l.val a = some v
    rw [val, hcell, Option.map_some]

theorem add (h : Refines cap onEvict l entries) (k : κ) (v : α) :
    Refines cap onEvict (l.add k v).1 (Recency.step cap entries (.add k v)).1
      ∧ (l.add k v).2 = if onEvict then (Recency.step cap entries (.add k v)).2.2 else [] := by
  rw [LRU.add, Recency.step]
  cases hk : l.m.get k with
  | none =>
    rw [h.lookup_eq_none hk]
    exact h.insertLocked hk v
  | some e =>
    obtain ⟨⟨es, hes, rfl⟩, rfl, rfl⟩ := h
    obtain ⟨xs, ys, w, rfl, hlookup, hwithout⟩ := hes.exists_of_get hk
    have hfront := (hes.setVal v).moveToFrontLocked
    rw [hlookup]
    dsimp only
    rw [touch, hwithout, ite_self]
    exact ⟨⟨⟨_, hfront, rfl⟩, ((l.setVal e v).moveToFrontLocked_rest e).2.2⟩, rfl⟩

theorem getOrAdd_of_some (h : Refines cap onEvict l entries) {k : κ} {w : α}
    (hk : lookup entries k = some w) (v : α) :
    Refines cap onEvict (l.getOrAdd k v).1 (touch entries k w)
      ∧ (l.getOrAdd k v).2 = ((w, true), []) := by
  rw [LRU.getOrAdd]
  cases hm : l.m.get k with
  | none =>
    rw [h.lookup_eq_none hm] at hk
    cases hk
  | some e =>
    obtain ⟨⟨es, hes, rfl⟩, rfl, rfl⟩ := h
    obtain ⟨xs, ys, w', rfl, hlookup, hwithout⟩ := hes.exists_of_get hm
    cases hk.symm.trans hlookup
    have hfront := hes.moveToFrontLocked
    dsimp only
    rw [hfront.val_eq, touch, hwithout]
    exact ⟨⟨⟨_, hfront, rfl⟩, (l.moveToFrontLocked_rest e).2.2⟩, rfl⟩

theorem getOrAdd_of_none (h : Refines cap onEvict l entries) {k : κ}
    (hk : lookup entries k = none) (v : α) :
    Refines cap onEvict (l.getOrAdd k v).1 (insert cap entries k v).1
      ∧ (l.getOrAdd k v).2
        = ((v, false), if onEvict then (insert cap entries k v).2 else []) := by
  rw [LRU.getOrAdd]
  cases hm : l.m.get k with
  | none =>
    obtain ⟨hafter, hout⟩ := h.insertLocked hm v
    exact ⟨hafter, by rw [hout]⟩
  | some e =>
    obtain ⟨⟨es, hes, rfl⟩, -, -⟩ := h
    obtain ⟨xs, ys, w, rfl, hlookup, -⟩ := hes.exists_of_get hm
    rw [hk] at hlookup
    cases hlookup

theorem delete (h : Refines cap onEvict l entries) (k : κ) :
    Refines cap onEvict (l.delete k).1 (without entries k)
      ∧ (l.delete k).2 = ((lookup entries k).isSome,
        if onEvict then ((lookup entries k).map (fun v => (k, v))).toList else []) := by
  rw [LRU.delete]
  cases hk : l.m.get k with
  | none =>
    have hnone := h.lookup_eq_none hk
    rw [hnone, without_of_notMem (lookup_eq_none_iff.mp hnone), Option.map_none,
      Option.toList_none, ite_self]
    exact ⟨h, rfl⟩
  | some e =>
    obtain ⟨⟨es, hes, rfl⟩, rfl, rfl⟩ := h
    obtain ⟨xs, ys, v, rfl, hlookup, hwithout⟩ := hes.exists_of_get hk
    have hval : l.val e = some v := by
      rw [val, ((seg_append _ _ _ _ _).mp hes.seg).2.1, Option.map_some]
    rw [hlookup, hwithout]
    dsimp only
    rw [hval]
    exact ⟨⟨⟨_, hes.removeLocked, rfl⟩, (l.removeLocked_rest e).2.2⟩, rfl⟩

theorem step (h : Refines cap onEvict l entries) (op : Op κ α) :
    Refines cap onEvict (l.step op).1 (Recency.step cap entries op).1
      ∧ (l.step op).2 = ((Recency.step cap entries op).2.1,
          if onEvict then (Recency.step cap entries op).2.2 else []) := by
  cases op with
  | get k =>
    obtain ⟨hval, hafter⟩ := h.get k
    rw [LRU.step, Recency.step, hval]
    cases hk : lookup entries k with
    | none =>
      rw [hk] at hafter
      exact ⟨hafter, by rw [ite_self]⟩
    | some v =>
      rw [hk] at hafter
      exact ⟨hafter, by rw [ite_self]⟩
  | add k v =>
    obtain ⟨hafter, hout⟩ := h.add k v
    rw [LRU.step, hout]
    refine ⟨hafter, Prod.ext ?_ rfl⟩
    rw [Recency.step]
    cases lookup entries k with
    | none => rfl
    | some w => rfl
  | getOrAdd k v =>
    rw [LRU.step, Recency.step]
    cases hk : lookup entries k with
    | none =>
      obtain ⟨hafter, hout⟩ := h.getOrAdd_of_none hk v
      exact ⟨hafter, by rw [hout]⟩
    | some w =>
      obtain ⟨hafter, hout⟩ := h.getOrAdd_of_some hk v
      exact ⟨hafter, by rw [hout, ite_self]⟩
  | delete k =>
    obtain ⟨hafter, hout⟩ := h.delete k
    rw [LRU.step, Recency.step, hout]
    cases hk : lookup entries k with
    | none =>
      rw [without_of_notMem (lookup_eq_none_iff.mp hk)] at hafter
      exact ⟨hafter, rfl⟩
    | some v => exact ⟨hafter, rfl⟩

end Refines

omit [DecidableEq κ] in
theorem refines_newLRU (capacity : ℤ) (onEvict : Bool) :
    Refines (newLRU capacity onEvict : LRU κ α).cap onEvict
      (newLRU capacity onEvict : LRU κ α) [] := by
  refine ⟨⟨[], ⟨⟨List.nodup_nil, rfl, rfl, trivial⟩, List.nodup_nil, fun k a => ?_, ?_⟩, rfl⟩,
    rfl, rfl⟩
  · exact ⟨fun h => (by cases h), fun h => (by cases h)⟩
  · exact fun a ha => (by cases ha)

/-- **The cache is the list it is meant to be**, for every capacity and after any calls:
answers, calls of `onEvict`, entries and links. -/
theorem lru_refines (capacity : ℤ) (onEvict : Bool) (ops : List (Op κ α)) :
    (answers LRU.step (newLRU capacity onEvict) ops).2
        = (answers (Recency.step (max 1 capacity).toNat) [] ops).2.map
          (fun out => (out.1, if onEvict then out.2 else []))
      ∧ (∃ es, Holds (answers LRU.step (newLRU capacity onEvict) ops).1 es
        ∧ es.map Prod.snd = (answers (Recency.step (max 1 capacity).toNat) [] ops).1)
      ∧ Ordered (max 1 capacity).toNat ops
        (answers (Recency.step (max 1 capacity).toNat) [] ops).1 := by
  have hcap : (newLRU capacity onEvict : LRU κ α).cap = (max 1 capacity).toNat := by
    show (if capacity < 1 then 1 else capacity.toNat) = (max 1 capacity).toNat
    split
    · rw [max_eq_left (by omega)]
      rfl
    · rw [max_eq_right (by omega)]
  have hstart : Refines (max 1 capacity).toNat onEvict (newLRU capacity onEvict : LRU κ α) [] :=
    hcap ▸ refines_newLRU capacity onEvict
  obtain ⟨hend, houts⟩ := answers_simulation LRU.step (Recency.step (max 1 capacity).toNat)
    (fun out => (out.1, if onEvict then out.2 else [])) (fun _ _ op hR => hR.step op) hstart ops
  exact ⟨houts, hend.1, ordered_answers _ ops⟩

end

end LRU

end Cache
