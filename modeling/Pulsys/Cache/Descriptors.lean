import Pulsys.Base.Bytes
import Pulsys.Cache.LRU

/-!
# How many body files are open

A handle that is pushed out of `bodyHandles` is to be closed by whoever gives back its last
reference. Every handle that is out and not borrowed has been closed once exactly if none
was pushed out while nobody had borrowed it (`no_leak_iff_borrowed`).
-/

namespace Cache

open Bytes Recency Runs

structure BodyFile where
  refs : ℤ := 1
  evicted : Bool := false
  closes : ℕ := 0
  deriving DecidableEq

structure Descriptors where
  bodyHandles : LRU Bytes ℕ
  files : ℕ → BodyFile := fun _ => {}
  next : ℕ := 0
  borrows : Directory ℕ ℕ := .empty

inductive DescriptorEvent
  | acquireBody (i : ℕ) (key : Bytes) (opens : Bool)
  | close (i : ℕ)
  | delete (key : Bytes)

def markEvicted (files : ℕ → BodyFile) (h : ℕ) : ℕ → BodyFile :=
  Function.update files h { files h with evicted := true }

def evictBodyHandle (files : ℕ → BodyFile) (out : List (Bytes × ℕ)) : ℕ → BodyFile :=
  out.foldl (fun files e => markEvicted files e.2) files

namespace Descriptors

def start (capacity : ℤ) : Descriptors := { bodyHandles := newLRU capacity true }

def lend (s : Descriptors) (i h : ℕ) (bodyHandles : LRU Bytes ℕ) : Descriptors :=
  { s with
    bodyHandles
    files := Function.update s.files h { s.files h with refs := (s.files h).refs + 1 }
    borrows := s.borrows.write i h }

def publish (s : Descriptors) (i : ℕ) (bodyHandles : LRU Bytes ℕ) (out : List (Bytes × ℕ)) :
    Descriptors :=
  { bodyHandles
    files := evictBodyHandle (Function.update s.files s.next {}) out
    next := s.next + 1
    borrows := s.borrows.write i s.next }

def openBody (s : Descriptors) (i : ℕ) (key : Bytes) (opens : Bool) : Option Descriptors :=
  if opens then
    let added := s.bodyHandles.getOrAdd key s.next
    -- another was there: the own file is closed again
    if added.2.1.2 then
      if (s.files added.2.1.1).evicted then none else some (s.lend i added.2.1.1 added.1)
    else some (s.publish i added.1 added.2.2)
  else some s

def acquireBody (s : Descriptors) (i : ℕ) (key : Bytes) (opens : Bool) : Option Descriptors :=
  let found := s.bodyHandles.get key
  match found.2 with
  | some h =>
    if (s.files h).evicted then { s with bodyHandles := found.1 }.openBody i key opens
    else some (s.lend i h found.1)
  | none => { s with bodyHandles := found.1 }.openBody i key opens

def released (f : BodyFile) : BodyFile :=
  { f with
    refs := f.refs - 1
    closes := if f.refs - 1 = 0 ∧ f.evicted = true then f.closes + 1 else f.closes }

def step (s : Descriptors) : DescriptorEvent → Option Descriptors
  | .acquireBody i key opens =>
    if (s.borrows.get i).isSome then none else s.acquireBody i key opens
  | .close i =>
    match s.borrows.get i with
    | none => none
    | some h => some { s with
        files := Function.update s.files h (released (s.files h))
        borrows := s.borrows.remove i }
  | .delete key => some { s with
      bodyHandles := (s.bodyHandles.delete key).1
      files := evictBodyHandle s.files (s.bodyHandles.delete key).2.2 }

def openFiles (s : Descriptors) : ℕ :=
  ((Finset.range s.next).filter (fun h => (s.files h).closes = 0)).card

structure NoLeak (s : Descriptors) : Prop where
  closed : ∀ h < s.next, (∀ key, (s.bodyHandles.get key).2 ≠ some h) →
    (∀ i, s.borrows.get i ≠ some h) → (s.files h).closes = 1
  bounded : (s.openFiles : ℤ) ≤ s.bodyHandles.cap + s.borrows.count

def Borrowed (s : Descriptors) (h : ℕ) : Prop := ∃ i ∈ s.borrows.names, s.borrows.get i = some h

def EvictsBorrowed (s : Descriptors) : DescriptorEvent → Prop
  | .acquireBody _ key opens =>
    (s.bodyHandles.get key).2 = none → opens = true →
      (s.bodyHandles.cap : ℤ) ≤ s.bodyHandles.m.count → ∀ h ∈ s.bodyHandles.oldest, s.Borrowed h
  | .close _ => True
  | .delete key => ∀ h ∈ (s.bodyHandles.get key).2, s.Borrowed h

instance (s : Descriptors) (h : ℕ) : Decidable (s.Borrowed h) := by
  unfold Borrowed
  infer_instance

instance (s : Descriptors) : DecidablePred s.EvictsBorrowed := fun e => by
  cases e <;> unfold EvictsBorrowed <;> infer_instance

def borrowers (borrows : Directory ℕ ℕ) (h : ℕ) : ℤ :=
  borrows.sum (fun h' => if h' = h then 1 else 0)

theorem borrowers_eq_zero_iff {borrows : Directory ℕ ℕ} {h : ℕ} :
    borrowers borrows h = 0 ↔ ∀ i, borrows.get i ≠ some h := by
  constructor
  · intro hzero i hi
    have hle := @Directory.le_sum _ _ _ borrows (fun h' => if h' = h then 1 else 0)
      (fun _ h' _ => by split <;> omega) i h hi
    rw [if_pos rfl] at hle
    rw [borrowers] at hzero
    omega
  · intro hnone
    refine Finset.sum_eq_zero (fun i _ => ?_)
    cases hi : borrows.get i with
    | none => rfl
    | some h' =>
      refine if_neg ?_
      rintro rfl
      exact hnone i hi

theorem borrowers_write {borrows : Directory ℕ ℕ} {i : ℕ} (hfree : borrows.get i = none)
    (h h' : ℕ) :
    borrowers (borrows.write i h) h' = borrowers borrows h' + if h = h' then 1 else 0 := by
  rw [borrowers, Directory.sum_write, hfree]
  show _ + ((if h = h' then (1 : ℤ) else 0) - 0) = _
  rw [sub_zero]
  rfl

theorem borrowers_remove {borrows : Directory ℕ ℕ} {i h : ℕ} (hi : borrows.get i = some h)
    (h' : ℕ) : borrowers (borrows.remove i) h' = borrowers borrows h' - if h = h' then 1 else 0 := by
  rw [borrowers, Directory.sum_remove, hi]
  rfl

structure Accounts (files : ℕ → BodyFile) (next : ℕ) (borrows : Directory ℕ ℕ)
    (entries : List (Bytes × ℕ)) : Prop where
  handles : (entries.map Prod.snd).Nodup
  known : ∀ h ∈ entries.map Prod.snd, h < next
  listed : ∀ h < next, (files h).evicted = false ↔ h ∈ entries.map Prod.snd
  refs : ∀ h < next, (files h).refs = borrowers borrows h
  lent : ∀ i h, borrows.get i = some h → h < next
  closes : ∀ h < next, (files h).closes = 0
    ∨ (files h).closes = 1 ∧ (files h).evicted = true ∧ (files h).refs = 0

def Tidy (files : ℕ → BodyFile) (next : ℕ) : Prop :=
  ∀ h < next, (files h).evicted = true → (files h).refs = 0 → (files h).closes = 1

namespace Accounts

variable {files : ℕ → BodyFile} {next : ℕ} {borrows : Directory ℕ ℕ} {entries : List (Bytes × ℕ)}

theorem perm (acc : Accounts files next borrows entries) {entries' : List (Bytes × ℕ)}
    (hperm : entries'.Perm entries) : Accounts files next borrows entries' := by
  have hmem : ∀ h, h ∈ entries'.map Prod.snd ↔ h ∈ entries.map Prod.snd :=
    fun h => (hperm.map Prod.snd).mem_iff
  refine ⟨(hperm.map Prod.snd).nodup_iff.mpr acc.handles, fun h hh => acc.known h ((hmem h).mp hh),
    fun h hh => (acc.listed h hh).trans (hmem h).symm, acc.refs, acc.lent, acc.closes⟩

theorem update (acc : Accounts files next borrows entries) {h : ℕ} {f : BodyFile}
    {borrows' : Directory ℕ ℕ} {entries' : List (Bytes × ℕ)}
    (hsub : (entries'.map Prod.snd).Sublist (entries.map Prod.snd))
    (hother : ∀ j ≠ h, j ∈ entries.map Prod.snd → j ∈ entries'.map Prod.snd)
    (hborrowers : ∀ j ≠ h, borrowers borrows' j = borrowers borrows j)
    (hlent : ∀ i k, borrows'.get i = some k → k < next)
    (hlisted : f.evicted = false ↔ h ∈ entries'.map Prod.snd)
    (hrefs : f.refs = borrowers borrows' h)
    (hcloses : f.closes = 0 ∨ f.closes = 1 ∧ f.evicted = true ∧ f.refs = 0) :
    Accounts (Function.update files h f) next borrows' entries' := by
  refine ⟨acc.handles.sublist hsub, fun j hj => acc.known j (hsub.subset hj), fun j hj => ?_,
    fun j hj => ?_, hlent, fun j hj => ?_⟩
  · by_cases heq : j = h
    · rw [heq, Function.update_self]
      exact hlisted
    · rw [Function.update_of_ne heq, acc.listed j hj]
      exact ⟨hother j heq, fun hmem => hsub.subset hmem⟩
  · by_cases heq : j = h
    · rw [heq, Function.update_self]
      exact hrefs
    · rw [Function.update_of_ne heq, hborrowers j heq]
      exact acc.refs j hj
  · by_cases heq : j = h
    · rw [heq, Function.update_self]
      exact hcloses
    · rw [Function.update_of_ne heq]
      exact acc.closes j hj

end Accounts

theorem tidy_update {files : ℕ → BodyFile} {next h : ℕ} (htidy : Tidy files next) (hh : h < next)
    (f : BodyFile) :
    Tidy (Function.update files h f) next
      ↔ (f.evicted = true → f.refs = 0 → f.closes = 1) := by
  constructor
  · intro hall
    have hself := hall h hh
    rwa [Function.update_self] at hself
  · intro hself j hj
    by_cases heq : j = h
    · rw [heq, Function.update_self]
      exact hself
    · rw [Function.update_of_ne heq]
      exact htidy j hj

namespace Accounts

variable {files : ℕ → BodyFile} {next : ℕ} {borrows : Directory ℕ ℕ} {entries : List (Bytes × ℕ)}

theorem lend (acc : Accounts files next borrows entries) (htidy : Tidy files next) {i h : ℕ}
    (hfree : borrows.get i = none) (hh : h ∈ entries.map Prod.snd) :
    Accounts (Function.update files h { files h with refs := (files h).refs + 1 }) next
        (borrows.write i h) entries
      ∧ Tidy (Function.update files h { files h with refs := (files h).refs + 1 }) next := by
  have hlt := acc.known h hh
  have hunmarked := (acc.listed h hlt).mpr hh
  constructor
  · refine acc.update (List.Sublist.refl _) (fun _ _ hj => hj) (fun j hj => ?_) (fun j k hk => ?_)
      (acc.listed h hlt) ?_ ?_
    · rw [borrowers_write hfree, if_neg (Ne.symm hj), add_zero]
    · rcases Directory.get_write_eq_some hk with ⟨-, rfl⟩ | ⟨-, hk⟩
      · exact hlt
      · exact acc.lent j k hk
    · rw [borrowers_write hfree, if_pos rfl, ← acc.refs h hlt]
    · -- a file that was closed is that of a marked handle
      refine (acc.closes h hlt).imp_right (fun hclosed => ?_)
      rw [hclosed.2.1] at hunmarked
      cases hunmarked
  · refine (tidy_update htidy hlt _).mpr (fun hmarked => ?_)
    rw [hunmarked] at hmarked
    cases hmarked

theorem giveBack (acc : Accounts files next borrows entries) (htidy : Tidy files next) {i h : ℕ}
    (hi : borrows.get i = some h) :
    Accounts (Function.update files h (released (files h))) next (borrows.remove i) entries
      ∧ Tidy (Function.update files h (released (files h))) next := by
  have hlt := acc.lent i h hi
  have hrefs := acc.refs h hlt
  have hborrowed : (files h).refs ≠ 0 := by
    rw [hrefs]
    exact fun hzero => borrowers_eq_zero_iff.mp hzero i hi
  -- the file is still open
  have hopen : (files h).closes = 0 :=
    (acc.closes h hlt).resolve_right (fun hclosed => hborrowed hclosed.2.2)
  constructor
  · refine acc.update (List.Sublist.refl _) (fun _ _ hj => hj) (fun j hj => ?_) (fun j k hk => ?_)
      (acc.listed h hlt) ?_ ?_
    · rw [borrowers_remove hi, if_neg (Ne.symm hj), sub_zero]
    · by_cases hj : j = i
      · rw [hj, Directory.get_remove] at hk
        cases hk
      · rw [Directory.get_remove_of_ne _ hj] at hk
        exact acc.lent j k hk
    · rw [borrowers_remove hi, if_pos rfl, ← hrefs]
      rfl
    · by_cases hlast : (files h).refs - 1 = 0 ∧ (files h).evicted = true
      · refine .inr ⟨?_, hlast.2, hlast.1⟩
        rw [released, if_pos hlast, hopen]
      · refine .inl ?_
        rw [released, if_neg hlast]
        exact hopen
  · refine (tidy_update htidy hlt _).mpr (fun hmarked hzero => ?_)
    rw [released, if_pos ⟨hzero, hmarked⟩, hopen]

theorem markEvicted (acc : Accounts files next borrows entries) (htidy : Tidy files next)
    {xs ys : List (Bytes × ℕ)} {key : Bytes} {h : ℕ} (hentries : entries = xs ++ (key, h) :: ys) :
    Accounts (markEvicted files h) next borrows (xs ++ ys)
      ∧ (Tidy (Cache.markEvicted files h) next ↔ borrowers borrows h ≠ 0) := by
  subst hentries
  have hh : h ∈ (xs ++ (key, h) :: ys).map Prod.snd := by simp
  have hlt := acc.known h hh
  have hrefs := acc.refs h hlt
  have hopen : (files h).closes = 0 := by
    refine (acc.closes h hlt).resolve_right (fun hclosed => ?_)
    rw [(acc.listed h hlt).mpr hh] at hclosed
    cases hclosed.2.1
  have hnodup := acc.handles
  rw [List.map_append, List.map_cons, List.nodup_middle, ← List.map_append] at hnodup
  constructor
  · refine acc.update ?_ (fun j hj hmem => ?_) (fun _ _ => rfl) acc.lent ?_ hrefs (.inl hopen)
    · exact (List.Sublist.append_left (List.sublist_cons_self _ _) _).map _
    · simp only [List.map_append, List.mem_append, List.map_cons, List.mem_cons] at hmem ⊢
      exact hmem.imp_right (fun hcons => hcons.resolve_left hj)
    · exact ⟨fun hfalse => (by cases hfalse), fun hmem => absurd hmem (List.nodup_cons.mp hnodup).1⟩
  · rw [Cache.markEvicted, tidy_update htidy hlt, ← hrefs, hopen]
    simp

theorem publish (acc : Accounts files next borrows entries) (htidy : Tidy files next) {i : ℕ}
    (hfree : borrows.get i = none) (key : Bytes) :
    Accounts (Function.update files next {}) (next + 1) (borrows.write i next)
        ((key, next) :: entries)
      ∧ Tidy (Function.update files next {}) (next + 1) := by
  have hnew : next ∉ entries.map Prod.snd := fun hmem => lt_irrefl _ (acc.known _ hmem)
  have hzero : borrowers borrows next = 0 :=
    borrowers_eq_zero_iff.mpr (fun j hj => lt_irrefl _ (acc.lent j next hj))
  have hold : ∀ j, j < next + 1 → j ≠ next → j < next := fun j hj hne => by omega
  refine ⟨⟨List.nodup_cons.mpr ⟨hnew, acc.handles⟩, fun j hj => ?_, fun j hj => ?_,
    fun j hj => ?_, fun j k hk => ?_, fun j hj => ?_⟩, fun j hj hmarked hunborrowed => ?_⟩
  · rcases List.mem_cons.mp hj with rfl | hj
    · exact Nat.lt_succ_self _
    · exact Nat.lt_succ_of_lt (acc.known j hj)
  · rw [List.map_cons, List.mem_cons]
    by_cases heq : j = next
    · rw [heq, Function.update_self]
      exact ⟨fun _ => .inl rfl, fun _ => rfl⟩
    · rw [Function.update_of_ne heq, acc.listed j (hold j hj heq)]
      exact ⟨.inr, fun hmem => hmem.resolve_left heq⟩
  · rw [borrowers_write hfree]
    by_cases heq : j = next
    · rw [heq, Function.update_self, if_pos rfl, hzero]
      rfl
    · rw [Function.update_of_ne heq, if_neg (Ne.symm heq), add_zero]
      exact acc.refs j (hold j hj heq)
  · rcases Directory.get_write_eq_some hk with ⟨-, rfl⟩ | ⟨-, hk⟩
    · exact Nat.lt_succ_self _
    · exact Nat.lt_succ_of_lt (acc.lent j k hk)
  · by_cases heq : j = next
    · rw [heq, Function.update_self]
      exact .inl rfl
    · rw [Function.update_of_ne heq]
      exact acc.closes j (hold j hj heq)
  · by_cases heq : j = next
    · rw [heq, Function.update_self] at hmarked
      cases hmarked
    · rw [Function.update_of_ne heq] at hmarked hunborrowed ⊢
      exact htidy j (hold j hj heq) hmarked hunborrowed

end Accounts

theorem borrowed_iff {s : Descriptors} {h : ℕ} : s.Borrowed h ↔ borrowers s.borrows h ≠ 0 := by
  rw [Ne, borrowers_eq_zero_iff, not_forall]
  constructor
  · rintro ⟨i, -, hi⟩
    exact ⟨i, not_not.mpr hi⟩
  · rintro ⟨i, hi⟩
    refine ⟨i, (s.borrows.mem_names i).mpr ?_, not_not.mp hi⟩
    rw [not_not.mp hi]
    rfl

structure Sound (cap : ℕ) (s : Descriptors) (entries : List (Bytes × ℕ)) : Prop where
  refines : LRU.Refines cap true s.bodyHandles entries
  accounts : Accounts s.files s.next s.borrows entries
  room : entries.length ≤ cap

namespace Sound

variable {cap : ℕ} {s : Descriptors} {entries : List (Bytes × ℕ)}

theorem get_ne_iff (h : Sound cap s entries) {hd : ℕ} :
    (∀ key, (s.bodyHandles.get key).2 ≠ some hd) ↔ hd ∉ entries.map Prod.snd := by
  constructor
  · intro hnone hmem
    obtain ⟨⟨key, _⟩, hentry, rfl⟩ := List.mem_map.mp hmem
    obtain ⟨xs, ys, rfl⟩ := List.append_of_mem hentry
    have hkeys := h.refines.nodup
    rw [List.map_append, List.nodup_append] at hkeys
    refine hnone key ((h.refines.get key).1.trans (lookup_append (fun hxs => ?_)))
    exact hkeys.2.2 key hxs key List.mem_cons_self rfl
  · intro hnot key hget
    rw [(h.refines.get key).1] at hget
    obtain ⟨xs, ys, rfl, -⟩ := exists_of_lookup hget
    simp at hnot

theorem openFiles_le (h : Sound cap s entries) (htidy : Tidy s.files s.next) :
    (s.openFiles : ℤ) ≤ cap + s.borrows.count := by
  have hsub : (Finset.range s.next).filter (fun hd => (s.files hd).closes = 0)
      ⊆ (entries.map Prod.snd).toFinset
        ∪ s.borrows.names.image (fun i => (s.borrows.get i).getD 0) := by
    intro hd hmem
    obtain ⟨hlt, hopen⟩ := Finset.mem_filter.mp hmem
    rw [Finset.mem_range] at hlt
    rw [Finset.mem_union, List.mem_toFinset, Finset.mem_image]
    cases hmarked : (s.files hd).evicted with
    | false => exact .inl ((h.accounts.listed hd hlt).mp hmarked)
    | true =>
      have hrefs : (s.files hd).refs ≠ 0 := by
        intro hzero
        rw [htidy hd hlt hmarked hzero] at hopen
        cases hopen
      rw [h.accounts.refs hd hlt] at hrefs
      obtain ⟨i, hi, hget⟩ := borrowed_iff.mpr hrefs
      exact .inr ⟨i, hi, by rw [hget, Option.getD_some]⟩
  have hcard : s.openFiles ≤ cap + s.borrows.names.card := by
    calc s.openFiles
        ≤ ((entries.map Prod.snd).toFinset
            ∪ s.borrows.names.image (fun i => (s.borrows.get i).getD 0)).card :=
          Finset.card_le_card hsub
      _ ≤ (entries.map Prod.snd).toFinset.card
            + (s.borrows.names.image (fun i => (s.borrows.get i).getD 0)).card :=
          Finset.card_union_le _ _
      _ ≤ cap + s.borrows.names.card := by
          refine Nat.add_le_add ?_ Finset.card_image_le
          refine (List.toFinset_card_le _).trans ?_
          rw [List.length_map]
          exact h.room
  rw [Directory.count]
  exact_mod_cast hcard

theorem noLeak_iff (h : Sound cap s entries) : s.NoLeak ↔ Tidy s.files s.next := by
  constructor
  · intro hno hd hlt hmarked hzero
    refine hno.closed hd hlt (h.get_ne_iff.mpr (fun hmem => ?_)) (borrowers_eq_zero_iff.mp ?_)
    · rw [(h.accounts.listed hd hlt).mpr hmem] at hmarked
      cases hmarked
    · rw [← h.accounts.refs hd hlt]
      exact hzero
  · intro htidy
    refine ⟨fun hd hlt hget hfree => htidy hd hlt ?_ ?_, ?_⟩
    · refine Bool.eq_true_of_not_eq_false (fun hunmarked => ?_)
      exact h.get_ne_iff.mp hget ((h.accounts.listed hd hlt).mp hunmarked)
    · rw [h.accounts.refs hd hlt]
      exact borrowers_eq_zero_iff.mpr hfree
    · rw [h.refines.2.1]
      exact h.openFiles_le htidy

theorem lend (h : Sound cap s entries) (htidy : Tidy s.files s.next) {i : ℕ} {key : Bytes} {hd : ℕ}
    (hfree : s.borrows.get i = none) (hkey : lookup entries key = some hd) :
    Sound cap (s.lend i hd (s.bodyHandles.get key).1) (touch entries key hd)
      ∧ Tidy (s.lend i hd (s.bodyHandles.get key).1).files
        (s.lend i hd (s.bodyHandles.get key).1).next := by
  have hrefines := (h.refines.get key).2
  rw [hkey, Option.elim_some] at hrefines
  obtain ⟨xs, ys, rfl, -⟩ := exists_of_lookup hkey
  have hperm : (touch (xs ++ (key, hd) :: ys) key hd).Perm (xs ++ (key, hd) :: ys) := by
    rw [touch, without_append h.refines.nodup]
    exact List.perm_middle.symm
  obtain ⟨hacc, htidy'⟩ := h.accounts.lend htidy hfree
    (show hd ∈ (xs ++ (key, hd) :: ys).map Prod.snd by simp)
  exact ⟨⟨hrefines, hacc.perm hperm, hperm.length_eq.le.trans h.room⟩, htidy'⟩

theorem publish (h : Sound cap s entries) (hcap : 1 ≤ cap) (htidy : Tidy s.files s.next) {i : ℕ}
    {key : Bytes} (hfree : s.borrows.get i = none) {lru : LRU Bytes ℕ}
    (hlru : LRU.Refines cap true lru (insert cap entries key s.next).1) :
    Sound cap (s.publish i lru (insert cap entries key s.next).2)
        (insert cap entries key s.next).1
      ∧ (Tidy (s.publish i lru (insert cap entries key s.next).2).files (s.next + 1)
        ↔ (cap ≤ entries.length → ∀ hd ∈ entries.getLast?.map Prod.snd, s.Borrowed hd)) := by
  obtain ⟨hacc, htidy'⟩ := h.accounts.publish htidy hfree key
  have hroom := h.room
  by_cases hfull : cap ≤ entries.length
  · -- the last entry is an old one
    obtain ⟨ws, ⟨key', hd⟩, rfl⟩ : ∃ ws w, entries = ws ++ [w] := by
      rcases List.eq_nil_or_concat entries with rfl | ⟨ws, w, rfl⟩
      · rw [List.length_nil] at hfull
        omega
      · exact ⟨ws, w, List.concat_eq_append⟩
    have hout : insert cap (ws ++ [(key', hd)]) key s.next
        = ((key, s.next) :: ws, [(key', hd)]) := by
      rw [Recency.insert, if_pos (by rw [List.length_cons]; omega), ← List.cons_append,
        List.dropLast_concat, List.getLast?_concat]
      rfl
    rw [hout] at hlru ⊢
    obtain ⟨hacc', htidy''⟩ := @Accounts.markEvicted _ _ _ _ hacc htidy' ((key, s.next) :: ws) []
      key' hd rfl
    rw [List.append_nil] at hacc'
    have hne : s.next ≠ hd := by
      rintro heq
      exact absurd (h.accounts.known hd (by simp)) (heq ▸ lt_irrefl _)
    refine ⟨⟨hlru, hacc', ?_⟩, ?_⟩
    · rw [List.length_append, List.length_singleton] at hroom
      rw [List.length_cons]
      omega
    · show Tidy (Cache.markEvicted (Function.update s.files s.next {}) hd) (s.next + 1) ↔ _
      rw [htidy'', borrowers_write hfree, if_neg hne, add_zero, ← borrowed_iff,
        List.getLast?_concat, Option.map_some]
      refine ⟨fun hborrowed _ hd' hmem => ?_, fun hall => hall hfull hd rfl⟩
      cases hmem
      exact hborrowed
  · have hout : insert cap entries key s.next = ((key, s.next) :: entries, []) := by
      rw [Recency.insert, if_neg (by rw [List.length_cons]; omega)]
    rw [hout] at hlru ⊢
    refine ⟨⟨hlru, hacc, ?_⟩, ?_⟩
    · rw [List.length_cons]
      omega
    · exact ⟨fun _ hle => absurd hle hfull, fun _ => htidy'⟩

theorem delete (h : Sound cap s entries) (htidy : Tidy s.files s.next) (key : Bytes) :
    Sound cap { s with
        bodyHandles := (s.bodyHandles.delete key).1
        files := evictBodyHandle s.files (s.bodyHandles.delete key).2.2 } (without entries key)
      ∧ (Tidy (evictBodyHandle s.files (s.bodyHandles.delete key).2.2) s.next
        ↔ ∀ hd ∈ lookup entries key, s.Borrowed hd) := by
  obtain ⟨hrefines, hout⟩ := h.refines.delete key
  rw [hout]
  cases hkey : lookup entries key with
  | none =>
    have hsame := without_of_notMem (lookup_eq_none_iff.mp hkey)
    refine ⟨⟨hrefines, hsame.symm ▸ h.accounts, hsame.symm ▸ h.room⟩, ?_⟩
    exact ⟨fun _ _ hhd => (by cases hhd), fun _ => htidy⟩
  | some hd =>
    obtain ⟨xs, ys, rfl, -⟩ := exists_of_lookup hkey
    have hwithout := without_append h.refines.nodup
    obtain ⟨hacc, htidy'⟩ := h.accounts.markEvicted htidy rfl
    refine ⟨⟨hrefines, hwithout.symm ▸ hacc, ?_⟩, ?_⟩
    · have hroom := h.room
      rw [List.length_append, List.length_cons] at hroom
      rw [hwithout, List.length_append]
      omega
    · show Tidy (Cache.markEvicted s.files hd) s.next ↔ _
      rw [htidy', ← borrowed_iff]
      refine ⟨fun hborrowed hd' hmem => ?_, fun hall => hall hd rfl⟩
      cases hmem
      exact hborrowed

theorem acquireBody (h : Sound cap s entries) (hcap : 1 ≤ cap) (htidy : Tidy s.files s.next)
    {i : ℕ} {key : Bytes} {opens : Bool} {s' : Descriptors} (hfree : s.borrows.get i = none)
    (hs : s.acquireBody i key opens = some s') :
    (∃ entries', Sound cap s' entries')
      ∧ (Tidy s'.files s'.next ↔ s.EvictsBorrowed (.acquireBody i key opens)) := by
  obtain ⟨hget, hrefines⟩ := h.refines.get key
  rw [EvictsBorrowed, h.refines.2.1, h.refines.count_eq, h.refines.oldest_eq, hget, Nat.cast_le]
  rw [Descriptors.acquireBody, hget] at hs
  cases hkey : lookup entries key with
  | some hd =>
    -- the cache has only handles that are not marked
    have hunmarked : (s.files hd).evicted = false := by
      obtain ⟨xs, ys, rfl, -⟩ := exists_of_lookup hkey
      have hmem : hd ∈ (xs ++ (key, hd) :: ys).map Prod.snd := by simp
      exact (h.accounts.listed hd (h.accounts.known hd hmem)).mpr hmem
    rw [hkey] at hs
    dsimp only at hs
    rw [if_neg (by rw [hunmarked]; exact Bool.false_ne_true)] at hs
    cases hs
    obtain ⟨hsound, htidy'⟩ := h.lend htidy hfree hkey
    exact ⟨⟨_, hsound⟩, fun _ hnone => (by cases hnone), fun _ => htidy'⟩
  | none =>
    rw [hkey] at hs hrefines
    dsimp only at hs
    have hmissed : Sound cap { s with bodyHandles := (s.bodyHandles.get key).1 } entries :=
      ⟨hrefines, h.accounts, h.room⟩
    cases opens with
    | false =>
      cases hs
      exact ⟨⟨_, hmissed⟩, fun _ _ hopens => (by cases hopens), fun _ => htidy⟩
    | true =>
      obtain ⟨hlru, hadded⟩ := hrefines.getOrAdd_of_none hkey s.next
      rw [openBody, if_pos rfl] at hs
      dsimp only at hs
      rw [hadded] at hs
      cases hs
      obtain ⟨hsound, htidy'⟩ := hmissed.publish hcap htidy hfree hlru
      refine ⟨⟨_, hsound⟩, htidy'.trans ?_⟩
      exact ⟨fun hall _ _ => hall, fun hall => hall rfl rfl⟩

theorem step (h : Sound cap s entries) (hcap : 1 ≤ cap) (htidy : Tidy s.files s.next)
    {e : DescriptorEvent} {s' : Descriptors} (hs : s.step e = some s') :
    (∃ entries', Sound cap s' entries') ∧ (Tidy s'.files s'.next ↔ s.EvictsBorrowed e) := by
  cases e with
  | acquireBody i key opens =>
    obtain ⟨hfree, hs⟩ := Option.ite_none_left_eq_some.mp hs
    exact h.acquireBody hcap htidy (Option.not_isSome_iff_eq_none.mp hfree) hs
  | close i =>
    rw [Descriptors.step] at hs
    split at hs
    · cases hs
    · next hd hi =>
      cases hs
      obtain ⟨hacc, htidy'⟩ := h.accounts.giveBack htidy hi
      exact ⟨⟨entries, h.refines, hacc, h.room⟩, fun _ => trivial, fun _ => htidy'⟩
  | delete key =>
    cases hs
    obtain ⟨hsound, htidy'⟩ := h.delete htidy key
    refine ⟨⟨_, hsound⟩, htidy'.trans ?_⟩
    rw [EvictsBorrowed, (h.refines.get key).1]

end Sound

/-- **Nothing leaks exactly if nothing is pushed out unborrowed**, in every run and for every
capacity. -/
theorem no_leak_iff_borrowed (capacity : ℤ) (es : List DescriptorEvent) {s : Descriptors}
    (hrun : run Descriptors.step (start capacity) es = some s) :
    Throughout Descriptors.step NoLeak (start capacity) es
      ↔ Meets Descriptors.step EvictsBorrowed (start capacity) es := by
  have hcap : 1 ≤ (start capacity).bodyHandles.cap := by
    show 1 ≤ if capacity < 1 then 1 else capacity.toNat
    split
    · exact le_rfl
    · omega
  have hstart : Sound (start capacity).bodyHandles.cap (start capacity) [] := by
    refine ⟨LRU.refines_newLRU capacity true, ⟨List.nodup_nil, ?_, ?_, ?_, ?_, ?_⟩, Nat.zero_le _⟩
    · exact fun h hmem => (by cases hmem)
    · exact fun h hlt => absurd hlt (Nat.not_lt_zero h)
    · exact fun h hlt => absurd hlt (Nat.not_lt_zero h)
    · exact fun i h hi => (by cases hi)
    · exact fun h hlt => absurd hlt (Nat.not_lt_zero h)
  have hstep : ∀ s e s', (∃ entries, Sound (start capacity).bodyHandles.cap s entries) → NoLeak s →
      True → s.step e = some s' → (∃ entries, Sound (start capacity).bodyHandles.cap s' entries)
        ∧ (NoLeak s' ↔ s.EvictsBorrowed e) := by
    rintro s e s' ⟨entries, hsound⟩ hno - hs
    obtain ⟨⟨entries', hsound'⟩, hiff⟩ := hsound.step hcap (hsound.noLeak_iff.mp hno) hs
    exact ⟨⟨entries', hsound'⟩, hsound'.noLeak_iff.trans hiff⟩
  have hno : NoLeak (start capacity) :=
    hstart.noLeak_iff.mpr (fun h hlt => absurd hlt (Nat.not_lt_zero h))
  exact throughout_iff_meets hstep ⟨[], hstart⟩ hno (fun _ _ => trivial) hrun

/-- Two keys and room for one handle: the first handle is pushed out while it is
borrowed, and its file is closed when it is given back. -/
theorem no_leak_pushed_out_borrowed :
    (run Descriptors.step (start 1) [.acquireBody 0 [97] true, .acquireBody 1 [98] true,
        .close 0, .close 1]).map (fun s => ((s.files 0).closes, s.openFiles)) = some (1, 1)
      ∧ Throughout Descriptors.step NoLeak (start 1) [.acquireBody 0 [97] true,
        .acquireBody 1 [98] true, .close 0, .close 1] :=
  ⟨by decide, (no_leak_iff_borrowed 1 _ rfl).mpr (by decide)⟩

/-- The same with the first borrow given back before: two files are open, where one is in the
cache. -/
theorem pushed_out_unborrowed_leaks :
    ∃ s, run Descriptors.step (start 1) [.acquireBody 0 [97] true, .close 0,
        .acquireBody 1 [98] true, .close 1] = some s
      ∧ s.openFiles = 2 ∧ s.bodyHandles.cap = 1 ∧ s.borrows.count = 0 ∧ ¬ NoLeak s := by
  refine ⟨_, rfl, by decide, by decide, by decide, fun hno => ?_⟩
  exact absurd hno.bounded (by decide)

end Descriptors

end Cache
