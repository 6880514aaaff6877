import Mathlib.Algebra.Ring.Nat
import Mathlib.Data.List.DropRight
import Mathlib.Data.List.Infix
import Mathlib.Tactic.Common

/-!
# Byte strings

Lists of bytes, with the first occurrence of a byte and of a pattern. Each search owes two
facts: what the input looks like when it succeeds, and that such an input makes it succeed
there and nowhere earlier.
-/

abbrev Bytes := List UInt8

namespace Bytes

def ascii (s : String) : Bytes := s.toList.map (fun c => c.toNat.toUInt8)

abbrev CR : UInt8 := 13

abbrev LF : UInt8 := 10

abbrev SP : UInt8 := 32

abbrev HT : UInt8 := 9

abbrev COLON : UInt8 := 58

abbrev SLASH : UInt8 := 47

abbrev QUESTION : UInt8 := 63

abbrev crlf : Bytes := [CR, LF]

def indexByte (b : Bytes) (c : UInt8) : Option ℕ := b.idxOf? c

@[simp] theorem indexByte_nil (c : UInt8) : indexByte [] c = none := rfl

theorem indexByte_cons (a c : UInt8) (b : Bytes) :
    indexByte (a :: b) c
      = if a = c then some 0 else (indexByte b c).map (· + 1) := by
  unfold indexByte
  rw [List.idxOf?_cons]
  by_cases h : a = c <;> simp [h]

theorem indexByte_append {l : Bytes} {c : UInt8} (h : c ∉ l) (r : Bytes) :
    indexByte (l ++ c :: r) c = some l.length := by
  induction l with
  | nil => simp [indexByte_cons]
  | cons a l ih =>
    rw [List.mem_cons, not_or] at h
    rw [List.cons_append, indexByte_cons, if_neg (fun e => h.1 e.symm), ih h.2]
    rfl

theorem exists_of_indexByte {b : Bytes} {c : UInt8} {i : ℕ}
    (h : indexByte b c = some i) :
    ∃ l r, b = l ++ c :: r ∧ c ∉ l ∧ l.length = i := by
  induction b generalizing i with
  | nil => simp at h
  | cons a b ih =>
    rw [indexByte_cons] at h
    split at h
    · next hac =>
      subst hac
      cases h
      exact ⟨[], b, rfl, by simp, rfl⟩
    · next hac =>
      obtain ⟨j, hj, rfl⟩ := Option.map_eq_some_iff.mp h
      obtain ⟨l, r, rfl, hl, rfl⟩ := ih hj
      refine ⟨a :: l, r, rfl, ?_, rfl⟩
      rw [List.mem_cons, not_or]
      exact ⟨fun e => hac e.symm, hl⟩

theorem indexByte_eq_none {b : Bytes} {c : UInt8} :
    indexByte b c = none ↔ c ∉ b := by
  constructor
  · intro h hc
    obtain ⟨l, r, rfl, hl⟩ := List.eq_append_cons_of_mem hc
    rw [indexByte_append hl] at h
    cases h
  · intro h
    cases hi : indexByte b c with
    | none => rfl
    | some i =>
      obtain ⟨l, r, rfl, -, -⟩ := exists_of_indexByte hi
      exact absurd (by simp) h

theorem cut_unique {l l' r r' : Bytes} {c : UInt8} (hl : c ∉ l) (hl' : c ∉ l')
    (h : l ++ c :: r = l' ++ c :: r') : l = l' ∧ r = r' := by
  have hlen : l.length = l'.length := by
    have := congrArg (indexByte · c) h
    simpa [indexByte_append hl, indexByte_append hl'] using this
  obtain ⟨rfl, hr⟩ := List.append_inj h hlen
  exact ⟨rfl, (List.cons.inj hr).2⟩

theorem cut_unique_last {l l' r r' : Bytes} {c : UInt8} (hr : c ∉ r) (hr' : c ∉ r')
    (h : l ++ c :: r = l' ++ c :: r') : l = l' ∧ r = r' := by
  have h' := congrArg List.reverse h
  simp only [List.reverse_append, List.reverse_cons, List.append_assoc, List.cons_append,
    List.nil_append] at h'
  obtain ⟨hrev, hlev⟩ := cut_unique (by simpa using hr) (by simpa using hr') h'
  exact ⟨List.reverse_injective hlev, List.reverse_injective hrev⟩

def index (pat : Bytes) : Bytes → Option ℕ
  | [] => if pat = [] then some 0 else none
  | a :: b => if pat.isPrefixOf (a :: b) then some 0
      else (index pat b).map (· + 1)

theorem index_eq_zero {pat b : Bytes} (h : pat <+: b) :
    index pat b = some 0 := by
  cases b with
  | nil => simp [index, List.prefix_nil.mp h]
  | cons a b => simp [index, List.isPrefixOf_iff_prefix.mpr h]

theorem index_cons_of_ne {pat b : Bytes} {a : UInt8}
    (h : ¬ pat <+: a :: b) :
    index pat (a :: b) = (index pat b).map (· + 1) := by
  rw [index, if_neg (fun e => h (List.isPrefixOf_iff_prefix.mp e))]

theorem exists_of_index {pat b : Bytes} {i : ℕ} (h : index pat b = some i) :
    ∃ l r, b = l ++ pat ++ r ∧ l.length = i
      ∧ ∀ j < i, ¬ pat <+: b.drop j := by
  induction b generalizing i with
  | nil =>
    rw [index] at h
    split at h
    · next hp =>
      cases h
      exact ⟨[], [], by simp [hp], rfl, by simp⟩
    · cases h
  | cons a b ih =>
    by_cases hp : pat <+: a :: b
    · rw [index_eq_zero hp] at h
      cases h
      obtain ⟨r, hr⟩ := hp
      exact ⟨[], r, by simp [hr], rfl, by simp⟩
    · rw [index_cons_of_ne hp] at h
      obtain ⟨j, hj, rfl⟩ := Option.map_eq_some_iff.mp h
      obtain ⟨l, r, hb, hl, hmin⟩ := ih hj
      refine ⟨a :: l, r, by simp [hb], by simp [hl], ?_⟩
      intro k hk
      cases k with
      | zero => simpa using hp
      | succ k =>
        rw [List.drop_succ_cons]
        exact hmin k (by omega)

theorem index_isSome {pat : Bytes} (l r : Bytes) :
    (index pat (l ++ pat ++ r)).isSome := by
  induction l with
  | nil =>
    rw [List.nil_append, index_eq_zero (List.prefix_append _ _)]
    rfl
  | cons a l ih =>
    by_cases hp : pat <+: a :: (l ++ pat ++ r)
    · rw [List.cons_append, List.cons_append, index_eq_zero hp]
      rfl
    · rw [List.cons_append, List.cons_append, index_cons_of_ne hp,
        Option.isSome_map]
      exact ih

theorem index_append_of_notMem {p : UInt8} {pat l : Bytes} (h : p ∉ l)
    (b : Bytes) :
    index (p :: pat) (l ++ b) = (index (p :: pat) b).map (· + l.length) := by
  induction l with
  | nil => simp
  | cons a l ih =>
    rw [List.mem_cons, not_or] at h
    have hp : ¬ (p :: pat) <+: a :: (l ++ b) := by
      rw [List.cons_prefix_cons]
      exact fun e => h.1 e.1
    rw [List.cons_append, index_cons_of_ne hp, ih h.2, Option.map_map]
    congr 1

theorem index_append_right {pat l r r' : Bytes}
    (h : index pat (l ++ (pat ++ r)) = some l.length) :
    index pat (l ++ (pat ++ r')) = some l.length := by
  induction l with
  | nil => exact index_eq_zero (List.prefix_append _ _)
  | cons a l ih =>
    have hne : ∀ r, ¬ pat <+: a :: (l ++ (pat ++ r)) ↔ ¬ pat <+: a :: (l ++ pat) := by
      intro r
      rw [show a :: (l ++ (pat ++ r)) = (a :: (l ++ pat)) ++ r by simp]
      refine not_congr ⟨fun hp => ?_, fun hp => hp.trans (List.prefix_append _ _)⟩
      exact List.prefix_of_prefix_length_le hp (List.prefix_append _ _) (by simp; omega)
    rw [List.cons_append] at h ⊢
    have hnot : ¬ pat <+: a :: (l ++ (pat ++ r)) := by
      intro hp
      rw [index_eq_zero hp] at h
      simp at h
    rw [index_cons_of_ne hnot] at h
    rw [index_cons_of_ne ((hne r').mpr ((hne r).mp hnot))]
    obtain ⟨j, hj, hlen⟩ := Option.map_eq_some_iff.mp h
    rw [ih (by rw [hj]; congr 1; simpa using hlen)]
    rfl

def behind (pat b : Bytes) : Option Bytes := (index pat b).map (fun i => b.drop (i + pat.length))

theorem behind_cons (pat b : Bytes) (a : UInt8) :
    behind pat (a :: b)
      = if pat <+: a :: b then some ((a :: b).drop pat.length) else behind pat b := by
  unfold behind
  split
  · next h =>
    rw [index_eq_zero h, Option.map_some, Nat.zero_add]
  · next h =>
    rw [index_cons_of_ne h, Option.map_map]
    congr 1
    funext i
    show (a :: b).drop (i + 1 + pat.length) = b.drop (i + pat.length)
    rw [Nat.add_right_comm, List.drop_succ_cons]

theorem behind_eq_none_iff {pat b : Bytes} : behind pat b = none ↔ ¬ pat <:+: b := by
  rw [behind, Option.map_eq_none_iff]
  constructor
  · rintro h ⟨l, r, rfl⟩
    have hsome := @index_isSome pat l r
    rw [h] at hsome
    cases hsome
  · intro h
    cases hi : index pat b with
    | none => rfl
    | some i =>
      obtain ⟨l, r, hb, -⟩ := exists_of_index hi
      exact absurd ⟨l, r, hb.symm⟩ h

theorem prefix_append_cons_iff {pat u w : Bytes} {c : UInt8} (hc : c ∉ pat) :
    pat <+: u ++ c :: w ↔ pat <+: u := by
  refine ⟨fun h => ?_, fun h => h.trans (List.prefix_append _ _)⟩
  by_cases hlen : pat.length ≤ u.length
  · exact List.prefix_of_prefix_length_le h (List.prefix_append _ _) hlen
  · have hlong : u ++ [c] <+: pat := by
      refine List.prefix_of_prefix_length_le ⟨w, ?_⟩ h (by simp; omega)
      rw [List.append_assoc, List.singleton_append]
    exact absurd (hlong.subset (by simp)) hc

theorem behind_append_cons {pat : Bytes} {c : UInt8} (hpat : pat ≠ []) (hc : c ∉ pat)
    (u w : Bytes) :
    behind pat (u ++ c :: w) = ((behind pat u).map (· ++ c :: w)).or (behind pat w) := by
  induction u with
  | nil =>
    have hnot : ¬ pat <+: c :: w := fun h =>
      hpat (List.prefix_nil.mp ((prefix_append_cons_iff (u := []) hc).mp h))
    have hnil : behind pat [] = none :=
      behind_eq_none_iff.mpr (fun h => hpat (List.infix_nil.mp h))
    rw [List.nil_append, behind_cons, if_neg hnot, hnil]
    rfl
  | cons a u ih =>
    rw [List.cons_append, behind_cons, behind_cons, ← List.cons_append]
    by_cases h : pat <+: a :: u
    · rw [if_pos h, if_pos ((prefix_append_cons_iff hc).mpr h),
        List.drop_append_of_le_length h.length_le]
      rfl
    · rw [if_neg h, if_neg (mt (prefix_append_cons_iff hc).mp h)]
      exact ih

theorem behind_concat {p u : Bytes} {c : UInt8} (hp : c ∉ p) (hu : c ∉ u) (w : Bytes) :
    behind (p ++ [c]) (u ++ c :: w) = if p <:+ u then some w else behind (p ++ [c]) w := by
  have hwhole : ∀ u, c ∉ u → (p ++ [c] <+: u ++ c :: w ↔ p = u) := by
    intro u hu
    constructor
    · rintro ⟨r, hr⟩
      rw [List.append_assoc] at hr
      exact (cut_unique hp hu hr).1
    · rintro rfl
      exact ⟨w, by rw [List.append_assoc, List.singleton_append]⟩
  have hdrop : (p ++ c :: w).drop (p ++ [c]).length = w := by
    have hsplit : p ++ c :: w = p ++ [c] ++ w := List.append_cons p c w
    rw [hsplit, List.drop_left]
  induction u with
  | nil =>
    have hhere : p ++ [c] <+: c :: w ↔ p = [] := hwhole [] hu
    rw [List.nil_append, behind_cons]
    by_cases h : p = []
    · rw [if_pos (hhere.mpr h), if_pos (h ▸ List.suffix_rfl), h]
      rfl
    · rw [if_neg (mt hhere.mp h), if_neg (fun hs => h (List.suffix_nil.mp hs))]
  | cons a u ih =>
    have hu' : c ∉ u := fun h => hu (List.mem_cons_of_mem a h)
    rw [List.cons_append, behind_cons, ← List.cons_append]
    by_cases h : p = a :: u
    · rw [if_pos ((hwhole _ hu).mpr h), if_pos (h ▸ List.suffix_rfl), ← h, hdrop]
    · rw [if_neg (mt (hwhole _ hu).mp h), ih hu']
      refine if_congr ?_ rfl rfl
      rw [List.suffix_cons_iff, or_iff_right h]

theorem index_crlf_append {l : Bytes} (h : CR ∉ l) (r : Bytes) :
    index crlf (l ++ crlf ++ r) = some l.length := by
  rw [List.append_assoc, index_append_of_notMem h,
    index_eq_zero (List.prefix_append _ _)]
  simp

theorem length_intercalate {c : UInt8} {l : List Bytes} (h : l ≠ []) :
    ([c].intercalate l).length + 1 = (l.map (fun s => s.length + 1)).sum := by
  induction l with
  | nil => exact absurd rfl h
  | cons s l ih =>
    cases l with
    | nil => simp
    | cons s' l =>
      have := ih (by simp)
      rw [List.intercalate_cons_cons, List.map_cons, List.sum_cons, ← this]
      simp only [List.length_append, List.length_cons, List.length_nil]
      omega

theorem sum_map_filter_le (p : Bytes → Bool) (f : Bytes → ℕ) (l : List Bytes) :
    ((l.filter p).map f).sum ≤ (l.map f).sum := by
  induction l with
  | nil => exact Nat.le_refl _
  | cons a l ih =>
    by_cases ha : p a = true
    · rw [List.filter_cons_of_pos ha]
      simpa using ih
    · rw [List.filter_cons_of_neg ha, List.map_cons, List.sum_cons]
      exact ih.trans (Nat.le_add_left _ _)

theorem sum_map_filter_add_le {p : Bytes → Bool} {f : Bytes → ℕ} {l : List Bytes} {s : Bytes}
    (hs : s ∈ l) (hp : p s = false) : ((l.filter p).map f).sum + f s ≤ (l.map f).sum := by
  induction l with
  | nil => cases hs
  | cons a l ih =>
    have hle := sum_map_filter_le p f l
    rcases List.mem_cons.mp hs with rfl | hs
    · rw [List.filter_cons_of_neg (by simp [hp]), List.map_cons, List.sum_cons]
      omega
    · have := ih hs
      by_cases ha : p a = true
      · rw [List.filter_cons_of_pos ha]
        simp only [List.map_cons, List.sum_cons]
        omega
      · rw [List.filter_cons_of_neg ha, List.map_cons, List.sum_cons]
        omega

theorem length_intercalate_filter_lt {c : UInt8} {p : Bytes → Bool} {l : List Bytes}
    {s : Bytes} (hs : s ∈ l) (hp : p s = false) (hne : s ≠ []) :
    ([c].intercalate (l.filter p)).length < ([c].intercalate l).length := by
  have hsum := @sum_map_filter_add_le p (fun s => s.length + 1) l s hs hp
  have hlen : 0 < s.length := List.length_pos_iff.mpr hne
  have hall := @length_intercalate c l (List.ne_nil_of_mem hs)
  by_cases hnil : l.filter p = []
  · rw [hnil] at hsum ⊢
    simp only [List.map_nil, List.sum_nil] at hsum
    simp only [List.intercalate_nil, List.length_nil]
    omega
  · have hkept := @length_intercalate c (l.filter p) hnil
    omega

theorem splitOn_append_cons {c : UInt8} {a : Bytes} (h : c ∉ a) (rest : Bytes) :
    (a ++ c :: rest).splitOn c = a :: rest.splitOn c := by
  have hnot : ∀ x ∈ a, (x == c) = false := fun x hx =>
    beq_eq_false_iff_ne.mpr (fun heq => h (heq ▸ hx))
  exact List.splitOnP_append_cons_of_forall_mem hnot c (beq_self_eq_true c) rest

theorem mem_splitOn {c : UInt8} {b seg : Bytes} (h : seg ∈ b.splitOn c) :
    c ∉ seg ∧ seg <:+: b := by
  induction hn : b.length using Nat.strong_induction_on generalizing b with
  | _ n ih =>
    cases hi : indexByte b c with
    | none =>
      have hnot := indexByte_eq_none.mp hi
      rw [List.splitOn_eq_singleton hnot, List.mem_singleton] at h
      subst h
      exact ⟨hnot, List.infix_rfl⟩
    | some i =>
      obtain ⟨l, r, rfl, hl, -⟩ := exists_of_indexByte hi
      rw [splitOn_append_cons hl] at h
      rcases List.mem_cons.mp h with rfl | h
      · exact ⟨hl, (List.prefix_append _ _).isInfix⟩
      · have hlen : r.length < n := by
          rw [← hn, List.length_append, List.length_cons]
          omega
        obtain ⟨hnot, hin⟩ := ih r.length hlen h rfl
        exact ⟨hnot, hin.trans ((List.suffix_cons c r).trans (List.suffix_append l _)).isInfix⟩

theorem intercalate_append (s t : Bytes) (b : Bytes) (bs : List Bytes) :
    (s ++ t).intercalate (b :: bs) = s.intercalate (b :: bs.map (t ++ ·)) := by
  induction bs generalizing b with
  | nil => rfl
  | cons b' bs ih =>
    have hmove : t ++ s.intercalate (b' :: bs.map (t ++ ·))
        = s.intercalate ((t ++ b') :: bs.map (t ++ ·)) := by
      cases bs with
      | nil => simp
      | cons b'' bs => simp only [List.map_cons, List.intercalate_cons_cons, List.append_assoc]
    rw [List.intercalate_cons_cons, ih, List.map_cons, List.intercalate_cons_cons, ← hmove,
      List.append_assoc, List.append_assoc, List.append_assoc]

theorem forall_mem_of_all {p : UInt8 → Prop} [DecidablePred p] {b : Bytes}
    (h : b.all (fun c => decide (p c)) = true) : ∀ c ∈ b, p c :=
  fun c hc => of_decide_eq_true (List.all_eq_true.mp h c hc)

theorem forall_byte {p : UInt8 → Prop} (h : ∀ n < 256, p (UInt8.ofNat n)) (c : UInt8) : p c := by
  have hc := h c.toNat c.toNat_lt
  rwa [UInt8.ofNat_toNat] at hc

end Bytes
