import Pulsys.Base.Directory
import Pulsys.Base.Runs

/-!
# Shared file handles

The body of an object is opened once and shared, with a count of its readers. If a handle
is marked between the test of the mark and the addition to the count, or before a closing,
its file may be closed under a reader; there is nothing else (`held_files_open`).
-/

namespace Cache

open Runs

structure Handle where
  refs : ℤ := 1
  evicted : Bool := false
  isOpen : Bool := true
  deriving DecidableEq

inductive Caller
  | starting
  | looked (h : ℕ)
  | tested (h : ℕ)
  | opening
  | opened
  | lost (h : ℕ)
  | lostClosed (h : ℕ)
  | holding (h : ℕ)
  | subtracted (h : ℕ)
  | closing (h : ℕ)
  | done
  deriving DecidableEq

def Caller.handle : Caller → Option ℕ
  | .looked h | .tested h | .lost h | .lostClosed h | .holding h | .subtracted h | .closing h =>
    some h
  | .starting | .opening | .opened | .done => none

structure BodyHandles where
  handles : ℕ → Handle := fun _ => {}
  next : ℕ := 0
  cached : Option ℕ := none
  toMark : List ℕ := []
  callers : Directory ℕ Caller := .empty

inductive HandleEvent
  | get (i : ℕ)
  | loadEvicted (i : ℕ)
  | addRef (i : ℕ)
  | openFile (i : ℕ) (ok : Bool)
  | getOrAdd (i : ℕ)
  | closeOwn (i : ℕ)
  | subRef (i : ℕ)
  | loadEvictedLast (i : ℕ)
  | closeFile (i : ℕ)
  | remove
  | markEvicted (h : ℕ)

namespace BodyHandles

def goOn (s : BodyHandles) (i : ℕ) (c : Caller) : BodyHandles :=
  { s with callers := s.callers.write i c }

def set (s : BodyHandles) (h : ℕ) (hd : Handle) : BodyHandles :=
  { s with handles := Function.update s.handles h hd }

def mayStart (s : BodyHandles) (i : ℕ) : Bool :=
  s.callers.get i = none || s.callers.get i = some .starting

def step (s : BodyHandles) : HandleEvent → Option BodyHandles
  | .get i =>
    if s.mayStart i then
      match s.cached with
      | some h => some (s.goOn i (.looked h))
      | none => some (s.goOn i .opening)
    else none
  | .loadEvicted i =>
    match s.callers.get i with
    | some (.looked h) => some (s.goOn i (if (s.handles h).evicted then .opening else .tested h))
    | some (.lostClosed h) =>
      some (s.goOn i (if (s.handles h).evicted then .starting else .tested h))
    | _ => none
  | .addRef i =>
    match s.callers.get i with
    | some (.tested h) =>
      some ((s.set h { s.handles h with refs := (s.handles h).refs + 1 }).goOn i (.holding h))
    | _ => none
  | .openFile i ok =>
    match s.callers.get i with
    | some .opening => some (s.goOn i (if ok then .opened else .done))
    | _ => none
  | .getOrAdd i =>
    match s.callers.get i with
    | some .opened =>
      match s.cached with
      | some h => some (s.goOn i (.lost h))
      | none =>
        some ({ s with
          handles := Function.update s.handles s.next {}
          next := s.next + 1
          cached := some s.next }.goOn i (.holding s.next))
    | _ => none
  | .closeOwn i =>
    match s.callers.get i with
    | some (.lost h) => some (s.goOn i (.lostClosed h))
    | _ => none
  | .subRef i =>
    match s.callers.get i with
    | some (.holding h) =>
      some ((s.set h { s.handles h with refs := (s.handles h).refs - 1 }).goOn i
        (if (s.handles h).refs - 1 = 0 then .subtracted h else .done))
    | _ => none
  | .loadEvictedLast i =>
    match s.callers.get i with
    | some (.subtracted h) => some (s.goOn i (if (s.handles h).evicted then .closing h else .done))
    | _ => none
  | .closeFile i =>
    match s.callers.get i with
    | some (.closing h) => some ((s.set h { s.handles h with isOpen := false }).goOn i .done)
    | _ => none
  | .remove =>
    match s.cached with
    | some h => some { s with cached := none, toMark := h :: s.toMark }
    | none => none
  | .markEvicted h =>
    if h ∈ s.toMark then
      some { s.set h { s.handles h with evicted := true } with toMark := s.toMark.erase h }
    else none

def HeldOpen (s : BodyHandles) : Prop :=
  ∀ i h, s.callers.get i = some (.holding h) → (s.handles h).isOpen = true

def Undivided (s : BodyHandles) : HandleEvent → Prop
  | .markEvicted h => ∀ i ∈ s.callers.names,
      s.callers.get i ≠ some (.tested h) ∧ s.callers.get i ≠ some (.subtracted h)
  | _ => True

instance (s : BodyHandles) : (e : HandleEvent) → Decidable (s.Undivided e)
  | .markEvicted h => inferInstanceAs (Decidable (∀ i ∈ s.callers.names,
      s.callers.get i ≠ some (.tested h) ∧ s.callers.get i ≠ some (.subtracted h)))
  | .get _ | .loadEvicted _ | .addRef _ | .openFile _ _ | .getOrAdd _ | .closeOwn _ | .subRef _
  | .loadEvictedLast _ | .closeFile _ | .remove => isTrue trivial

def holders (s : BodyHandles) (h : ℕ) : ℤ :=
  s.callers.sum (fun c => if c = .holding h then 1 else 0)

def held (c : Option Caller) (h : ℕ) : ℤ := if c = some (.holding h) then 1 else 0

theorem held_holding (k h : ℕ) : held (some (.holding k)) h = if h = k then 1 else 0 := by
  simp only [held, Option.some.injEq, Caller.holding.injEq]
  exact if_congr eq_comm rfl rfl

theorem held_of_ne {c : Option Caller} {h : ℕ} (hne : c ≠ some (.holding h)) : held c h = 0 :=
  if_neg hne

theorem holders_goOn (s : BodyHandles) (i : ℕ) (c : Caller) (h : ℕ) :
    (s.goOn i c).holders h = s.holders h + (held (some c) h - held (s.callers.get i) h) := by
  have hweight : ∀ o : Option Caller,
      Directory.weight (fun c => if c = .holding h then 1 else 0) o = held o h := by
    intro o
    cases o with
    | none => rfl
    | some c => exact if_congr Option.some_inj.symm rfl rfl
  rw [← hweight, ← hweight]
  exact Directory.sum_write _ _ _ _

variable {s : BodyHandles} {i k : ℕ} {c : Caller}

theorem one_le_holders {h : ℕ} (hi : s.callers.get i = some (.holding h)) : 1 ≤ s.holders h := by
  have hle := @Directory.le_sum _ _ _ s.callers (fun c => if c = .holding h then 1 else 0)
    (fun _ v _ => by split <;> omega) i _ hi
  rwa [if_pos rfl] at hle

def Fine (handles : ℕ → Handle) (holders : ℕ → ℤ) : Caller → Prop
  | .tested h => (handles h).evicted = false
  | .subtracted h => (handles h).evicted = true → holders h ≤ 0
  | .closing h => (handles h).evicted = true ∧ holders h ≤ 0
  | .starting | .looked _ | .opening | .opened | .lost _ | .lostClosed _ | .holding _ | .done =>
    True

theorem Fine.imp {handles handles' : ℕ → Handle} {holders holders' : ℕ → ℤ}
    (hfine : Fine handles holders c)
    (h : ∀ k, c.handle = some k → (handles' k).evicted = (handles k).evicted
      ∧ ((handles k).evicted = true → holders' k ≤ holders k)) : Fine handles' holders' c := by
  cases c with
  | tested k =>
    exact (h k rfl).1.trans hfine
  | subtracted k =>
    intro hevicted
    rw [(h k rfl).1] at hevicted
    exact ((h k rfl).2 hevicted).trans (hfine hevicted)
  | closing k =>
    exact ⟨(h k rfl).1.trans hfine.1, ((h k rfl).2 hfine.1).trans hfine.2⟩
  | _ => trivial

structure Sound (s : BodyHandles) : Prop where
  known : ∀ i c k, s.callers.get i = some c → c.handle = some k → k < s.next
  cached : ∀ k, s.cached = some k → k < s.next
  count : ∀ k, s.holders k ≤ (s.handles k).refs
  callers : ∀ i c, s.callers.get i = some c → Fine s.handles s.holders c
  shut : ∀ k, (s.handles k).isOpen = false → (s.handles k).evicted = true ∧ s.holders k ≤ 0

theorem Sound.heldOpen (h : Sound s) : HeldOpen s := by
  intro i k hi
  refine Bool.eq_true_of_not_eq_false (fun hclosed => ?_)
  have hnone := (h.shut k hclosed).2
  have hone := one_le_holders hi
  omega

theorem Sound.holders_next (h : Sound s) : s.holders s.next = 0 := by
  refine Finset.sum_eq_zero (fun i _ => ?_)
  cases hi : s.callers.get i with
  | none => rfl
  | some c =>
    show (if c = .holding s.next then (1 : ℤ) else 0) = 0
    refine if_neg ?_
    rintro rfl
    exact absurd (h.known i _ s.next hi rfl) (lt_irrefl _)

theorem Sound.change (h : Sound s) {handles : ℕ → Handle}
    (hknown : ∀ k, c.handle = some k → k < s.next)
    (hevicted : ∀ k, (handles k).evicted = (s.handles k).evicted)
    (hcount : ∀ k, (s.goOn i c).holders k ≤ (handles k).refs)
    (hmarked : ∀ k, (s.handles k).evicted = true → (s.goOn i c).holders k ≤ s.holders k)
    (hfine : Fine handles (s.goOn i c).holders c)
    (hshut : ∀ k, (handles k).isOpen = false →
      (s.handles k).evicted = true ∧ (s.goOn i c).holders k ≤ 0) :
    Sound ({ s with handles }.goOn i c) := by
  refine ⟨fun j d k hj hk => ?_, h.cached, hcount, ?_, fun k hk => ?_⟩
  · rcases Directory.get_write_eq_some hj with ⟨-, rfl⟩ | ⟨-, hj⟩
    · exact hknown k hk
    · exact h.known j d k hj hk
  · refine Directory.forall_write hfine (fun j d hj => ?_)
    exact (h.callers j d hj).imp (fun k _ => ⟨hevicted k, hmarked k⟩)
  · exact ⟨(hevicted k).trans (hshut k hk).1, (hshut k hk).2⟩

theorem Sound.goOn (h : Sound s) (hbefore : ∀ k, s.callers.get i ≠ some (.holding k))
    (hafter : ∀ k, c ≠ .holding k) (hknown : ∀ k, c.handle = some k → k < s.next)
    (hfine : Fine s.handles s.holders c) : Sound (s.goOn i c) := by
  have hsame : (s.goOn i c).holders = s.holders := by
    funext k
    rw [holders_goOn, held_of_ne (hbefore k), held_of_ne (fun heq => hafter k (Option.some.inj heq)),
      sub_self, add_zero]
  refine @Sound.change s i c h s.handles hknown (fun _ => rfl) ?_ ?_ ?_ ?_
  · rw [hsame]
    exact h.count
  · rw [hsame]
    exact fun _ _ => le_rfl
  · rw [hsame]
    exact hfine
  · rw [hsame]
    exact h.shut

theorem Sound.test (h : Sound s) {again : Caller} (hi : s.callers.get i = some c)
    (hbefore : ∀ j, c ≠ .holding j) (hk : c.handle = some k)
    (hagain : again = .opening ∨ again = .starting) :
    Sound (s.goOn i (if (s.handles k).evicted then again else .tested k)) := by
  have hnone : again.handle = none ∧ (∀ j, again ≠ .holding j) ∧ Fine s.handles s.holders again := by
    rcases hagain with rfl | rfl
    · exact ⟨rfl, by simp, trivial⟩
    · exact ⟨rfl, by simp, trivial⟩
  refine h.goOn (fun j heq => hbefore j (Option.some.inj (hi.symm.trans heq))) (fun j => ?_)
    (fun j hj => ?_) ?_
  · split
    · exact hnone.2.1 j
    · simp
  · split at hj
    · rw [hnone.1] at hj
      cases hj
    · cases hj
      exact h.known i c k hi hk
  · split
    · exact hnone.2.2
    · next hunmarked => exact Bool.eq_false_iff.mpr hunmarked

theorem set_refs (handles : ℕ → Handle) (k : ℕ) (refs : ℤ) (j : ℕ) :
    let handles' := Function.update handles k { handles k with refs }
    (handles' j).evicted = (handles j).evicted ∧ (handles' j).isOpen = (handles j).isOpen
      ∧ (handles' j).refs = if j = k then refs else (handles j).refs := by
  by_cases hj : j = k
  · subst hj
    simp
  · simp [hj]

theorem Sound.addRef (h : Sound s) (hi : s.callers.get i = some (.tested k)) :
    Sound ((s.set k { s.handles k with refs := (s.handles k).refs + 1 }).goOn i (.holding k)) := by
  have hunmarked : (s.handles k).evicted = false := h.callers i _ hi
  have hset := set_refs s.handles k ((s.handles k).refs + 1)
  have hholders : ∀ j, (s.goOn i (.holding k)).holders j
      = s.holders j + (if j = k then 1 else 0) := by
    intro j
    rw [holders_goOn, hi, held_holding, held_of_ne (by simp), sub_zero]
  -- only a handle that is not marked gets a holder
  have hmarked : ∀ j, (s.handles j).evicted = true →
      (s.goOn i (.holding k)).holders j = s.holders j := by
    intro j hj
    have hne : j ≠ k := by
      rintro rfl
      rw [hunmarked] at hj
      cases hj
    rw [hholders, if_neg hne, add_zero]
  refine h.change (fun j hj => h.known i _ j hi hj) (fun j => (hset j).1) (fun j => ?_)
    (fun j hj => (hmarked j hj).le) trivial (fun j hj => ?_)
  · have hcount := h.count j
    rw [hholders, (hset j).2.2]
    split
    · next heq =>
      subst heq
      omega
    · omega
  · rw [(hset j).2.1] at hj
    obtain ⟨hevicted, hnone⟩ := h.shut j hj
    exact ⟨hevicted, (hmarked j hevicted).le.trans hnone⟩

theorem Sound.subRef (h : Sound s) (hi : s.callers.get i = some (.holding k))
    (hc : (c = .subtracted k ∧ (s.handles k).refs - 1 = 0) ∨ c = .done) :
    Sound ((s.set k { s.handles k with refs := (s.handles k).refs - 1 }).goOn i c) := by
  have hset := set_refs s.handles k ((s.handles k).refs - 1)
  have hafter : ∀ j, held (some c) j = 0 := by
    intro j
    rcases hc with ⟨rfl, -⟩ | rfl
    · exact held_of_ne (by simp)
    · exact held_of_ne (by simp)
  have hholders : ∀ j, (s.goOn i c).holders j = s.holders j - (if j = k then 1 else 0) := by
    intro j
    rw [holders_goOn, hi, held_holding, hafter, zero_sub]
    rfl
  have hle : ∀ j, (s.goOn i c).holders j ≤ s.holders j := by
    intro j
    rw [hholders]
    split <;> omega
  refine h.change (fun j hj => ?_) (fun j => (hset j).1) (fun j => ?_) (fun j _ => hle j) ?_
    (fun j hj => ?_)
  · rcases hc with ⟨rfl, -⟩ | rfl
    · exact h.known i _ j hi hj
    · cases hj
  · have hcount := h.count j
    rw [hholders, (hset j).2.2]
    split
    · next heq =>
      subst heq
      omega
    · omega
  · have hcount := h.count k
    have hk := hholders k
    rw [if_pos rfl] at hk
    rcases hc with ⟨rfl, hzero⟩ | rfl
    · intro _
      omega
    · trivial
  · rw [(hset j).2.1] at hj
    obtain ⟨hevicted, hnone⟩ := h.shut j hj
    exact ⟨hevicted, (hle j).trans hnone⟩

theorem Sound.closeFile (h : Sound s) (hi : s.callers.get i = some (.closing k)) :
    Sound ((s.set k { s.handles k with isOpen := false }).goOn i .done) := by
  obtain ⟨hevicted, hnone⟩ : (s.handles k).evicted = true ∧ s.holders k ≤ 0 := h.callers i _ hi
  have hsame : ∀ j, (s.goOn i .done).holders j = s.holders j := by
    intro j
    rw [holders_goOn, hi, held_of_ne (by simp), held_of_ne (by simp), sub_self, add_zero]
  have hset : ∀ j, (Function.update s.handles k { s.handles k with isOpen := false } j).evicted
      = (s.handles j).evicted ∧
      (Function.update s.handles k { s.handles k with isOpen := false } j).refs
        = (s.handles j).refs := by
    intro j
    by_cases hj : j = k
    · subst hj
      simp
    · simp [hj]
  refine h.change (fun j hj => by cases hj) (fun j => (hset j).1) (fun j => ?_)
    (fun j _ => (hsame j).le) trivial (fun j hj => ?_)
  · rw [hsame, (hset j).2]
    exact h.count j
  · rw [hsame]
    by_cases hjk : j = k
    · subst hjk
      exact ⟨hevicted, hnone⟩
    · rw [Function.update_of_ne hjk] at hj
      exact h.shut j hj

theorem Sound.markEvicted (h : Sound s) (hcond : s.Undivided (.markEvicted k)) :
    Sound { s.set k { s.handles k with evicted := true } with toMark := s.toMark.erase k } := by
  have hset : ∀ j, (Function.update s.handles k { s.handles k with evicted := true } j).refs
      = (s.handles j).refs ∧
      (Function.update s.handles k { s.handles k with evicted := true } j).isOpen
        = (s.handles j).isOpen ∧ ((s.handles j).evicted = true →
      (Function.update s.handles k { s.handles k with evicted := true } j).evicted = true) := by
    intro j
    by_cases hj : j = k
    · subst hj
      simp
    · simp [hj]
  refine ⟨h.known, h.cached, fun j => ?_, fun i c hi => ?_, fun j hj => ?_⟩
  · exact (h.count j).trans (hset j).1.ge
  · have hfine := h.callers i c hi
    obtain ⟨htested, hsubtracted⟩ := hcond i ((s.callers.mem_names i).mpr (by
      rw [show s.callers.get i = some c from hi]
      rfl))
    -- a caller that knows another handle does not see the mark
    by_cases hk : c.handle = some k
    · cases c with
      | tested j =>
        cases hk
        exact absurd hi htested
      | subtracted j =>
        cases hk
        exact absurd hi hsubtracted
      | closing j => exact ⟨(hset j).2.2 hfine.1, hfine.2⟩
      | _ => trivial
    · refine hfine.imp (fun j hj => ⟨?_, fun _ => le_rfl⟩)
      have hne : j ≠ k := by
        rintro rfl
        exact hk hj
      exact congrArg Handle.evicted (Function.update_of_ne hne _ _)
  · obtain ⟨hevicted, hnone⟩ := h.shut j ((hset j).2.1.symm.trans hj)
    exact ⟨(hset j).2.2 hevicted, hnone⟩

theorem Sound.publish (h : Sound s) (hi : s.callers.get i = some .opened) :
    Sound ({ s with
      handles := Function.update s.handles s.next {}
      next := s.next + 1
      cached := some s.next }.goOn i (.holding s.next)) := by
  have hholders : ∀ j, (s.goOn i (.holding s.next)).holders j
      = s.holders j + (if j = s.next then 1 else 0) := by
    intro j
    rw [holders_goOn, hi, held_holding, held_of_ne (by simp), sub_zero]
  have hnew := h.holders_next
  refine ⟨fun j c k hj hk => ?_, fun k hk => ?_, fun k => ?_, fun j c hj => ?_, fun k hk => ?_⟩
  · rcases Directory.get_write_eq_some hj with ⟨-, rfl⟩ | ⟨-, hj⟩
    · cases hk
      exact Nat.lt_succ_self _
    · exact Nat.lt_succ_of_lt (h.known j c k hj hk)
  · cases hk
    exact Nat.lt_succ_self _
  · show (s.goOn i (.holding s.next)).holders k ≤ (Function.update s.handles s.next {} k).refs
    rw [hholders]
    by_cases hk : k = s.next
    · subst hk
      rw [Function.update_self, if_pos rfl, hnew]
      exact le_rfl
    · rw [Function.update_of_ne hk, if_neg hk, add_zero]
      exact h.count k
  · rcases Directory.get_write_eq_some hj with ⟨-, rfl⟩ | ⟨-, hj⟩
    · trivial
    · -- the others know only handles that were there
      refine (h.callers j c hj).imp (fun k hk => ?_)
      have hne : k ≠ s.next := ne_of_lt (h.known j c k hj hk)
      refine ⟨congrArg Handle.evicted (Function.update_of_ne hne _ _), fun _ => ?_⟩
      exact ((hholders k).trans (by rw [if_neg hne, add_zero])).le
  · change (Function.update s.handles s.next {} k).isOpen = false at hk
    have hne : k ≠ s.next := by
      rintro rfl
      rw [Function.update_self] at hk
      cases hk
    rw [Function.update_of_ne hne] at hk
    obtain ⟨hevicted, hnone⟩ := h.shut k hk
    refine ⟨(congrArg Handle.evicted (Function.update_of_ne hne _ _)).trans hevicted, ?_⟩
    exact ((hholders k).trans (by rw [if_neg hne, add_zero])).le.trans hnone

theorem Sound.step {s' : BodyHandles} {e : HandleEvent} (h : Sound s) (hcond : s.Undivided e)
    (hs : s.step e = some s') : Sound s' := by
  cases e with
  | get i =>
    rw [BodyHandles.step] at hs
    split at hs
    · next hstart =>
      have hbefore : ∀ k, s.callers.get i ≠ some (.holding k) := by
        intro k hk
        simp [mayStart, hk] at hstart
      split at hs
      · next k hk =>
        cases hs
        exact h.goOn hbefore (by simp) (fun j hj => by cases hj; exact h.cached k hk) trivial
      · cases hs
        exact h.goOn hbefore (by simp) (fun j hj => by cases hj) trivial
    · cases hs
  | loadEvicted i =>
    rw [BodyHandles.step] at hs
    split at hs
    · next k hi =>
      cases hs
      exact h.test hi (by simp) rfl (.inl rfl)
    · next k hi =>
      cases hs
      exact h.test hi (by simp) rfl (.inr rfl)
    · cases hs
  | addRef i =>
    rw [BodyHandles.step] at hs
    split at hs
    · next k hi =>
      cases hs
      exact h.addRef hi
    · cases hs
  | openFile i ok =>
    rw [BodyHandles.step] at hs
    split at hs
    · next hi =>
      cases hs
      cases ok with
      | true => exact h.goOn (by simp [hi]) (by simp) (fun j hj => by cases hj) trivial
      | false => exact h.goOn (by simp [hi]) (by simp) (fun j hj => by cases hj) trivial
    · cases hs
  | getOrAdd i =>
    rw [BodyHandles.step] at hs
    split at hs
    · next hi =>
      split at hs
      · next k hk =>
        cases hs
        exact h.goOn (by simp [hi]) (by simp) (fun j hj => by cases hj; exact h.cached k hk) trivial
      · cases hs
        exact h.publish hi
    · cases hs
  | closeOwn i =>
    rw [BodyHandles.step] at hs
    split at hs
    · next k hi =>
      cases hs
      exact h.goOn (by simp [hi]) (by simp) (fun j hj => h.known i _ j hi hj) trivial
    · cases hs
  | subRef i =>
    rw [BodyHandles.step] at hs
    split at hs
    · next k hi =>
      cases hs
      refine h.subRef hi ?_
      split
      · next hzero => exact .inl ⟨rfl, hzero⟩
      · exact .inr rfl
    · cases hs
  | loadEvictedLast i =>
    rw [BodyHandles.step] at hs
    split at hs
    · next k hi =>
      cases hs
      refine h.goOn (by simp [hi]) (fun j => by split <;> simp) (fun j hj => ?_) ?_
      · split at hj
        · exact h.known i _ j hi hj
        · cases hj
      · have hfine := h.callers i _ hi
        split
        · next hevicted => exact ⟨hevicted, hfine hevicted⟩
        · trivial
    · cases hs
  | closeFile i =>
    rw [BodyHandles.step] at hs
    split at hs
    · next k hi =>
      cases hs
      exact h.closeFile hi
    · cases hs
  | remove =>
    rw [BodyHandles.step] at hs
    split at hs
    · cases hs
      refine ⟨h.known, fun k hk => ?_, h.count, h.callers, h.shut⟩
      cases hk
    · cases hs
  | markEvicted k =>
    rw [BodyHandles.step] at hs
    split at hs
    · cases hs
      exact h.markEvicted hcond
    · cases hs

/-- **No use after close**, in every run in which no handle is marked between a caller's test
and its addition, or its subtraction to zero and its test. -/
theorem held_files_open (es : List HandleEvent) (h : Meets BodyHandles.step Undivided {} es) :
    Throughout BodyHandles.step HeldOpen {} es := by
  have h0 : Sound {} := by
    constructor
    case known =>
      intro i c k hi
      cases hi
    case cached =>
      intro k hk
      cases hk
    case count => exact fun _ => zero_le_one
    case callers =>
      intro i c hi
      cases hi
    case shut =>
      intro k hk
      cases hk
  exact (throughout_of_meets (fun _ _ _ hi hc hs => hi.step hc hs) h0 h).imp
    (fun _ hi => hi.heldOpen)

private def evictedWhileHeld : List HandleEvent :=
  [.get 0, .openFile 0 true, .getOrAdd 0, .get 1, .loadEvicted 1, .addRef 1, .remove,
    .markEvicted 0, .subRef 0, .subRef 1, .loadEvictedLast 1, .closeFile 1]

theorem held_files_open_evicted :
    (∃ s ∈ run BodyHandles.step {} evictedWhileHeld, (s.handles 0).isOpen = false)
      ∧ Throughout BodyHandles.step HeldOpen {} evictedWhileHeld :=
  ⟨⟨_, rfl, by decide +kernel⟩, held_files_open _ (by decide +kernel)⟩

/-- **A file that is closed under a holder.** -/
theorem held_file_closed :
    ∃ s ∈ run BodyHandles.step {}
        [.get 0, .openFile 0 true, .getOrAdd 0, .get 1, .loadEvicted 1, .remove, .markEvicted 0,
          .subRef 0, .loadEvictedLast 0, .closeFile 0, .addRef 1],
      ¬ HeldOpen s := by
  obtain ⟨s, hs, hholding, hclosed⟩ : ∃ s ∈ run BodyHandles.step {}
      [.get 0, .openFile 0 true, .getOrAdd 0, .get 1, .loadEvicted 1, .remove, .markEvicted 0,
        .subRef 0, .loadEvictedLast 0, .closeFile 0, .addRef 1],
      s.callers.get 1 = some (.holding 0) ∧ (s.handles 0).isOpen = false :=
    ⟨_, rfl, by decide +kernel, by decide +kernel⟩
  refine ⟨s, hs, fun h => ?_⟩
  rw [h 1 0 hholding] at hclosed
  cases hclosed

end BodyHandles

end Cache
