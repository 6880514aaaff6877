import Pulsys.Base.Pump

/-!
# Loops around a call

A loop makes a call and goes on by the answer. `CallLoop.run` is the loop over the answers
that have come, so a statement about all lists of answers is one about every moment of it.
-/

inductive Exit
  | success
  | error
  deriving DecidableEq, Repr

structure CallLoop (σ τ : Type) where
  ends : σ → Option Exit
  call : σ → τ → σ × Option Exit

namespace CallLoop

variable {σ τ : Type} (L : CallLoop σ τ)

def run : σ → List τ → σ × Option Exit
  | s, [] => (s, L.ends s)
  | s, t :: rest =>
    match L.ends s with
    | some e => (s, some e)
    | none =>
      match (L.call s t).2 with
      | some e => ((L.call s t).1, some e)
      | none => run (L.call s t).1 rest

variable {L}

theorem run_keeps {I : σ → Prop} (hcall : ∀ s t, I s → L.ends s = none → I (L.call s t).1)
    {s : σ} (hs : I s) (ts : List τ) : I (L.run s ts).1 := by
  induction ts generalizing s with
  | nil => exact hs
  | cons t rest ih =>
    rw [run]
    cases hends : L.ends s with
    | some e => exact hs
    | none =>
      dsimp only
      cases (L.call s t).2 with
      | some e => exact hcall s t hs hends
      | none => exact ih (hcall s t hs hends)

theorem run_exit {I : σ → Prop} (hcall : ∀ s t, I s → L.ends s = none → I (L.call s t).1)
    {s : σ} (hs : I s) (ts : List τ) {e : Exit} (he : (L.run s ts).2 = some e) :
    L.ends (L.run s ts).1 = some e
      ∨ ∃ s₀ t, I s₀ ∧ L.ends s₀ = none ∧ L.call s₀ t = ((L.run s ts).1, some e) := by
  induction ts generalizing s with
  | nil => exact .inl he
  | cons t rest ih =>
    rw [run] at he ⊢
    cases hends : L.ends s with
    | some e' =>
      rw [hends] at he
      exact .inl (hends.trans he)
    | none =>
      rw [hends] at he
      dsimp only at he ⊢
      cases hout : (L.call s t).2 with
      | some e' =>
        rw [hout] at he
        exact .inr ⟨s, t, hs, hends, Prod.ext rfl (hout.trans he)⟩
      | none =>
        rw [hout] at he
        exact ih (hcall s t hs hends) he

theorem run_concat {s : σ} {ts : List τ} (hwaits : (L.run s ts).2 = none) (t : τ) :
    L.run s (ts ++ [t]) = L.run (L.run s ts).1 [t] ∧ L.ends (L.run s ts).1 = none := by
  induction ts generalizing s with
  | nil => exact ⟨rfl, hwaits⟩
  | cons t' rest ih =>
    rw [run] at hwaits
    cases hends : L.ends s with
    | some e =>
      rw [hends] at hwaits
      cases hwaits
    | none =>
      rw [hends] at hwaits
      dsimp only at hwaits
      cases hout : (L.call s t').2 with
      | some e =>
        rw [hout] at hwaits
        cases hwaits
      | none =>
        rw [hout] at hwaits
        have hon : ∀ ts, L.run s (t' :: ts) = L.run (L.call s t').1 ts := fun ts => by
          rw [run, hends, hout]
        rw [List.cons_append, hon, hon]
        exact ih hwaits

theorem run_concat_call {s : σ} {ts : List τ} (hwaits : (L.run s ts).2 = none) (t : τ) :
    (L.run s (ts ++ [t])).1 = (L.call (L.run s ts).1 t).1
      ∧ ((L.call (L.run s ts).1 t).2 ≠ none → (L.run s (ts ++ [t])).2 ≠ none) := by
  obtain ⟨heq, hends⟩ := run_concat hwaits t
  rw [heq, run, hends]
  dsimp only
  cases (L.call (L.run s ts).1 t).2 with
  | some e => exact ⟨rfl, fun _ => Option.some_ne_none e⟩
  | none => exact ⟨rfl, fun hout => absurd rfl hout⟩

open Pump

def verdict (err : Option Errno) (k : ℕ) : Option Exit :=
  match err with
  | none => if k = 0 then some .success else none
  | some (.again true) | some .interrupted => none
  | some (.again false) | some .failed => some .error

def ending : Option Exit → Ending
  | none => .pending
  | some .success => .returned
  | some .error => .failed

theorem run_eq_count {L : CallLoop σ Taken} {len goal : ℕ} {most : ℕ → ℕ} {pos : σ → ℕ}
    {I : σ → Prop} (hends : ∀ s, I s → L.ends s = if goal ≤ pos s then some .success else none)
    (hcall : ∀ s t, I s → pos s < goal → I (L.call s t).1
      ∧ pos (L.call s t).1 = pos s + min (min t.count (most (pos s))) (len - pos s)
      ∧ (L.call s t).2 = verdict t.err (min (min t.count (most (pos s))) (len - pos s)))
    {s : σ} (hs : I s) (ts : List Taken) :
    pos (L.run s ts).1 = pos s + (count len goal most (pos s) ts).1
      ∧ ending (L.run s ts).2 = (count len goal most (pos s) ts).2 := by
  induction ts generalizing s with
  | nil =>
    rw [run, count, hends s hs]
    refine ⟨rfl, ?_⟩
    split <;> rfl
  | cons t rest ih =>
    rw [run, count, hends s hs]
    by_cases hgoal : goal ≤ pos s
    · rw [if_pos hgoal, if_pos hgoal]
      exact ⟨rfl, rfl⟩
    rw [if_neg hgoal, if_neg hgoal]
    obtain ⟨hI, hpos, hout⟩ := hcall s t hs (not_le.mp hgoal)
    have hrest := ih hI
    rw [hpos, Nat.add_assoc] at hrest
    dsimp only
    rw [hout]
    generalize min (min t.count (most (pos s))) (len - pos s) = k at hpos hrest ⊢
    cases t.err with
    | none =>
      by_cases hzero : k = 0
      · rw [verdict, if_pos hzero]
        dsimp only
        rw [if_pos hzero]
        exact ⟨hpos.trans (by rw [hzero]), rfl⟩
      · rw [verdict, if_neg hzero]
        dsimp only
        rw [if_neg hzero]
        exact hrest
    | some err =>
      cases err with
      | again ready =>
        cases ready with
        | true => exact hrest
        | false => exact ⟨hpos, rfl⟩
      | interrupted => exact hrest
      | failed => exact ⟨hpos, rfl⟩

theorem run_success_iff {L : CallLoop σ Taken} {len goal whole : ℕ} {most : ℕ → ℕ} {pos : σ → ℕ}
    {I : σ → Prop} (hmost : ∀ pos, most pos ≤ goal - pos) (hwhole : goal ≤ whole)
    (hends : ∀ s, I s → L.ends s = if goal ≤ pos s then some .success else none)
    (hcall : ∀ s t, I s → pos s < goal → I (L.call s t).1
      ∧ pos (L.call s t).1 = pos s + min (min t.count (most (pos s))) (len - pos s)
      ∧ (L.call s t).2 = verdict t.err (min (min t.count (most (pos s))) (len - pos s)))
    {s : σ} (hs : I s) (hle : pos s ≤ goal) (ts : List Taken) :
    ((L.run s ts).2 = some .success → pos (L.run s ts).1 = whole)
      ↔ ¬ Stalls len goal most (pos s) ts
        ∧ (goal = whole ∨ (count len goal most (pos s) ts).2 ≠ .returned) := by
  obtain ⟨hpos, hending⟩ := run_eq_count hends hcall hs ts
  have hreturned : (L.run s ts).2 = some .success ↔ (count len goal most (pos s) ts).2 = .returned := by
    rw [← hending]
    cases (L.run s ts).2 with
    | none => exact ⟨fun h => (by cases h), fun h => (by cases h)⟩
    | some e =>
      cases e with
      | success => exact ⟨fun _ => rfl, fun _ => rfl⟩
      | error => exact ⟨fun h => (by cases h), fun h => (by cases h)⟩
  have hcount := @count_le_goal goal len most hmost (pos s) ts
  rw [← count_eq_goal_iff hmost hle, hreturned, hpos]
  constructor
  · intro hall
    refine ⟨fun hret => ?_, ?_⟩
    · have := hall hret
      omega
    · by_cases hret : (count len goal most (pos s) ts).2 = .returned
      · have := hall hret
        exact .inl (by omega)
      · exact .inr hret
  · rintro ⟨hgoal, hoffers⟩ hret
    exact (hgoal hret).trans (hoffers.resolve_right (not_not.mpr hret))

end CallLoop
