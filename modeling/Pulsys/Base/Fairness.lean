import Mathlib.Data.Nat.Init
import Mathlib.Tactic.Common
import Pulsys.Base.Runs

/-!
# Runs without end, and fairness

A trace goes on forever, and may stand still. A set of events is treated fairly if, when
one of them could occur from some time on, one does. `Trace.leads_to` is the one rule in
which this is used.
-/

namespace Runs

variable {σ ε : Type}

structure Trace (step : σ → ε → Option σ) where
  state : ℕ → σ
  event : ℕ → Option ε
  next : ∀ n, match event n with
    | none => state (n + 1) = state n
    | some e => step (state n) e = some (state (n + 1))

namespace Trace

variable {step : σ → ε → Option σ} (t : Trace step)

variable {n : ℕ}

theorem state_succ_of_none (h : t.event n = none) : t.state (n + 1) = t.state n := by
  have hnext := t.next n
  rw [h] at hnext
  exact hnext

theorem step_of_some {e : ε} (h : t.event n = some e) :
    step (t.state n) e = some (t.state (n + 1)) := by
  have hnext := t.next n
  rw [h] at hnext
  exact hnext

theorem invariant {inv : σ → Prop} (hstep : ∀ s e s', inv s → step s e = some s' → inv s')
    (h : inv (t.state n)) {m : ℕ} (hm : n ≤ m) : inv (t.state m) := by
  induction m, hm using Nat.le_induction with
  | base => exact h
  | succ m _ ih =>
    cases hev : t.event m with
    | none => rwa [t.state_succ_of_none hev]
    | some e => exact hstep _ e _ ih (t.step_of_some hev)

def Fair (events : ε → Prop) : Prop :=
  ∀ n, (∀ m, n ≤ m → ∃ e, events e ∧ (step (t.state m) e).isSome = true) →
    ∃ m, n ≤ m ∧ ∃ e, events e ∧ t.event m = some e

variable {t}

theorem exists_of_fair {events : ε → Prop} (hfair : t.Fair events) {P Q : ℕ → Prop}
    (henabled : ∀ m, P m → ∃ e, events e ∧ (step (t.state m) e).isSome = true)
    (hkeep : ∀ m, P m → P (m + 1) ∨ Q m)
    (hreach : ∀ m e, P m → events e → t.event m = some e → Q m) (hP : P n) : ∃ m, n ≤ m ∧ Q m := by
  by_contra hnever
  have hnot : ∀ m, n ≤ m → ¬ Q m := fun m hm hQ => hnever ⟨m, hm, hQ⟩
  have hstays : ∀ m, n ≤ m → P m := by
    intro m hm
    induction m, hm using Nat.le_induction with
    | base => exact hP
    | succ m hm ih => exact (hkeep m ih).resolve_right (hnot m hm)
  obtain ⟨m, hm, e, he, hev⟩ := hfair n (fun m hm => henabled m (hstays m hm))
  exact hnot m hm (hreach m e (hstays m hm) he hev)

theorem leads_to {events : ε → Prop} (hfair : t.Fair events) {P Q : σ → Prop}
    (henabled : ∀ s, P s → ∃ e, events e ∧ (step s e).isSome = true)
    (hkeep : ∀ s e s', P s → step s e = some s' → P s' ∨ Q s')
    (hreach : ∀ s e s', P s → events e → step s e = some s' → Q s') (hP : P (t.state n)) :
    ∃ m, n ≤ m ∧ Q (t.state m) := by
  obtain ⟨m, hm, hQ⟩ : ∃ m, n ≤ m ∧ Q (t.state (m + 1)) := by
    refine exists_of_fair hfair (fun m => henabled (t.state m)) (fun m hm => ?_)
      (fun m e hm he hev => hreach _ e _ hm he (t.step_of_some hev)) hP
    cases hev : t.event m with
    | none =>
      rw [t.state_succ_of_none hev]
      exact .inl hm
    | some e => exact hkeep _ e _ hm (t.step_of_some hev)
  exact ⟨m + 1, by omega, hQ⟩

theorem occurs {events : ε → Prop} (hfair : t.Fair events) {P : σ → Prop}
    (henabled : ∀ s, P s → ∃ e, events e ∧ (step s e).isSome = true)
    (hkeep : ∀ s e s', P s → ¬ events e → step s e = some s' → P s') (hP : P (t.state n)) :
    ∃ m, n ≤ m ∧ P (t.state m) ∧ ∃ e, events e ∧ t.event m = some e := by
  refine exists_of_fair hfair (fun m => henabled (t.state m)) (fun m hm => ?_)
    (fun m e hm he hev => ⟨hm, e, he, hev⟩) hP
  cases hev : t.event m with
  | none =>
    rw [t.state_succ_of_none hev]
    exact .inl hm
  | some e =>
    by_cases he : events e
    · exact .inr ⟨hm, e, he, rfl⟩
    · exact .inl (hkeep _ e _ hm he (t.step_of_some hev))

end Trace

end Runs
