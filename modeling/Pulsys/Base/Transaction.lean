import Mathlib.Data.List.Perm.Basic
import Mathlib.Tactic.Common

/-!
# Serializable transactions

A transaction publishes the state its body arrives at, or leaves everything as it was.
Calls are serializable if what they returned and left is what they would have one after
the other, in some order.
-/

namespace Transaction

section
variable {ε α β : Type}

def require (p : Prop) [Decidable p] (e : ε) : Except ε Unit := if p then .ok () else .error e

def expect (o : Option α) (e : ε) : Except ε α := o.elim (.error e) .ok

theorem bind_eq_ok {x : Except ε α} {f : α → Except ε β} {b : β} :
    (x >>= f) = .ok b ↔ ∃ a, x = .ok a ∧ f a = .ok b := by
  cases x <;> simp [bind, Except.bind]

theorem pure_eq_ok {a b : α} : (pure a : Except ε α) = .ok b ↔ a = b := by
  simp [pure, Except.pure]

theorem require_eq_ok {p : Prop} [Decidable p] {e : ε} {u : Unit} :
    require p e = .ok u ↔ p := by
  by_cases hp : p <;> simp [require, hp]

theorem expect_eq_ok {o : Option α} {e : ε} {a : α} : expect o e = .ok a ↔ o = some a := by
  cases o <;> simp [expect]

end

variable {σ ε ρ κ : Type}

def transact (body : σ → Except ε (ρ × σ)) (s : σ) : Except ε ρ × σ :=
  match body s with
  | .ok (r, s') => (.ok r, s')
  | .error e => (.error e, s)

theorem transact_of_ok {body : σ → Except ε (ρ × σ)} {s s' : σ} {r : ρ}
    (h : body s = .ok (r, s')) : transact body s = (.ok r, s') := by
  rw [transact, h]

theorem transact_of_error {body : σ → Except ε (ρ × σ)} {s : σ} {e : ε}
    (h : body s = .error e) : transact body s = (.error e, s) := by
  rw [transact, h]

theorem body_of_transact {body : σ → Except ε (ρ × σ)} {s : σ} {r : ρ}
    (h : (transact body s).1 = .ok r) : body s = .ok (r, (transact body s).2) := by
  cases hb : body s with
  | error e =>
    rw [transact_of_error hb] at h
    cases h
  | ok p =>
    obtain ⟨r', s'⟩ := p
    rw [transact_of_ok hb] at h ⊢
    rw [Except.ok.inj h]

theorem unchanged_of_error {body : σ → Except ε (ρ × σ)} {s : σ} {e : ε}
    (h : (transact body s).1 = .error e) : (transact body s).2 = s := by
  cases hb : body s with
  | error e' => rw [transact_of_error hb]
  | ok p =>
    obtain ⟨r', s'⟩ := p
    rw [transact_of_ok hb] at h
    cases h

theorem transact_invariant {inv : σ → Prop} {body : σ → Except ε (ρ × σ)} {s : σ}
    (hbody : ∀ r s', body s = .ok (r, s') → inv s') (h : inv s) : inv (transact body s).2 := by
  cases hb : body s with
  | error e => rwa [transact_of_error hb]
  | ok p =>
    obtain ⟨r, s'⟩ := p
    rw [transact_of_ok hb]
    exact hbody r s' hb

abbrev Log (κ ε ρ : Type) := List (κ × Except ε ρ)

variable (exec : κ → σ → Except ε (ρ × σ))

def Serial : σ → Log κ ε ρ → σ → Prop
  | s, [], s' => s = s'
  | s, (c, o) :: log, s' =>
    (transact (exec c) s).1 = o ∧ Serial (transact (exec c) s).2 log s'

def Serializable (s : σ) (log : Log κ ε ρ) (s' : σ) : Prop :=
  ∃ order : Log κ ε ρ, order.Perm log ∧ Serial exec s order s'

variable {exec}

theorem Serial.filter_isOk {s s' : σ} {log : Log κ ε ρ} (h : Serial exec s log s') :
    Serial exec s (log.filter (fun c => c.2.toBool)) s' := by
  induction log generalizing s with
  | nil => exact h
  | cons c log ih =>
    obtain ⟨c, o⟩ := c
    obtain ⟨ho, hrest⟩ := h
    cases o with
    | error e =>
      rw [unchanged_of_error ho] at hrest
      rw [List.filter_cons_of_neg (by simp [Except.toBool])]
      exact ih hrest
    | ok r =>
      rw [List.filter_cons_of_pos (by simp [Except.toBool])]
      exact ⟨ho, ih hrest⟩

theorem Serial.invariant {inv : σ → Prop}
    (hstep : ∀ c s r s', inv s → exec c s = .ok (r, s') → inv s') {s s' : σ}
    {log : Log κ ε ρ} (h0 : inv s) (h : Serial exec s log s') : inv s' := by
  induction log generalizing s with
  | nil => exact h ▸ h0
  | cons c log ih =>
    obtain ⟨c, o⟩ := c
    exact ih (transact_invariant (fun r s' hb => hstep c s r s' h0 hb) h0) h.2

end Transaction
