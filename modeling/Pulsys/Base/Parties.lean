import Mathlib.Logic.Function.Basic

/-!
# Parties that come and go

A family of parties, of which one at a time changes, arrives or leaves. `Parties.Orderly`
is something about every party and something about every two, and the rules say what is
left to prove when one party changes.
-/

namespace Parties

variable {ι α : Type}

structure Orderly (P : α → Prop) (R : α → α → Prop) (f : ι → Option α) : Prop where
  each : ∀ i a, f i = some a → P a
  pair : ∀ i j a b, i ≠ j → f i = some a → f j = some b → R a b

variable {P Q : α → Prop} {R : α → α → Prop} {f : ι → Option α}

theorem orderly_none : Orderly P R (fun _ : ι => none) :=
  ⟨nofun, nofun⟩

theorem Orderly.imp (h : Orderly P R f) (himp : ∀ i a, f i = some a → P a → Q a) :
    Orderly Q R f :=
  ⟨fun i a ha => himp i a ha (h.each i a ha), h.pair⟩

variable [DecidableEq ι] {i : ι}

theorem update_eq_some {j : ι} {v : Option α} {b : α} (h : Function.update f i v j = some b) :
    (j = i ∧ v = some b) ∨ (j ≠ i ∧ f j = some b) := by
  by_cases hj : j = i
  · subst hj
    rw [Function.update_self] at h
    exact .inl ⟨rfl, h⟩
  · rw [Function.update_of_ne hj] at h
    exact .inr ⟨hj, h⟩

theorem each_change (h : ∀ j b, f j = some b → P b) {a : α} (ha : P a) :
    ∀ j b, Function.update f i (some a) j = some b → P b := by
  intro j b hb
  rcases update_eq_some hb with ⟨-, heq⟩ | ⟨-, hb⟩
  · exact Option.some.inj heq ▸ ha
  · exact h j b hb

theorem ne_of_leave {j : ι} {b : α} (hb : Function.update f i none j = some b) :
    j ≠ i ∧ f j = some b := by
  rcases update_eq_some hb with ⟨-, heq⟩ | hb
  · cases heq
  · exact hb

theorem of_leave {j : ι} {b : α} (hb : Function.update f i none j = some b) : f j = some b :=
  (ne_of_leave hb).2

theorem each_leave (h : ∀ j b, f j = some b → P b) :
    ∀ j b, Function.update f i none j = some b → P b :=
  fun j b hb => h j b (of_leave hb)

theorem Orderly.leave (h : Orderly P R f) : Orderly P R (Function.update f i none) :=
  ⟨each_leave h.each,
    fun j k b c hne hb hc => h.pair j k b c hne (of_leave hb) (of_leave hc)⟩

theorem Orderly.change (hsymm : ∀ a b, R a b → R b a) (h : Orderly P R f) {a : α} (ha : P a)
    (hothers : ∀ j b, j ≠ i → f j = some b → R a b) :
    Orderly P R (Function.update f i (some a)) := by
  refine ⟨each_change h.each ha, fun j k b c hne hb hc => ?_⟩
  rcases update_eq_some hb with ⟨rfl, heq⟩ | ⟨hj, hj'⟩
  · cases heq
    rw [Function.update_of_ne hne.symm] at hc
    exact hothers k c hne.symm hc
  · rcases update_eq_some hc with ⟨rfl, heq⟩ | ⟨-, hk'⟩
    · cases heq
      exact hsymm _ _ (hothers j b hj hj')
    · exact h.pair j k b c hne hj' hk'

end Parties
