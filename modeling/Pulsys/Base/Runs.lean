import Mathlib.Tactic.Common

/-!
# Runs of a state machine

A machine is a step function on states and events; a run is a list of events, each of which
could occur when it did. `Runs.invariant` is the only induction over runs that is needed.
-/

namespace Runs

variable {σ ε : Type}

def run (step : σ → ε → Option σ) : σ → List ε → Option σ
  | s, [] => some s
  | s, e :: es => (step s e).bind (run step · es)

def Meets (step : σ → ε → Option σ) (cond : σ → ε → Prop) : σ → List ε → Prop
  | _, [] => True
  | s, e :: es => cond s e ∧ ∀ s', step s e = some s' → Meets step cond s' es

def Throughout (step : σ → ε → Option σ) (P : σ → Prop) : σ → List ε → Prop
  | s, [] => P s
  | s, e :: es => P s ∧ ∀ s', step s e = some s' → Throughout step P s' es

instance decidableMeets (step : σ → ε → Option σ) (cond : σ → ε → Prop)
    [∀ s e, Decidable (cond s e)] : ∀ s es, Decidable (Meets step cond s es)
  | _, [] => isTrue trivial
  | s, e :: es =>
    match h : step s e with
    | none => decidable_of_iff (cond s e) (by simp [Meets, h])
    | some s' =>
      have := decidableMeets step cond s' es
      decidable_of_iff (cond s e ∧ Meets step cond s' es) (by simp [Meets, h])

variable {step : σ → ε → Option σ}

theorem run_cons {s s' : σ} {e : ε} {es : List ε} :
    run step s (e :: es) = some s'
      ↔ ∃ s₁, step s e = some s₁ ∧ run step s₁ es = some s' := by
  rw [run, Option.bind_eq_some_iff]

theorem run_append {s s' : σ} {es₁ es₂ : List ε} :
    run step s (es₁ ++ es₂) = some s'
      ↔ ∃ s₁, run step s es₁ = some s₁ ∧ run step s₁ es₂ = some s' := by
  induction es₁ generalizing s with
  | nil => simp [run]
  | cons e es₁ ih =>
    rw [List.cons_append, run_cons]
    simp only [ih, run_cons]
    exact ⟨fun ⟨s₂, hs, s₁, h₁, h₂⟩ => ⟨s₁, ⟨s₂, hs, h₁⟩, h₂⟩,
      fun ⟨s₁, ⟨s₂, hs, h₁⟩, h₂⟩ => ⟨s₂, hs, s₁, h₁, h₂⟩⟩

theorem meets_append {cond : σ → ε → Prop} {s s₁ : σ} {es₁ es₂ : List ε}
    (h : Meets step cond s (es₁ ++ es₂)) (hrun : run step s es₁ = some s₁) :
    Meets step cond s es₁ ∧ Meets step cond s₁ es₂ := by
  induction es₁ generalizing s with
  | nil =>
    cases hrun
    exact ⟨trivial, h⟩
  | cons e es₁ ih =>
    obtain ⟨s₂, hs, hrest⟩ := run_cons.mp hrun
    obtain ⟨hc, htail⟩ := h
    obtain ⟨-, h₂⟩ := ih (htail s₂ hs) hrest
    refine ⟨⟨hc, fun s' hs' => ?_⟩, h₂⟩
    cases hs.symm.trans hs'
    exact (ih (htail _ hs) hrest).1

theorem throughout_iff {P : σ → Prop} {s : σ} {es : List ε} :
    Throughout step P s es ↔ ∀ es₁ s₁, es₁ <+: es → run step s es₁ = some s₁ → P s₁ := by
  induction es generalizing s with
  | nil =>
    constructor
    · intro h es₁ s₁ hpre hrun
      obtain rfl := List.prefix_nil.mp hpre
      cases hrun
      exact h
    · exact fun h => h [] s List.nil_prefix rfl
  | cons e es ih =>
    constructor
    · rintro ⟨hP, hrest⟩ es₁ s₁ hpre hrun
      cases es₁ with
      | nil =>
        cases hrun
        exact hP
      | cons e' es₁ =>
        obtain ⟨rfl, hpre'⟩ := List.cons_prefix_cons.mp hpre
        obtain ⟨s', hs, hrun'⟩ := run_cons.mp hrun
        exact ih.mp (hrest s' hs) es₁ s₁ hpre' hrun'
    · intro h
      refine ⟨h [] s List.nil_prefix rfl, fun s' hs => ih.mpr (fun es₁ s₁ hpre hrun => ?_)⟩
      exact h (e :: es₁) s₁ (List.cons_prefix_cons.mpr ⟨rfl, hpre⟩) (run_cons.mpr ⟨s', hs, hrun⟩)

theorem Throughout.imp {P Q : σ → Prop} (himp : ∀ s, P s → Q s) {s : σ} {es : List ε}
    (h : Throughout step P s es) : Throughout step Q s es :=
  throughout_iff.mpr (fun es₁ s₁ hpre hrun => himp s₁ (throughout_iff.mp h es₁ s₁ hpre hrun))

theorem Meets.and_of_forall {cond : σ → ε → Prop} {admits : ε → Prop} {s : σ} {es : List ε}
    (h : Meets step cond s es) (hadm : ∀ e ∈ es, admits e) :
    Meets step (fun s e => admits e ∧ cond s e) s es := by
  induction es generalizing s with
  | nil => trivial
  | cons e es ih =>
    exact ⟨⟨hadm e List.mem_cons_self, h.1⟩,
      fun s' hs' => ih (h.2 s' hs') (fun e' he' => hadm e' (List.mem_cons_of_mem _ he'))⟩

theorem meets_true (s : σ) (es : List ε) : Meets step (fun _ _ => True) s es := by
  induction es generalizing s with
  | nil => trivial
  | cons e es ih => exact ⟨trivial, fun s' _ => ih s'⟩

theorem invariant {cond : σ → ε → Prop} {inv : σ → Prop}
    (hstep : ∀ s e s', inv s → cond s e → step s e = some s' → inv s')
    {s s' : σ} {es : List ε} (h0 : inv s) (hmeets : Meets step cond s es)
    (hrun : run step s es = some s') : inv s' := by
  induction es generalizing s with
  | nil =>
    cases hrun
    exact h0
  | cons e es ih =>
    obtain ⟨s₁, hs, hrest⟩ := run_cons.mp hrun
    exact ih (hstep s e s₁ h0 hmeets.1 hs) (hmeets.2 s₁ hs) hrest

theorem throughout_of_meets {cond : σ → ε → Prop} {inv : σ → Prop}
    (hstep : ∀ s e s', inv s → cond s e → step s e = some s' → inv s')
    {s : σ} {es : List ε} (h0 : inv s) (hmeets : Meets step cond s es) :
    Throughout step inv s es := by
  induction es generalizing s with
  | nil => exact h0
  | cons e es ih =>
    exact ⟨h0, fun s' hs => ih (hstep s e s' h0 hmeets.1 hs) (hmeets.2 s' hs)⟩

theorem invariant_of_step {inv : σ → Prop}
    (hstep : ∀ s e s', inv s → step s e = some s' → inv s')
    {s s' : σ} {es : List ε} (h0 : inv s) (hrun : run step s es = some s') : inv s' :=
  invariant (fun s e s' hi _ hs => hstep s e s' hi hs) h0 (meets_true s es) hrun

theorem throughout_iff_meets {cond : σ → ε → Prop} {P aux : σ → Prop} {admits : ε → Prop}
    (hstep : ∀ s e s', aux s → P s → admits e → step s e = some s' →
      aux s' ∧ (P s' ↔ cond s e))
    {s s' : σ} {es : List ε} (haux : aux s) (hP : P s) (hadm : ∀ e ∈ es, admits e)
    (hrun : run step s es = some s') :
    Throughout step P s es ↔ Meets step cond s es := by
  induction es generalizing s with
  | nil => exact ⟨fun _ => trivial, fun _ => hP⟩
  | cons e es ih =>
    obtain ⟨s₁, hs, hrest⟩ := run_cons.mp hrun
    obtain ⟨haux₁, hiff⟩ := hstep s e s₁ haux hP (hadm e List.mem_cons_self) hs
    have hadm' : ∀ e' ∈ es, admits e' := fun e' he' => hadm e' (List.mem_cons_of_mem _ he')
    -- the step has one outcome only
    have hone : ∀ (Q : σ → Prop), (∀ s', step s e = some s' → Q s') ↔ Q s₁ := by
      intro Q
      refine ⟨fun h => h s₁ hs, fun h s' hs' => ?_⟩
      cases hs.symm.trans hs'
      exact h
    have hhead : Throughout step P s₁ es → P s₁ := by
      cases es with
      | nil => exact id
      | cons e' es' => exact And.left
    rw [Throughout, Meets, hone, hone]
    constructor
    · rintro ⟨-, h⟩
      exact ⟨hiff.mp (hhead h), (ih haux₁ (hhead h) hadm' hrest).mp h⟩
    · rintro ⟨hc, h⟩
      exact ⟨hP, (ih haux₁ (hiff.mpr hc) hadm' hrest).mpr h⟩

def Keeping (step : σ → ε → Option σ) (R : σ → σ → Prop) (s : σ) (es : List ε) : Prop :=
  ∀ es₁ es₂ s₁ s₂, es₁ ++ es₂ <+: es → run step s es₁ = some s₁ → run step s₁ es₂ = some s₂ →
    R s₁ s₂

theorem keeping_iff_meets {cond : σ → ε → Prop} {R : σ → σ → Prop} (hrefl : ∀ s, R s s)
    (htrans : ∀ s₁ s₂ s₃, R s₁ s₂ → R s₂ s₃ → R s₁ s₃)
    (hnone : ∀ s e, step s e = none → cond s e)
    (hstep : ∀ s e s', step s e = some s' → (R s s' ↔ cond s e)) {s : σ} {es : List ε} :
    Keeping step R s es ↔ Meets step cond s es := by
  constructor
  · intro h
    induction es generalizing s with
    | nil => trivial
    | cons e es ih =>
      refine ⟨?_, fun s' hs => ih (fun es₁ es₂ s₁ s₂ hpre h₁ h₂ => ?_)⟩
      · cases hs : step s e with
        | none => exact hnone s e hs
        | some s' =>
          refine (hstep s e s' hs).mp (h [] [e] s s' ?_ rfl (run_cons.mpr ⟨s', hs, rfl⟩))
          exact List.cons_prefix_cons.mpr ⟨rfl, List.nil_prefix⟩
      · exact h (e :: es₁) es₂ s₁ s₂ (List.cons_prefix_cons.mpr ⟨rfl, hpre⟩)
          (run_cons.mpr ⟨s', hs, h₁⟩) h₂
  · rintro h es₁ es₂ s₁ s₂ ⟨rest, rfl⟩ h₁ h₂
    obtain ⟨hall, -⟩ := meets_append h (run_append.mpr ⟨s₁, h₁, h₂⟩)
    obtain ⟨-, hlater⟩ := meets_append hall h₁
    have hinv : ∀ s e s', R s₁ s → cond s e → step s e = some s' → R s₁ s' :=
      fun s e s' hR hc hs => htrans s₁ s s' hR ((hstep s e s' hs).mpr hc)
    exact invariant hinv (hrefl s₁) hlater h₂

def Visits (step : σ → ε → Option σ) (s : σ) (es : List ε) (s₁ : σ) : Prop :=
  ∃ es₁, es₁ <+: es ∧ run step s es₁ = some s₁

theorem Visits.run_rest {s s₁ s' : σ} {es : List ε} (h : Visits step s es s₁)
    (hrun : run step s es = some s') : ∃ es₂, run step s₁ es₂ = some s' := by
  obtain ⟨es₁, ⟨es₂, rfl⟩, hfirst⟩ := h
  obtain ⟨s₂, hsame, hrest⟩ := run_append.mp hrun
  cases hfirst.symm.trans hsame
  exact ⟨es₂, hrest⟩

theorem had_or_made {κ : Type} {has made : σ → κ → Prop}
    (hstep : ∀ s e s' k, step s e = some s' → has s' k → has s k ∨ made s k)
    {s s' : σ} {es : List ε} (hrun : run step s es = some s') {k : κ} (hk : has s' k) :
    has s k ∨ ∃ s₁, Visits step s es s₁ ∧ made s₁ k := by
  induction es generalizing s with
  | nil =>
    cases hrun
    exact .inl hk
  | cons e es ih =>
    obtain ⟨s₁, hs, hrest⟩ := run_cons.mp hrun
    rcases ih hrest with hhad | ⟨s₂, ⟨es₁, hpre, hto⟩, hmade⟩
    · rcases hstep s e s₁ k hs hhad with hhad | hmade
      · exact .inl hhad
      · exact .inr ⟨s, ⟨[], List.nil_prefix, rfl⟩, hmade⟩
    · exact .inr ⟨s₂, ⟨e :: es₁, List.cons_prefix_cons.mpr ⟨rfl, hpre⟩,
        run_cons.mpr ⟨s₁, hs, hto⟩⟩, hmade⟩

/-! ## Machines that answer

A machine may instead take every event and answer each. Two such machines are
compared by what they answer. -/

def answers {ο : Type} (step : σ → ε → σ × ο) : σ → List ε → σ × List ο
  | s, [] => (s, [])
  | s, e :: es =>
    ((answers step (step s e).1 es).1, (step s e).2 :: (answers step (step s e).1 es).2)

theorem answers_concat {ο : Type} (step : σ → ε → σ × ο) (s : σ) (es : List ε) (e : ε) :
    (answers step s (es ++ [e])).1 = (step (answers step s es).1 e).1 := by
  induction es generalizing s with
  | nil => rfl
  | cons e' es ih => exact ih _

theorem answers_simulation {τ ο π : Type} (step : σ → ε → σ × ο) (step' : τ → ε → τ × π)
    (f : π → ο) {R : σ → τ → Prop}
    (hstep : ∀ s t e, R s t → R (step s e).1 (step' t e).1 ∧ (step s e).2 = f (step' t e).2)
    {s : σ} {t : τ} (h0 : R s t) (es : List ε) :
    R (answers step s es).1 (answers step' t es).1
      ∧ (answers step s es).2 = (answers step' t es).2.map f := by
  induction es generalizing s t with
  | nil => exact ⟨h0, rfl⟩
  | cons e es ih =>
    obtain ⟨hR, hout⟩ := hstep s t e h0
    obtain ⟨hend, houts⟩ := ih hR
    refine ⟨hend, ?_⟩
    rw [answers, answers, List.map_cons, hout, houts]

end Runs
