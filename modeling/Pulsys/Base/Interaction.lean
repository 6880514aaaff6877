import Mathlib.Data.List.Basic

/-!
# Programs that ask their surroundings

An `Interaction` ends, or asks for something and goes on by the answer: a statement about
the tree is one about every way the surroundings may behave. `run` puts it into
surroundings; `Keeps` and `Admits` are about all its paths.
-/

inductive Interaction (ε : Type) (answer : ε → Type) (α : Type)
  | done (a : α)
  | call (e : ε) (next : answer e → Interaction ε answer α)

namespace Interaction

variable {ε : Type} {answer : ε → Type} {α β σ : Type}

def bind : Interaction ε answer α → (α → Interaction ε answer β) → Interaction ε answer β
  | done a, f => f a
  | call e next, f => call e (fun r => (next r).bind f)

instance : Monad (Interaction ε answer) where
  pure := done
  bind := bind

def ask (e : ε) : Interaction ε answer (answer e) := call e done

def run (env : (e : ε) → σ → answer e × σ) : Interaction ε answer α → σ → List ε × α × σ
  | done a, s => ([], a, s)
  | call e next, s =>
    let r := env e s
    let rest := (next r.1).run env r.2
    (e :: rest.1, rest.2)

theorem run_bind (env : (e : ε) → σ → answer e × σ) (p : Interaction ε answer α)
    (f : α → Interaction ε answer β) (s : σ) :
    (p >>= f).run env s
      = ((p.run env s).1 ++ ((f (p.run env s).2.1).run env (p.run env s).2.2).1,
        ((f (p.run env s).2.1).run env (p.run env s).2.2).2) := by
  induction p generalizing s with
  | done a => rfl
  | call e next ih =>
    have hrest := ih (env e s).1 (env e s).2
    show (e :: ((next (env e s).1 >>= f).run env (env e s).2).1,
      ((next (env e s).1 >>= f).run env (env e s).2).2) = _
    rw [hrest]
    rfl

@[simp]
theorem run_ask_bind (env : (e : ε) → σ → answer e × σ) (e : ε)
    (f : answer e → Interaction ε answer β) (s : σ) :
    (ask e >>= f).run env s
      = (e :: ((f (env e s).1).run env (env e s).2).1, ((f (env e s).1).run env (env e s).2).2) :=
  rfl

@[simp]
theorem run_pure (env : (e : ε) → σ → answer e × σ) (a : α) (s : σ) :
    (pure a : Interaction ε answer α).run env s = ([], a, s) := rfl

def Keeps (rely : (e : ε) → answer e → Prop) (guarantee : ε → Prop) :
    Interaction ε answer α → Prop
  | done _ => True
  | call e next => guarantee e ∧ ∀ r, rely e r → (next r).Keeps rely guarantee

variable {rely : (e : ε) → answer e → Prop} {guarantee : ε → Prop}

theorem keeps_pure (a : α) : (pure a : Interaction ε answer α).Keeps rely guarantee := trivial

theorem Keeps.bind {p : Interaction ε answer α} {f : α → Interaction ε answer β}
    (hp : p.Keeps rely guarantee) (hf : ∀ a, (f a).Keeps rely guarantee) :
    (p >>= f).Keeps rely guarantee := by
  induction p with
  | done a => exact hf a
  | call e next ih => exact ⟨hp.1, fun r hr => ih r (hp.2 r hr)⟩

theorem keeps_ask_bind {e : ε} {f : answer e → Interaction ε answer β} (he : guarantee e)
    (hf : ∀ r, rely e r → (f r).Keeps rely guarantee) :
    (ask e >>= f).Keeps rely guarantee :=
  ⟨he, hf⟩

theorem keeps_ask {e : ε} (he : guarantee e) :
    (ask e : Interaction ε answer (answer e)).Keeps rely guarantee :=
  ⟨he, fun _ _ => trivial⟩

theorem Keeps.forall_mem_run {env : (e : ε) → σ → answer e × σ}
    (henv : ∀ e s, rely e (env e s).1) {p : Interaction ε answer α}
    (hp : p.Keeps rely guarantee) (s : σ) : ∀ e ∈ (p.run env s).1, guarantee e := by
  induction p generalizing s with
  | done a => exact fun e he => absurd he List.not_mem_nil
  | call e next ih =>
    intro e' he'
    rcases List.mem_cons.mp he' with rfl | he'
    · exact hp.1
    · exact ih _ (hp.2 _ (henv e s)) _ e' he'

theorem Keeps.run_state {env : (e : ε) → σ → answer e × σ} {p : Interaction ε answer α}
    (hp : p.Keeps (fun _ _ => True) (fun e => ∀ s, (env e s).2 = s)) (s : σ) :
    (p.run env s).2.2 = s := by
  induction p generalizing s with
  | done a => rfl
  | call e next ih =>
    show ((next (env e s).1).run env (env e s).2).2.2 = s
    rw [ih _ (hp.2 _ trivial), hp.1]

inductive Path :
    Interaction ε answer α → List ((e : ε) × answer e) → Interaction ε answer α → Prop
  | here (p : Interaction ε answer α) : Path p [] p
  | step {e : ε} {next : answer e → Interaction ε answer α} {r : answer e}
      {h : List ((e : ε) × answer e)} {q : Interaction ε answer α} (rest : Path (next r) h q) :
      Path (call e next) (⟨e, r⟩ :: h) q

variable {p q : Interaction ε answer α} {h h' : List ((e : ε) × answer e)}

theorem Path.split (hpath : Path p (h ++ h') q) : ∃ m, Path p h m ∧ Path m h' q := by
  induction h generalizing p with
  | nil => exact ⟨p, .here p, hpath⟩
  | cons x h ih =>
    cases hpath with
    | step rest =>
      obtain ⟨m, hm, hq⟩ := ih rest
      exact ⟨m, .step hm, hq⟩

theorem Path.trans {m : Interaction ε answer α} (hp : Path p h m) (hm : Path m h' q) :
    Path p (h ++ h') q := by
  induction hp with
  | here p => exact hm
  | step rest ih => exact .step (ih hm)

theorem Path.bind_left (hp : Path p h q) (f : α → Interaction ε answer β) :
    Path (p >>= f) h (q >>= f) := by
  induction hp with
  | here p => exact .here _
  | step rest ih => exact .step ih

section
variable (note : σ → (e : ε) → answer e → σ) (may : σ → ε → Prop)

def Admits (post : α → σ → Prop) : Interaction ε answer α → σ → Prop
  | done a, s => post a s
  | call e next, s => may s e ∧ ∀ r, (next r).Admits post (note s e r)

def noted (h : List ((e : ε) × answer e)) (s : σ) : σ := h.foldl (fun s x => note s x.1 x.2) s

end

variable {note : σ → (e : ε) → answer e → σ} {may : σ → ε → Prop} {post : α → σ → Prop} {s : σ}

theorem admits_pure {a : α} (ha : post a s) :
    (pure a : Interaction ε answer α).Admits note may post s := ha

theorem Admits.bind {post' : β → σ → Prop} {f : α → Interaction ε answer β}
    (hp : p.Admits note may post s)
    (hf : ∀ a s', post a s' → (f a).Admits note may post' s') :
    (p >>= f).Admits note may post' s := by
  induction p generalizing s with
  | done a => exact hf a s hp
  | call e next ih => exact ⟨hp.1, fun r => ih r (hp.2 r)⟩

theorem admits_ask_bind {e : ε} {f : answer e → Interaction ε answer α} (he : may s e)
    (hf : ∀ r, (f r).Admits note may post (note s e r)) :
    (ask e >>= f).Admits note may post s :=
  ⟨he, hf⟩

theorem admits_ask {e : ε} {post : answer e → σ → Prop} (he : may s e)
    (hpost : ∀ r, post r (note s e r)) :
    (ask e : Interaction ε answer (answer e)).Admits note may post s :=
  ⟨he, hpost⟩

theorem Keeps.admits (hp : p.Keeps (fun _ _ => True) guarantee)
    (hmay : ∀ e, guarantee e → ∀ s, may s e) (hnote : ∀ e, guarantee e → ∀ s r, note s e r = s)
    (hpost : ∀ a, post a s) : p.Admits note may post s := by
  induction p with
  | done a => exact hpost a
  | call e next ih =>
    refine ⟨hmay e hp.1 s, fun r => ?_⟩
    rw [hnote e hp.1]
    exact ih r (hp.2 r trivial)

theorem Admits.of_path (hp : p.Admits note may post s) (hpath : Path p h q) :
    q.Admits note may post (noted note h s) := by
  induction hpath generalizing s with
  | here p => exact hp
  | step rest ih => exact ih (hp.2 _)

theorem Admits.may_of_path (hp : p.Admits note may post s) {e : ε} {r : answer e}
    (hpath : Path p (h ++ ⟨e, r⟩ :: h') q) : may (noted note h s) e := by
  obtain ⟨m, hm, hrest⟩ := hpath.split
  cases hrest with
  | step rest => exact (hp.of_path hm).1

end Interaction
