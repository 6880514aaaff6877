import Pulsys.Base.Parties
import Pulsys.Blobstore.Local

/-!
# The integrity of the blob store

Uploads and deletions race and file operations may fail; still a canonical file has the
bytes that its name is the hash of. No temporary file is left by a call that has returned –
unless its removal failed (`temp_left_behind`).
-/

namespace Blobstore

open Bytes Runs Parties

section
variable (sha256 : Bytes → Bytes) (blobDir : Bytes)

def Intact (s : Store) : Prop :=
  ∀ oid content, s.blobs oid = some content → oidOf sha256 content = oid

def Phase.whole : Phase → Bool
  | .copying | .closing none | .statting | .making | .placing | .restatting => true
  | _ => false

def Phase.success : Phase → Option Stat
  | .removing (.ok st) | .returning (.ok st) | .done (.ok st) => some st
  | _ => none

def Phase.finished : Phase → Bool
  | .done _ => true
  | _ => false

structure Fits (tmp : ℕ → Option Bytes) (p : Put) : Prop where
  creating : p.phase = .creating → p.temp = none ∧ p.body = [] ∧ p.hashed = []
  whole : p.phase.whole = true →
    p.body = p.hashed ∧ ∃ n, p.temp = some n ∧ tmp n = some p.hashed
  success : ∀ st, p.phase.success = some st → st = statOf sha256 blobDir p.body
  holds : ∀ n, p.temp = some n → (tmp n).isSome = true

def Apart (p q : Put) : Prop := ∀ n, p.temp = some n → q.temp ≠ some n

structure Kept (stale : ℕ → Prop) (s : Store) : Prop where
  intact : Intact sha256 s
  orderly : Orderly (Fits sha256 blobDir s.tmp) Apart s.puts
  owned : ∀ n, (s.tmp n).isSome = true →
    stale n ∨ ∃ i p, s.puts i = some p ∧ p.temp = some n

def Effect.touched : Effect → Option ℕ
  | .nothing => none
  | .write n _ | .unlink n | .publish n _ _ => some n

theorem Effect.tmp_write (s : Store) (n : ℕ) (content : Bytes) :
    ((Effect.write n content).apply s).tmp n = some content :=
  Function.update_self _ _ _

theorem Effect.blobs_publish (s : Store) (n : ℕ) (oid content : Bytes) :
    ((Effect.publish n oid content).apply s).blobs oid = some content :=
  Function.update_self _ _ _

theorem Effect.blobs_publish_of_ne (s : Store) (n : ℕ) {oid oid' : Bytes} (content : Bytes)
    (h : oid' ≠ oid) : ((Effect.publish n oid content).apply s).blobs oid' = s.blobs oid' :=
  Function.update_of_ne h _ _

variable {sha256 blobDir} {s s' : Store} {e : Event} {p p' : Put} {a : Action} {effect : Effect}
  {i n : ℕ}

theorem Effect.tmp_of_ne (h : effect.touched ≠ some n) :
    (effect.apply s).tmp n = s.tmp n := by
  cases effect with
  | nothing => rfl
  | _ => exact Function.update_of_ne (fun heq => h (by rw [heq]; rfl)) _ _

theorem Acts.own (h : Acts sha256 blobDir s p a p' effect)
    (hn : effect.touched = some n) : p.temp = some n ∨ s.tmp n = none := by
  cases h with
  | create hphase hfresh =>
    cases hn
    exact .inr hfresh
  | write hphase htemp hfile | writeFails hphase htemp hfile | rename hphase htemp hfile
  | remove hphase htemp =>
    cases hn
    exact .inl htemp
  | _ => cases hn

theorem Acts.temp (h : Acts sha256 blobDir s p a p' effect)
    (hn : p'.temp = some n) : p.temp = some n ∨ s.tmp n = none := by
  cases h with
  | create hphase hfresh =>
    cases hn
    exact .inr hfresh
  | rename hphase htemp hfile | remove hphase htemp => cases hn
  | _ => exact .inl hn

theorem Acts.temp_of_touched (h : Acts sha256 blobDir s p a p' effect)
    (hn : effect.touched = some n) (hfile : ((effect.apply s).tmp n).isSome = true) :
    p'.temp = some n := by
  cases h with
  | create hphase hfresh => exact hn
  | write hphase htemp _ | writeFails hphase htemp _ =>
    cases hn
    exact htemp
  | rename hphase htemp _ | remove hphase htemp =>
    cases hn
    simp [Effect.apply] at hfile
  | _ => cases hn

theorem Acts.temp_of_untouched (h : Acts sha256 blobDir s p a p' effect)
    (hfits : Fits sha256 blobDir s.tmp p) (hn : effect.touched ≠ some n)
    (htemp : p.temp = some n) : p'.temp = some n := by
  cases h with
  | create hphase hfresh =>
    rw [(hfits.creating hphase).1] at htemp
    cases htemp
  | rename hphase htemp' _ | remove hphase htemp' =>
    rw [htemp] at htemp'
    exact absurd htemp'.symm hn
  | _ => exact htemp

theorem Acts.intact (h : Acts sha256 blobDir s p a p' effect)
    (hfits : Fits sha256 blobDir s.tmp p)
    (hs : Intact sha256 s) : Intact sha256 (effect.apply s) := by
  cases h with
  | rename hphase htemp hfile =>
    obtain ⟨-, n, htemp', hwhole⟩ := hfits.whole (by rw [hphase]; rfl)
    cases htemp.symm.trans htemp'
    cases hfile.symm.trans hwhole
    intro oid content hc
    by_cases hoid : oid = oidOf sha256 p.hashed
    · subst hoid
      rw [Effect.blobs_publish] at hc
      rw [← Option.some.inj hc]
    · rw [Effect.blobs_publish_of_ne _ _ _ hoid] at hc
      exact hs oid content hc
  | _ => exact hs

theorem Acts.fits (h : Acts sha256 blobDir s p a p' effect)
    (hfits : Fits sha256 blobDir s.tmp p) :
    Fits sha256 blobDir (effect.apply s).tmp p' := by
  cases h with
  | createFails hphase =>
    refine ⟨nofun, nofun, nofun, fun n hn => ?_⟩
    rw [(hfits.creating hphase).1] at hn
    cases hn
  | create hphase hfresh =>
    obtain ⟨-, hbody, hhashed⟩ := hfits.creating hphase
    refine ⟨nofun, fun _ => ⟨by rw [hbody, hhashed], _, rfl, ?_⟩, nofun, fun n hn => ?_⟩
    · rw [Effect.tmp_write, hhashed]
    · cases hn
      rw [Effect.tmp_write]
      rfl
  | write hphase htemp hfile =>
    obtain ⟨hbody, n, htemp', hwhole⟩ := hfits.whole (by rw [hphase]; rfl)
    cases htemp.symm.trans htemp'
    cases hfile.symm.trans hwhole
    refine ⟨?_, fun _ => ⟨by rw [hbody], _, htemp, Effect.tmp_write _ _ _⟩, ?_, fun m hm => ?_⟩
    · intro hcreating
      rw [hphase] at hcreating
      cases hcreating
    · intro st hst
      rw [hphase] at hst
      cases hst
    · cases hm.symm.trans htemp
      rw [Effect.tmp_write]
      rfl
  | writeFails hphase htemp hfile =>
    refine ⟨nofun, nofun, nofun, fun m hm => ?_⟩
    cases hm.symm.trans htemp
    rw [Effect.tmp_write]
    rfl
  | readEnds hphase | checks hphase | absent hphase | mkdir hphase | renameFails hphase =>
    have hw := hfits.whole (by rw [hphase]; rfl)
    exact ⟨nofun, fun _ => hw, nofun, hfits.holds⟩
  | closed hphase | closeFails hphase | mkdirFails hphase | absentAgain hphase =>
    exact ⟨nofun, nofun, nofun, hfits.holds⟩
  | present hphase hblob | presentAgain hphase hblob =>
    obtain ⟨hbody, -⟩ := hfits.whole (by rw [hphase]; rfl)
    refine ⟨nofun, nofun, fun st hst => ?_, hfits.holds⟩
    rw [← Option.some.inj hst, hbody]
  | rename hphase htemp hfile =>
    obtain ⟨hbody, -⟩ := hfits.whole (by rw [hphase]; rfl)
    refine ⟨nofun, nofun, fun st hst => ?_, nofun⟩
    rw [← Option.some.inj hst, hbody]
  | @removeFails result hphase | @ret result hphase =>
    refine ⟨nofun, nofun, fun st hst => hfits.success st ?_, hfits.holds⟩
    rw [hphase]
    cases result <;> exact hst
  | @remove n result hphase htemp =>
    refine ⟨nofun, nofun, fun st hst => hfits.success st ?_, nofun⟩
    rw [hphase]
    cases result <;> exact hst

theorem Fits.congr {tmp tmp' : ℕ → Option Bytes} (h : Fits sha256 blobDir tmp p)
    (heq : ∀ n, p.temp = some n → tmp' n = tmp n) : Fits sha256 blobDir tmp' p where
  creating := h.creating
  whole hw := by
    obtain ⟨hbody, n, hn, hfile⟩ := h.whole hw
    exact ⟨hbody, n, hn, by rw [heq n hn, hfile]⟩
  success := h.success
  holds n hn := by
    rw [heq n hn]
    exact h.holds n hn

theorem fits_begin (tmp : ℕ → Option Bytes) (opts : PutOptions) :
    Fits sha256 blobDir tmp (begin opts) := by
  unfold begin
  by_cases h : opts.expectedOID ≠ [] ∧ (!validOID opts.expectedOID) = true
  · rw [if_pos h]
    exact ⟨nofun, nofun, nofun, nofun⟩
  · rw [if_neg h]
    exact ⟨fun _ => ⟨rfl, rfl, rfl⟩, nofun, nofun, nofun⟩

theorem Apart.symm {p q : Put} (h : Apart p q) : Apart q p := fun n hq hp => h n hp hq

inductive Steps (sha256 : Bytes → Bytes) (blobDir : Bytes) (s : Store) : Event → Store → Prop
  | start {i : ℕ} {opts : PutOptions} (hi : s.puts i = none) :
    Steps sha256 blobDir s (.start i opts)
      { s with puts := Function.update s.puts i (some (begin opts)) }
  | act {i : ℕ} {a : Action} {p p' : Put} {effect : Effect} (hp : s.puts i = some p)
    (hacts : Acts sha256 blobDir s p a p' effect) :
    Steps sha256 blobDir s (.act i a)
      { effect.apply s with puts := Function.update s.puts i (some p') }
  | delete {oid : Bytes} {failed : Bool} :
    Steps sha256 blobDir s (.delete oid failed)
      { s with blobs := Function.update s.blobs oid none }
  | deleteFails {oid : Bytes} {failed : Bool} : Steps sha256 blobDir s (.delete oid failed) s

theorem steps_of_step (h : step sha256 blobDir s e = some s') : Steps sha256 blobDir s e s' := by
  cases e with
  | start i opts =>
    simp only [step] at h
    split at h
    · next hi =>
      cases h
      exact .start hi
    · cases h
  | act i a =>
    obtain ⟨p, hp, h⟩ := Option.bind_eq_some_iff.mp h
    obtain ⟨⟨p', effect⟩, hact, h⟩ := Option.bind_eq_some_iff.mp h
    cases h
    exact .act hp (acts_of_act sha256 blobDir hact)
  | delete oid failed =>
    simp only [step] at h
    split at h
    · cases h
      exact .delete
    · cases h
      exact .deleteFails

theorem owned_update {v : Put} (h : ∃ j q, s.puts j = some q ∧ q.temp = some n)
    (hi : ∀ p, s.puts i = some p → p.temp = some n → v.temp = some n) :
    ∃ j q, Function.update s.puts i (some v) j = some q ∧ q.temp = some n := by
  obtain ⟨j, q, hq, htemp⟩ := h
  by_cases hj : j = i
  · subst hj
    exact ⟨j, v, Function.update_self _ _ _, hi q hq htemp⟩
  · exact ⟨j, q, (Function.update_of_ne hj _ _).trans hq, htemp⟩

variable {stale : ℕ → Prop}

theorem Kept.act (h : Kept sha256 blobDir stale s) (hp : s.puts i = some p)
    (hacts : Acts sha256 blobDir s p a p' effect) :
    Kept sha256 blobDir stale
      { effect.apply s with puts := Function.update s.puts i (some p') } := by
  have hfits := h.orderly.each i p hp
  -- a file of the call's own, or a new one, is no other call's
  have hother : ∀ j q n, j ≠ i → s.puts j = some q → p.temp = some n ∨ s.tmp n = none →
      q.temp ≠ some n := by
    rintro j q n hne hq (htemp | hfresh) hn
    · exact h.orderly.pair i j p q (Ne.symm hne) hp hq n htemp hn
    · have hfile := (h.orderly.each j q hq).holds n hn
      rw [hfresh] at hfile
      cases hfile
  refine ⟨hacts.intact hfits h.intact, ?_, fun n hn => ?_⟩
  · have hrest : Orderly (Fits sha256 blobDir (effect.apply s).tmp) Apart
        (Function.update s.puts i none) :=
      h.orderly.leave.imp (fun j q hq hfits' => by
        obtain ⟨hne, hq⟩ := ne_of_leave hq
        exact hfits'.congr (fun n hn => Effect.tmp_of_ne
          (fun htouched => hother j q n hne hq (hacts.own htouched) hn)))
    have hnew := hrest.change (i := i) (fun _ _ => Apart.symm) (hacts.fits hfits)
      (fun j q hne hq n hn => hother j q n hne (of_leave hq) (hacts.temp hn))
    rw [Function.update_idem] at hnew
    exact hnew
  · by_cases htouched : effect.touched = some n
    · exact .inr ⟨i, p', Function.update_self _ _ _, hacts.temp_of_touched htouched hn⟩
    · have hold : (s.tmp n).isSome = true := by
        rw [← Effect.tmp_of_ne htouched]
        exact hn
      refine (h.owned n hold).imp_right (fun h => owned_update h (fun q hq htemp => ?_))
      cases hp.symm.trans hq
      exact hacts.temp_of_untouched hfits htouched htemp

theorem Kept.step (h : Kept sha256 blobDir stale s) (hs : step sha256 blobDir s e = some s') :
    Kept sha256 blobDir stale s' := by
  cases steps_of_step hs with
  | @start i opts hi =>
    refine ⟨h.intact, h.orderly.change (fun _ _ => Apart.symm) (fits_begin _ opts)
      (fun _ _ _ _ _ hn => nomatch (show none = some _ from hn)), fun n hn => ?_⟩
    refine (h.owned n hn).imp_right (fun h => owned_update h (fun q hq _ => ?_))
    rw [hi] at hq
    cases hq
  | act hp hacts => exact h.act hp hacts
  | @delete oid failed =>
    refine ⟨fun oid' content hc => ?_, h.orderly, h.owned⟩
    exact h.intact oid' content (of_leave hc)
  | deleteFails => exact h

theorem kept_of_idle (hidle : ∀ i, s.puts i = none) (h : Intact sha256 s) :
    Kept sha256 blobDir (fun n => (s.tmp n).isSome = true) s where
  intact := h
  orderly := by
    rw [funext hidle]
    exact orderly_none
  owned _ hn := .inl hn

variable {es : List Event}

theorem Kept.run (h : Kept sha256 blobDir stale s)
    (hrun : run (Blobstore.step sha256 blobDir) s es = some s') : Kept sha256 blobDir stale s' :=
  invariant_of_step (fun _ _ _ hs => Kept.step hs) h hrun

theorem step_cases (hs : step sha256 blobDir s e = some s') (hp : s'.puts i = some p) :
    s.puts i = some p ∨ (∃ opts, p = begin opts)
      ∨ ∃ q a effect, e = .act i a ∧ s.puts i = some q ∧ Acts sha256 blobDir s q a p effect
        ∧ s'.blobs = (effect.apply s).blobs := by
  cases steps_of_step hs with
  | @start j opts hj =>
    rcases update_eq_some hp with ⟨-, heq⟩ | ⟨-, hold⟩
    · exact .inr (.inl ⟨opts, (Option.some.inj heq).symm⟩)
    · exact .inl hold
  | @act j a q q' effect hq hacts =>
    rcases update_eq_some hp with ⟨rfl, heq⟩ | ⟨-, hold⟩
    · cases heq
      exact .inr (.inr ⟨q, a, effect, rfl, hq, hacts, rfl⟩)
    · exact .inl hold
  | delete => exact .inl hp
  | deleteFails => exact .inl hp

theorem begin_phase (opts : PutOptions) :
    (begin opts).phase = .creating ∨ ∃ e, (begin opts).phase = .returning (.error e) := by
  unfold begin
  by_cases h : opts.expectedOID ≠ [] ∧ (!validOID opts.expectedOID) = true
  · exact .inr ⟨_, if_pos h⟩
  · exact .inl (if_neg h)

theorem success_begin (opts : PutOptions) : (begin opts).phase.success = none := by
  rcases begin_phase opts with h | ⟨e, h⟩
  · rw [h]
    rfl
  · rw [h]
    rfl

def Present (s : Store) (k : ℕ × Stat) : Prop :=
  (∃ p, s.puts k.1 = some p ∧ p.phase.finished = false) ∧ (s.blobs k.2.oid).isSome = true

def Claimed (s : Store) (k : ℕ × Stat) : Prop :=
  (∃ p, s.puts k.1 = some p ∧ p.phase.success = some k.2) ∧ ¬ Present s k

theorem claimed_step {k : ℕ × Stat} (hs : step sha256 blobDir s e = some s')
    (h : Claimed s' k) : Claimed s k ∨ Present s k := by
  by_cases hpresent : Present s k
  · exact .inr hpresent
  refine .inl ⟨?_, hpresent⟩
  obtain ⟨⟨p, hp, hsuccess⟩, habsent⟩ := h
  rcases step_cases hs hp with hq | ⟨opts, rfl⟩ | ⟨q, a, effect, rfl, hq, hacts, hblobs⟩
  · exact ⟨p, hq, hsuccess⟩
  · rw [success_begin] at hsuccess
    cases hsuccess
  · cases hacts with
    | present hphase hblob | presentAgain hphase hblob =>
      refine absurd ⟨⟨q, hq, by rw [hphase]; rfl⟩, ?_⟩ hpresent
      rw [← Option.some.inj hsuccess]
      exact hblob
    | rename hphase htemp hfile =>
      refine absurd ⟨⟨_, hp, rfl⟩, ?_⟩ habsent
      rw [← Option.some.inj hsuccess, hblobs]
      exact (congrArg Option.isSome (Effect.blobs_publish _ _ _ _)).trans rfl
    | write hphase _ _ =>
      rw [hphase] at hsuccess
      cases hsuccess
    | @removeFails result hphase | @remove _ result hphase _ | @ret result hphase =>
      refine ⟨q, hq, ?_⟩
      rw [hphase]
      cases result <;> exact hsuccess
    | _ => cases hsuccess

theorem Acts.of_returning (h : Acts sha256 blobDir s p a p' effect)
    {r : Except PutError Stat}
    (hphase : p.phase = .returning r) : p'.phase = .done r := by
  cases h with
  | ret hret =>
    obtain rfl := Phase.returning.inj (hret.symm.trans hphase)
    rfl
  | _ => simp_all only [reduceCtorEq]

theorem Acts.not_done (h : Acts sha256 blobDir s p a p' effect)
    (r : Except PutError Stat) : p.phase ≠ .done r := by
  intro hphase
  cases h <;> simp_all only [reduceCtorEq]

def Placed (i : ℕ) (s : Store) : Prop :=
  ∃ p st, s.puts i = some p ∧ (p.phase = .returning (.ok st) ∨ p.phase = .done (.ok st))

theorem Placed.step (h : Placed i s) (hs : step sha256 blobDir s e = some s') : Placed i s' := by
  obtain ⟨p, st, hp, hphase⟩ := h
  cases steps_of_step hs with
  | @start j opts hj =>
    have hij : i ≠ j := by
      rintro rfl
      rw [hj] at hp
      cases hp
    exact ⟨p, st, (Function.update_of_ne hij _ _).trans hp, hphase⟩
  | @act j a q q' effect hq hacts =>
    by_cases hij : i = j
    · subst hij
      cases hp.symm.trans hq
      refine ⟨q', st, Function.update_self _ _ _, ?_⟩
      rcases hphase with hphase | hphase
      · exact .inr (hacts.of_returning hphase)
      · exact absurd hphase (hacts.not_done _)
    · exact ⟨p, st, (Function.update_of_ne hij _ _).trans hp, hphase⟩
  | delete => exact ⟨p, st, hp, hphase⟩
  | deleteFails => exact ⟨p, st, hp, hphase⟩

theorem blobs_of_failed {s₁ s₂ : Store} (hs : step sha256 blobDir s₁ (.act i a) = some s₂)
    (hrun : run (step sha256 blobDir) s₂ es = some s) {e : PutError} (hp : s.puts i = some p)
    (hphase : p.phase = .done (.error e)) : s₂.blobs = s₁.blobs := by
  cases steps_of_step hs with
  | act hq hacts =>
    cases hacts with
    | rename h htemp hfile =>
      have hplaced : Placed i s := invariant_of_step (fun _ _ _ h hs => Placed.step h hs)
        ⟨_, _, Function.update_self _ _ _, .inl rfl⟩ hrun
      obtain ⟨p', st, hp', hok⟩ := hplaced
      cases hp.symm.trans hp'
      rw [hphase] at hok
      rcases hok with hok | hok <;> cases hok
    | _ => rfl

def Phase.past : Phase → Bool
  | .returning _ | .done _ => true
  | _ => false

theorem Acts.past (h : Acts sha256 blobDir s p a p' effect)
    (hfits : Fits sha256 blobDir s.tmp p)
    (hpast : p'.phase.past = true) :
    p'.temp = none ∨ a = .remove true ∨ (p.phase.past = true ∧ p'.temp = p.temp) := by
  cases h with
  | createFails hphase => exact .inl (hfits.creating hphase).1
  | write hphase _ _ =>
    rw [hphase] at hpast
    cases hpast
  | rename hphase htemp hfile => exact .inl rfl
  | removeFails hphase => exact .inr (.inl rfl)
  | remove hphase htemp => exact .inl rfl
  | ret hphase => exact .inr (.inr ⟨by rw [hphase]; rfl, rfl⟩)
  | _ => cases hpast

theorem temp_of_past {s₀ : Store} (hidle : ∀ i, s₀.puts i = none) (hintact : Intact sha256 s₀)
    (hrun : run (step sha256 blobDir) s₀ es = some s) (hp : s.puts i = some p)
    (hpast : p.phase.past = true) : p.temp = none ∨ .act i (.remove true) ∈ es := by
  -- from the end: the last event has brought the call past its deferred function, or an earlier one
  induction es using List.reverseRecOn generalizing s p with
  | nil =>
    cases hrun
    rw [hidle i] at hp
    cases hp
  | append_singleton es e ih =>
    obtain ⟨s₁, hfirst, hlast⟩ := run_append.mp hrun
    obtain ⟨s₂, hs, hend⟩ := run_cons.mp hlast
    cases hend
    rcases step_cases hs hp with hq | ⟨opts, rfl⟩ | ⟨q, a, effect, rfl, hq, hacts, -⟩
    · exact (ih hfirst hq hpast).imp_right (List.mem_append_left _)
    · exact .inl rfl
    · have hfits := ((kept_of_idle hidle hintact).run hfirst).orderly.each i q hq
      rcases hacts.past hfits hpast with hnone | rfl | ⟨hpast', heq⟩
      · exact .inl hnone
      · exact .inr (List.mem_append_right _ (List.mem_singleton.mpr rfl))
      · rw [heq]
        exact (ih hfirst hq hpast').imp_right (List.mem_append_left _)

/-- **The blob store keeps its integrity**, whatever uploads and deletions do and whichever
operations fail: canonical files have the bytes of their names, success reports what was read
and stored, failure changes nothing, and temporary files go, unless `os.Remove` fails. -/
theorem store_integrity (sha256 : Bytes → Bytes) (blobDir : Bytes) (s₀ s : Store)
    (es : List Event) (hidle : ∀ i, s₀.puts i = none) (hintact : Intact sha256 s₀)
    (hrun : run (step sha256 blobDir) s₀ es = some s) :
    Intact sha256 s
      ∧ (∀ i p st, s.puts i = some p → p.phase = .done (.ok st) →
          st = statOf sha256 blobDir p.body
            ∧ ∃ s₁, Visits (step sha256 blobDir) s₀ es s₁ ∧ Present s₁ (i, st))
      ∧ (∀ i p e, s.puts i = some p → p.phase = .done (.error e) →
          ∀ es₁ a es₂ s₁ s₂, es = es₁ ++ .act i a :: es₂ →
            run (step sha256 blobDir) s₀ es₁ = some s₁ →
            step sha256 blobDir s₁ (.act i a) = some s₂ → s₂.blobs = s₁.blobs)
      ∧ (∀ i p r, s.puts i = some p → p.phase = .done r →
          p.temp = none ∨ .act i (.remove true) ∈ es)
      ∧ (∀ n, (s.tmp n).isSome = true →
          (s₀.tmp n).isSome = true ∨ ∃ i p, s.puts i = some p ∧ p.temp = some n) := by
  have hkept : Kept sha256 blobDir (fun n => (s₀.tmp n).isSome = true) s :=
    (kept_of_idle hidle hintact).run hrun
  refine ⟨hkept.intact, fun i p st hp hphase => ⟨?_, ?_⟩, ?_, ?_, hkept.owned⟩
  · exact (hkept.orderly.each i p hp).success st (by rw [hphase]; rfl)
  · have hclaimed : Claimed s (i, st) := by
      refine ⟨⟨p, hp, by rw [hphase]; rfl⟩, ?_⟩
      rintro ⟨⟨q, hq, hunfinished⟩, -⟩
      cases hp.symm.trans hq
      rw [hphase] at hunfinished
      cases hunfinished
    rcases @had_or_made _ _ _ _ Claimed Present (fun _ _ _ _ => claimed_step) _ _ _ hrun _ hclaimed
      with ⟨⟨q, hq, -⟩, -⟩ | hmade
    · rw [hidle] at hq
      cases hq
    · exact hmade
  · rintro i p e hp hphase es₁ a es₂ s₁ s₂ rfl hfirst hs
    obtain ⟨s₁', hfirst', hrest⟩ := run_append.mp hrun
    cases hfirst.symm.trans hfirst'
    obtain ⟨s₂', hs', hrest⟩ := run_cons.mp hrest
    cases hs.symm.trans hs'
    exact blobs_of_failed hs hrest hp hphase
  · intro i p r hp hphase
    exact temp_of_past hidle hintact hrun hp (by rw [hphase]; rfl)

end

def noFiles : Store where
  blobs _ := none
  tmp _ := none
  puts _ := none

def racing : List Event :=
  [.start 0 {}, .start 1 {}, .act 0 (.createTemp (some 0)), .act 1 (.createTemp (some 1)),
    .act 0 (.read [7] none), .act 1 (.read [7] none), .act 1 (.readEnds none),
    .act 0 (.readEnds none), .act 0 (.close false), .act 1 (.close false), .act 0 (.stat false),
    .act 0 (.mkdir false), .act 0 (.rename false), .act 1 (.stat false),
    .delete (oidOf firstByteHash [7]) false,
    .act 1 (.remove false), .act 1 .ret]

/-- The second upload finds the blob of the first; when it returns, the blob is gone,
but it was there during the call. -/
theorem store_integrity_racing :
    ∃ s p st, run (step firstByteHash []) noFiles racing = some s
      ∧ s.puts 1 = some p ∧ p.phase = .done (.ok st) ∧ p.temp = none ∧ st.size = 1
      ∧ s.blobs st.oid = none
      ∧ ∃ s₁, Visits (step firstByteHash []) noFiles racing s₁ ∧ Present s₁ (1, st) := by
  refine ⟨_, _, _, rfl, rfl, rfl, rfl, rfl, rfl, ?_⟩
  have hintact : Intact firstByteHash noFiles := fun _ _ h => absurd h nofun
  exact ((store_integrity _ _ _ _ _ (fun _ => rfl) hintact rfl).2.1 1 _ _ rfl rfl).2

def unremovable : List Event :=
  [.start 0 {}, .act 0 (.createTemp (some 0)), .act 0 (.readEnds (some .read)),
    .act 0 (.close false), .act 0 (.remove true), .act 0 .ret]

/-- **The temporary file of an upload that has returned is still there** when its
removal has failed: `cleanup` ignores the error. -/
theorem temp_left_behind :
    ∃ s p e, run (step id []) noFiles unremovable = some s ∧ s.puts 0 = some p
      ∧ p.phase = .done (.error e) ∧ p.temp = some 0 ∧ s.tmp 0 = some [] :=
  ⟨_, _, _, rfl, rfl, rfl, rfl, rfl⟩

end Blobstore
