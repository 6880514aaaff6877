import Pulsys.Base.Readers
import Pulsys.Blobstore.Local

/-!
# A call of Put, from its beginning to its end

A caller of `Put` sees one call: it hands over a reader, and gets a descriptor or an
error. Here `Put` is a function of what the reader gives and of which file operations
fail. It is one of the runs of the store (`put_is_run`), the one in which nobody else
does anything.
-/

namespace Blobstore

open Bytes Runs Readers

structure Faults where
  createTemp : Bool := false
  close : Bool := false
  stat : Bool := false
  mkdir : Bool := false
  rename : Bool := false
  statAgain : Bool := false

structure PutDone (ρ : Type) where
  result : Except PutError Stat
  blobs : Bytes → Option Bytes
  reader : ρ

def ctxReader {ρ : Type} (canceled : ρ → Bool) (read : ρ → ℕ → Read UInt8 CopyError ρ) (r : ρ) :
    Read UInt8 CopyError ρ :=
  if canceled r then ⟨[], some (some .canceled), r⟩ else read r (32 * 1024)

section
variable (sha256 : Bytes → Bytes) (blobDir : Bytes) (faults : Faults)

def foundAgain (blobs : Bytes → Option Bytes) (hashed : Bytes) :
    Except PutError Stat × (Bytes → Option Bytes) :=
  if faults.statAgain = false ∧ (blobs (oidOf sha256 hashed)).isSome then
    (.ok (statOf sha256 blobDir hashed), blobs)
  else (.error .rename, blobs)

def renamed (blobs : Bytes → Option Bytes) (hashed : Bytes) :
    Except PutError Stat × (Bytes → Option Bytes) :=
  if faults.rename then foundAgain sha256 blobDir faults blobs hashed
  else
    (.ok (statOf sha256 blobDir hashed),
      Function.update blobs (oidOf sha256 hashed) (some hashed))

def placed (blobs : Bytes → Option Bytes) (hashed : Bytes) :
    Except PutError Stat × (Bytes → Option Bytes) :=
  if faults.stat = false ∧ (blobs (oidOf sha256 hashed)).isSome then
    (.ok (statOf sha256 blobDir hashed), blobs)
  else if faults.mkdir then (.error .mkdir, blobs)
  else renamed sha256 blobDir faults blobs hashed

def settled (blobs : Bytes → Option Bytes) (opts : PutOptions) (hashed : Bytes) :
    Option CopyError → Except PutError Stat × (Bytes → Option Bytes)
  | some cause => (.error (.copy cause), blobs)
  | none =>
    if faults.close then (.error .close, blobs)
    else
      match checked sha256 blobDir opts hashed with
      | .error e => (.error e, blobs)
      | .ok _ => placed sha256 blobDir faults blobs hashed

def put {ρ : Type} (read : ρ → Read UInt8 CopyError ρ) (fuel : ℕ)
    (blobs : Bytes → Option Bytes) (opts : PutOptions) (r : ρ) : Option (PutDone ρ) :=
  if opts.expectedOID ≠ [] ∧ !validOID opts.expectedOID then
    some ⟨.error (.invalidOID opts.expectedOID), blobs, r⟩
  else if faults.createTemp then some ⟨.error .createTemp, blobs, r⟩
  else
    (copy read fuel r).map (fun c =>
      ⟨(settled sha256 blobDir faults blobs opts c.data c.failure).1,
        (settled sha256 blobDir faults blobs opts c.data c.failure).2, c.reader⟩)

theorem checked_ok_iff (opts : PutOptions) (hashed : Bytes) :
    (∃ st, checked sha256 blobDir opts hashed = .ok st)
      ↔ (opts.expectedSize ≤ 0 ∨ (hashed.length : ℤ) = opts.expectedSize)
        ∧ (opts.expectedOID = [] ∨ oidOf sha256 hashed = opts.expectedOID) := by
  unfold checked
  by_cases hsize : 0 < opts.expectedSize ∧ (hashed.length : ℤ) ≠ opts.expectedSize
  · rw [if_pos hsize]
    refine iff_of_false (fun h => nomatch h) ?_
    rintro ⟨h | h, -⟩
    · omega
    · exact hsize.2 h
  · have hsize' : opts.expectedSize ≤ 0 ∨ (hashed.length : ℤ) = opts.expectedSize := by omega
    rw [if_neg hsize]
    by_cases hoid : opts.expectedOID ≠ [] ∧ oidOf sha256 hashed ≠ opts.expectedOID
    · rw [if_pos hoid]
      exact iff_of_false (fun h => nomatch h) (fun h => absurd h.2 (not_or.mpr hoid))
    · rw [if_neg hoid]
      exact ⟨fun _ => ⟨hsize', not_and_or.mp hoid |>.imp not_not.mp not_not.mp⟩,
        fun _ => ⟨_, rfl⟩⟩

theorem placed_of_ne (blobs : Bytes → Option Bytes) {hashed oid : Bytes}
    (h : oid ≠ oidOf sha256 hashed) :
    (placed sha256 blobDir faults blobs hashed).2 oid = blobs oid := by
  unfold placed renamed foundAgain
  split
  · rfl
  · split
    · rfl
    · split
      · split <;> rfl
      · exact Function.update_of_ne h _ _

theorem placed_new_iff (blobs : Bytes → Option Bytes) (hashed : Bytes) :
    (∃ oid, blobs oid = none ∧ (placed sha256 blobDir faults blobs hashed).2 oid ≠ none)
      ↔ blobs (oidOf sha256 hashed) = none ∧ faults.mkdir = false ∧ faults.rename = false := by
  have hself (hnone : blobs (oidOf sha256 hashed) = none) :
      (placed sha256 blobDir faults blobs hashed).2 (oidOf sha256 hashed) ≠ none
        ↔ faults.mkdir = false ∧ faults.rename = false := by
    cases hmkdir : faults.mkdir <;> cases hrename : faults.rename <;>
      simp [placed, renamed, foundAgain, hnone, hmkdir, hrename]
  constructor
  · rintro ⟨oid, hnone, hnew⟩
    have hoid : oid = oidOf sha256 hashed := by
      by_contra hne
      exact hnew ((placed_of_ne sha256 blobDir faults blobs hne).trans hnone)
    subst hoid
    exact ⟨hnone, (hself hnone).mp hnew⟩
  · rintro ⟨hnone, hfaults⟩
    exact ⟨_, hnone, (hself hnone).mpr hfaults⟩

theorem settled_new_iff (blobs : Bytes → Option Bytes) (opts : PutOptions) (hashed : Bytes)
    (failure : Option CopyError) :
    (∃ oid, blobs oid = none
        ∧ (settled sha256 blobDir faults blobs opts hashed failure).2 oid ≠ none)
      ↔ failure = none ∧ faults.close = false
        ∧ (∃ st, checked sha256 blobDir opts hashed = .ok st)
        ∧ blobs (oidOf sha256 hashed) = none ∧ faults.mkdir = false ∧ faults.rename = false := by
  have hsame : ¬ ∃ oid, blobs oid = none ∧ blobs oid ≠ none := fun ⟨_, hnone, hsome⟩ => hsome hnone
  unfold settled
  cases failure with
  | some cause => exact iff_of_false hsame (fun h => nomatch h.1)
  | none =>
    cases hclose : faults.close with
    | true => exact iff_of_false hsame (fun h => nomatch h.2.1)
    | false =>
      cases hchecked : checked sha256 blobDir opts hashed with
      | error e => exact iff_of_false hsame (fun h => nomatch h.2.2.1)
      | ok st =>
        have hnew := placed_new_iff sha256 blobDir faults blobs hashed
        exact hnew.trans ⟨fun h => ⟨rfl, rfl, ⟨st, rfl⟩, h⟩, fun h => h.2.2.2⟩

def Ends (s : Store) (i : ℕ) (done : Except PutError Stat × (Bytes → Option Bytes)) : Prop :=
  ∃ as s' p, run (step sha256 blobDir) s (List.map (.act i) as) = some s'
    ∧ s'.puts i = some p ∧ p.phase = .done done.1 ∧ s'.blobs = done.2

variable {sha256 blobDir}

theorem ends_of_act {s : Store} {i : ℕ} {p p' : Put} {a : Action} {effect : Effect}
    {done : Except PutError Stat × (Bytes → Option Bytes)} (hp : s.puts i = some p)
    (hact : act sha256 blobDir s p a = some (p', effect))
    (h : ∀ s', s'.puts i = some p' → s'.blobs = (effect.apply s).blobs →
      s'.tmp = (effect.apply s).tmp → Ends sha256 blobDir s' i done) :
    Ends sha256 blobDir s i done := by
  obtain ⟨as, s', q, hrun, hrest⟩ := h
    { effect.apply s with puts := Function.update s.puts i (some p') }
    (Function.update_self _ _ _) rfl rfl
  refine ⟨a :: as, s', q, run_cons.mpr ⟨_, ?_, hrun⟩, hrest⟩
  simp only [step, hp, hact, Option.bind_eq_bind, Option.bind_some]

variable {s : Store} {i n : ℕ} {opts : PutOptions} {temp : Option ℕ} {body hashed : Bytes}
  {result : Except PutError Stat} {blobs : Bytes → Option Bytes}

theorem ends_returning (hp : s.puts i = some ⟨opts, .returning result, temp, body, hashed⟩)
    (hblobs : s.blobs = blobs) : Ends sha256 blobDir s i (result, blobs) :=
  ends_of_act (a := .ret) hp rfl
    (fun s' hp' hblobs' _ => ⟨[], s', _, rfl, hp', rfl, hblobs'.trans hblobs⟩)

theorem ends_removing (hp : s.puts i = some ⟨opts, .removing result, some n, body, hashed⟩)
    (hblobs : s.blobs = blobs) : Ends sha256 blobDir s i (result, blobs) :=
  ends_of_act (a := .remove false) hp rfl
    (fun _ hp' hblobs' _ => ends_returning hp' (hblobs'.trans hblobs))

theorem ends_restatting (hp : s.puts i = some ⟨opts, .restatting, some n, body, hashed⟩)
    (hblobs : s.blobs = blobs) :
    Ends sha256 blobDir s i (foundAgain sha256 blobDir faults blobs hashed) := by
  subst hblobs
  unfold foundAgain
  by_cases hpresent : faults.statAgain = false ∧ (s.blobs (oidOf sha256 hashed)).isSome = true
  · rw [if_pos hpresent]
    exact ends_of_act (a := .statAgain faults.statAgain) hp (if_pos hpresent)
      (fun _ hp' hblobs' _ => ends_removing hp' hblobs')
  · rw [if_neg hpresent]
    exact ends_of_act (a := .statAgain faults.statAgain) hp (if_neg hpresent)
      (fun _ hp' hblobs' _ => ends_removing hp' hblobs')

theorem ends_placing (hp : s.puts i = some ⟨opts, .placing, some n, body, hashed⟩)
    (hblobs : s.blobs = blobs) (hfile : s.tmp n = some hashed) :
    Ends sha256 blobDir s i (renamed sha256 blobDir faults blobs hashed) := by
  subst hblobs
  unfold renamed
  cases hrename : faults.rename with
  | true =>
    exact ends_of_act (a := .rename true) hp rfl
      (fun _ hp' hblobs' _ => ends_restatting faults hp' hblobs')
  | false =>
    have hact : act sha256 blobDir s ⟨opts, .placing, some n, body, hashed⟩ (.rename false)
        = some (⟨opts, .returning (.ok (statOf sha256 blobDir hashed)), none, body, hashed⟩,
          .publish n (oidOf sha256 hashed) hashed) := by
      simp only [act, hfile, Bool.false_eq_true, if_false, Option.bind_eq_bind, Option.bind_some]
    exact ends_of_act hp hact (fun _ hp' hblobs' _ => ends_returning hp' hblobs')

theorem ends_statting (hp : s.puts i = some ⟨opts, .statting, some n, body, hashed⟩)
    (hblobs : s.blobs = blobs) (hfile : s.tmp n = some hashed) :
    Ends sha256 blobDir s i (placed sha256 blobDir faults blobs hashed) := by
  subst hblobs
  unfold placed
  by_cases hpresent : faults.stat = false ∧ (s.blobs (oidOf sha256 hashed)).isSome = true
  · rw [if_pos hpresent]
    exact ends_of_act (a := .stat faults.stat) hp (if_pos hpresent)
      (fun _ hp' hblobs' _ => ends_removing hp' hblobs')
  · rw [if_neg hpresent]
    refine ends_of_act (a := .stat faults.stat) hp (if_neg hpresent)
      (fun s₁ hp₁ hblobs₁ htmp₁ => ?_)
    cases hmkdir : faults.mkdir with
    | true =>
      exact ends_of_act (a := .mkdir true) hp₁ rfl
        (fun _ hp₂ hblobs₂ _ => ends_removing hp₂ (hblobs₂.trans hblobs₁))
    | false =>
      refine ends_of_act (a := .mkdir false) hp₁ rfl (fun s₂ hp₂ hblobs₂ htmp₂ => ?_)
      refine ends_placing faults hp₂ (hblobs₂.trans hblobs₁) ?_
      rw [htmp₂]
      exact (congrFun htmp₁ n).trans hfile

theorem ends_closing {failure : Option CopyError}
    (hp : s.puts i = some ⟨opts, .closing failure, some n, body, hashed⟩)
    (hblobs : s.blobs = blobs) (hfile : s.tmp n = some hashed) :
    Ends sha256 blobDir s i (settled sha256 blobDir faults blobs opts hashed failure) := by
  cases failure with
  | some cause =>
    exact ends_of_act (a := .close faults.close) hp rfl
      (fun _ hp' hblobs' _ => ends_removing hp' (hblobs'.trans hblobs))
  | none =>
    unfold settled
    cases hclose : faults.close with
    | true =>
      exact ends_of_act (a := .close true) hp rfl
        (fun _ hp' hblobs' _ => ends_removing hp' (hblobs'.trans hblobs))
    | false =>
      cases hchecked : checked sha256 blobDir opts hashed with
      | error e =>
        have hact : act sha256 blobDir s ⟨opts, .closing none, some n, body, hashed⟩ (.close false)
            = some (⟨opts, .removing (.error e), some n, body, hashed⟩, .nothing) := by
          simp only [act, hchecked, Bool.false_eq_true, if_false]
        exact ends_of_act hp hact
          (fun _ hp' hblobs' _ => ends_removing hp' (hblobs'.trans hblobs))
      | ok st =>
        have hact : act sha256 blobDir s ⟨opts, .closing none, some n, body, hashed⟩ (.close false)
            = some (⟨opts, .statting, some n, body, hashed⟩, .nothing) := by
          simp only [act, hchecked, Bool.false_eq_true, if_false]
        exact ends_of_act hp hact (fun _ hp' hblobs' htmp' =>
          ends_statting faults hp' (hblobs'.trans hblobs) ((congrFun htmp' n).trans hfile))

/-- **A call of `Put` by itself is a run of the store.** -/
theorem put_is_run {ρ : Type} {read : ρ → Read UInt8 CopyError ρ} {fuel : ℕ} {r : ρ}
    {done : PutDone ρ} (hput : put sha256 blobDir faults read fuel blobs opts r = some done)
    (hsize : ∀ c, copy read fuel r = some c → c.data.length < 2 ^ 63) (hi : s.puts i = none)
    (hn : s.tmp n = none) (hblobs : s.blobs = blobs) :
    ∃ s₁, step sha256 blobDir s (.start i opts) = some s₁
      ∧ Ends sha256 blobDir s₁ i (done.result, done.blobs) := by
  -- the call begins
  suffices h : ∀ s₁, s₁.puts i = some (begin opts) → s₁.blobs = blobs → s₁.tmp n = none →
      Ends sha256 blobDir s₁ i (done.result, done.blobs) by
    refine ⟨{ s with puts := Function.update s.puts i (some (begin opts)) }, ?_,
      h _ (Function.update_self _ _ _) hblobs hn⟩
    simp only [step, hi]
  intro s₁ hp₁ hblobs₁ hn₁
  unfold begin at hp₁
  unfold put at hput
  by_cases hvalid : opts.expectedOID ≠ [] ∧ (!validOID opts.expectedOID) = true
  · rw [if_pos hvalid] at hput hp₁
    cases hput
    exact ends_returning hp₁ hblobs₁
  · rw [if_neg hvalid] at hput hp₁
    cases hcreate : faults.createTemp with
    | true =>
      rw [hcreate, if_pos rfl] at hput
      cases hput
      exact ends_of_act (a := .createTemp none) hp₁ rfl
        (fun _ hp' hblobs' _ => ends_returning hp' (hblobs'.trans hblobs₁))
    | false =>
      rw [hcreate, if_neg Bool.false_ne_true] at hput
      obtain ⟨c, hc, rfl⟩ := Option.map_eq_some_iff.mp hput
      have hact : act sha256 blobDir s₁ ⟨opts, .creating, none, [], []⟩ (.createTemp (some n))
          = some (⟨opts, .copying, some n, [], []⟩, .write n []) := by
        simp only [act, hn₁, Option.isNone_none, if_true]
      refine ends_of_act hp₁ hact (fun s₂ hp₂ hblobs₂ htmp₂ => ?_)
      -- the reads of the copy, taken together
      have hfile₂ : s₂.tmp n = some [] := by
        rw [htmp₂]
        exact Function.update_self _ _ _
      have hread : act sha256 blobDir s₂ ⟨opts, .copying, some n, [], []⟩ (.read c.data none)
          = some (⟨opts, .copying, some n, c.data, c.data⟩, .write n c.data) := by
        simp only [act, hfile₂, Option.bind_eq_bind, Option.bind_some, List.length_nil,
          Nat.zero_add, hsize c hc, if_true, List.nil_append]
      refine ends_of_act hp₂ hread (fun s₃ hp₃ hblobs₃ htmp₃ => ?_)
      refine ends_of_act (a := .readEnds c.failure) hp₃ rfl (fun s₄ hp₄ hblobs₄ htmp₄ => ?_)
      refine ends_closing faults hp₄ (hblobs₄.trans (hblobs₃.trans (hblobs₂.trans hblobs₁))) ?_
      rw [htmp₄]
      exact (congrFun htmp₃ n).trans (Function.update_self _ _ _)

theorem put_is_run_byte :
    ∃ done, put id [] {} (fun r => ⟨r, some none, []⟩) 1 (fun _ => none) {} [97] = some done
      ∧ ∃ s₁, step id [] ⟨fun _ => none, fun _ => none, fun _ => none⟩ (.start 0 {}) = some s₁
        ∧ Ends id [] s₁ 0 (done.result, done.blobs) := by
  have hput : put id [] {} (fun r => ⟨r, some none, []⟩) 1 (fun _ => none) {} [97] = some _ := rfl
  exact ⟨_, hput, put_is_run (n := 0) _ hput (fun _ hc => by cases hc; decide) rfl rfl rfl⟩

end

end Blobstore
