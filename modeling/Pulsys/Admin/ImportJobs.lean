import Pulsys.Base.Directory
import Pulsys.Base.Runs
import Pulsys.Base.Text

/-!
# Import jobs

Canceling a job, canceling it by force and deleting it look the row up in one statement
and act on it in another. The cancellation by force updates the row whatever its state, and
nothing else changes a finished job (`finished_jobs_stay_iff`).

The jobs are kept by River, a queue on top of the database. Its statements are parameters here
(`River`), of which only the guards are assumed that it documents (`River.Guarded`): canceling
leaves a finished job alone, deleting a running one, the worker's outcome is recorded for a
running job only, and workers and scheduler take up what is available or due.
-/

namespace Admin

open Bytes Text

inductive JobState
  | available
  | cancelled
  | completed
  | discarded
  | pending
  | retryable
  | running
  | scheduled
  deriving DecidableEq, Repr

inductive ImportJobStatus
  | queued
  | running
  | retrying
  | succeeded
  | failed
  | canceled
  deriving DecidableEq, Repr

def mapRiverImportState : JobState → ImportJobStatus
  | .available | .pending | .scheduled => .queued
  | .running => .running
  | .retryable => .retrying
  | .completed => .succeeded
  | .cancelled => .canceled
  | .discarded => .failed

def ImportJobStatus.finished : ImportJobStatus → Bool
  | .succeeded | .failed | .canceled => true
  | .queued | .running | .retrying => false

structure JobRow where
  kind : Bytes
  tenantID : Bytes
  argsReadable : Bool := true
  state : JobState
  finalizedAt : Option ℕ := none
  cancelAttemptedAt : Option ℕ := none
  forceCancelAttemptedAt : Option ℕ := none
  deriving DecidableEq, Repr

def JobRow.status (row : JobRow) : ImportJobStatus := mapRiverImportState row.state

abbrev JobTable := Directory ℤ JobRow

inductive ImportJobError
  | notFound
  | running
  | other
  deriving DecidableEq, Repr

def importJobTypeHFCacheImport : Bytes := ascii "hf_cache_import"

def getImportJob (jobs : JobTable) (tenantID jobID : Bytes) : Except ImportJobError (ℤ × JobRow) :=
  match parseInt jobID with
  | none => .error .notFound
  | some id =>
    match jobs.get id with
    | none => .error .notFound
    | some row =>
      if row.kind ≠ importJobTypeHFCacheImport then .error .notFound
      else if tenantID ≠ [] ∧ row.tenantID ≠ tenantID then .error .notFound
      else if row.argsReadable = false then .error .other
      else if row.tenantID ≠ tenantID then .error .notFound
      else .ok (id, row)

/-! ## The statements

What is done to the row with a given number: it is replaced, or taken away. -/

structure River where
  jobCancel : ℕ → JobRow → Option JobRow
  jobDelete : JobRow → Option JobRow
  jobSetStateIfRunning : JobState → ℕ → JobRow → Option JobRow
  jobFetch : JobRow → Option JobRow
  jobSchedule : JobRow → Option JobRow

structure River.Guarded (rv : River) : Prop where
  jobCancel : ∀ now row, row.status.finished = true → rv.jobCancel now row = some row
  jobDelete : ∀ row, rv.jobDelete row = if row.state = .running then some row else none
  jobSetStateIfRunning : ∀ outcome now row, row.state ≠ .running →
    rv.jobSetStateIfRunning outcome now row = some row
  jobFetch : ∀ row, row.state ≠ .available → rv.jobFetch row = some row
  jobSchedule : ∀ row, row.state ≠ .retryable → row.state ≠ .scheduled →
    rv.jobSchedule row = some row

def forceCancel (now : ℕ) (row : JobRow) : Option JobRow :=
  some { row with
    state := .cancelled
    finalizedAt := some (row.finalizedAt.getD now)
    cancelAttemptedAt := some now
    forceCancelAttemptedAt := some now }

inductive AdminOperation
  | cancel
  | forceCancel
  | delete
  deriving DecidableEq, Repr

namespace AdminOperation

def check (op : AdminOperation) (jobs : JobTable) (tenantID jobID : Bytes) :
    Except ImportJobError ℤ :=
  match getImportJob jobs tenantID jobID with
  | .error e => .error e
  | .ok (id, row) => if op = .delete ∧ row.status = .running then .error .running else .ok id

def act (rv : River) (op : AdminOperation) (now : ℕ) : JobRow → Option JobRow :=
  match op with
  | .cancel => rv.jobCancel now
  | .forceCancel => Admin.forceCancel now
  | .delete => rv.jobDelete

def answer (op : AdminOperation) (found : Option JobRow) : Except ImportJobError Unit :=
  match found with
  | none => .error .notFound
  | some row => if op = .delete ∧ row.state = .running then .error .running else .ok ()

end AdminOperation

structure ImportJobs where
  jobs : JobTable
  underway : Directory ℕ (AdminOperation × ℤ) := .empty
  answers : Directory ℕ (Except ImportJobError Unit) := .empty

inductive ImportEvent
  | check (i : ℕ) (op : AdminOperation) (tenantID jobID : Bytes)
  | act (i : ℕ) (now : ℕ)
  | fetch (id : ℤ)
  | finish (id : ℤ) (outcome : JobState) (now : ℕ)
  | schedule (id : ℤ)

namespace ImportJobs

def amend (s : ImportJobs) (id : ℤ) (f : JobRow → Option JobRow) : ImportJobs :=
  { s with jobs := s.jobs.amend id f }

def step (rv : River) (s : ImportJobs) : ImportEvent → Option ImportJobs
  | .check i op tenantID jobID =>
    if (s.underway.get i).isSome then none
    else
      match op.check s.jobs tenantID jobID with
      | .error e => some { s with answers := s.answers.write i (.error e) }
      | .ok id => some { s with underway := s.underway.write i (op, id) }
  | .act i now => (s.underway.get i).map fun (op, id) =>
    { s with
      jobs := s.jobs.amend id (op.act rv now)
      underway := s.underway.remove i
      answers := s.answers.write i (op.answer (s.jobs.get id)) }
  | .fetch id => some (s.amend id rv.jobFetch)
  | .finish id outcome now => some (s.amend id (rv.jobSetStateIfRunning outcome now))
  | .schedule id => some (s.amend id rv.jobSchedule)

def Stays (jobs jobs' : JobTable) : Prop :=
  ∀ id, (jobs.get id = none → jobs'.get id = none)
    ∧ ∀ row, jobs.get id = some row → row.status.finished = true →
      ∀ row', jobs'.get id = some row' → row'.status = row.status

theorem Stays.refl (jobs : JobTable) : Stays jobs jobs := by
  refine fun id => ⟨fun h => h, fun row hrow _ row' hrow' => ?_⟩
  cases hrow.symm.trans hrow'
  rfl

theorem Stays.trans {jobs₁ jobs₂ jobs₃ : JobTable} (h₁ : Stays jobs₁ jobs₂)
    (h₂ : Stays jobs₂ jobs₃) : Stays jobs₁ jobs₃ := by
  refine fun id => ⟨fun h => (h₂ id).1 ((h₁ id).1 h), fun row hrow hfin row'' hrow'' => ?_⟩
  cases hrow' : jobs₂.get id with
  | none =>
    rw [(h₂ id).1 hrow'] at hrow''
    cases hrow''
  | some row' =>
    have hsame := (h₁ id).2 row hrow hfin row' hrow'
    rw [← hsame]
    exact (h₂ id).2 row' hrow' (hsame ▸ hfin) row'' hrow''

theorem stays_amend_iff {jobs : JobTable} {id : ℤ} {f : JobRow → Option JobRow} :
    Stays jobs (jobs.amend id f)
      ↔ ∀ row, jobs.get id = some row → row.status.finished = true →
        ∀ row', f row = some row' → row'.status = row.status := by
  constructor
  · intro h row hrow hfin row' hrow'
    refine (h id).2 row hrow hfin row' ?_
    rw [Directory.get_amend, hrow, Option.bind_some, hrow']
  · intro h k
    by_cases hk : k = id
    · subst hk
      rw [Directory.get_amend]
      refine ⟨fun hnone => by rw [hnone, Option.bind_none], fun row hrow hfin row' hrow' => ?_⟩
      rw [hrow, Option.bind_some] at hrow'
      exact h row hrow hfin row' hrow'
    · rw [Directory.get_amend_of_ne _ _ hk]
      exact Stays.refl jobs k

theorem stays_amend {jobs : JobTable} {id : ℤ} {f : JobRow → Option JobRow}
    (hf : ∀ row, row.status.finished = true → f row = some row ∨ f row = none) :
    Stays jobs (jobs.amend id f) := by
  refine stays_amend_iff.mpr (fun row _ hfin row' hrow' => ?_)
  rcases hf row hfin with hsame | hnone
  · cases hsame.symm.trans hrow'
    rfl
  · cases hnone.symm.trans hrow'

end ImportJobs

section

variable {row row' : JobRow} {now : ℕ}

theorem JobRow.finished_iff :
    row.status.finished = true
      ↔ row.state = .completed ∨ row.state = .discarded ∨ row.state = .cancelled := by
  unfold JobRow.status
  cases row.state <;> decide

namespace River.Guarded

variable {rv : River} (h : rv.Guarded)
include h

theorem jobDelete_finished (hfin : row.status.finished = true) : rv.jobDelete row = none := by
  rw [h.jobDelete]
  refine if_neg ?_
  rcases JobRow.finished_iff.mp hfin with hs | hs | hs <;> rw [hs] <;> decide

theorem jobSetStateIfRunning_finished (outcome : JobState) (hfin : row.status.finished = true) :
    rv.jobSetStateIfRunning outcome now row = some row := by
  refine h.jobSetStateIfRunning outcome now row ?_
  rcases JobRow.finished_iff.mp hfin with hs | hs | hs <;> rw [hs] <;> decide

theorem jobFetch_finished (hfin : row.status.finished = true) : rv.jobFetch row = some row := by
  refine h.jobFetch row ?_
  rcases JobRow.finished_iff.mp hfin with hs | hs | hs <;> rw [hs] <;> decide

theorem jobSchedule_finished (hfin : row.status.finished = true) :
    rv.jobSchedule row = some row := by
  refine h.jobSchedule row ?_ ?_
  · rcases JobRow.finished_iff.mp hfin with hs | hs | hs <;> rw [hs] <;> decide
  · rcases JobRow.finished_iff.mp hfin with hs | hs | hs <;> rw [hs] <;> decide

end River.Guarded

theorem status_of_forceCancel (h : forceCancel now row = some row') :
    row'.status = .canceled := by
  cases h
  rfl

end

namespace ImportJobs

def Spares (s : ImportJobs) : ImportEvent → Prop
  | .act i _ => ∀ id row, s.underway.get i = some (.forceCancel, id) → s.jobs.get id = some row →
      row.status ≠ .succeeded ∧ row.status ≠ .failed
  | _ => True

theorem stays_forceCancel_iff {jobs : JobTable} {id : ℤ} {now : ℕ} :
    Stays jobs (jobs.amend id (forceCancel now))
      ↔ ∀ row, jobs.get id = some row → row.status ≠ .succeeded ∧ row.status ≠ .failed := by
  rw [stays_amend_iff]
  refine forall₂_congr (fun row _ => ?_)
  constructor
  · intro h
    have hcanceled : row.status.finished = true → row.status = .canceled :=
      fun hfin => (h hfin _ rfl).symm.trans (status_of_forceCancel rfl)
    constructor <;> intro hs <;> rw [hs] at hcanceled <;> exact absurd (hcanceled rfl) (by decide)
  · rintro ⟨hsucceeded, hfailed⟩ hfin row' hrow'
    rw [status_of_forceCancel hrow']
    cases hs : row.status with
    | canceled => rfl
    | succeeded => exact absurd hs hsucceeded
    | failed => exact absurd hs hfailed
    | queued | running | retrying =>
      rw [hs] at hfin
      cases hfin

theorem stays_step_iff {rv : River} (hrv : rv.Guarded) {s s' : ImportJobs} {e : ImportEvent}
    (h : s.step rv e = some s') : Stays s.jobs s'.jobs ↔ s.Spares e := by
  cases e with
  | check i op tenantID jobID =>
    refine iff_of_true ?_ trivial
    obtain ⟨-, h⟩ := Option.ite_none_left_eq_some.mp h
    split at h <;> obtain rfl := Option.some.inj h <;> exact Stays.refl _
  | act i now =>
    obtain ⟨⟨op, id⟩, hop, rfl⟩ := Option.map_eq_some_iff.mp h
    simp only [Spares, hop, Option.some.injEq, Prod.mk.injEq]
    cases op with
    | cancel =>
      refine iff_of_true (stays_amend (fun row hfin => .inl (hrv.jobCancel now row hfin))) ?_
      rintro _ _ ⟨hop, -⟩
      cases hop
    | delete =>
      refine iff_of_true (stays_amend (fun _ hfin => .inr (hrv.jobDelete_finished hfin))) ?_
      rintro _ _ ⟨hop, -⟩
      cases hop
    | forceCancel =>
      refine stays_forceCancel_iff.trans ⟨fun h id' row hid hrow => ?_, fun h row hrow => ?_⟩
      · obtain rfl := hid.2
        exact h row hrow
      · exact h id row ⟨rfl, rfl⟩ hrow
  | fetch id =>
    cases h
    exact iff_of_true (stays_amend (fun _ hfin => .inl (hrv.jobFetch_finished hfin))) trivial
  | finish id outcome now =>
    cases h
    exact iff_of_true (stays_amend
      (fun _ hfin => .inl (hrv.jobSetStateIfRunning_finished outcome hfin))) trivial
  | schedule id =>
    cases h
    exact iff_of_true (stays_amend (fun _ hfin => .inl (hrv.jobSchedule_finished hfin))) trivial

theorem spares_of_step_eq_none {rv : River} {s : ImportJobs} {e : ImportEvent}
    (h : s.step rv e = none) : s.Spares e := by
  cases e with
  | act i now =>
    have hnone : s.underway.get i = none := Option.map_eq_none_iff.mp h
    intro id row hop
    rw [hnone] at hop
    cases hop
  | check i op tenantID jobID => trivial
  | fetch id => trivial
  | finish id outcome now => trivial
  | schedule id => trivial

/-- **Finished jobs stay finished exactly where no cancellation by force finds one that has
succeeded or failed**, in whatever order the statements are carried out. -/
theorem finished_jobs_stay_iff {rv : River} (hrv : rv.Guarded) (s : ImportJobs)
    (es : List ImportEvent) :
    Runs.Keeping (step rv) (fun s₁ s₂ => Stays s₁.jobs s₂.jobs) s es
      ↔ Runs.Meets (step rv) Spares s es := by
  have htrans : ∀ s₁ s₂ s₃ : ImportJobs,
      Stays s₁.jobs s₂.jobs → Stays s₂.jobs s₃.jobs → Stays s₁.jobs s₃.jobs :=
    fun _ _ _ h₁ h₂ => h₁.trans h₂
  exact Runs.keeping_iff_meets (fun s => Stays.refl s.jobs) htrans
    (fun _ _ => spares_of_step_eq_none) (fun _ _ _ => stays_step_iff hrv)

def plainRiver : River where
  jobCancel now row :=
    if row.status.finished then some row
    else if row.state = .running then some { row with cancelAttemptedAt := some now }
    else some { row with state := .cancelled, finalizedAt := some now }
  jobDelete row := if row.state = .running then some row else none
  jobSetStateIfRunning outcome now row :=
    if row.state = .running then some { row with state := outcome, finalizedAt := some now }
    else some row
  jobFetch row := if row.state = .available then some { row with state := .running } else some row
  jobSchedule row :=
    if row.state = .retryable ∨ row.state = .scheduled then some { row with state := .available }
    else some row

theorem plainRiver_guarded : plainRiver.Guarded where
  jobCancel _ _ h := if_pos h
  jobDelete _ := rfl
  jobSetStateIfRunning _ _ _ h := if_neg h
  jobFetch _ h := if_neg h
  jobSchedule _ h h' := if_neg (not_or.mpr ⟨h, h'⟩)

def oneRunning : ImportJobs :=
  { jobs := Directory.empty.write 7
      { kind := importJobTypeHFCacheImport, tenantID := [116], state := .running } }

theorem finished_jobs_stay_completed :
    (Runs.run (step plainRiver) oneRunning
        [.finish 7 .completed 1, .check 0 .cancel [116] [55], .act 0 2]).isSome = true
      ∧ Runs.Keeping (step plainRiver) (fun s₁ s₂ => Stays s₁.jobs s₂.jobs) oneRunning
        [.finish 7 .completed 1, .check 0 .cancel [116] [55], .act 0 2] := by
  refine ⟨rfl, (finished_jobs_stay_iff plainRiver_guarded _ _).mpr ?_⟩
  refine ⟨trivial, fun s₁ h₁ => ⟨trivial, fun s₂ h₂ => ⟨?_, fun _ _ => trivial⟩⟩⟩
  -- what is under way is no cancellation by force
  cases h₁
  cases h₂
  rintro id row ⟨⟩

/-- **A job that has succeeded is canceled.** -/
theorem succeeded_job_canceled :
    ∃ s₁ s₂, Runs.run (step plainRiver) oneRunning
        [.check 0 .forceCancel [116] [55], .finish 7 .completed 1] = some s₁
      ∧ Runs.run (step plainRiver) s₁ [.act 0 2] = some s₂
      ∧ (s₁.jobs.get 7).map JobRow.status = some .succeeded
      ∧ (s₂.jobs.get 7).map JobRow.status = some .canceled
      ∧ ¬ Stays s₁.jobs s₂.jobs := by
  refine ⟨_, _, rfl, rfl, rfl, rfl, fun h => ?_⟩
  have hsame : ImportJobStatus.canceled = .succeeded := (h 7).2 _ rfl rfl _ rfl
  cases hsame

end ImportJobs

end Admin
