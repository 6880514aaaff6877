import Pulsys.Base.Runs
import Pulsys.Hfhub.Plan

/-!
# A download by many workers

`Download` cuts the files into ranges and fetches each range by a worker of its own, so many
at a time. A worker asks for its range, writes the body of the reply to the file from the
start of the range on, chunk by chunk, and after an error that is worth it begins again.

The workers are interleaved in every way, and everything that comes from outside is an event:
what the server answers and in which pieces, how a write ends, when the context is canceled.
What is known of a reply is `received`, the body that has come so far.

A worker takes a reply with status 200 or 206 and does not look at which of the two it is, at
its range or at its length. So a download without an error has brought the files if the
replies were what was asked for (`Faithful`, `download_identical`): each body is upstream's
from the start of the range on, and a body that ends without an error has the whole range. A
server that does not know ranges and answers 200 with the whole file is taken all the same,
and then the file is wrong (`whole_replies_taken`).
-/

namespace Hfhub

open Bytes Runs

/-! ## Errors -/

inductive FetchError
  | http (status : ℕ)
  | canceled
  | other (retryable : Bool)
  | gaveUp
  deriving DecidableEq

def shouldRetry : FetchError → Bool
  | .http status => status = 429 || status = 502 || status = 503 || status = 504
  | .other retryable => retryable
  | .canceled | .gaveUp => false

/-! ## A worker -/

inductive Phase
  | waiting
  | ready (attempt : ℕ)
  | asked (attempt : ℕ)
  | copying (attempt written : ℕ)
  | pausing (attempt : ℕ)
  | done (n : ℕ)
  | failed (e : FetchError)
  deriving DecidableEq

def Phase.finished : Phase → Bool
  | .done _ | .failed _ => true
  | _ => false

inductive Action
  | attempt
  | noReply (e : FetchError)
  | reply (status : ℕ)
  | chunk (p : ℕ) (data : Bytes) (n : ℕ) (err : Option FetchError)
  | ends (err : Option FetchError)
  | wake (timer : Bool)
  deriving DecidableEq

def afterFailure (retries attempt : ℕ) (e : FetchError) : Phase :=
  if !shouldRetry e then .failed e
  else if attempt = retries then .failed .gaveUp
  else .pausing attempt

def copyBufSize : ℕ := 256 * 2 ^ 10

def act (retries : ℕ) (canceled : Bool) (t : FetchTask) : Phase → Action → Option Phase
  | .ready k, .attempt => some (if canceled then .failed .canceled else .asked k)
  | .asked k, .noReply e => some (afterFailure retries k e)
  | .asked k, .reply status =>
    some (if status = 200 ∨ status = 206 then .copying k 0
      else afterFailure retries k (.http status))
  | .copying k written, .chunk p data n err =>
    if p = written ∧ 0 < data.length ∧ data.length ≤ copyBufSize ∧ n ≤ data.length
        ∧ ((0 ≤ t.start + p ∧ t.start + p + n < 2 ^ 63) ∨ (n = 0 ∧ err ≠ none)) then
      match err with
      | some e => some (afterFailure retries k e)
      | none =>
        -- `io.ErrShortWrite` is not worth another try
        if n < data.length then some (afterFailure retries k (.other false))
        else some (.copying k (written + n))
    else none
  | .copying _ written, .ends none => some (.done written)
  | .copying k _, .ends (some e) => some (afterFailure retries k e)
  | .pausing k, .wake true => some (.ready (k + 1))
  | .pausing _, .wake false => if canceled then some (.failed .canceled) else none
  | _, _ => none

def FetchTask.brings (t : FetchTask) : Action → Option (ℕ × Bytes)
  | .chunk p data n _ => some ((t.start + p).toNat, data.take n)
  | _ => none

/-! ## The download -/

structure Job where
  files : List FileEntry
  chunk : ℤ
  tasks : List FetchTask
  dest : Bytes → Bytes
  prepared : Disk
  workers : ℕ
  retries : ℕ

structure Request where
  opts : DownloadOpts
  maxRetries : ℤ := 0
  glob : Bytes → Bytes → Option Bool
  dest : Bytes → Bytes
  entries : List TreeEntry
  disk : Disk
  unprepared : Bytes → Bool := fun _ => false

def Request.job (r : Request) (fuel : ℕ) : Option Job := do
  let files ← selected r.glob r.opts r.entries
  let tasks ← plan r.opts.chunk fuel files
  if tasks.isEmpty || files.any (fun f => r.unprepared f.path) then none
  else
    some
      { files := files
        chunk := r.opts.chunk
        tasks := tasks
        dest := r.dest
        prepared := prepareAll r.dest r.disk [] files
        workers := if r.opts.workers ≤ 0 then 32 else r.opts.workers.toNat
        retries := if r.maxRetries ≤ 0 then 5 else r.maxRetries.toNat }

structure State where
  launched : ℕ := 0
  admitted : Bool := false
  phase : ℕ → Phase := fun _ => .waiting
  canceled : Bool := false
  disk : Disk
  firstErr : Option FetchError := none
  returned : Option (Option FetchError) := none

inductive Event
  | check
  | launch
  | cancel
  | task (i : ℕ) (a : Action)
  | finish

def Job.start (job : Job) : State where
  disk := job.prepared

def State.running (s : State) : ℕ :=
  ((List.range s.launched).filter (fun i => !(s.phase i).finished)).length

def Disk.put (disk : Disk) (d : Bytes) : Option (ℕ × Bytes) → Disk
  | none => disk
  | some w => Function.update disk d ((disk d).map (fun file => file.write w.1 w.2))

def Phase.error : Phase → Option FetchError
  | .failed e => some e
  | _ => none

def step (job : Job) (s : State) : Event → Option State
  | .check =>
    if s.launched < job.tasks.length ∧ s.canceled = false then some { s with admitted := true }
    else none
  | .launch =>
    if s.admitted = true ∧ s.launched < job.tasks.length ∧ s.running < job.workers then
      some { s with
        admitted := false
        launched := s.launched + 1
        phase := Function.update s.phase s.launched (.ready 0) }
    else none
  | .cancel => some { s with canceled := true }
  | .task i a => do
    let t ← job.tasks[i]?
    let phase ← act job.retries s.canceled t (s.phase i) a
    some { s with
      phase := Function.update s.phase i phase
      disk := s.disk.put (job.dest t.path) (t.brings a)
      firstErr := s.firstErr.or phase.error }
  | .finish =>
    if s.returned = none ∧ (s.launched = job.tasks.length ∨ (s.canceled = true ∧ s.admitted = false))
        ∧ ∀ i < s.launched, (s.phase i).finished = true then
      some { s with
        returned := some (s.firstErr.or (if s.canceled then some .canceled else none)) }
    else none

inductive Steps (job : Job) (s : State) : Event → State → Prop
  | check : Steps job s .check { s with admitted := true }
  | launch (h : s.launched < job.tasks.length) :
    Steps job s .launch
      { s with
        admitted := false
        launched := s.launched + 1
        phase := Function.update s.phase s.launched (.ready 0) }
  | cancel : Steps job s .cancel { s with canceled := true }
  | task {i : ℕ} {a : Action} {t : FetchTask} {phase : Phase} (ht : job.tasks[i]? = some t)
    (hact : act job.retries s.canceled t (s.phase i) a = some phase) :
    Steps job s (.task i a)
      { s with
        phase := Function.update s.phase i phase
        disk := s.disk.put (job.dest t.path) (t.brings a)
        firstErr := s.firstErr.or phase.error }
  | finish (hover : s.launched = job.tasks.length ∨ s.canceled = true)
    (hall : ∀ i < s.launched, (s.phase i).finished = true) :
    Steps job s .finish
      { s with returned := some (s.firstErr.or (if s.canceled then some .canceled else none)) }

section
variable {job : Job} {s s' : State} {e : Event} {es : List Event}

theorem steps_of_step (h : step job s e = some s') : Steps job s e s' := by
  cases e with
  | check =>
    obtain ⟨-, h⟩ := Option.ite_none_right_eq_some.mp h
    cases h
    exact .check
  | launch =>
    obtain ⟨hguard, h⟩ := Option.ite_none_right_eq_some.mp h
    cases h
    exact .launch hguard.2.1
  | cancel =>
    cases h
    exact .cancel
  | task i a =>
    obtain ⟨t, ht, h⟩ := Option.bind_eq_some_iff.mp h
    obtain ⟨phase, hact, h⟩ := Option.bind_eq_some_iff.mp h
    cases h
    exact .task ht hact
  | finish =>
    obtain ⟨hguard, h⟩ := Option.ite_none_right_eq_some.mp h
    cases h
    exact .finish (hguard.2.1.imp_right And.left) hguard.2.2

/-! ## What comes to the disk -/

def Job.broughtBy (job : Job) (d : Bytes) : Event → Option (ℕ × Bytes)
  | .task i a =>
    (job.tasks[i]?).bind (fun t => if job.dest t.path = d then t.brings a else none)
  | _ => none

def Job.broughtTo (job : Job) (d : Bytes) (es : List Event) : List (ℕ × Bytes) :=
  es.filterMap (job.broughtBy d)

theorem Disk.put_eq (disk : Disk) (d d' : Bytes) (w : Option (ℕ × Bytes)) :
    disk.put d' w d
      = (disk d).map (fun file => file.writes (if d' = d then w else none).toList) := by
  have hnone (file : Option (SparseFile UInt8)) : file.map (fun f => f.writes []) = file :=
    Option.map_id_apply
  by_cases hd : d' = d
  · subst hd
    rw [if_pos rfl]
    cases w with
    | none => exact (hnone _).symm
    | some w => exact Function.update_self _ _ _
  · rw [if_neg hd]
    cases w with
    | none => exact (hnone _).symm
    | some w => exact (Function.update_of_ne (Ne.symm hd) _ _).trans (hnone _).symm

theorem disk_step (h : step job s e = some s') (d : Bytes) :
    s'.disk d = (s.disk d).map (fun file => file.writes (job.broughtBy d e).toList) := by
  cases steps_of_step h with
  | @task i a t phase ht hact =>
    have hby : job.broughtBy d (.task i a) = if job.dest t.path = d then t.brings a else none := by
      rw [Job.broughtBy, ht]
      rfl
    rw [hby]
    exact Disk.put_eq _ _ _ _
  | _ => exact Option.map_id_apply.symm

theorem disk_run (h : run (step job) s es = some s') (d : Bytes) :
    s'.disk d = (s.disk d).map (fun file => file.writes (job.broughtTo d es)) := by
  induction es generalizing s with
  | nil =>
    cases h
    exact Option.map_id_apply.symm
  | cons e es ih =>
    obtain ⟨s₁, hs, hrest⟩ := run_cons.mp h
    have hall : job.broughtTo d (e :: es) = (job.broughtBy d e).toList ++ job.broughtTo d es := by
      rw [Job.broughtTo, List.filterMap_cons]
      cases job.broughtBy d e <;> rfl
    rw [ih hrest, disk_step hs, Option.map_map, hall]
    congr 1
    funext file
    exact (file.writes_append _ _).symm

/-! ## No error -/

structure Clean (job : Job) (s : State) : Prop where
  quiet : s.firstErr = none → ∀ i e, s.phase i ≠ .failed e
  fetched : s.returned = some none →
    s.launched = job.tasks.length ∧ ∀ i < s.launched, ∃ n, s.phase i = .done n

variable {t : FetchTask} {n : ℕ}

theorem act_done {retries : ℕ} {canceled : Bool} {a : Action} :
    act retries canceled t (.done n) a = none := by
  cases a <;> rfl

theorem clean_start (job : Job) : Clean job job.start := by
  refine ⟨fun _ i e h => ?_, fun h => ?_⟩
  · replace h : Phase.waiting = .failed e := h
    cases h
  · replace h : (none : Option (Option FetchError)) = some none := h
    cases h

theorem Clean.step (h : Clean job s) (hs : step job s e = some s') : Clean job s' := by
  cases steps_of_step hs with
  | check => exact ⟨h.quiet, h.fetched⟩
  | cancel => exact ⟨h.quiet, h.fetched⟩
  | launch hlt =>
    refine ⟨fun herr => ?_, fun hret => absurd (h.fetched hret).1 (Nat.ne_of_lt hlt)⟩
    exact (Function.forall_update_iff _ (fun _ (ph : Phase) => ∀ e, ph ≠ .failed e)).mpr
      ⟨nofun, fun i _ => h.quiet herr i⟩
  | @task i a t phase ht hact =>
    refine ⟨fun herr => ?_, fun hret => ?_⟩
    · obtain ⟨hfirst, herror⟩ := Option.or_eq_none_iff.mp herr
      refine (Function.forall_update_iff _ (fun _ (ph : Phase) => ∀ e, ph ≠ .failed e)).mpr
        ⟨?_, fun i _ => h.quiet hfirst i⟩
      rintro e rfl
      cases herror
    · obtain ⟨hlaunched, hdone⟩ := h.fetched hret
      obtain ⟨hi, -⟩ := List.getElem?_eq_some_iff.mp ht
      obtain ⟨n, hn⟩ := hdone i (hlaunched ▸ hi)
      rw [hn, act_done] at hact
      cases hact
  | finish hover hall =>
    refine ⟨h.quiet, fun hret => ?_⟩
    obtain ⟨hfirst, hcanceled⟩ := Option.or_eq_none_iff.mp (Option.some.inj hret)
    refine ⟨hover.resolve_right (fun hc => ?_), fun i hi => ?_⟩
    · rw [if_pos hc] at hcanceled
      cases hcanceled
    · have hfinished := hall i hi
      cases hphase : s.phase i with
      | done n => exact ⟨n, rfl⟩
      | failed e => exact absurd hphase (h.quiet hfirst i e)
      | _ =>
        rw [hphase] at hfinished
        cases hfinished

/-! ## How far a worker has come -/

def Phase.progress : Phase → Option ℕ
  | .copying _ n | .done n => some n
  | _ => none

theorem progress_afterFailure (retries attempt : ℕ) (e : FetchError) :
    (afterFailure retries attempt e).progress = none := by
  unfold afterFailure
  split
  · rfl
  · split <;> rfl

theorem progress_act {retries : ℕ} {canceled : Bool} {ph ph' : Phase} {a : Action}
    (h : act retries canceled t ph a = some ph') (hn : ph'.progress = some n) :
    (∃ status, a = .reply status ∧ n = 0) ∨ (a = .ends none ∧ ph.progress = some n)
      ∨ ∃ p data, ph.progress = some p ∧ a = .chunk p data data.length none
        ∧ n = p + data.length := by
  have hfails (r k : ℕ) (e : FetchError) : (afterFailure r k e).progress ≠ some n := by
    rw [progress_afterFailure]
    nofun
  cases ph with
  | waiting | done | failed => cases a <;> cases h
  | ready k =>
    cases a with
    | attempt => cases canceled <;> cases h <;> cases hn
    | _ => cases h
  | asked k =>
    cases a with
    | noReply e =>
      cases h
      exact absurd hn (hfails _ _ _)
    | reply status =>
      cases h
      split at hn
      · exact .inl ⟨status, rfl, (Option.some.inj hn).symm⟩
      · exact absurd hn (hfails _ _ _)
    | _ => cases h
  | copying k written =>
    cases a with
    | chunk p data m err =>
      obtain ⟨⟨rfl, -, -, hle, -⟩, h⟩ := Option.ite_none_right_eq_some.mp h
      cases err with
      | some e =>
        cases h
        exact absurd hn (hfails _ _ _)
      | none =>
        dsimp only at h
        split at h
        · cases h
          exact absurd hn (hfails _ _ _)
        · next hshort =>
          cases h
          obtain rfl : m = data.length := by omega
          exact .inr (.inr ⟨p, data, rfl, rfl, (Option.some.inj hn).symm⟩)
    | ends err =>
      cases err with
      | none =>
        cases h
        exact .inr (.inl ⟨rfl, hn⟩)
      | some e =>
        cases h
        exact absurd hn (hfails _ _ _)
    | _ => cases h
  | pausing k =>
    cases a with
    | wake timer => cases timer <;> cases canceled <;> cases h <;> cases hn
    | _ => cases h

theorem progress_step (hs : step job s e = some s') {i : ℕ} (hn : (s'.phase i).progress = some n) :
    (∃ status, e = .task i (.reply status) ∧ n = 0)
      ∨ ((∀ a, e = .task i a → a = .ends none) ∧ (s.phase i).progress = some n)
      ∨ ∃ p data, (s.phase i).progress = some p ∧ e = .task i (.chunk p data data.length none)
        ∧ n = p + data.length := by
  cases steps_of_step hs with
  | launch hlt =>
    replace hn : (Function.update s.phase s.launched (.ready 0) i).progress = some n := hn
    by_cases hi : i = s.launched
    · rw [hi, Function.update_self] at hn
      cases hn
    · rw [Function.update_of_ne hi] at hn
      exact .inr (.inl ⟨nofun, hn⟩)
  | @task j a t phase ht hact =>
    replace hn : (Function.update s.phase j phase i).progress = some n := hn
    by_cases hi : i = j
    · subst hi
      rw [Function.update_self] at hn
      rcases progress_act hact hn with ⟨status, rfl, h⟩ | ⟨rfl, h⟩ | ⟨p, data, hp, rfl, hsum⟩
      · exact .inl ⟨status, rfl, h⟩
      · refine .inr (.inl ⟨fun a ha => ?_, h⟩)
        cases ha
        rfl
      · exact .inr (.inr ⟨p, data, hp, rfl, hsum⟩)
    · rw [Function.update_of_ne hi] at hn
      refine .inr (.inl ⟨fun a ha => ?_, hn⟩)
      cases ha
      exact absurd rfl hi
  | _ => exact .inr (.inl ⟨nofun, hn⟩)

theorem ends_of_act {retries : ℕ} {canceled : Bool} {ph : Phase} {a : Action}
    (h : act retries canceled t ph a = some (.done n)) :
    a = .ends none ∧ ph.progress = some n := by
  rcases progress_act h rfl with ⟨status, rfl, -⟩ | hends | ⟨p, data, -, rfl, -⟩
  · cases ph with
    | asked k =>
      have hif := Option.some.inj h
      split at hif
      · cases hif
      · have hnone := progress_afterFailure retries k (.http status)
        rw [hif] at hnone
        cases hnone
    | _ => cases h
  · exact hends
  · cases ph with
    | copying k written =>
      obtain ⟨-, h⟩ := Option.ite_none_right_eq_some.mp h
      rw [if_neg (Nat.lt_irrefl _)] at h
      cases h
    | _ => cases h

theorem chunk_of_act {retries : ℕ} {canceled : Bool} {ph ph' : Phase} {p m : ℕ} {data : Bytes}
    {err : Option FetchError} (h : act retries canceled t ph (.chunk p data m err) = some ph') :
    ph.progress = some p ∧ (0 ≤ t.start + p ∨ m = 0) := by
  match ph, h with
  | .copying k written, h =>
    obtain ⟨⟨rfl, -, -, -, hroom⟩, -⟩ := Option.ite_none_right_eq_some.mp h
    exact ⟨rfl, hroom.imp And.left And.left⟩

/-! ## The body that has come -/

def receive (i : ℕ) (body : Bytes) : Event → Bytes
  | .task j (.reply _) => if j = i then [] else body
  | .task j (.chunk _ data _ _) => if j = i then body ++ data else body
  | _ => body

def received (i : ℕ) (es : List Event) : Bytes := es.foldl (receive i) []

theorem received_append (i : ℕ) (es : List Event) (e : Event) :
    received i (es ++ [e]) = receive i (received i es) e :=
  List.foldl_append

theorem receive_of_ends {i : ℕ} {body : Bytes} (h : ∀ a, e = .task i a → a = .ends none) :
    receive i body e = body := by
  match e with
  | .check | .launch | .cancel | .finish => rfl
  | .task j a =>
    by_cases hj : j = i
    · subst hj
      rw [h a rfl]
      rfl
    · cases a with
      | reply status => exact if_neg hj
      | chunk p data n err => exact if_neg hj
      | _ => rfl

theorem length_received (hrun : run (step job) job.start es = some s) {i : ℕ}
    (hn : (s.phase i).progress = some n) : (received i es).length = n := by
  induction es using List.reverseRecOn generalizing s n with
  | nil =>
    cases hrun
    cases hn
  | append_singleton es e ih =>
    obtain ⟨s₁, hfirst, hlast⟩ := run_append.mp hrun
    obtain ⟨s₂, hs, hend⟩ := run_cons.mp hlast
    cases hend
    rw [received_append]
    rcases progress_step hs hn with ⟨status, rfl, rfl⟩ | ⟨hends, hsame⟩ | ⟨p, data, hp, rfl, rfl⟩
    · rw [receive, if_pos rfl, List.length_nil]
    · rw [receive_of_ends hends]
      exact ih hfirst hsame
    · rw [receive, if_pos rfl, List.length_append, ih hfirst hp]

theorem ends_of_done (hrun : run (step job) job.start es = some s) {i : ℕ}
    (hn : s.phase i = .done n) :
    ∃ es₁, es₁ ++ [.task i (.ends none)] <+: es ∧ (received i es₁).length = n := by
  induction es using List.reverseRecOn generalizing s with
  | nil =>
    cases hrun
    cases hn
  | append_singleton es e ih =>
    obtain ⟨s₁, hfirst, hlast⟩ := run_append.mp hrun
    obtain ⟨s₂, hs, hend⟩ := run_cons.mp hlast
    cases hend
    have hlonger (h : s₁.phase i = .done n) :
        ∃ es₁, es₁ ++ [.task i (.ends none)] <+: es ++ [e] ∧ (received i es₁).length = n := by
      obtain ⟨es₁, hes₁, hlen⟩ := ih hfirst h
      exact ⟨es₁, hes₁.trans (List.prefix_append _ _), hlen⟩
    cases steps_of_step hs with
    | launch hlt =>
      replace hn : Function.update s₁.phase s₁.launched (.ready 0) i = .done n := hn
      by_cases hi : i = s₁.launched
      · rw [hi, Function.update_self] at hn
        cases hn
      · rw [Function.update_of_ne hi] at hn
        exact hlonger hn
    | @task j a t phase ht hact =>
      replace hn : Function.update s₁.phase j phase i = .done n := hn
      by_cases hi : i = j
      · subst hi
        rw [Function.update_self] at hn
        subst hn
        obtain ⟨rfl, hp⟩ := ends_of_act hact
        exact ⟨es, List.prefix_rfl, length_received hfirst hp⟩
      · rw [Function.update_of_ne hi] at hn
        exact hlonger hn
    | _ => exact hlonger hn

theorem written_run (hrun : run (step job) job.start es = some s) {i o : ℕ}
    (ht : job.tasks[i]? = some t) (hn : (s.phase i).progress = some n) (hlo : t.start ≤ o)
    (hhi : (o : ℤ) < t.start + n) :
    ∃ w ∈ job.broughtTo (job.dest t.path) es, (SparseFile.putAt o w).isSome = true := by
  -- from the end: the last event has written there, or an earlier one
  induction es using List.reverseRecOn generalizing s n with
  | nil =>
    cases hrun
    cases hn
  | append_singleton es e ih =>
    obtain ⟨s₁, hfirst, hlast⟩ := run_append.mp hrun
    obtain ⟨s₂, hs, hend⟩ := run_cons.mp hlast
    cases hend
    have hall : job.broughtTo (job.dest t.path) (es ++ [e])
        = job.broughtTo (job.dest t.path) es ++ job.broughtTo (job.dest t.path) [e] :=
      List.filterMap_append
    have hearlier {m : ℕ} (hm : (s₁.phase i).progress = some m) (hlt : (o : ℤ) < t.start + m) :
        ∃ w ∈ job.broughtTo (job.dest t.path) (es ++ [e]), (SparseFile.putAt o w).isSome = true := by
      obtain ⟨w, hw, hput⟩ := ih hfirst hm hlt
      exact ⟨w, hall ▸ List.mem_append_left _ hw, hput⟩
    rcases progress_step hs hn with ⟨-, -, rfl⟩ | ⟨-, hsame⟩ | ⟨p, data, hp, rfl, rfl⟩
    · omega
    · exact hearlier hsame hhi
    · by_cases hlt : (o : ℤ) < t.start + p
      · exact hearlier hp hlt
      · refine ⟨((t.start + p).toNat, data.take data.length), hall ▸ List.mem_append_right _ ?_, ?_⟩
        · simp [Job.broughtTo, Job.broughtBy, ht, FetchTask.brings]
        · refine SparseFile.isSome_putAt (by dsimp only; omega) ?_
          rw [List.take_length]
          dsimp only
          omega

theorem written_of_received (hrun : run (step job) job.start es = some s) {d : Bytes}
    {w : ℕ × Bytes} (hw : w ∈ job.broughtTo d es) {o : ℕ} {b : UInt8}
    (hput : SparseFile.putAt o w = some b) :
    ∃ i t j, job.tasks[i]? = some t ∧ job.dest t.path = d ∧ (o : ℤ) = t.start + (j : ℕ)
      ∧ ∃ es₁, es₁ <+: es ∧ (received i es₁)[j]? = some b := by
  induction es using List.reverseRecOn generalizing s with
  | nil => cases hw
  | append_singleton es e ih =>
    obtain ⟨s₁, hfirst, hlast⟩ := run_append.mp hrun
    obtain ⟨s₂, hs, hend⟩ := run_cons.mp hlast
    cases hend
    rw [Job.broughtTo, List.filterMap_append, List.mem_append] at hw
    rcases hw with hw | hw
    · obtain ⟨i, t, j, ht, hd, ho, es₁, hes₁, hget⟩ := ih hfirst hw
      exact ⟨i, t, j, ht, hd, ho, es₁, hes₁.trans (List.prefix_append _ _), hget⟩
    · obtain ⟨e', he', hby⟩ := List.mem_filterMap.mp hw
      obtain rfl := List.mem_singleton.mp he'
      cases steps_of_step hs with
      | @task i a t phase ht hact =>
        rw [Job.broughtBy, ht, Option.bind_some] at hby
        obtain ⟨hd, hby⟩ := Option.ite_none_right_eq_some.mp hby
        match a, hby with
        | .chunk p data m err, hby =>
          cases hby
          obtain ⟨hp, hroom⟩ := chunk_of_act hact
          obtain ⟨hle, hget⟩ := SparseFile.putAt_eq_some hput
          dsimp only at hle hget
          rw [List.getElem?_take] at hget
          obtain ⟨hlt, hget⟩ := Option.ite_none_right_eq_some.mp hget
          refine ⟨i, t, p + (o - (t.start + p).toNat), ht, hd, by omega, es ++ [_],
            List.prefix_rfl, ?_⟩
          rw [received_append, receive, if_pos rfl,
            List.getElem?_append_right (by rw [length_received hfirst hp]; omega),
            length_received hfirst hp, Nat.add_sub_cancel_left]
          exact hget
      | _ => cases hby

/-! ## What is on the disk -/

abbrev Upstream := Bytes → ℕ → UInt8

def Identical (job : Job) (upstream : Upstream) (s : State) : Prop :=
  ∀ f ∈ job.files, ∃ file, s.disk (job.dest f.path) = some file
    ∧ ∀ i < f.size.toNat, file.read 0 i = some (upstream f.path i)

structure Faithful (job : Job) (upstream : Upstream) (es : List Event) : Prop where
  bytes : ∀ es₁, es₁ <+: es → ∀ (i : ℕ) (t : FetchTask), job.tasks[i]? = some t →
    ∀ (j : ℕ) (b : UInt8), (received i es₁)[j]? = some b → b = upstream t.path (t.start + j).toNat
  whole : ∀ (es₁ : List Event) (i : ℕ) (t : FetchTask), es₁ ++ [.task i (.ends none)] <+: es →
    job.tasks[i]? = some t → t.last + 1 - t.start ≤ (received i es₁).length
  apart : ∀ f ∈ job.files, ∀ t ∈ job.tasks, job.dest t.path = job.dest f.path → t.path = f.path
  small : ∀ f ∈ job.files, f.size + job.chunk ≤ 2 ^ 63

theorem job_eq_some {r : Request} {fuel : ℕ} (h : r.job fuel = some job) :
    0 < job.chunk ∧ plan job.chunk fuel job.files = some job.tasks
      ∧ ∀ f ∈ job.files, (job.prepared (job.dest f.path)).isSome = true := by
  obtain ⟨files, -, h⟩ := Option.bind_eq_some_iff.mp h
  obtain ⟨tasks, hplan, h⟩ := Option.bind_eq_some_iff.mp h
  obtain ⟨-, h⟩ := Option.ite_none_left_eq_some.mp h
  cases h
  refine ⟨?_, hplan, fun f hf => isSome_prepareAll (fun _ hp => absurd hp List.not_mem_nil) hf⟩
  show 0 < r.opts.chunk
  unfold DownloadOpts.chunk defaultRangeChunk
  split <;> omega

/-- **A download without an error has brought the files, if the replies were what was asked
for.** Whatever the order of the workers, of their chunks and of the attempts that failed
part-way: every byte that is written is upstream's, and every offset is written. -/
theorem download_identical (r : Request) (fuel : ℕ) (job : Job) (es : List Event) (s : State)
    (hjob : r.job fuel = some job) (hrun : run (step job) job.start es = some s)
    (hret : s.returned = some none) (upstream : Upstream) (h : Faithful job upstream es) :
    Identical job upstream s := by
  intro f hf
  obtain ⟨hchunk, hplan, hprepared⟩ := job_eq_some hjob
  obtain ⟨file, hfile⟩ := Option.isSome_iff_exists.mp (hprepared f hf)
  refine ⟨file.writes (job.broughtTo (job.dest f.path) es), ?_, fun i hi => ?_⟩
  · rw [disk_run hrun]
    exact congrArg _ hfile
  -- the task that has this offset is fetched
  obtain ⟨t, ht, hpath, hlo, hhi⟩ :=
    exists_task hchunk hplan hf (h.small f hf) (Int.natCast_nonneg i) (by omega)
  obtain ⟨k, hk, hget⟩ := List.mem_iff_getElem.mp ht
  have hget' : job.tasks[k]? = some t := by rw [List.getElem?_eq_getElem hk, hget]
  have hclean : Clean job s :=
    invariant_of_step (fun _ _ _ h hs => Clean.step h hs) (clean_start job) hrun
  obtain ⟨hlaunched, hdone⟩ := hclean.fetched hret
  obtain ⟨n, hn⟩ := hdone k (hlaunched ▸ hk)
  obtain ⟨es₁, hes₁, hlen⟩ := ends_of_done hrun hn
  have hwhole := h.whole es₁ k t hes₁ hget'
  obtain ⟨w, hw, hput⟩ := written_run hrun hget' (by rw [hn]; rfl) hlo (by omega)
  rw [hpath] at hw
  refine file.read_writes_of_agree 0 hw hput (fun w' hw' b hput' => ?_)
  obtain ⟨k', t', j, ht', hd, ho, es₂, hes₂, hb⟩ := written_of_received hrun hw' hput'
  rw [← h.apart f hf t' (List.mem_of_getElem? ht') hd, h.bytes es₂ hes₂ k' t' ht' j b hb, ← ho,
    Int.toNat_natCast]

end

/-! ## Two replies with the whole file -/

def twoRanges : Request where
  opts := { rangeChunk := 2 }
  glob _ _ := some false
  dest p := p
  entries := [⟨ascii "file", [102], 4⟩]
  disk _ := none

def fourBytes : Upstream := fun _ i => [97, 98, 99, 100].getD i 0

def replies (first second : ℕ × Bytes) : List Event :=
  [.check, .launch, .check, .launch, .task 0 .attempt, .task 1 .attempt, .task 0 (.reply first.1),
    .task 0 (.chunk 0 first.2 first.2.length none), .task 0 (.ends none),
    .task 1 (.reply second.1), .task 1 (.chunk 0 second.2 second.2.length none),
    .task 1 (.ends none), .finish]

theorem bodies_of_ranges {es : List Event} (h : es <+: replies (206, [97, 98]) (206, [99, 100]))
    {j : ℕ} {b : UInt8} :
    ((received 0 es)[j]? = some b → [97, 98][j]? = some b)
      ∧ ((received 1 es)[j]? = some b → [99, 100][j]? = some b) := by
  have hall : ((replies (206, [97, 98]) (206, [99, 100])).inits.all (fun es =>
      (received 0 es).isPrefixOf [97, 98] && (received 1 es).isPrefixOf [99, 100])) = true := by
    decide
  have hes := List.all_eq_true.mp hall es ((List.mem_inits _ _).mpr h)
  rw [Bool.and_eq_true, List.isPrefixOf_iff_prefix, List.isPrefixOf_iff_prefix] at hes
  have hget {l l' : Bytes} (hl : l <+: l') (hb : l[j]? = some b) : l'[j]? = some b := by
    obtain ⟨rest, rfl⟩ := hl
    rw [List.getElem?_append_left (List.getElem?_eq_some_iff.mp hb).1, hb]
  exact ⟨hget hes.1, hget hes.2⟩

theorem download_identical_in_ranges :
    ∃ job s, twoRanges.job 5 = some job
      ∧ run (step job) job.start (replies (206, [97, 98]) (206, [99, 100])) = some s
      ∧ s.returned = some none ∧ Identical job fourBytes s := by
  refine ⟨_, _, rfl, rfl, rfl, ?_⟩
  refine download_identical twoRanges 5 _ (replies (206, [97, 98]) (206, [99, 100])) _ rfl rfl
    rfl fourBytes ⟨?_, ?_, ?_, ?_⟩
  · intro es₁ hes₁ i t ht j b hb
    match i, ht with
    | 0, ht =>
      cases ht
      have hget := (bodies_of_ranges hes₁).1 hb
      match j, hget with
      | 0, hget | 1, hget => exact (Option.some.inj hget).symm
    | 1, ht =>
      cases ht
      have hget := (bodies_of_ranges hes₁).2 hb
      match j, hget with
      | 0, hget | 1, hget => exact (Option.some.inj hget).symm
  · rintro es₁ i t ⟨rest, hes₁⟩ ht
    have htake : (replies (206, [97, 98]) (206, [99, 100])).take es₁.length = es₁ := by
      rw [← hes₁, List.append_assoc, List.take_left]
    have hget : (replies (206, [97, 98]) (206, [99, 100]))[es₁.length]?
        = some (.task i (.ends none)) := by
      rw [← hes₁, List.append_assoc, List.getElem?_append_right le_rfl, Nat.sub_self]
      rfl
    rw [← htake]
    -- the ninth event and the twelfth end a body
    generalize es₁.length = m at hget
    match m, hget with
    | 8, hget =>
      cases hget
      cases ht
      decide
    | 11, hget =>
      cases hget
      cases ht
      decide
    | m + 12, hget => cases m <;> cases hget
  · intro f hf t ht _
    obtain rfl := List.mem_singleton.mp hf
    rcases List.mem_cons.mp ht with rfl | ht
    · rfl
    · obtain rfl := List.mem_singleton.mp ht
      rfl
  · intro f hf
    obtain rfl := List.mem_singleton.mp hf
    decide

/-- **Replies with the whole file are taken for ranges of it**, from a server that ignores the
`Range` header. -/
theorem whole_replies_taken :
    ∃ job s file, twoRanges.job 5 = some job
      ∧ run (step job) job.start (replies (200, [97, 98, 99, 100]) (200, [97, 98, 99, 100])) = some s
      ∧ s.returned = some none ∧ s.disk [102] = some file ∧ file.read 0 2 = some 97
      ∧ ¬ Identical job fourBytes s := by
  refine ⟨_, _, _, rfl, rfl, rfl, rfl, rfl, fun h => ?_⟩
  obtain ⟨file, hfile, hbytes⟩ := h ⟨[102], 4⟩ (List.mem_singleton.mpr rfl)
  cases hfile
  exact absurd (hbytes 2 (by decide)) (by decide)

end Hfhub
