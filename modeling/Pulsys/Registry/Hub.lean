import Pulsys.Blobstore.Integrity
import Pulsys.Registry.History
import Pulsys.Registry.References

/-!
# The registry as one system

An upload is a sequence of file operations and then a row of `blobs`; a commit refers to rows; a
download goes from a row to a file. They interleave, and nothing ties the tables to the files but
the order in which the handlers work. So the invariant says where everything comes from: every
canonical file and every row is of bytes that were uploaded (`Hub.Sound`).
-/

namespace Blobstore

open Bytes Runs Parties

/-! ## What was uploaded -/

def Written (s : Store) (b : Bytes) : Prop :=
  ∃ i p, s.puts i = some p ∧ p.phase.success.isSome = true ∧ p.body = b

structure Sourced (sha256 : Bytes → Bytes) (s : Store) : Prop where
  file : ∀ oid b, s.blobs oid = some b → Written s b
  placed : ∀ b, Written s b → (s.blobs (oidOf sha256 b)).isSome = true

def Event.keeps : Event → Bool
  | .delete _ _ => false
  | _ => true

variable {sha256 : Bytes → Bytes} {blobDir : Bytes} {s s' : Store} {e : Event} {p p' : Put}
  {a : Action} {effect : Effect} {i : ℕ} {b : Bytes}

theorem Acts.success (h : Acts sha256 blobDir s p a p' effect)
    (hp : p.phase.success.isSome = true) :
    p'.phase.success.isSome = true ∧ p'.body = p.body := by
  cases h with
  | @removeFails result hphase | @remove _ result hphase _ | @ret result hphase =>
    rw [hphase] at hp
    cases result <;> exact ⟨hp, rfl⟩
  | _ => simp_all [Phase.success]

theorem Acts.blobs_isSome (h : Acts sha256 blobDir s p a p' effect) {oid : Bytes}
    (hoid : (s.blobs oid).isSome = true) : ((effect.apply s).blobs oid).isSome = true := by
  cases h with
  | @rename _ n content hphase htemp hfile =>
    by_cases heq : oid = oidOf sha256 p.hashed
    · rw [heq, Effect.blobs_publish]
      rfl
    · rwa [Effect.blobs_publish_of_ne _ _ _ heq]
  | _ => exact hoid

theorem Written.step (h : Written s b) (hs : step sha256 blobDir s e = some s') : Written s' b := by
  obtain ⟨j, q, hq, hsuccess, rfl⟩ := h
  cases steps_of_step hs with
  | @start i opts hi =>
    have hne : j ≠ i := by
      rintro rfl
      rw [hi] at hq
      cases hq
    exact ⟨j, q, (Function.update_of_ne hne _ _).trans hq, hsuccess, rfl⟩
  | @act i a p p' effect hp hacts =>
    by_cases heq : j = i
    · subst heq
      cases hp.symm.trans hq
      obtain ⟨hsuccess', hbody⟩ := hacts.success hsuccess
      exact ⟨j, p', Function.update_self _ _ _, hsuccess', hbody⟩
    · exact ⟨j, q, (Function.update_of_ne heq _ _).trans hq, hsuccess, rfl⟩
  | delete => exact ⟨j, q, hq, hsuccess, rfl⟩
  | deleteFails => exact ⟨j, q, hq, hsuccess, rfl⟩

theorem Acts.placed (h : Acts sha256 blobDir s p a p' effect)
    (hfits : Fits sha256 blobDir s.tmp p) (hp' : p'.phase.success.isSome = true) :
    (p.phase.success.isSome = true ∧ p'.body = p.body)
      ∨ ((effect.apply s).blobs (oidOf sha256 p'.body)).isSome = true := by
  have hwhole := hfits.whole
  cases h with
  | present hphase hblob | presentAgain hphase hblob =>
    refine .inr ?_
    rw [(hwhole (by rw [hphase]; rfl)).1]
    exact hblob
  | rename hphase htemp hfile =>
    refine .inr ?_
    rw [(hwhole (by rw [hphase]; rfl)).1, Effect.blobs_publish]
    rfl
  | @removeFails result hphase | @remove _ result hphase _ | @ret result hphase =>
    rw [hphase]
    cases result <;> exact .inl ⟨hp', rfl⟩
  | write hphase _ _ =>
    rw [hphase] at hp'
    cases hp'
  | _ => cases hp'

theorem Sourced.act (h : Sourced sha256 s) (hp : s.puts i = some p)
    (hacts : Acts sha256 blobDir s p a p' effect) (hfits : Fits sha256 blobDir s.tmp p)
    (hmono : ∀ b, Written s b →
      Written { effect.apply s with puts := Function.update s.puts i (some p') } b) :
    Sourced sha256 { effect.apply s with puts := Function.update s.puts i (some p') } where
  file oid b hb := by
    cases hacts with
    | rename hphase htemp hfile =>
      -- the file that is renamed has what was hashed, which is the body
      obtain ⟨hbody, n, htemp', hwhole⟩ := hfits.whole (by rw [hphase]; rfl)
      cases htemp.symm.trans htemp'
      cases hfile.symm.trans hwhole
      by_cases heq : oid = oidOf sha256 p.hashed
      · rw [heq, Effect.blobs_publish] at hb
        exact ⟨i, _, Function.update_self _ _ _, rfl, hbody.trans (Option.some.inj hb)⟩
      · rw [Effect.blobs_publish_of_ne _ _ _ heq] at hb
        exact hmono b (h.file oid b hb)
    | _ => exact hmono b (h.file oid b hb)
  placed b hb := by
    obtain ⟨j, q, hq, hsuccess, rfl⟩ := hb
    rcases update_eq_some hq with ⟨rfl, heq⟩ | ⟨-, hold⟩
    · cases heq
      rcases hacts.placed hfits hsuccess with ⟨hbefore, hbody⟩ | hplaced
      · rw [hbody]
        exact hacts.blobs_isSome (h.placed _ ⟨j, p, hp, hbefore, rfl⟩)
      · exact hplaced
    · exact hacts.blobs_isSome (h.placed _ ⟨j, q, hold, hsuccess, rfl⟩)

theorem Sourced.step {stale : ℕ → Prop} (h : Sourced sha256 s)
    (hkept : Kept sha256 blobDir stale s) (hkeeps : e.keeps = true)
    (hs : step sha256 blobDir s e = some s') : Sourced sha256 s' := by
  have hmono : ∀ b, Written s b → Written s' b := fun b hb => hb.step hs
  cases steps_of_step hs with
  | @start i opts hi =>
    refine ⟨fun oid b hb => hmono b (h.file oid b hb), fun b hb => ?_⟩
    obtain ⟨j, q, hq, hsuccess, rfl⟩ := hb
    rcases update_eq_some hq with ⟨-, heq⟩ | ⟨-, hold⟩
    · cases heq
      rw [success_begin] at hsuccess
      cases hsuccess
    · exact h.placed _ ⟨j, q, hold, hsuccess, rfl⟩
  | act hp hacts => exact h.act hp hacts (hkept.orderly.each _ _ hp) hmono
  | delete => cases hkeeps
  | deleteFails => cases hkeeps

end Blobstore

namespace Registry

open Bytes Transaction Runs
open Blobstore (Store Put oidOf Written Sourced)

/-! ## The system -/

structure Hub where
  db : Database
  files : Store

inductive HubEvent
  | file (e : Blobstore.Event)
  | upsertBlob (i : ℕ) (faults : Faults)
  | commitTx (draw : Draw) (input : CommitInput)

namespace Hub

def empty (repos : Finset Bytes) : Hub := ⟨.empty repos, Blobstore.noFiles⟩

def call (hub : Hub) (call : Call) : Hub := { hub with db := (transact call.exec hub.db).2 }

def step (sha256 : Bytes → Bytes) (blobDir : Bytes) (hub : Hub) : HubEvent → Option Hub
  | .file e =>
    -- no handler deletes an object
    if e.keeps then
      (Blobstore.step sha256 blobDir hub.files e).map (fun files => { hub with files })
    else none
  | .upsertBlob i faults =>
    match (hub.files.puts i).map Put.phase with
    | some (.done (.ok st)) => some (hub.call (.upsertBlob faults st.oid st.size st.storageURL))
    | _ => none
  | .commitTx draw input => some (hub.call (.commitTx draw input))

def Traced (sha256 : Bytes → Bytes) (files : Store) (db : Database) : Prop :=
  ∀ oid r, db.blobs.get oid = some r →
    isHexN oid 64 = true ∧ ∃ b, Written files b ∧ oidOf sha256 b = oid ∧ r.size = b.length

structure Sound (sha256 : Bytes → Bytes) (blobDir : Bytes) (hub : Hub) : Prop where
  kept : Blobstore.Kept sha256 blobDir (fun n => (Blobstore.noFiles.tmp n).isSome = true)
    hub.files
  sourced : Sourced sha256 hub.files
  traced : Traced sha256 hub.files hub.db

end Hub

/-! ## One step -/

variable {db db' : Database} {call : Call} {r : Option CommitResult}

theorem blobs_of_exec (h : call.exec db = .ok (r, db')) {oid : Bytes} {row : Blob}
    (hrow : db'.blobs.get oid = some row) :
    (∃ old, db.blobs.get oid = some old ∧ row.size = old.size)
      ∨ ∃ faults storageURL, call = .upsertBlob faults oid row.size storageURL
        ∧ isHexN oid 64 = true := by
  cases call with
  | upsertBlob faults oid' size storageURL =>
    obtain ⟨hhex, -, rfl⟩ := exec_upsertBlob_eq_ok h
    rw [Database.insertBlob] at hrow
    split at hrow
    · exact .inl ⟨row, hrow, rfl⟩
    · rcases Directory.get_write_eq_some hrow with ⟨rfl, rfl⟩ | ⟨-, hold⟩
      · exact .inr ⟨faults, storageURL, rfl, hhex⟩
      · exact .inl ⟨row, hold, rfl⟩
  | commitTx draw input =>
    obtain ⟨result, files, -, hc⟩ := exec_commitTx_eq_ok h
    rw [hc.blobs, Directory.get_map] at hrow
    obtain ⟨old, hold, rfl⟩ := Option.map_eq_some_iff.mp hrow
    refine .inl ⟨old, hold, ?_⟩
    unfold Blob.bump
    split <;> rfl

namespace Hub

variable {sha256 : Bytes → Bytes} {blobDir : Bytes} {hub hub' : Hub} {e : HubEvent}

theorem Sound.transacted (h : Sound sha256 blobDir hub)
    (hcall : ∀ faults oid size storageURL, call = .upsertBlob faults oid size storageURL →
      ∃ b, Written hub.files b ∧ oidOf sha256 b = oid ∧ size = b.length) :
    Sound sha256 blobDir (hub.call call) where
  kept := h.kept
  sourced := h.sourced
  traced := by
    refine @transact_invariant _ _ _ (Traced sha256 hub.files) call.exec hub.db
      (fun r db' hok oid row hrow => ?_) h.traced
    rcases blobs_of_exec hok hrow with ⟨old, hold, hsize⟩ | ⟨faults, storageURL, rfl, hhex⟩
    · rw [hsize]
      exact h.traced oid old hold
    · exact ⟨hhex, hcall _ _ _ _ rfl⟩

theorem Sound.step (h : Sound sha256 blobDir hub)
    (hs : hub.step sha256 blobDir e = some hub') : Sound sha256 blobDir hub' := by
  cases e with
  | file e =>
    simp only [Hub.step] at hs
    split at hs
    · next hkeeps =>
      obtain ⟨files, hfiles, rfl⟩ := Option.map_eq_some_iff.mp hs
      refine ⟨h.kept.step hfiles, h.sourced.step h.kept hkeeps hfiles, fun oid r hr => ?_⟩
      obtain ⟨hhex, b, hb, hrest⟩ := h.traced oid r hr
      exact ⟨hhex, b, hb.step hfiles, hrest⟩
    · cases hs
  | upsertBlob i faults =>
    simp only [Hub.step] at hs
    split at hs
    · next st hphase =>
      cases hs
      obtain ⟨p, hp, hdone⟩ := Option.map_eq_some_iff.mp hphase
      have hst := (h.kept.orderly.each i p hp).success st (by rw [hdone]; rfl)
      refine h.transacted (fun faults oid size storageURL heq => ?_)
      cases heq
      exact ⟨p.body, ⟨i, p, hp, by rw [hdone]; rfl, rfl⟩, by rw [hst]; rfl, by rw [hst]; rfl⟩
    · cases hs
  | commitTx draw input =>
    cases hs
    exact h.transacted (fun _ _ _ _ heq => by cases heq)

theorem sound_empty (repos : Finset Bytes) : Sound sha256 blobDir (Hub.empty repos) where
  kept := Blobstore.kept_of_idle (fun _ => rfl) (fun _ _ h => by cases h)
  sourced := ⟨fun _ _ h => (by cases h), fun _ ⟨_, _, h, _⟩ => (by cases h)⟩
  traced _ _ h := by cases h

theorem Sound.run {es : List HubEvent} (h : Sound sha256 blobDir hub)
    (hrun : run (Hub.step sha256 blobDir) hub es = some hub') : Sound sha256 blobDir hub' :=
  invariant_of_step (fun _ _ _ hs => Sound.step hs) h hrun

end Hub

end Registry
