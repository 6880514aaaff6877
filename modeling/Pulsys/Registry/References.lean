import Pulsys.Base.Runs
import Pulsys.Registry.Commit

/-!
# Reference counts

A blob that some commit refers to must have a count of at least one. That it is there is
tested by `char(64)`, the count is raised by the text: an object id with a blank at its end
is missed. Without such ids every referenced blob is counted.
-/

namespace Registry

open Bytes Transaction Runs

/-! ## The property -/

def Counted (db : Database) : Prop :=
  ∀ i p r, (db.fileRevisions i).get p = some r →
    ∃ b, db.blobs.get r.blobOID = some b ∧ 1 ≤ b.refCount

def Grown (db db' : Database) : Prop :=
  ∀ oid b, db.blobs.get oid = some b → ∃ b', db'.blobs.get oid = some b' ∧ b.refCount ≤ b'.refCount

def step (db : Database) (call : Call) : Option Database := some (transact call.exec db).2

def Call.Unpadded : Call → Prop
  | .upsertBlob _ _ _ _ => True
  | .commitTx _ input => ∀ pf ∈ input.inline ++ input.lfsPointers, pf.2.blobOID.getLast? ≠ some SP

instance : (call : Call) → Decidable call.Unpadded
  | .upsertBlob _ _ _ _ => isTrue trivial
  | .commitTx _ input => inferInstanceAs
      (Decidable (∀ pf ∈ input.inline ++ input.lfsPointers, pf.2.blobOID.getLast? ≠ some SP))

/-! ## Counts only grow -/

theorem Grown.refl (db : Database) : Grown db db := fun _ b hb => ⟨b, hb, le_rfl⟩

theorem Grown.trans {db₁ db₂ db₃ : Database} (h₁ : Grown db₁ db₂) (h₂ : Grown db₂ db₃) :
    Grown db₁ db₃ := by
  intro oid b hb
  obtain ⟨b', hb', hle⟩ := h₁ oid b hb
  obtain ⟨b'', hb'', hle'⟩ := h₂ oid b' hb'
  exact ⟨b'', hb'', hle.trans hle'⟩

theorem insertBlob_grown (db : Database) (oid : Bytes) (b : Blob) :
    Grown db (db.insertBlob oid b) := by
  intro oid' b' hb'
  rw [Database.insertBlob]
  split
  · exact ⟨b', hb', le_rfl⟩
  · next hnone =>
    refine ⟨b', ?_, le_rfl⟩
    have hne : oid' ≠ oid := by
      rintro rfl
      simp [hb'] at hnone
    rw [← hb']
    exact Directory.get_write_of_ne _ _ hne

theorem le_bump (oids : Finset Bytes) (oid : Bytes) (b : Blob) :
    b.refCount ≤ (b.bump oids oid).refCount := by
  rw [Blob.bump]
  split
  · exact Nat.le_succ _
  · exact le_rfl

variable {db db' : Database} {call : Call}

theorem Committed.blob {draw : Draw} {input : CommitInput} {files : Files} {result : CommitResult}
    (h : Committed draw input db files result db') {oid : Bytes} {b : Blob}
    (hb : db.blobs.get oid = some b) :
    db'.blobs.get oid = some (b.bump (added (parentFiles db input.repoID
      ((db.head input.repoID input.branchOrMain).getD [])) files) oid) := by
  rw [h.blobs, Directory.get_map, hb]
  rfl

theorem exec_grown {r : Option CommitResult} (h : call.exec db = .ok (r, db')) : Grown db db' := by
  cases call with
  | upsertBlob faults oid size storageURL =>
    obtain ⟨-, -, rfl⟩ := exec_upsertBlob_eq_ok h
    exact insertBlob_grown db oid _
  | commitTx draw input =>
    obtain ⟨result, files, -, hc⟩ := exec_commitTx_eq_ok h
    exact fun oid b hb => ⟨_, hc.blob hb, le_bump _ oid b⟩

theorem step_grown (h : step db call = some db') : Grown db db' := by
  cases h
  exact @transact_invariant _ _ _ (Grown db) call.exec db (fun r db' h => exec_grown h)
    (Grown.refl db)

theorem run_grown {calls : List Call} (h : run step db calls = some db') : Grown db db' :=
  @invariant_of_step _ _ step (Grown db) (fun _ _ _ hi hs => hi.trans (step_grown hs)) db db' calls
    (Grown.refl db) h

/-! ## Referenced blobs are counted -/

theorem Counted.of_grown (h : Counted db) (hgrown : Grown db db') {i : ℕ} {p : Bytes}
    {r : FileRow} (hr : (db.fileRevisions i).get p = some r) :
    ∃ b, db'.blobs.get r.blobOID = some b ∧ 1 ≤ b.refCount := by
  obtain ⟨b, hb, hpos⟩ := h i p r hr
  obtain ⟨b', hb', hle⟩ := hgrown r.blobOID b hb
  exact ⟨b', hb', hpos.trans hle⟩

theorem insertBlob_counted (h : Counted db) (oid : Bytes) (b : Blob) :
    Counted (db.insertBlob oid b) := by
  intro i p r hr
  rw [(db.insertBlob_tables oid b).2.2] at hr
  exact h.of_grown (insertBlob_grown db oid b) hr

theorem Committed.counted {draw : Draw} {input : CommitInput} {files : Files}
    {result : CommitResult} (hc : Committed draw input db files result db')
    (hunpadded : (Call.commitTx draw input).Unpadded) (h : Counted db) (hgrown : Grown db db') :
    Counted db' := by
  intro i p r hr
  rw [hc.fileRevisions, Function.update_apply] at hr
  split at hr
  · obtain ⟨f, hf, rfl⟩ := Option.map_eq_some_iff.mp ((Directory.get_map _ _ _).symm.trans hr)
    by_cases hcarried : carriedOver (parentFiles db input.repoID
        ((db.head input.repoID input.branchOrMain).getD [])) p f
    · obtain ⟨g, hg, hoid⟩ := hcarried
      obtain ⟨j, hrow⟩ := exists_row_of_tree (parentFiles_eq_some hg)
      have hself : bpchar f.blobOID = g.blobOID := hoid ▸ db.file_oid j p _ hrow
      obtain ⟨b, hb, hpos⟩ := h.of_grown hgrown hrow
      exact ⟨b, hself ▸ hb, hpos⟩
    · rcases newFiles_cases hc.built hf with ⟨g, hg, hoid⟩ | hg
      · -- the object id is the same as a `char(64)` and as a text
        have hself : bpchar f.blobOID = f.blobOID :=
          hoid ▸ bpchar_eq_self (hunpadded (p, g) hg)
        obtain ⟨b, hb⟩ := Option.isSome_iff_exists.mp (hc.confirmed p f hf)
        refine ⟨_, hc.blob hb, ?_⟩
        rw [hself, Blob.bump, if_pos (mem_added.mpr ⟨p, f, hf, hcarried, rfl⟩)]
        exact Nat.succ_pos _
      · exact absurd ⟨f, hg, rfl⟩ hcarried
  · exact h.of_grown hgrown hr

theorem step_counted (h : Counted db) (hunpadded : call.Unpadded)
    (hstep : step db call = some db') : Counted db' := by
  cases hstep
  refine transact_invariant (fun r db' hok => ?_) h
  cases call with
  | upsertBlob faults oid size storageURL =>
    obtain ⟨-, -, rfl⟩ := exec_upsertBlob_eq_ok hok
    exact insertBlob_counted h oid _
  | commitTx draw input =>
    obtain ⟨result, files, -, hc⟩ := exec_commitTx_eq_ok hok
    exact hc.counted hunpadded h (exec_grown hok)

/-- **Referenced blobs are never garbage**, as long as no object id that comes with a commit
ends in a blank; and no count gets lower. -/
theorem referenced_counted (repos : Finset Bytes) (calls : List Call)
    (h : Meets step (fun _ call => call.Unpadded) (Database.empty repos) calls) :
    Throughout step Counted (Database.empty repos) calls
      ∧ ∀ calls₁ calls₂ db₁ db₂, calls₁ ++ calls₂ <+: calls →
        run step (Database.empty repos) calls₁ = some db₁ → run step db₁ calls₂ = some db₂ →
          Grown db₁ db₂ := by
  refine ⟨?_, fun _ _ _ _ _ _ hrun => run_grown hrun⟩
  refine throughout_of_meets (fun db call db' hi hc hs => step_counted hi hc hs) ?_ h
  intro i p r hr
  cases hr

private def oid₀ : Bytes := List.replicate 64 97

private def draw₀ : Draw where
  digest := List.replicate 32 1
  commitID := 7
  digest_length := rfl

private def commit₀ (oid : Bytes) : Call :=
  .commitTx draw₀
    { repoID := ascii "r"
      inline := []
      lfsPointers := [(ascii "model.bin", ⟨oid, 5⟩)]
      inline_nodup := List.nodup_nil
      lfsPointers_nodup := List.nodup_singleton _ }

theorem referenced_counted_upload :
    (∃ db ∈ run step (Database.empty {ascii "r"})
        [.upsertBlob (fun _ => false) oid₀ 5 (ascii "file:///b"), commit₀ oid₀],
        (db.blobs.get oid₀).map Blob.refCount = some 1)
      ∧ Throughout step Counted (Database.empty {ascii "r"})
        [.upsertBlob (fun _ => false) oid₀ 5 (ascii "file:///b"), commit₀ oid₀] :=
  ⟨⟨_, rfl, by decide +kernel⟩, (referenced_counted _ _ (by decide +kernel)).1⟩

/-- **An object id with a blank at its end is referred to and not counted.** -/
theorem padded_oid_not_counted :
    ∃ db ∈ run step (Database.empty {ascii "r"})
        [.upsertBlob (fun _ => false) oid₀ 5 (ascii "file:///b"), commit₀ (oid₀ ++ [SP])],
      ¬ Counted db := by
  obtain ⟨db, hdb, hrow, hcount⟩ : ∃ db ∈ run step (Database.empty {ascii "r"})
      [.upsertBlob (fun _ => false) oid₀ 5 (ascii "file:///b"), commit₀ (oid₀ ++ [SP])],
      (db.fileRevisions 7).get (ascii "model.bin") = some ⟨oid₀, true⟩
        ∧ (db.blobs.get oid₀).map Blob.refCount = some 0 :=
    ⟨_, rfl, by decide +kernel, by decide +kernel⟩
  refine ⟨db, hdb, fun h => ?_⟩
  obtain ⟨b, hb, hpos⟩ := h 7 _ _ hrow
  rw [hb] at hcount
  exact absurd (Option.some.inj hcount) (Nat.pos_iff_ne_zero.mp hpos)

end Registry
