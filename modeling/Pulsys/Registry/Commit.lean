import Pulsys.Base.Directory
import Pulsys.Base.Transaction
import Pulsys.Cache.Meta

/-!
# The registry's commits

`CommitTx` writes a commit, its rows, the reference counts and the branch in one
serializable transaction. An object id is a `char(64)`, the text without trailing blanks
(`bpchar`); but the counts are raised by `text[]`, where the blanks count.
-/

namespace Registry

open Bytes Transaction

/-! ## Paths -/

def maxCommitFilePathBytes : ℕ := 1024

def splitPathSegmentsFrom : Bytes → Bytes → List Bytes
  | seg, [] => if seg = [] then [] else [seg]
  | seg, c :: rest =>
    if c = SLASH then
      if seg = [] then splitPathSegmentsFrom [] rest
      else seg :: splitPathSegmentsFrom [] rest
    else splitPathSegmentsFrom (seg ++ [c]) rest

def splitPathSegments (p : Bytes) : List Bytes := splitPathSegmentsFrom [] p

def validateCommitFilePath (p : Bytes) : Bool :=
  p ≠ [] && p.length ≤ maxCommitFilePathBytes && p.head? ≠ some SLASH
    && p.all (fun c => c ≠ 0 && c ≠ 92 && c ≠ CR && c ≠ LF)
    && !(splitPathSegments p).contains (ascii "..")

def isHexN (s : Bytes) (n : ℕ) : Bool :=
  s.length = n && s.all (fun c => (48 ≤ c && c ≤ 57) || (97 ≤ c && c ≤ 102))

def bpchar (s : Bytes) : Bytes := s.rdropWhile (· == SP)

theorem bpchar_eq_self {s : Bytes} (h : s.getLast? ≠ some SP) : bpchar s = s := by
  refine List.rdropWhile_eq_self_iff.mpr (fun hs hlast => h ?_)
  rw [List.getLast?_eq_some_getLast hs, eq_of_beq hlast]

/-! ## The tables -/

structure Blob where
  size : ℤ
  storageURL : Bytes
  refCount : ℕ := 0
  deriving DecidableEq

structure Commit where
  id : ℕ
  parentSHA : Option Bytes
  authorID : Option Bytes
  summary : Bytes
  description : Bytes
  deriving DecidableEq

structure FileRow where
  blobOID : Bytes
  isLFS : Bool
  deriving DecidableEq

structure Database where
  repos : Finset Bytes
  blobs : Directory Bytes Blob
  commits : Directory (Bytes × Bytes) Commit
  branches : Directory (Bytes × Bytes) Bytes
  fileRevisions : ℕ → Directory Bytes FileRow
  commit_id : ∀ k k' c c', commits.get k = some c → commits.get k' = some c' →
    c.id = c'.id → k = k'
  file_commit : ∀ i p r, (fileRevisions i).get p = some r →
    ∃ k c, commits.get k = some c ∧ c.id = i
  file_blob : ∀ i p r, (fileRevisions i).get p = some r → (blobs.get r.blobOID).isSome
  file_oid : ∀ i p r, (fileRevisions i).get p = some r → bpchar r.blobOID = r.blobOID
  branch_sha : ∀ k sha, branches.get k = some sha → sha ≠ []

def Database.empty (repos : Finset Bytes) : Database where
  repos := repos
  blobs := .empty
  commits := .empty
  branches := .empty
  fileRevisions _ := .empty
  commit_id _ _ _ _ h := by cases h
  file_commit _ _ _ h := by cases h
  file_blob _ _ _ h := by cases h
  file_oid _ _ _ h := by cases h
  branch_sha _ _ h := by cases h

def Database.tree (db : Database) (repoID sha : Bytes) : Directory Bytes FileRow :=
  (db.commits.get (repoID, sha)).elim .empty (fun c => db.fileRevisions c.id)

def Database.head (db : Database) (repoID branch : Bytes) : Option Bytes :=
  db.branches.get (repoID, branch)
/-! ## The statements that write -/

def Blob.bump (oids : Finset Bytes) (oid : Bytes) (b : Blob) : Blob :=
  if oid ∈ oids then { b with refCount := b.refCount + 1 } else b

namespace Database

def insertBlob (db : Database) (oid : Bytes) (b : Blob) : Database :=
  if (db.blobs.get oid).isSome then db
  else
    { db with
      blobs := db.blobs.write oid b
      file_blob := fun i p r hr => by
        by_cases h : r.blobOID = oid
        · rw [h, Directory.get_write]
          rfl
        · rw [Directory.get_write_of_ne _ _ h]
          exact db.file_blob i p r hr }

def insertCommit (db : Database) (repoID sha : Bytes) (c : Commit) : Option Database :=
  if h : repoID ∈ db.repos ∧ db.commits.get (repoID, sha) = none
      ∧ ∀ k ∈ db.commits.names, ∀ d ∈ db.commits.get k, d.id ≠ c.id then
    some
      { db with
        commits := db.commits.write (repoID, sha) c
        commit_id := by
          have hfresh := Directory.forall_names.mp h.2.2
          intro k k' d d' hk hk' hid
          rcases Directory.get_write_eq_some hk with ⟨rfl, rfl⟩ | ⟨-, hk⟩ <;>
            rcases Directory.get_write_eq_some hk' with ⟨rfl, rfl⟩ | ⟨-, hk'⟩
          · rfl
          · exact absurd hid.symm (hfresh k' d' hk')
          · exact absurd hid (hfresh k d hk)
          · exact db.commit_id k k' d d' hk hk' hid
        file_commit := fun i p r hr => by
          obtain ⟨k, d, hk, hid⟩ := db.file_commit i p r hr
          refine ⟨k, d, ?_, hid⟩
          rw [Directory.get_write_of_ne _ _ (by rintro rfl; simp [h.2.1] at hk)]
          exact hk }
  else none

def insertFileRevisions (db : Database) (key : Bytes × Bytes) (id : ℕ)
    (rows : Directory Bytes FileRow) : Option Database :=
  if h : (∃ c ∈ db.commits.get key, c.id = id)
      ∧ (∀ p ∈ rows.names, p ∉ (db.fileRevisions id).names)
      ∧ (∀ p ∈ rows.names, ∀ r ∈ rows.get p,
          (db.blobs.get r.blobOID).isSome ∧ bpchar r.blobOID = r.blobOID) then
    have hrows := Directory.forall_names.mp h.2.2
    have hcases : ∀ i p r,
        (Function.update db.fileRevisions id (rows.overlay (db.fileRevisions id)) i).get p = some r →
          (i = id ∧ rows.get p = some r) ∨ (db.fileRevisions i).get p = some r := by
      intro i p r hr
      rw [Function.update_apply] at hr
      split at hr
      · next hi =>
        subst hi
        rw [Directory.get_overlay, Option.or_eq_some_iff] at hr
        exact hr.imp (fun hr => ⟨rfl, hr⟩) And.right
      · exact .inr hr
    some
      { db with
        fileRevisions := Function.update db.fileRevisions id (rows.overlay (db.fileRevisions id))
        file_commit := fun i p r hr => by
          obtain ⟨c, hc, hid⟩ := h.1
          rcases hcases i p r hr with ⟨rfl, -⟩ | hr
          · exact ⟨key, c, hc, hid⟩
          · exact db.file_commit i p r hr
        file_blob := fun i p r hr =>
          (hcases i p r hr).elim (fun hr => (hrows p r hr.2).1) (db.file_blob i p r)
        file_oid := fun i p r hr =>
          (hcases i p r hr).elim (fun hr => (hrows p r hr.2).2) (db.file_oid i p r) }
  else none

def bumpRefcount (db : Database) (oids : Finset Bytes) : Option Database :=
  if ∀ oid ∈ oids, ∀ b ∈ db.blobs.get oid, b.refCount + 1 < 2 ^ 63 then
    some
      { db with
        blobs := db.blobs.map (Blob.bump oids)
        file_blob := fun i p r hr => by
          rw [Directory.get_map, Option.isSome_map]
          exact db.file_blob i p r hr }
  else none

def branchName : Bytes → Bool
  | [] => false
  | c :: rest =>
    alphanumeric c && rest.length ≤ 95
      && rest.all (fun c => alphanumeric c || c = 46 || c = 95 || c = 47 || c = 45)
where
  alphanumeric (c : UInt8) : Bool :=
    (97 ≤ c && c ≤ 122) || (65 ≤ c && c ≤ 90) || (48 ≤ c && c ≤ 57)

def upsertBranch (db : Database) (repoID branch sha : Bytes) : Option Database :=
  if h : branchName branch ∧ sha ≠ [] then
    some
      { db with
        branches := db.branches.write (repoID, branch) sha
        branch_sha := fun k s hs => by
          rcases Directory.get_write_eq_some hs with ⟨-, rfl⟩ | ⟨-, hs⟩
          · exact h.2
          · exact db.branch_sha k s hs }
  else none

theorem insertBlob_tables (db : Database) (oid : Bytes) (b : Blob) :
    (db.insertBlob oid b).commits = db.commits ∧ (db.insertBlob oid b).branches = db.branches
      ∧ (db.insertBlob oid b).fileRevisions = db.fileRevisions := by
  rw [insertBlob]
  split <;> exact ⟨rfl, rfl, rfl⟩

variable {db db' : Database}

theorem insertCommit_eq_some {repoID sha : Bytes} {c : Commit}
    (h : db.insertCommit repoID sha c = some db') :
    db.commits.get (repoID, sha) = none ∧ (∀ k d, db.commits.get k = some d → d.id ≠ c.id)
      ∧ db'.commits = db.commits.write (repoID, sha) c ∧ db'.blobs = db.blobs
      ∧ db'.branches = db.branches ∧ db'.fileRevisions = db.fileRevisions := by
  rw [insertCommit] at h
  split at h
  · next hc =>
    cases h
    exact ⟨hc.2.1, Directory.forall_names.mp hc.2.2, rfl, rfl, rfl, rfl⟩
  · cases h

theorem insertFileRevisions_eq_some {key : Bytes × Bytes} {id : ℕ}
    {rows : Directory Bytes FileRow} (h : db.insertFileRevisions key id rows = some db') :
    db'.commits = db.commits ∧ db'.blobs = db.blobs ∧ db'.branches = db.branches
      ∧ db'.fileRevisions
        = Function.update db.fileRevisions id (rows.overlay (db.fileRevisions id)) := by
  rw [insertFileRevisions] at h
  split at h
  · cases h
    exact ⟨rfl, rfl, rfl, rfl⟩
  · cases h

theorem bumpRefcount_eq_some {oids : Finset Bytes} (h : db.bumpRefcount oids = some db') :
    db'.commits = db.commits ∧ db'.blobs = db.blobs.map (Blob.bump oids)
      ∧ db'.branches = db.branches ∧ db'.fileRevisions = db.fileRevisions := by
  rw [bumpRefcount] at h
  split at h
  · cases h
    exact ⟨rfl, rfl, rfl, rfl⟩
  · cases h

theorem upsertBranch_eq_some {repoID branch sha : Bytes}
    (h : db.upsertBranch repoID branch sha = some db') :
    db'.commits = db.commits ∧ db'.blobs = db.blobs
      ∧ db'.branches = db.branches.write (repoID, branch) sha
      ∧ db'.fileRevisions = db.fileRevisions := by
  rw [upsertBranch] at h
  split at h
  · cases h
    exact ⟨rfl, rfl, rfl, rfl⟩
  · cases h

end Database

/-! ## `UpsertBlob` -/

inductive Statement
  | insertBlob
  | beginTx
  | selectBranch
  | selectFiles
  | selectBlob
  | insertCommit
  | insertFileRevisions
  | bumpRefcount
  | upsertBranch
  | updateRepo
  | commit
  deriving DecidableEq

inductive CommitError
  | invalidInput (text : Bytes)
  | commitPathInvalid
  | lfsSizeMismatch
  | blobMissing
  | database (statement : Statement)
  deriving DecidableEq

abbrev Faults := Statement → Bool

def Faults.at (faults : Faults) (statement : Statement) (reached : Prop) [Decidable reached] :
    Except CommitError Unit :=
  require (reached → faults statement = false) (.database statement)

def upsertBlob (faults : Faults) (oid : Bytes) (size : ℤ) (storageURL : Bytes) (db : Database) :
    Except CommitError (Unit × Database) := do
  require (isHexN oid 64) (.invalidInput (ascii "bad oid"))
  faults.at .insertBlob True
  -- `blobs_size_nonneg_chk`
  require (0 ≤ size) (.database .insertBlob)
  pure ((), db.insertBlob oid { size, storageURL })

/-! ## `CommitTx` -/

structure CommitFile where
  blobOID : Bytes
  size : ℤ
  deriving DecidableEq

structure CommitInput where
  repoID : Bytes
  branch : Bytes := []
  summary : Bytes := []
  description : Bytes := []
  authorID : Bytes := []
  inline : List (Bytes × CommitFile) := []
  lfsPointers : List (Bytes × CommitFile) := []
  deletes : List Bytes := []
  inline_nodup : (inline.map Prod.fst).Nodup := by decide
  lfsPointers_nodup : (lfsPointers.map Prod.fst).Nodup := by decide

structure CommitResult where
  commitID : ℕ
  sha : Bytes
  branch : Bytes
  deriving DecidableEq

structure Draw where
  digest : Bytes
  commitID : ℕ
  faults : Faults := fun _ => false
  digest_length : digest.length = 32

structure FileRevision where
  blobOID : Bytes
  isLFS : Bool
  size : ℤ
  deriving DecidableEq

abbrev Files := Directory Bytes FileRevision

def deriveCommitSHA (digest : Bytes) : Bytes := (Cache.hexEncode digest).take 40

def CommitInput.branchOrMain (input : CommitInput) : Bytes :=
  if input.branch = [] then ascii "main" else input.branch

def parentFiles (db : Database) (repoID parentSHA : Bytes) : Files :=
  if parentSHA = [] then .empty
  else (db.tree repoID parentSHA).filterMap (fun _ r =>
    (db.blobs.get r.blobOID).map (fun b => ⟨r.blobOID, r.isLFS, b.size⟩))

def deleteFiles : List Bytes → Files → Except CommitError Files
  | [], files => .ok files
  | d :: ds, files =>
    if validateCommitFilePath d then deleteFiles ds (files.remove d)
    else .error .commitPathInvalid

def setFiles (isLFS : Bool) : List (Bytes × CommitFile) → Files → Except CommitError Files
  | [], files => .ok files
  | (path, f) :: fs, files =>
    if validateCommitFilePath path then
      setFiles isLFS fs (files.write path ⟨f.blobOID, isLFS, f.size⟩)
    else .error .commitPathInvalid

def newFiles (input : CommitInput) (parentFiles : Files) : Except CommitError Files := do
  let files ← deleteFiles input.deletes parentFiles
  let files ← setFiles false input.inline files
  setFiles true input.lfsPointers files

def confirmBlobs (blobs : Directory Bytes Blob) (newFiles : Files) :
    Except CommitError Unit := do
  require (∀ p ∈ newFiles.names, ∀ f ∈ newFiles.get p, ∀ b ∈ blobs.get (bpchar f.blobOID),
    ¬ (f.isLFS = true ∧ 0 < f.size ∧ f.size ≠ b.size)) .lfsSizeMismatch
  require (∀ p ∈ newFiles.names, ∀ f ∈ newFiles.get p,
    (blobs.get (bpchar f.blobOID)).isSome) .blobMissing

def carriedOver (parentFiles : Files) (path : Bytes) (f : FileRevision) : Prop :=
  ∃ g ∈ parentFiles.get path, g.blobOID = f.blobOID

instance (parentFiles : Files) (path : Bytes) (f : FileRevision) :
    Decidable (carriedOver parentFiles path f) :=
  inferInstanceAs (Decidable (∃ g ∈ parentFiles.get path, g.blobOID = f.blobOID))

def added (parentFiles newFiles : Files) : Finset Bytes :=
  newFiles.names.biUnion (fun p => (newFiles.get p).elim ∅
    (fun f => if carriedOver parentFiles p f then ∅ else {f.blobOID}))

def rows (files : Files) : Directory Bytes FileRow :=
  files.map (fun _ f => ⟨bpchar f.blobOID, f.isLFS⟩)

def commitTx (draw : Draw) (input : CommitInput) (db : Database) :
    Except CommitError (CommitResult × Database) := do
  require (input.repoID ≠ []) (.invalidInput (ascii "repo_id required"))
  let branch := input.branchOrMain
  draw.faults.at .beginTx True
  draw.faults.at .selectBranch True
  let parentSHA := (db.head input.repoID branch).getD []
  draw.faults.at .selectFiles (parentSHA ≠ [])
  let parentFiles := parentFiles db input.repoID parentSHA
  let newFiles ← newFiles input parentFiles
  draw.faults.at .selectBlob (newFiles.names ≠ ∅)
  confirmBlobs db.blobs newFiles
  let newSHA := deriveCommitSHA draw.digest
  draw.faults.at .insertCommit True
  let db ← expect (db.insertCommit input.repoID newSHA
    { id := draw.commitID
      parentSHA := if parentSHA = [] then none else some parentSHA
      authorID := if input.authorID = [] then none else some input.authorID
      summary := input.summary
      description := input.description }) (.database .insertCommit)
  draw.faults.at .insertFileRevisions (newFiles.names ≠ ∅)
  let db ← expect (db.insertFileRevisions (input.repoID, newSHA) draw.commitID (rows newFiles))
    (.database .insertFileRevisions)
  let added := added parentFiles newFiles
  draw.faults.at .bumpRefcount (added ≠ ∅)
  let db ← expect (db.bumpRefcount added) (.database .bumpRefcount)
  draw.faults.at .upsertBranch True
  let db ← expect (db.upsertBranch input.repoID branch newSHA) (.database .upsertBranch)
  draw.faults.at .updateRepo True
  draw.faults.at .commit True
  pure (⟨draw.commitID, newSHA, branch⟩, db)

/-! ## What the loops compute -/

variable {files files' : Files} {input : CommitInput} {db db' : Database} {p : Bytes}

theorem deleteFiles_get {ds : List Bytes} (h : deleteFiles ds files = .ok files') (p : Bytes) :
    files'.get p = if p ∈ ds then none else files.get p := by
  induction ds generalizing files with
  | nil =>
    obtain rfl := Except.ok.inj h
    simp
  | cons d ds ih =>
    rw [deleteFiles] at h
    split at h
    · rw [ih h]
      by_cases hp : p = d
      · simp [hp]
      · simp [hp, Directory.get_remove_of_ne _ hp]
    · cases h

theorem setFiles_get {isLFS : Bool} {fs : List (Bytes × CommitFile)}
    (hnodup : (fs.map Prod.fst).Nodup) (h : setFiles isLFS fs files = .ok files') (p : Bytes) :
    files'.get p = ((fs.lookup p).map (fun f => ⟨f.blobOID, isLFS, f.size⟩)).or (files.get p) := by
  induction fs generalizing files with
  | nil =>
    obtain rfl := Except.ok.inj h
    rfl
  | cons pf fs ih =>
    obtain ⟨path, f⟩ := pf
    rw [List.map_cons, List.nodup_cons] at hnodup
    rw [setFiles] at h
    split at h
    · rw [ih hnodup.2 h]
      by_cases hp : p = path
      · -- the path does not come again
        subst hp
        have hnone : fs.lookup p = none :=
          List.lookup_eq_none_iff.mpr (fun q hq => by
            rw [bne_iff_ne]
            rintro rfl
            exact hnodup.1 (List.mem_map.mpr ⟨q, hq, rfl⟩))
        rw [hnone, List.lookup_cons_self, Directory.get_write]
        rfl
      · rw [List.lookup_cons, beq_eq_false_iff_ne.mpr hp, Directory.get_write_of_ne _ _ hp]
    · cases h

theorem newFiles_get (h : newFiles input files = .ok files') (p : Bytes) :
    files'.get p
      = ((input.lfsPointers.lookup p).map (fun f => ⟨f.blobOID, true, f.size⟩)).or
        (((input.inline.lookup p).map (fun f => ⟨f.blobOID, false, f.size⟩)).or
          (if p ∈ input.deletes then none else files.get p)) := by
  obtain ⟨files₁, h₁, h⟩ := bind_eq_ok.mp h
  obtain ⟨files₂, h₂, h₃⟩ := bind_eq_ok.mp h
  rw [setFiles_get input.lfsPointers_nodup h₃, setFiles_get input.inline_nodup h₂,
    deleteFiles_get h₁]

theorem mem_added {parentFiles newFiles : Files} {oid : Bytes} :
    oid ∈ added parentFiles newFiles
      ↔ ∃ p f, newFiles.get p = some f ∧ ¬ carriedOver parentFiles p f ∧ f.blobOID = oid := by
  rw [added, Finset.mem_biUnion]
  constructor
  · rintro ⟨p, -, h⟩
    cases hf : newFiles.get p with
    | none => simp [hf] at h
    | some f =>
      rw [hf, Option.elim_some] at h
      split at h
      · simp at h
      · next hc => exact ⟨p, f, hf, hc, (Finset.mem_singleton.mp h).symm⟩
  · rintro ⟨p, f, hf, hc, rfl⟩
    refine ⟨p, (newFiles.mem_names p).mpr (by rw [hf]; rfl), ?_⟩
    rw [hf, Option.elim_some, if_neg hc]
    exact Finset.mem_singleton_self _

theorem exists_row_of_tree {repoID sha : Bytes} {r : FileRow}
    (h : (db.tree repoID sha).get p = some r) : ∃ i, (db.fileRevisions i).get p = some r := by
  rw [Database.tree] at h
  cases hc : db.commits.get (repoID, sha) with
  | none =>
    rw [hc] at h
    cases h
  | some c =>
    rw [hc] at h
    exact ⟨c.id, h⟩

theorem parentFiles_eq_some {repoID parentSHA : Bytes} {f : FileRevision}
    (h : (parentFiles db repoID parentSHA).get p = some f) :
    (db.tree repoID parentSHA).get p = some ⟨f.blobOID, f.isLFS⟩ := by
  rw [parentFiles] at h
  split at h
  · cases h
  · rw [Directory.get_filterMap, Option.bind_eq_some_iff] at h
    obtain ⟨r, hr, h⟩ := h
    obtain ⟨b, -, rfl⟩ := Option.map_eq_some_iff.mp h
    exact hr

/-! ## What a commit that succeeds has done -/

def commitRow (draw : Draw) (input : CommitInput) (parentSHA : Option Bytes) : Commit where
  id := draw.commitID
  parentSHA := parentSHA
  authorID := if input.authorID = [] then none else some input.authorID
  summary := input.summary
  description := input.description

structure Committed (draw : Draw) (input : CommitInput) (db : Database) (files : Files)
    (result : CommitResult) (db' : Database) : Prop where
  returned : result = ⟨draw.commitID, deriveCommitSHA draw.digest, input.branchOrMain⟩
  built : newFiles input
    (parentFiles db input.repoID ((db.head input.repoID input.branchOrMain).getD [])) = .ok files
  confirmed : ∀ p f, files.get p = some f → (db.blobs.get (bpchar f.blobOID)).isSome
  sha_new : db.commits.get (input.repoID, deriveCommitSHA draw.digest) = none
  id_new : ∀ k d, db.commits.get k = some d → d.id ≠ draw.commitID
  commits : db'.commits = db.commits.write (input.repoID, deriveCommitSHA draw.digest)
    (commitRow draw input (db.head input.repoID input.branchOrMain))
  fileRevisions : db'.fileRevisions = Function.update db.fileRevisions draw.commitID (rows files)
  blobs : db'.blobs = db.blobs.map (Blob.bump (added
    (parentFiles db input.repoID ((db.head input.repoID input.branchOrMain).getD [])) files))
  branches : db'.branches
    = db.branches.write (input.repoID, input.branchOrMain) (deriveCommitSHA draw.digest)

theorem Database.fileRevisions_eq_empty {id : ℕ}
    (h : ∀ k d, db.commits.get k = some d → d.id ≠ id) : db.fileRevisions id = .empty := by
  refine Directory.ext_get (fun p => ?_)
  cases hp : (db.fileRevisions id).get p with
  | none => rfl
  | some r =>
    obtain ⟨k, d, hd, hid⟩ := db.file_commit id p r hp
    exact absurd hid (h k d hd)

theorem commitTx_eq_ok {draw : Draw} {result : CommitResult}
    (h : commitTx draw input db = .ok (result, db')) :
    ∃ files, Committed draw input db files result db' := by
  simp only [commitTx, Faults.at, bind_eq_ok, require_eq_ok, expect_eq_ok, pure_eq_ok,
    Prod.mk.injEq] at h
  obtain ⟨-, -, -, -, -, -, -, -, files, hfiles, -, -, _, hconfirm, -, -, db₁, hdb₁, -, -, db₂,
    hdb₂, -, -, db₃, hdb₃, -, -, db₄, hdb₄, -, -, -, -, hresult, rfl⟩ := h
  obtain ⟨-, -, hmissing⟩ := bind_eq_ok.mp hconfirm
  obtain ⟨hsha, hid, hc₁, hb₁, hr₁, hf₁⟩ := Database.insertCommit_eq_some hdb₁
  obtain ⟨hc₂, hb₂, hr₂, hf₂⟩ := Database.insertFileRevisions_eq_some hdb₂
  obtain ⟨hc₃, hb₃, hr₃, hf₃⟩ := Database.bumpRefcount_eq_some hdb₃
  obtain ⟨hc₄, hb₄, hr₄, hf₄⟩ := Database.upsertBranch_eq_some hdb₄
  -- the parent is null exactly where the branch was not there
  have hparent : (if (db.head input.repoID input.branchOrMain).getD [] = [] then none
      else some ((db.head input.repoID input.branchOrMain).getD []))
        = db.head input.repoID input.branchOrMain := by
    cases hh : db.head input.repoID input.branchOrMain with
    | none => rfl
    | some sha => exact if_neg (db.branch_sha _ sha hh)
  refine ⟨files, hresult.symm, hfiles, ?_, hsha, hid, ?_, ?_, ?_, ?_⟩
  · exact Directory.forall_names.mp (require_eq_ok.mp hmissing)
  · rw [hc₄, hc₃, hc₂, hc₁, hparent, commitRow]
  · rw [hf₄, hf₃, hf₂, hf₁, Database.fileRevisions_eq_empty hid]
    congr 1
    exact Directory.ext_get (fun p => by rw [Directory.get_overlay]; exact Option.or_none)
  · rw [hb₄, hb₃, hb₂, hb₁]
  · rw [hr₄, hr₃, hr₂, hr₁]

theorem mem_of_lookup {fs : List (Bytes × CommitFile)} {f : CommitFile} (h : fs.lookup p = some f) :
    (p, f) ∈ fs := by
  obtain ⟨l₁, l₂, rfl, -⟩ := List.lookup_eq_some_iff.mp h
  simp

theorem newFiles_cases (h : newFiles input files = .ok files') {f : FileRevision}
    (hf : files'.get p = some f) :
    (∃ g, (p, g) ∈ input.inline ++ input.lfsPointers ∧ g.blobOID = f.blobOID)
      ∨ files.get p = some f := by
  rw [newFiles_get h, Option.or_eq_some_iff, Option.or_eq_some_iff] at hf
  rcases hf with hf | ⟨-, hf | ⟨-, hf⟩⟩
  · obtain ⟨g, hg, rfl⟩ := Option.map_eq_some_iff.mp hf
    exact .inl ⟨g, List.mem_append_right _ (mem_of_lookup hg), rfl⟩
  · obtain ⟨g, hg, rfl⟩ := Option.map_eq_some_iff.mp hf
    exact .inl ⟨g, List.mem_append_left _ (mem_of_lookup hg), rfl⟩
  · split at hf
    · cases hf
    · exact .inr hf

/-! ## Calls -/

inductive Call
  | upsertBlob (faults : Faults) (oid : Bytes) (size : ℤ) (storageURL : Bytes)
  | commitTx (draw : Draw) (input : CommitInput)

def Call.exec : Call → Database → Except CommitError (Option CommitResult × Database)
  | .upsertBlob faults oid size storageURL, db => do
    let (_, db) ← Registry.upsertBlob faults oid size storageURL db
    pure (none, db)
  | .commitTx draw input, db => do
    let (result, db) ← Registry.commitTx draw input db
    pure (some result, db)

theorem exec_upsertBlob_eq_ok {faults : Faults} {oid : Bytes} {size : ℤ} {storageURL : Bytes}
    {r : Option CommitResult}
    (h : (Call.upsertBlob faults oid size storageURL).exec db = .ok (r, db')) :
    isHexN oid 64 ∧ r = none ∧ db' = db.insertBlob oid { size, storageURL } := by
  simp only [Call.exec, upsertBlob, Faults.at, bind_eq_ok, require_eq_ok, pure_eq_ok,
    Prod.mk.injEq] at h
  obtain ⟨-, ⟨-, hhex, -, -, -, -, rfl⟩, hr, hdb⟩ := h
  exact ⟨hhex, hr.symm, hdb.symm⟩

theorem exec_commitTx_eq_ok {draw : Draw} {r : Option CommitResult}
    (h : (Call.commitTx draw input).exec db = .ok (r, db')) :
    ∃ result files, r = some result ∧ Committed draw input db files result db' := by
  simp only [Call.exec, bind_eq_ok, pure_eq_ok, Prod.mk.injEq] at h
  obtain ⟨⟨result, db₁⟩, h, rfl, rfl⟩ := h
  obtain ⟨files, hc⟩ := commitTx_eq_ok h
  exact ⟨result, files, rfl, hc⟩

end Registry
