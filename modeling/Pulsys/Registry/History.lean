import Pulsys.Registry.Commit

/-!
# The history of a branch

Commits should leave one line: each has the one before as its parent and its tree with its
own changes, and a failed request leaves nothing. Along the serial order the branch's tree
was read in the same transaction, and nothing later touches a commit's rows.

There is one failure after which a request may have left its commit. `COMMIT` is sent with the
request's context, and its error is returned also where the database has carried it out and the
answer was lost. So what a set of calls has left is explained by what the calls came to
(`CameTo`), which for an error of `COMMIT` may be a commit.
-/

namespace Registry

open Bytes Transaction

/-! ## The specification -/

def CommitFile.row (isLFS : Bool) (f : CommitFile) : FileRow := ⟨bpchar f.blobOID, isLFS⟩

def CommitInput.applyTo (input : CommitInput) (tree : Bytes → Option FileRow) :
    Bytes → Option FileRow :=
  let deleted := fun p => if input.deletes.contains p then none else tree p
  let withInline := fun p => ((input.inline.lookup p).map (CommitFile.row false)).or (deleted p)
  fun p => ((input.lfsPointers.lookup p).map (CommitFile.row true)).or (withInline p)

def Database.treeAt (db : Database) (repoID : Bytes) (sha : Option Bytes) :
    Bytes → Option FileRow :=
  sha.elim (fun _ => none) (fun sha => (db.tree repoID sha).get)

def Line (db : Database) (repoID : Bytes) :
    Option Bytes → List (CommitInput × CommitResult) → Option Bytes → Prop
  | start, [], stop => start = stop
  | start, (input, result) :: rest, stop =>
    (∃ c, db.commits.get (repoID, result.sha) = some c ∧ c.id = result.commitID
      ∧ c.parentSHA = start)
    ∧ (∀ p, (db.tree repoID result.sha).get p = input.applyTo (db.treeAt repoID start) p)
    ∧ Line db repoID (some result.sha) rest stop

def commitOn (repoID branch : Bytes) :
    Call × Except CommitError (Option CommitResult) → Option (CommitInput × CommitResult)
  | (.commitTx _ input, .ok (some result)) =>
    if input.repoID = repoID ∧ input.branchOrMain = branch then some (input, result) else none
  | _ => none

def commitsOn (repoID branch : Bytes) (log : Log Call CommitError (Option CommitResult)) :
    List (CommitInput × CommitResult) :=
  log.filterMap (commitOn repoID branch)

/-! ## What calls came to -/

def Call.carriedOut : Call → Call
  | .commitTx draw input =>
    .commitTx { draw with faults := Function.update draw.faults .commit false } input
  | .upsertBlob faults oid size storageURL => .upsertBlob faults oid size storageURL

inductive CameTo : Call × Except CommitError (Option CommitResult) →
    Call × Except CommitError (Option CommitResult) → Prop
  | asReturned (entry : Call × Except CommitError (Option CommitResult)) : CameTo entry entry
  | unreported (call : Call) (r : Option CommitResult) :
      CameTo (call, .error (.database .commit)) (call.carriedOut, .ok r)

def Left (db : Database) (log : Log Call CommitError (Option CommitResult)) (db' : Database) :
    Prop :=
  ∃ made, List.Forall₂ CameTo log made ∧ Serializable Call.exec db made db'

theorem parentFiles_row (db : Database) (repoID branch p : Bytes) :
    ((parentFiles db repoID ((db.head repoID branch).getD [])).get p).map
        (fun f => (⟨bpchar f.blobOID, f.isLFS⟩ : FileRow))
      = db.treeAt repoID (db.head repoID branch) p := by
  cases hhead : db.head repoID branch with
  | none => rfl
  | some sha =>
    rw [Option.getD_some, parentFiles, if_neg (db.branch_sha _ sha hhead), Directory.get_filterMap]
    show _ = (db.tree repoID sha).get p
    cases hr : (db.tree repoID sha).get p with
    | none => rfl
    | some r =>
      obtain ⟨i, hrow⟩ := exists_row_of_tree hr
      obtain ⟨b, hb⟩ := Option.isSome_iff_exists.mp (db.file_blob i p r hrow)
      rw [Option.bind_some, hb, Option.map_some, Option.map_some, db.file_oid i p r hrow]

variable {draw : Draw} {input : CommitInput} {db db' : Database} {files : Files}
  {result : CommitResult} {branch repoID : Bytes} {call : Call} {r : Option CommitResult}
  {log : Log Call CommitError (Option CommitResult)}

theorem Committed.rows_get (h : Committed draw input db files result db') (p : Bytes) :
    (rows files).get p
      = input.applyTo (db.treeAt input.repoID (db.head input.repoID input.branchOrMain)) p := by
  rw [rows, Directory.get_map, newFiles_get h.built]
  simp only [CommitInput.applyTo, ← parentFiles_row, Option.map_or, Option.map_map,
    List.contains_iff_mem]
  congr 2
  split <;> rfl

/-! ## What stays -/

def Kept (db db' : Database) : Prop :=
  ∀ key c, db.commits.get key = some c →
    db'.commits.get key = some c ∧ db'.fileRevisions c.id = db.fileRevisions c.id

theorem Kept.refl (db : Database) : Kept db db := fun _ _ h => ⟨h, rfl⟩

theorem Kept.trans {db₁ db₂ db₃ : Database} (h₁ : Kept db₁ db₂) (h₂ : Kept db₂ db₃) :
    Kept db₁ db₃ := by
  intro key c hc
  obtain ⟨hc₂, hf₂⟩ := h₁ key c hc
  obtain ⟨hc₃, hf₃⟩ := h₂ key c hc₂
  exact ⟨hc₃, hf₃.trans hf₂⟩

theorem Kept.tree (h : Kept db db') {sha : Bytes} {c : Commit}
    (hc : db.commits.get (repoID, sha) = some c) : db'.tree repoID sha = db.tree repoID sha := by
  obtain ⟨hc', hf⟩ := h (repoID, sha) c hc
  rw [Database.tree, Database.tree, hc, hc']
  exact hf

theorem Committed.kept (h : Committed draw input db files result db') : Kept db db' := by
  intro key c hc
  constructor
  · rw [h.commits, Directory.get_write_of_ne]
    · exact hc
    · rintro rfl
      rw [h.sha_new] at hc
      cases hc
  · rw [h.fileRevisions, Function.update_of_ne (h.id_new key c hc)]

def Rooted (db : Database) : Prop :=
  ∀ repoID branch sha, db.head repoID branch = some sha →
    ∃ c, db.commits.get (repoID, sha) = some c

theorem Committed.commit (h : Committed draw input db files result db') :
    db'.commits.get (input.repoID, result.sha)
      = some (commitRow draw input (db.head input.repoID input.branchOrMain)) := by
  rw [h.commits, h.returned, Directory.get_write]

theorem Committed.tree_get (h : Committed draw input db files result db') (p : Bytes) :
    (db'.tree input.repoID result.sha).get p
      = input.applyTo (db.treeAt input.repoID (db.head input.repoID input.branchOrMain)) p := by
  rw [← h.rows_get, Database.tree, h.commit, h.fileRevisions]
  exact congrArg (fun d => Directory.get d p) (Function.update_self _ _ _)

theorem Committed.head (h : Committed draw input db files result db') (repoID branch : Bytes) :
    db'.head repoID branch = if input.repoID = repoID ∧ input.branchOrMain = branch
      then some result.sha else db.head repoID branch := by
  rw [Database.head, h.branches, h.returned]
  split
  · next heq => rw [← heq.1, ← heq.2, Directory.get_write]
  · next hne =>
    exact Directory.get_write_of_ne _ _ (fun heq => hne ⟨(congrArg Prod.fst heq).symm,
      (congrArg Prod.snd heq).symm⟩)

theorem exec_kept (hroot : Rooted db) (h : call.exec db = .ok (r, db')) :
    Kept db db' ∧ Rooted db' := by
  cases call with
  | upsertBlob faults oid size storageURL =>
    obtain ⟨-, -, rfl⟩ := exec_upsertBlob_eq_ok h
    obtain ⟨hcommits, hbranches, hfiles⟩ := db.insertBlob_tables oid { size, storageURL }
    refine ⟨fun key c hc => ?_, fun repoID branch sha hsha => ?_⟩
    · rw [hcommits, hfiles]
      exact ⟨hc, rfl⟩
    · rw [Database.head, hbranches] at hsha
      rw [hcommits]
      exact hroot repoID branch sha hsha
  | commitTx draw input =>
    obtain ⟨result, files, -, hc⟩ := exec_commitTx_eq_ok h
    refine ⟨hc.kept, fun repoID branch sha hsha => ?_⟩
    rw [hc.head] at hsha
    split at hsha
    · next heq =>
      cases hsha
      exact ⟨_, heq.1 ▸ hc.commit⟩
    · obtain ⟨c, hcommit⟩ := hroot repoID branch sha hsha
      exact ⟨c, (hc.kept _ c hcommit).1⟩

theorem serial_kept (hroot : Rooted db) (h : Serial Call.exec db log db') :
    Kept db db' ∧ Rooted db' := by
  refine @Serial.invariant _ _ _ _ Call.exec (fun db₁ => Kept db db₁ ∧ Rooted db₁)
    (fun call db₁ r db₂ hi hok => ?_) db db' log ⟨Kept.refl db, hroot⟩ h
  obtain ⟨hkept, hroot₂⟩ := exec_kept hi.2 hok
  exact ⟨hi.1.trans hkept, hroot₂⟩

theorem rooted_empty (repos : Finset Bytes) : Rooted (Database.empty repos) := by
  intro repoID branch sha h
  cases h

/-! ## The line of a branch -/

theorem head_of_commitOn_eq_none (hok : call.exec db = .ok (r, db'))
    (hnone : commitOn repoID branch (call, .ok r) = none) :
    db'.head repoID branch = db.head repoID branch := by
  cases call with
  | upsertBlob faults oid size storageURL =>
    obtain ⟨-, -, rfl⟩ := exec_upsertBlob_eq_ok hok
    rw [Database.head, (db.insertBlob_tables oid { size, storageURL }).2.1, Database.head]
  | commitTx draw input =>
    obtain ⟨result, files, rfl, hc⟩ := exec_commitTx_eq_ok hok
    rw [commitOn, ite_eq_right_iff] at hnone
    rw [hc.head, if_neg (fun heq => by cases hnone heq)]

theorem committed_of_commitOn {x : CommitInput × CommitResult} (hok : call.exec db = .ok (r, db'))
    (hsome : commitOn repoID branch (call, .ok r) = some x) :
    ∃ draw files, Committed draw x.1 db files x.2 db' ∧ x.1.repoID = repoID
      ∧ x.1.branchOrMain = branch := by
  cases call with
  | upsertBlob faults oid size storageURL => cases hsome
  | commitTx draw input =>
    obtain ⟨result, files, rfl, hc⟩ := exec_commitTx_eq_ok hok
    rw [commitOn, Option.ite_none_right_eq_some] at hsome
    obtain ⟨⟨hrepo, hbranch⟩, hx⟩ := hsome
    cases hx
    exact ⟨draw, files, hc, hrepo, hbranch⟩

theorem sha_new (hroot : Rooted db) (h : Serial Call.exec db log db') :
    ∀ x ∈ commitsOn repoID branch log, db.commits.get (repoID, x.2.sha) = none := by
  induction log generalizing db with
  | nil => simp [commitsOn]
  | cons entry log ih =>
    obtain ⟨call, outcome⟩ := entry
    obtain ⟨ho, hrest⟩ := h
    intro x hx
    cases outcome with
    | error e =>
      rw [unchanged_of_error ho] at hrest
      exact ih hroot hrest x (by cases call <;> exact hx)
    | ok r =>
      have hok := body_of_transact ho
      obtain ⟨hkept, hroot₁⟩ := exec_kept hroot hok
      rw [commitsOn, List.filterMap_cons] at hx
      -- what is new later is new now
      have hlater : x ∈ commitsOn repoID branch log →
          db.commits.get (repoID, x.2.sha) = none := by
        intro hx
        have hnone := ih hroot₁ hrest x hx
        cases hc : db.commits.get (repoID, x.2.sha) with
        | none => rfl
        | some c =>
          rw [(hkept _ c hc).1] at hnone
          cases hnone
      split at hx
      · exact hlater hx
      · next y hy =>
        rcases List.mem_cons.mp hx with rfl | hx
        · obtain ⟨draw, files, hc, rfl, -⟩ := committed_of_commitOn hok hy
          rw [hc.returned]
          exact hc.sha_new
        · exact hlater hx

theorem serial_line (hroot : Rooted db) (h : Serial Call.exec db log db') (repoID branch : Bytes) :
    Line db' repoID (db.head repoID branch) (commitsOn repoID branch log)
        (db'.head repoID branch)
      ∧ ((commitsOn repoID branch log).map (fun x => x.2.sha)).Nodup := by
  induction log generalizing db with
  | nil =>
    obtain rfl := h
    exact ⟨rfl, List.nodup_nil⟩
  | cons entry log ih =>
    obtain ⟨call, outcome⟩ := entry
    obtain ⟨ho, hrest⟩ := h
    cases outcome with
    | error e =>
      rw [unchanged_of_error ho] at hrest
      have hnone : commitOn repoID branch (call, .error e) = none := by cases call <;> rfl
      rw [commitsOn, List.filterMap_cons, hnone]
      exact ih hroot hrest
    | ok r =>
      have hok := body_of_transact ho
      obtain ⟨hkept, hroot₁⟩ := exec_kept hroot hok
      obtain ⟨hkept', -⟩ := serial_kept hroot₁ hrest
      obtain ⟨hline, hnodup⟩ := ih hroot₁ hrest
      rw [commitsOn, List.filterMap_cons]
      split
      · next hnone =>
        rw [head_of_commitOn_eq_none hok hnone] at hline
        exact ⟨hline, hnodup⟩
      · next x hx =>
        obtain ⟨draw, files, hc, rfl, rfl⟩ := committed_of_commitOn hok hx
        have hcommit := hc.commit
        rw [hc.head, if_pos ⟨rfl, rfl⟩] at hline
        refine ⟨⟨⟨_, (hkept' _ _ hcommit).1, ?_, rfl⟩, fun p => ?_, hline⟩, ?_⟩
        · rw [hc.returned]
          rfl
        · -- the parent's tree is still the one that was read
          have htree : db'.treeAt x.1.repoID (db.head x.1.repoID x.1.branchOrMain)
              = db.treeAt x.1.repoID (db.head x.1.repoID x.1.branchOrMain) := by
            cases hhead : db.head x.1.repoID x.1.branchOrMain with
            | none => rfl
            | some sha =>
              obtain ⟨c, hparent⟩ := hroot _ _ sha hhead
              exact congrArg Directory.get ((hkept.trans hkept').tree hparent)
          rw [hkept'.tree hcommit, htree, hc.tree_get]
        · rw [List.map_cons, List.nodup_cons]
          refine ⟨fun hmem => ?_, hnodup⟩
          obtain ⟨y, hy, hsha⟩ := List.mem_map.mp hmem
          have hnew := sha_new hroot₁ hrest y hy
          rw [hsha, hcommit] at hnew
          cases hnew

/-- **The history of a branch is a line, and exact**, for calls made at the same time to any
repositories and branches. It has the commits of the calls that succeeded, and of calls whose
`COMMIT` has reported an error but was carried out; all others might not have been made. -/
theorem commits_form_line {repos : Finset Bytes}
    {earlier log : Log Call CommitError (Option CommitResult)} {db db' : Database}
    (hdb : Serial Call.exec (Database.empty repos) earlier db)
    (h : Left db log db') (repoID branch : Bytes) :
    ∃ made, List.Forall₂ CameTo log made
      ∧ (∃ line, line.Perm (commitsOn repoID branch made)
        ∧ Line db' repoID (db.head repoID branch) line (db'.head repoID branch)
        ∧ (line.map (fun x => x.2.sha)).Nodup)
      ∧ Serializable Call.exec db (made.filter (fun entry => entry.2.toBool)) db' := by
  obtain ⟨made, hmade, order, hperm, hserial⟩ := h
  obtain ⟨-, hroot⟩ := serial_kept (rooted_empty repos) hdb
  obtain ⟨hline, hnodup⟩ := serial_line hroot hserial repoID branch
  exact ⟨made, hmade, ⟨_, hperm.filterMap _, hline, hnodup⟩,
    ⟨_, hperm.filter _, hserial.filter_isOk⟩⟩

def fileInput (path : Bytes) : CommitInput where
  repoID := ascii "r"
  inline := [(path, ⟨List.replicate 64 97, 3⟩)]
  lfsPointers := []
  inline_nodup := List.nodup_singleton _
  lfsPointers_nodup := List.nodup_nil

def drawOf (n : UInt8) : Draw where
  digest := List.replicate 32 n
  commitID := n.toNat
  digest_length := List.length_replicate

private def inlineCommit (n : UInt8) (path : Bytes) : Call := .commitTx (drawOf n) (fileInput path)

private def inlineResult (n : UInt8) : Option CommitResult :=
  some ⟨n.toNat, deriveCommitSHA (List.replicate 32 n), ascii "main"⟩

private def concurrentCommits : Log Call CommitError (Option CommitResult) :=
  [(inlineCommit 2 (ascii "b"), .ok (inlineResult 2)),
    (inlineCommit 3 (ascii "../c"), .error .commitPathInvalid),
    (inlineCommit 1 (ascii "a"), .ok (inlineResult 1))]

def seeded : Database :=
  (Database.empty {ascii "r"}).insertBlob (List.replicate 64 97)
    { size := 3, storageURL := ascii "file:///b" }

private theorem concurrentCommits_left :
    ∃ db', Left seeded concurrentCommits db' := by
  have h : Serializable Call.exec seeded concurrentCommits _ :=
    ⟨[_, _, _], @List.perm_append_comm _ [_] [_, _], rfl, rfl, rfl, rfl⟩
  exact ⟨_, concurrentCommits, List.forall₂_same.mpr (fun e _ => .asReturned e), h⟩

theorem commits_form_line_two :
    ∃ db', Left seeded concurrentCommits db'
      ∧ ∃ made, List.Forall₂ CameTo concurrentCommits made
        ∧ ∃ line, line.Perm (commitsOn (ascii "r") (ascii "main") made)
          ∧ Line db' (ascii "r") (seeded.head (ascii "r") (ascii "main")) line
            (db'.head (ascii "r") (ascii "main")) := by
  have hdb : Serial Call.exec (Database.empty {ascii "r"})
      [(.upsertBlob (fun _ => false) (List.replicate 64 97) 3 (ascii "file:///b"), .ok none)]
      seeded := ⟨rfl, rfl⟩
  obtain ⟨db', h⟩ := concurrentCommits_left
  obtain ⟨made, hmade, ⟨line, hperm, hline, -⟩, -⟩ :=
    commits_form_line hdb h (ascii "r") (ascii "main")
  exact ⟨db', h, made, hmade, line, hperm, hline⟩

private def lostAnswer : Call :=
  .commitTx { drawOf 1 with faults := Function.update (fun _ => false) .commit true }
    (fileInput (ascii "a"))

/-- **A call that returns an error may have moved the branch**: `COMMIT` was carried out, and
its answer was lost. -/
theorem error_after_commit_moves_branch :
    ∃ db', Left seeded [(lostAnswer, .error (.database .commit))] db'
      ∧ (transact lostAnswer.exec seeded).1 = .error (.database .commit)
      ∧ seeded.head (ascii "r") (ascii "main") = none
      ∧ db'.head (ascii "r") (ascii "main")
        = some (deriveCommitSHA (List.replicate 32 1)) := by
  have h : Serial Call.exec seeded [(lostAnswer.carriedOut, .ok (inlineResult 1))] _ :=
    ⟨rfl, rfl⟩
  refine ⟨_, ⟨_, .cons (.unreported _ _) .nil, _, .refl _, h⟩, rfl, rfl, rfl⟩

end Registry
