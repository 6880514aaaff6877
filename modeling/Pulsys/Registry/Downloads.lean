import Pulsys.Registry.Hub
import Pulsys.Registry.ResolveBranch
import Pulsys.Registry.ResolveRange
import Pulsys.Registry.ResolveURL

/-!
# Downloads

`serveResolve` goes from the path to a repository, a commit, a row and a file. In any state of the
registry the file is there and has the bytes that the header speaks of (`resolve_serves_upload`),
and what a commit refers to can be had under its hash from then on (`commit_then_resolve`).
-/

namespace Registry

open Bytes Transaction Runs
open Blobstore (oidOf validOID Written)
open Coreserver (Header itoa contentLengthKey)

/-! ## The handler -/

inductive Reply
  | served (a : Served)
  | error (status : ℤ) (message : Bytes)
  | next

structure Backend where
  getRepo : Bytes → Bytes → Bytes → Except ResolveError Bytes
  getMirror : Bytes → Bytes → Bytes → Bool
  answers : Answers
  openFails : Bool := false

def fallbackOrNotFound (env : Backend) (t : ResolveTarget) : Reply :=
  if env.getMirror t.repoType t.ns t.name then .next
  else .error 404 (t.repoType ++ ascii "/" ++ t.ns ++ ascii "/" ++ t.name ++ ascii " not found")

namespace Hub

def openBlob (hub : Hub) (env : Backend) (oid : Bytes) : Option Bytes :=
  if validOID oid ∧ env.openFails = false then hub.files.blobs oid else none

def resolveTarget (hub : Hub) (env : Backend) (repoID method rangeHdr : Bytes)
    (t : ResolveTarget) : Reply :=
  match lookupFile env.answers hub.db repoID t.rev t.path with
  | .error .notFound => .error 404 (ascii "file not found")
  | .error (.database _) => .error 500 (ascii "lookup: ")
  | .ok (f, sha, _) =>
    match hub.openBlob env f.blobOID with
    | none => .error 500 (ascii "blob open: ")
    | some blob => .served (serveResolve method rangeHdr f.blobOID sha f.size blob)

def resolve (hub : Hub) (env : Backend) (path method rangeHdr : Bytes) : Reply :=
  match parseResolvePath path with
  | none => .next
  | some t =>
    match env.getRepo t.repoType t.ns t.name with
    | .error .notFound => fallbackOrNotFound env t
    | .error (.database _) => .error 500 (ascii "store: ")
    | .ok repoID => hub.resolveTarget env repoID method rangeHdr t

end Hub

/-! ## What is served -/

def Distinct (sha256 : Bytes → Bytes) (hub : Hub) : Prop :=
  ∀ b b', Written hub.files b → Written hub.files b' → oidOf sha256 b = oidOf sha256 b' → b = b'

structure Served.IsOf (a : Served) (sha256 : Bytes → Bytes) (method rangeHdr b : Bytes) : Prop where
  etag : a.header.get (ascii "Etag") = 34 :: (oidOf sha256 b ++ [34])
  size : a.header.get (ascii "X-Linked-Size") = itoa b.length
  whole : method ≠ ascii "HEAD" → rangeHdr = [] →
    a.status = 200 ∧ a.body = b ∧ a.header.get contentLengthKey = itoa b.length
  part : ∀ start stop, method ≠ ascii "HEAD" →
    parseSimpleRange rangeHdr b.length = some (start, stop) → a.IsPart b b.length start stop

theorem header_serveResolve {key : Bytes} (hlength : key ≠ contentLengthKey)
    (hrange : key ≠ contentRangeKey) (method rangeHdr oid sha : Bytes) (size : ℤ) (blob : Bytes) :
    (serveResolve method rangeHdr oid sha size blob).header.get key
      = (resolveHeader oid sha size).get key := by
  unfold serveResolve
  dsimp only
  split
  · exact Header.get_set_of_ne _ hlength _
  · split
    · exact Header.get_set_of_ne _ hrange _
    · rw [Header.get_set_of_ne _ hlength, Header.get_set_of_ne _ hrange]

theorem get_resolveHeader (oid sha : Bytes) (size : ℤ) :
    (resolveHeader oid sha size).get (ascii "Etag") = 34 :: (oid ++ [34])
      ∧ (resolveHeader oid sha size).get (ascii "X-Repo-Commit") = sha
      ∧ (resolveHeader oid sha size).get (ascii "X-Linked-Size") = itoa size := by
  unfold resolveHeader
  refine ⟨?_, ?_, ?_⟩
  · rw [Header.get_set_of_ne _ (by decide), Header.get_set_of_ne _ (by decide),
      Header.get_set_of_ne _ (by decide), Header.get_set_of_ne _ (by decide), Header.get_set]
  · rw [Header.get_set_of_ne _ (by decide), Header.get_set_of_ne _ (by decide),
      Header.get_set_of_ne _ (by decide), Header.get_set]
  · rw [Header.get_set_of_ne _ (by decide), Header.get_set]

theorem isOf_serveResolve (sha256 : Bytes → Bytes) (method rangeHdr sha b : Bytes) :
    (serveResolve method rangeHdr (oidOf sha256 b) sha b.length b).IsOf sha256 method rangeHdr
      b where
  etag := by
    rw [header_serveResolve (by decide) (by decide)]
    exact (get_resolveHeader _ _ _).1
  size := by
    rw [header_serveResolve (by decide) (by decide)]
    exact (get_resolveHeader _ _ _).2.2
  whole hmethod hrange := by
    unfold serveResolve
    dsimp only
    rw [if_pos hrange, if_neg hmethod]
    exact ⟨rfl, rfl, Header.get_set _ _ _⟩
  part _ _ hmethod hparse := serveResolve_isPart hmethod rfl hparse

variable {sha256 : Bytes → Bytes} {blobDir : Bytes} {hub hub' : Hub} {answers : Answers}
  {repoID ref path sha : Bytes} {f : FileRevision} {c : Commit}

theorem blob_of_lookupFile {db : Database}
    (h : lookupFile answers db repoID ref path = .ok (f, sha, c)) :
    ∃ row, db.blobs.get f.blobOID = some row ∧ f.size = row.size := by
  simp only [lookupFile, bind_eq_ok, expect_eq_ok, pure_eq_ok, Prod.mk.injEq] at h
  obtain ⟨sha', -, -, -, c', -, -, -, r, -, row, hrow, rfl, -, -⟩ := h
  exact ⟨row, hrow, rfl⟩

theorem Hub.Sound.file_of_row (h : hub.Sound sha256 blobDir) (hdistinct : Distinct sha256 hub)
    {oid : Bytes} {row : Blob} (hrow : hub.db.blobs.get oid = some row) :
    ∃ b, Written hub.files b ∧ hub.files.blobs oid = some b ∧ oid = oidOf sha256 b
      ∧ row.size = b.length ∧ validOID oid = true := by
  obtain ⟨hhex, b, hb, hoid, hsize⟩ := h.traced oid row hrow
  obtain ⟨content, hcontent⟩ := Option.isSome_iff_exists.mp (h.sourced.placed b hb)
  have hsame : content = b := hdistinct content b (h.sourced.file _ content hcontent) hb
    (h.kept.intact _ content hcontent)
  rw [hsame, hoid] at hcontent
  exact ⟨b, hb, hcontent, hoid.symm, hsize, hhex⟩

theorem Hub.Sound.resolveTarget (h : hub.Sound sha256 blobDir) (hdistinct : Distinct sha256 hub)
    (env : Backend) {t : ResolveTarget} (method rangeHdr : Bytes)
    (hf : lookupFile env.answers hub.db repoID t.rev t.path = .ok (f, sha, c)) :
    ∃ b, Written hub.files b ∧ f.blobOID = oidOf sha256 b
      ∧ hub.resolveTarget env repoID method rangeHdr t
        = if env.openFails = false then
            .served (serveResolve method rangeHdr (oidOf sha256 b) sha b.length b)
          else .error 500 (ascii "blob open: ") := by
  obtain ⟨row, hrow, hsize⟩ := blob_of_lookupFile hf
  obtain ⟨b, hb, hfile, hoid, hlength, hvalid⟩ := h.file_of_row hdistinct hrow
  refine ⟨b, hb, hoid, ?_⟩
  unfold Hub.resolveTarget
  rw [hf]
  dsimp only
  unfold Hub.openBlob
  by_cases hopen : env.openFails = false
  · rw [if_pos ⟨hvalid, hopen⟩, if_pos hopen, hfile, hsize, hlength, hoid]
  · rw [if_neg (fun hboth => hopen hboth.2), if_neg hopen]

/-- **What is served was uploaded, and is what the header says**, in every state that uploads and
commits can lead to; no file is missing. -/
theorem resolve_serves_upload {repos : Finset Bytes} {es : List HubEvent}
    (hrun : run (Hub.step sha256 blobDir) (Hub.empty repos) es = some hub)
    (hdistinct : Distinct sha256 hub) (env : Backend) (path method rangeHdr : Bytes) :
    (env.openFails = false →
        hub.resolve env path method rangeHdr ≠ .error 500 (ascii "blob open: "))
      ∧ ∀ a, hub.resolve env path method rangeHdr = .served a →
        ∃ b, Written hub.files b ∧ a.IsOf sha256 method rangeHdr b := by
  have hsound := (Hub.sound_empty repos).run hrun
  unfold Hub.resolve
  cases parseResolvePath path with
  | none => exact ⟨fun _ => nofun, nofun⟩
  | some t =>
    dsimp only
    cases env.getRepo t.repoType t.ns t.name with
    | error e =>
      cases e with
      | notFound =>
        dsimp only [fallbackOrNotFound]
        split
        · exact ⟨fun _ => nofun, nofun⟩
        · exact ⟨fun _ h => by injection h; contradiction, nofun⟩
      | database query => exact ⟨fun _ h => by injection h; contradiction, nofun⟩
    | ok repoID =>
      dsimp only
      cases hf : lookupFile env.answers hub.db repoID t.rev t.path with
      | error e =>
        unfold Hub.resolveTarget
        rw [hf]
        cases e with
        | notFound => exact ⟨fun _ h => by injection h; contradiction, nofun⟩
        | database query => exact ⟨fun _ h => by injection h; contradiction, nofun⟩
      | ok found =>
        obtain ⟨b, hb, -, hreply⟩ := hsound.resolveTarget hdistinct env method rangeHdr hf
        rw [hreply]
        split
        · refine ⟨fun _ => nofun, fun a ha => ⟨b, hb, ?_⟩⟩
          rw [← Reply.served.inj ha]
          exact isOf_serveResolve sha256 method rangeHdr found.2.1 b
        · next hopen => exact ⟨fun h => absurd h hopen, nofun⟩

/-! ## From a commit to a download -/

theorem Hub.step_kept {e : HubEvent} (hroot : Rooted hub.db)
    (hs : hub.step sha256 blobDir e = some hub') : Kept hub.db hub'.db ∧ Rooted hub'.db := by
  have hcall : ∀ call : Call, Kept hub.db (hub.call call).db ∧ Rooted (hub.call call).db :=
    fun call => @transact_invariant _ _ _ (fun db => Kept hub.db db ∧ Rooted db) call.exec hub.db
      (fun _ _ hok => exec_kept hroot hok) ⟨Kept.refl _, hroot⟩
  cases e with
  | file e =>
    simp only [Hub.step] at hs
    split at hs
    · obtain ⟨files, -, rfl⟩ := Option.map_eq_some_iff.mp hs
      exact ⟨Kept.refl _, hroot⟩
    · cases hs
  | upsertBlob i faults =>
    simp only [Hub.step] at hs
    split at hs
    · cases hs
      exact hcall _
    · cases hs
  | commitTx draw input =>
    cases hs
    exact hcall _

theorem Hub.run_kept {es : List HubEvent} (hroot : Rooted hub.db)
    (hrun : run (Hub.step sha256 blobDir) hub es = some hub') :
    Kept hub.db hub'.db ∧ Rooted hub'.db :=
  @invariant_of_step _ _ (Hub.step sha256 blobDir) (fun h => Kept hub.db h.db ∧ Rooted h.db)
    (fun _ _ _ hi hs => ⟨hi.1.trans (Hub.step_kept hi.2 hs).1, (Hub.step_kept hi.2 hs).2⟩)
    hub hub' es ⟨Kept.refl _, hroot⟩ hrun

theorem hexEncode_spec (b : Bytes) :
    (Cache.hexEncode b).length = 2 * b.length ∧ isHex (Cache.hexEncode b) = true := by
  induction b with
  | nil => exact ⟨rfl, rfl⟩
  | cons c b ih =>
    have hdigits : ∀ c : UInt8, isHex (Cache.hexEncode [c]) = true :=
      forall_byte (by decide +kernel)
    have hcons : Cache.hexEncode (c :: b) = Cache.hexEncode [c] ++ Cache.hexEncode b := rfl
    rw [hcons, List.length_append, ih.1, List.length_cons]
    refine ⟨by show 2 + _ = _; omega, ?_⟩
    unfold isHex at hdigits ih ⊢
    rw [List.all_append, hdigits c, ih.2]
    rfl

theorem deriveCommitSHA_spec (draw : Draw) :
    (deriveCommitSHA draw.digest).length = 40 ∧ isHex (deriveCommitSHA draw.digest) = true := by
  obtain ⟨hlength, hhex⟩ := hexEncode_spec draw.digest
  refine ⟨?_, ?_⟩
  · rw [deriveCommitSHA, List.length_take, hlength, draw.digest_length]
    rfl
  · unfold isHex at hhex ⊢
    rw [List.all_eq_true] at hhex ⊢
    exact fun c hc => hhex c (List.mem_of_mem_take hc)

theorem resolveBranch_hash {db : Database} (hfaults : ∀ query, answers.faults query = false)
    (hlength : sha.length = 40) (hhex : isHex sha = true) (hbranch : db.head repoID sha = none)
    (hc : db.commits.get (repoID, sha) = some c) :
    resolveBranch answers db repoID sha = .ok sha := by
  have hask : ∀ query, answers.ask query = .ok () := fun query => require_eq_ok.mpr (hfaults query)
  have href : refOrMain sha = sha := if_neg (fun hnil => by simp [hnil] at hlength)
  have hmem : sha ∈ db.hashes repoID := Finset.mem_image.mpr ⟨(repoID, sha),
    Finset.mem_filter.mpr ⟨(db.commits.mem_names _).mpr (by rw [hc]; rfl), rfl⟩, rfl⟩
  refine bind_eq_ok.mpr ⟨(), hask _, ?_⟩
  rw [href, hbranch]
  show lookupHash answers db repoID sha = _
  rw [lookupHash, if_pos ⟨hlength, hhex⟩]
  exact bind_eq_ok.mpr ⟨(), hask _, if_pos hmem⟩

theorem lookupFile_hash {db : Database} (hfaults : ∀ query, answers.faults query = false)
    (hsha : resolveBranch answers db repoID ref = .ok sha)
    (hc : db.commits.get (repoID, sha) = some c) {row : FileRow}
    (hrow : (db.tree repoID sha).get path = some row) :
    ∃ size, lookupFile answers db repoID ref path
      = .ok (⟨row.blobOID, row.isLFS, size⟩, sha, c) := by
  rw [Database.tree, hc] at hrow
  obtain ⟨b, hb⟩ := Option.isSome_iff_exists.mp (db.file_blob c.id path row hrow)
  refine ⟨b.size, ?_⟩
  simp only [lookupFile, bind_eq_ok, expect_eq_ok, pure_eq_ok]
  exact ⟨sha, hsha, (), require_eq_ok.mpr (hfaults _), c, hc, (), require_eq_ok.mpr (hfaults _),
    row, hrow, b, hb, rfl⟩

def Asks (env : Backend) (url repoID rev path : Bytes) : Prop :=
  ∃ t, parseResolvePath url = some t ∧ env.getRepo t.repoType t.ns t.name = .ok repoID
    ∧ t.rev = rev ∧ t.path = path

def CommitInput.fileAt (input : CommitInput) (path : Bytes) : Option CommitFile :=
  (input.lfsPointers.lookup path).or (input.inline.lookup path)

theorem CommitInput.applyTo_of_fileAt {input : CommitInput} {cf : CommitFile}
    (h : input.fileAt path = some cf) (tree : Bytes → Option FileRow) :
    ∃ isLFS, input.applyTo tree path = some (cf.row isLFS) := by
  rcases Option.or_eq_some_iff.mp h with hlfs | ⟨hnone, hinline⟩
  · exact ⟨true, by simp [applyTo, hlfs]⟩
  · exact ⟨false, by simp [applyTo, hnone, hinline]⟩

/-- **What a commit refers to can be downloaded under its hash, whatever happens
afterwards**: the answer has the bytes that were uploaded under the object id. -/
theorem commit_then_resolve {repos : Finset Bytes} {es es' : List HubEvent} {draw : Draw}
    {input : CommitInput} {result : CommitResult} {db' : Database} {env : Backend}
    {url : Bytes} {cf : CommitFile}
    (hrun : run (Hub.step sha256 blobDir) (Hub.empty repos) es = some hub)
    (hcommit : transact (Call.commitTx draw input).exec hub.db = (.ok (some result), db'))
    (hlater : run (Hub.step sha256 blobDir) { hub with db := db' } es' = some hub')
    (hdistinct : Distinct sha256 hub') (hfile : input.fileAt path = some cf)
    (hasks : Asks env url input.repoID result.sha path) (hopen : env.openFails = false)
    (hfaults : ∀ query, env.answers.faults query = false)
    (hbranch : hub'.db.head input.repoID result.sha = none) :
    ∃ b a, Written hub'.files b ∧ oidOf sha256 b = bpchar cf.blobOID
      ∧ hub'.resolve env url (ascii "GET") [] = .served a ∧ a.status = 200 ∧ a.body = b
      ∧ a.header.get (ascii "X-Repo-Commit") = result.sha := by
  -- the commit, its row and its tree, which stay
  have hok := body_of_transact (congrArg Prod.fst hcommit)
  rw [hcommit] at hok
  obtain ⟨result', files, hresult, hc⟩ := exec_commitTx_eq_ok hok
  obtain rfl := Option.some.inj hresult
  have hroot := (Hub.run_kept (rooted_empty repos) hrun).2
  obtain ⟨hkept, -⟩ := Hub.run_kept (exec_kept hroot hok).2 hlater
  obtain ⟨isLFS, hrow⟩ := CommitInput.applyTo_of_fileAt hfile
    (hub.db.treeAt input.repoID (hub.db.head input.repoID input.branchOrMain))
  rw [← hc.tree_get, ← hkept.tree hc.commit] at hrow
  obtain ⟨hlength, hhex⟩ := deriveCommitSHA_spec draw
  have hsha : result.sha = deriveCommitSHA draw.digest := by rw [hc.returned]
  rw [← hsha] at hlength hhex
  have hhere := (hkept _ _ hc.commit).1
  obtain ⟨size, hlookup⟩ := lookupFile_hash hfaults
    (resolveBranch_hash hfaults hlength hhex hbranch hhere) hhere hrow
  -- the file that the row leads to
  have hsound : hub'.Sound sha256 blobDir := by
    have hs₁ : (hub.call (.commitTx draw input)).Sound sha256 blobDir :=
      ((Hub.sound_empty repos).run hrun).transacted (fun _ _ _ _ heq => by cases heq)
    rw [Hub.call, hcommit] at hs₁
    exact hs₁.run hlater
  obtain ⟨t, hparse, hrepo, hrev, rfl⟩ := hasks
  rw [← hrev] at hlookup
  obtain ⟨b, hb, hoid, hreply⟩ := hsound.resolveTarget hdistinct env (ascii "GET") [] hlookup
  have hisOf := isOf_serveResolve sha256 (ascii "GET") [] t.rev b
  obtain ⟨hstatus, hbody, -⟩ := hisOf.whole (by decide) rfl
  refine ⟨b, _, hb, hoid.symm, ?_, hstatus, hbody, ?_⟩
  · unfold Hub.resolve
    rw [hparse]
    dsimp only
    rw [hrepo]
    dsimp only
    rw [hreply, if_pos hopen]
  · rw [header_serveResolve (by decide) (by decide), (get_resolveHeader _ _ _).2.1, hrev]

/-! ## An upload of one byte -/

private def oneUpload : List HubEvent :=
  [.file (.start 0 {}), .file (.act 0 (.createTemp (some 0))), .file (.act 0 (.read [7] none)),
    .file (.act 0 (.readEnds none)), .file (.act 0 (.close false)), .file (.act 0 (.stat false)),
    .file (.act 0 (.mkdir false)), .file (.act 0 (.rename false)), .file (.act 0 .ret),
    .upsertBlob 0 (fun _ => false)]

private def oneFile : CommitInput where
  repoID := ascii "r"
  inline := [(ascii "f", ⟨oidOf Blobstore.firstByteHash [7], 1⟩)]
  lfsPointers := []
  inline_nodup := List.nodup_singleton _
  lfsPointers_nodup := List.nodup_nil

private noncomputable def oneBackend : Backend where
  getRepo _ _ _ := .ok (ascii "r")
  getMirror _ _ _ := false
  answers := .some

private def oneURL : Bytes := ascii "/o/n/resolve/0101010101010101010101010101010101010101/f"

private theorem written_of_puts {p : Blobstore.Put} (h : ∀ i, hub.files.puts (i + 1) = none)
    (h0 : hub.files.puts 0 = some p) : ∀ b, Written hub.files b → b = p.body := by
  rintro b ⟨i, q, hq, -, rfl⟩
  cases i with
  | zero => rw [Option.some.inj (h0.symm.trans hq)]
  | succ i => cases (h i).symm.trans hq

private theorem distinct_of_puts {p : Blobstore.Put} (h : ∀ i, hub.files.puts (i + 1) = none)
    (h0 : hub.files.puts 0 = some p) : Distinct sha256 hub :=
  fun b b' hb hb' _ => (written_of_puts h h0 b hb).trans (written_of_puts h h0 b' hb').symm

theorem resolve_serves_upload_byte :
    ∃ hub a b, run (Hub.step Blobstore.firstByteHash []) (Hub.empty {ascii "r"})
        (oneUpload ++ [.commitTx (drawOf 1) oneFile]) = some hub
      ∧ hub.resolve oneBackend (ascii "/o/n/resolve/main/f") (ascii "GET") [] = .served a
      ∧ Written hub.files b ∧ a.IsOf Blobstore.firstByteHash (ascii "GET") [] b := by
  have hrun : run (Hub.step Blobstore.firstByteHash []) (Hub.empty {ascii "r"})
      (oneUpload ++ [.commitTx (drawOf 1) oneFile]) = some _ := rfl
  obtain ⟨b, hb, hisOf⟩ := (resolve_serves_upload hrun (distinct_of_puts (fun _ => rfl) rfl)
    oneBackend (ascii "/o/n/resolve/main/f") (ascii "GET") []).2 _ rfl
  exact ⟨_, _, b, hrun, rfl, hb, hisOf⟩

theorem commit_then_resolve_byte :
    ∃ hub result db' a,
      run (Hub.step Blobstore.firstByteHash []) (Hub.empty {ascii "r"}) oneUpload = some hub
        ∧ transact (Call.commitTx (drawOf 1) oneFile).exec hub.db = (.ok (some result), db')
        ∧ ({ hub with db := db' } : Hub).resolve oneBackend oneURL (ascii "GET") [] = .served a
        ∧ a.status = 200 ∧ a.body = [7] := by
  have hrun : run (Hub.step Blobstore.firstByteHash []) (Hub.empty {ascii "r"}) oneUpload
      = some _ := rfl
  obtain ⟨b, a, hb, -, hreply, hstatus, hbody, -⟩ := commit_then_resolve hrun
    (show transact (Call.commitTx (drawOf 1) oneFile).exec _ = (.ok (some _), _) from rfl)
    (show run _ _ [] = some _ from rfl) (distinct_of_puts (fun _ => rfl) rfl) rfl
    (show Asks oneBackend oneURL _ _ (ascii "f") from ⟨_, rfl, rfl, rfl, rfl⟩) rfl
    (fun _ => rfl) rfl
  exact ⟨_, _, _, a, hrun, rfl, hreply, hstatus,
    hbody.trans (written_of_puts (fun _ => rfl) rfl b hb)⟩

end Registry
