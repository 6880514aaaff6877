import Pulsys.Base.Text
import Pulsys.Registry.History

/-!
# Commit bodies

`parseCommitNDJSON` collects operations from lines of JSON. A deleted folder is filed as a
deleted path, so its files stay, and a file with the folder's path is taken out instead
(`folderDeleted_iff`). JSON, base64 and the scanner are a parameter, `Decoders`.
-/

namespace Registry

open Bytes Text Transaction

/-! ## The parser -/

structure FileValue where
  path : Bytes
  encoding : Bytes
  content : Bytes

structure Decoders where
  envelope : Bytes → Option (Bytes × Bytes)
  header : Bytes → Option (Bytes × Bytes)
  file : Bytes → Option FileValue
  lfsFile : Bytes → Option (Bytes × CommitFile)
  path : Bytes → Option Bytes
  base64 : Bytes → Option Bytes

inductive Operation
  | header (summary description : Bytes)
  | file (path content : Bytes)
  | lfsFile (path : Bytes) (f : CommitFile)
  | deletedFile (path : Bytes)
  | deletedFolder (path : Bytes)
  | unknown
  deriving DecidableEq

inductive BodyError
  | scan
  | envelope
  | value (key : Bytes)
  | base64
  | encoding (name : Bytes)
  | headerRequired
  deriving DecidableEq

def decodeLine (d : Decoders) (line : Bytes) : Except BodyError Operation := do
  let (key, value) ← expect (d.envelope line) .envelope
  if key = ascii "header" then
    let v ← expect (d.header value) (.value key)
    pure (.header v.1 v.2)
  else if key = ascii "file" then
    let v ← expect (d.file value) (.value key)
    if v.encoding = [] ∨ v.encoding = ascii "utf-8" then pure (.file v.path v.content)
    else if v.encoding = ascii "base64" then
      let content ← expect (d.base64 v.content) .base64
      pure (.file v.path content)
    else .error (.encoding v.encoding)
  else if key = ascii "lfsFile" then
    let v ← expect (d.lfsFile value) (.value key)
    pure (.lfsFile v.1 v.2)
  else if key = ascii "deletedFile" then
    let path ← expect (d.path value) (.value key)
    pure (.deletedFile path)
  else if key = ascii "deletedFolder" then
    let path ← expect (d.path value) (.value key)
    pure (.deletedFolder path)
  else pure .unknown

structure CommitBody where
  summary : Bytes := []
  desc : Bytes := []
  inline : Directory Bytes Bytes := .empty
  lfsPtr : Directory Bytes CommitFile := .empty
  deletes : List Bytes := []

def CommitBody.apply (body : CommitBody) : Operation → CommitBody
  | .header summary desc => { body with summary, desc }
  | .file path content => { body with inline := body.inline.write path content }
  | .lfsFile path f => { body with lfsPtr := body.lfsPtr.write path f }
  | .deletedFile path | .deletedFolder path => { body with deletes := body.deletes ++ [path] }
  | .unknown => body

def readLines (d : Decoders) : List Bytes → CommitBody → Except BodyError CommitBody
  | [], body => .ok body
  | token :: rest, body =>
    if trimSpace token = [] then readLines d rest body
    else do
      let op ← decodeLine d (trimSpace token)
      readLines d rest (body.apply op)

structure Scan where
  tokens : List Bytes
  failed : Bool := false

def parseCommitNDJSON (d : Decoders) (scan : Scan) : Except BodyError CommitBody := do
  let body ← readLines d scan.tokens {}
  require (scan.failed = false) .scan
  require (body.summary ≠ []) .headerRequired
  pure body

structure IsInput (put : Bytes → CommitFile) (body : CommitBody) (repoID rev : Bytes)
    (input : CommitInput) : Prop where
  repoID : input.repoID = repoID
  branch : input.branch = rev
  summary : input.summary = body.summary
  description : input.description = body.desc
  authorID : input.authorID = []
  inline : ∀ p, input.inline.lookup p = (body.inline.get p).map put
  lfsPointers : ∀ p, input.lfsPointers.lookup p = body.lfsPtr.get p
  deletes : input.deletes = body.deletes

/-! ## What is collected -/

def operation (d : Decoders) (token : Bytes) : Option Operation :=
  if trimSpace token = [] then none else (decodeLine d (trimSpace token)).toOption

def operations (d : Decoders) (tokens : List Bytes) : List Operation :=
  tokens.filterMap (operation d)

theorem readLines_eq_ok {d : Decoders} {tokens : List Bytes} {body body' : CommitBody}
    (h : readLines d tokens body = .ok body') :
    body' = (operations d tokens).foldl CommitBody.apply body := by
  induction tokens generalizing body with
  | nil => exact (Except.ok.inj h).symm
  | cons token rest ih =>
    rw [readLines] at h
    by_cases hblank : trimSpace token = []
    · rw [if_pos hblank] at h
      have hnone : operation d token = none := if_pos hblank
      rw [operations, List.filterMap_cons_none hnone]
      exact ih h
    · rw [if_neg hblank, bind_eq_ok] at h
      obtain ⟨op, hop, h⟩ := h
      have hsome : operation d token = some op := by
        rw [operation, if_neg hblank, hop]
        rfl
      rw [operations, List.filterMap_cons_some hsome, List.foldl_cons]
      exact ih h

def Adds (ops : List Operation) (q : Bytes) : Prop :=
  (∃ content, .file q content ∈ ops) ∨ ∃ f, .lfsFile q f ∈ ops

theorem foldl_apply (ops : List Operation) (body : CommitBody) (q : Bytes) :
    (q ∈ (ops.foldl CommitBody.apply body).deletes
        ↔ q ∈ body.deletes ∨ .deletedFile q ∈ ops ∨ .deletedFolder q ∈ ops)
      ∧ (((ops.foldl CommitBody.apply body).inline.get q).isSome = true
        ↔ (body.inline.get q).isSome = true ∨ ∃ content, .file q content ∈ ops)
      ∧ (((ops.foldl CommitBody.apply body).lfsPtr.get q).isSome = true
        ↔ (body.lfsPtr.get q).isSome = true ∨ ∃ f, .lfsFile q f ∈ ops) := by
  induction ops generalizing body with
  | nil => simp
  | cons op ops ih =>
    obtain ⟨hdeletes, hinline, hlfs⟩ := ih (body.apply op)
    rw [List.foldl_cons, hdeletes, hinline, hlfs]
    cases op with
    | header summary desc => simp [CommitBody.apply]
    | unknown => simp [CommitBody.apply]
    | deletedFile path => simp [CommitBody.apply, or_assoc]
    | deletedFolder path => simp [CommitBody.apply, or_assoc, or_left_comm]
    | file path content =>
      by_cases hq : q = path
      · subst hq
        simp [CommitBody.apply]
      · simp [CommitBody.apply, hq, Directory.get_write_of_ne _ _ hq]
    | lfsFile path f =>
      by_cases hq : q = path
      · subst hq
        simp [CommitBody.apply]
      · simp [CommitBody.apply, hq, Directory.get_write_of_ne _ _ hq]

theorem input_of_parse {d : Decoders} {scan : Scan} {body : CommitBody} {put : Bytes → CommitFile}
    {repoID rev : Bytes} {input : CommitInput} (hparse : parseCommitNDJSON d scan = .ok body)
    (hinput : IsInput put body repoID rev input) (q : Bytes) :
    (q ∈ input.deletes ↔ .deletedFile q ∈ operations d scan.tokens
        ∨ .deletedFolder q ∈ operations d scan.tokens)
      ∧ ((input.inline.lookup q).isSome = true ∨ (input.lfsPointers.lookup q).isSome = true
        ↔ Adds (operations d scan.tokens) q) := by
  obtain ⟨body', hread, h⟩ := bind_eq_ok.mp hparse
  obtain ⟨-, -, h⟩ := bind_eq_ok.mp h
  obtain ⟨-, -, h⟩ := bind_eq_ok.mp h
  obtain rfl := pure_eq_ok.mp h
  obtain ⟨hdeletes, hinline, hlfs⟩ := foldl_apply (operations d scan.tokens) {} q
  rw [← readLines_eq_ok hread] at hdeletes hinline hlfs
  rw [hinput.deletes, hinput.inline, hinput.lfsPointers, Option.isSome_map, hdeletes, hinline, hlfs]
  simp [Adds, Directory.empty]

/-! ## Folders -/

def folderPrefix (p : Bytes) : Bytes := if p.getLast? = some SLASH then p else p ++ [SLASH]

def Under (p q : Bytes) : Prop := folderPrefix p <+: q

instance (p q : Bytes) : Decidable (Under p q) := inferInstanceAs (Decidable (_ <+: _))

def Concerns (ops : List Operation) (q : Bytes) : Prop :=
  Adds ops q ∨ .deletedFile q ∈ ops ∨ ∃ p, .deletedFolder p ∈ ops ∧ Under p q

def FolderDeleted (ops : List Operation) (parent tree : Bytes → Option FileRow) (p : Bytes) :
    Prop :=
  (∀ q, Under p q → (tree q).isSome = true → Adds ops q)
    ∧ ∀ q r, ¬ Under p q → parent q = some r → ¬ Concerns ops q → tree q = some r

theorem tree_of_operations {input : CommitInput} {ops : List Operation} {q : Bytes}
    (hdel : q ∈ input.deletes ↔ .deletedFile q ∈ ops ∨ .deletedFolder q ∈ ops)
    (hadd : (input.inline.lookup q).isSome = true ∨ (input.lfsPointers.lookup q).isSome = true
      ↔ Adds ops q) (parent : Bytes → Option FileRow) (hno : ¬ Adds ops q) :
    ((.deletedFile q ∈ ops ∨ .deletedFolder q ∈ ops) → input.applyTo parent q = none)
      ∧ (¬ (.deletedFile q ∈ ops ∨ .deletedFolder q ∈ ops) →
        input.applyTo parent q = parent q) := by
  obtain ⟨hinline, hlfs⟩ := not_or.mp (mt hadd.mp hno)
  rw [Option.not_isSome_iff_eq_none] at hinline hlfs
  simp only [CommitInput.applyTo, hinline, hlfs, Option.map_none, Option.none_or,
    List.contains_iff_mem, hdel]
  exact ⟨fun h => if_pos h, fun h => if_neg h⟩

/-- **A folder is deleted exactly if its deletion had no work to do**: its files are added
again or deleted by themselves, and no other file has its path. -/
theorem folderDeleted_iff (d : Decoders) (scan : Scan) (put : Bytes → CommitFile) (draw : Draw)
    (db db' : Database) (repoID rev p : Bytes) (body : CommitBody) (input : CommitInput)
    (result : CommitResult) (hparse : parseCommitNDJSON d scan = .ok body)
    (hinput : IsInput put body repoID rev input)
    (hcommit : commitTx draw input db = .ok (result, db'))
    (hop : .deletedFolder p ∈ operations d scan.tokens) :
    FolderDeleted (operations d scan.tokens)
        (db.treeAt repoID (db.head repoID input.branchOrMain)) (db'.tree repoID result.sha).get p
      ↔ (∀ q, Under p q →
          (db.treeAt repoID (db.head repoID input.branchOrMain) q).isSome = true →
            Adds (operations d scan.tokens) q ∨ .deletedFile q ∈ operations d scan.tokens
              ∨ .deletedFolder q ∈ operations d scan.tokens)
        ∧ ∀ q, .deletedFolder q ∈ operations d scan.tokens →
          (db.treeAt repoID (db.head repoID input.branchOrMain) q).isSome = true →
            Concerns (operations d scan.tokens) q := by
  obtain ⟨files, hc⟩ := commitTx_eq_ok hcommit
  have htree := hc.tree_get
  rw [hinput.repoID] at htree
  generalize db.treeAt repoID (db.head repoID input.branchOrMain) = parent at htree ⊢
  generalize hops : operations d scan.tokens = ops at hop ⊢
  have hget : ∀ q, ¬ Adds ops q → _ := fun q =>
    tree_of_operations (hops ▸ (input_of_parse hparse hinput q).1)
      (hops ▸ (input_of_parse hparse hinput q).2) parent
  constructor
  · rintro ⟨hgone, hkept⟩
    constructor
    · intro q hunder hparent
      by_contra hnot
      obtain ⟨hno, hnamed⟩ := not_or.mp hnot
      have hsame := (hget q hno).2 hnamed
      exact hno (hgone q hunder (by rw [htree, hsame]; exact hparent))
    · intro q hfolder hparent
      by_contra hnot
      obtain ⟨r, hr⟩ := Option.isSome_iff_exists.mp hparent
      have hno : ¬ Adds ops q := fun h => hnot (.inl h)
      have houtside : ¬ Under p q := fun h => hnot (.inr (.inr ⟨p, hop, h⟩))
      have hstay := hkept q r houtside hr hnot
      rw [htree, (hget q hno).1 (.inr hfolder)] at hstay
      cases hstay
  · rintro ⟨hcovered, hfree⟩
    constructor
    · intro q hunder htreeq
      by_contra hno
      rw [htree] at htreeq
      by_cases hnamed : .deletedFile q ∈ ops ∨ .deletedFolder q ∈ ops
      · rw [(hget q hno).1 hnamed] at htreeq
        cases htreeq
      · rw [(hget q hno).2 hnamed] at htreeq
        exact (hcovered q hunder htreeq).elim hno hnamed
    · intro q r _ hr hnot
      have hno : ¬ Adds ops q := fun h => hnot (.inl h)
      have hnamed : ¬ (.deletedFile q ∈ ops ∨ .deletedFolder q ∈ ops) := by
        rintro (hfile | hfolder)
        · exact hnot (.inr (.inl hfile))
        · exact hnot (hfree q hfolder (by rw [hr]; rfl))
      rw [htree, (hget q hno).2 hnamed]
      exact hr

/-! A body with a header and one deleted folder, and what the decoders make of its
two lines. -/

private def headerText : Bytes := ascii "\x7b\"summary\":\"s\"\x7d"

private def folderText (p : Bytes) : Bytes := ascii "\x7b\"path\":\"" ++ p ++ ascii "\"\x7d"

private def lineText (key value : Bytes) : Bytes :=
  ascii "\x7b\"key\":\"" ++ key ++ ascii "\",\"value\":" ++ value ++ ascii "\x7d"

private def folderDecoders (p : Bytes) : Decoders where
  envelope line :=
    if line = lineText (ascii "header") headerText then some (ascii "header", headerText)
    else if line = lineText (ascii "deletedFolder") (folderText p) then
      some (ascii "deletedFolder", folderText p)
    else none
  header value := if value = headerText then some (ascii "s", []) else none
  file _ := none
  lfsFile _ := none
  path value := if value = folderText p then some p else none
  base64 _ := none

private def folderScan (p : Bytes) : Scan where
  tokens := [lineText (ascii "header") headerText, lineText (ascii "deletedFolder") (folderText p)]

private def folderInput (p : Bytes) : CommitInput where
  repoID := ascii "r"
  branch := ascii "main"
  summary := ascii "s"
  inline := []
  lfsPointers := []
  deletes := [p]
  inline_nodup := List.nodup_nil
  lfsPointers_nodup := List.nodup_nil

private def thenFolder (path p : Bytes) (db : Database) (result : CommitResult) (db' : Database) :
    Prop :=
  (∃ first, commitTx (drawOf 1) (fileInput path) seeded = .ok (first, db))
    ∧ commitTx (drawOf 2) (folderInput p) db = .ok (result, db')

private theorem isInput_folder (p : Bytes) (put : Bytes → CommitFile) :
    IsInput put { summary := ascii "s", deletes := [p] } (ascii "r") (ascii "main")
      (folderInput p) :=
  ⟨rfl, rfl, rfl, rfl, rfl, fun _ => rfl, fun _ => rfl, rfl⟩

private theorem tree_of_thenFolder {path p : Bytes} {db db' : Database} {result : CommitResult}
    (h : thenFolder path p db result db') (q : Bytes) :
    (db.treeAt (ascii "r") (db.head (ascii "r") (ascii "main")) q).isSome = true ↔ q = path := by
  obtain ⟨⟨first, hfirst⟩, -⟩ := h
  obtain ⟨files, hc⟩ := commitTx_eq_ok hfirst
  have hhead : db.head (ascii "r") (ascii "main") = some first.sha := by
    rw [hc.head]
    exact if_pos ⟨rfl, rfl⟩
  have htree : db.treeAt (ascii "r") (some first.sha) q = _ := hc.tree_get q
  have hnone : seeded.head (fileInput path).repoID (fileInput path).branchOrMain = none := by
    rw [Database.head, seeded, (Database.insertBlob_tables _ _ _).2.1]
    rfl
  rw [hhead, htree, hnone]
  by_cases hq : q = path
  · simp [CommitInput.applyTo, fileInput, hq]
  · have hb : (q == path) = false := beq_eq_false_iff_ne.mpr hq
    simp [CommitInput.applyTo, fileInput, hq, hb, List.lookup_cons, Database.treeAt]

theorem folderDeleted_iff_elsewhere :
    ∃ db result db', thenFolder (ascii "e") (ascii "d") db result db'
      ∧ FolderDeleted (operations (folderDecoders (ascii "d")) (folderScan (ascii "d")).tokens)
        (db.treeAt (ascii "r") (db.head (ascii "r") (ascii "main")))
        (db'.tree (ascii "r") result.sha).get (ascii "d") := by
  have hrun : ∃ db result db', thenFolder (ascii "e") (ascii "d") db result db' :=
    ⟨_, _, _, ⟨_, rfl⟩, rfl⟩
  obtain ⟨db, result, db', h⟩ := hrun
  have hparent := tree_of_thenFolder h
  refine ⟨db, result, db', h, ?_⟩
  refine (folderDeleted_iff (folderDecoders (ascii "d")) (folderScan (ascii "d"))
    (fun _ => ⟨[], 0⟩) (drawOf 2) db db' (ascii "r") (ascii "main") (ascii "d")
    { summary := ascii "s", deletes := [ascii "d"] } (folderInput (ascii "d")) result
    (by rfl) (isInput_folder _ _) h.2 (by decide +kernel)).mpr ⟨?_, ?_⟩
  · intro q hunder hq
    rw [(hparent q).mp hq] at hunder
    exact absurd hunder (by decide)
  · intro q hfolder hq
    rw [(hparent q).mp hq] at hfolder
    exact absurd hfolder (by decide +kernel)

/-- **A deleted folder keeps its files.** -/
theorem deleted_folder_keeps_file :
    ∃ db result db', thenFolder (ascii "d/a") (ascii "d") db result db'
      ∧ .deletedFolder (ascii "d")
        ∈ operations (folderDecoders (ascii "d")) (folderScan (ascii "d")).tokens
      ∧ ((db'.tree (ascii "r") result.sha).get (ascii "d/a")).isSome = true
      ∧ ¬ FolderDeleted (operations (folderDecoders (ascii "d")) (folderScan (ascii "d")).tokens)
        (db.treeAt (ascii "r") (db.head (ascii "r") (ascii "main")))
        (db'.tree (ascii "r") result.sha).get (ascii "d") := by
  have hops : operations (folderDecoders (ascii "d")) (folderScan (ascii "d")).tokens
      = [.header (ascii "s") [], .deletedFolder (ascii "d")] := by decide +kernel
  have hrun : ∃ db result db', thenFolder (ascii "d/a") (ascii "d") db result db' :=
    ⟨_, _, _, ⟨_, rfl⟩, rfl⟩
  obtain ⟨db, result, db', h⟩ := hrun
  have hparent := (tree_of_thenFolder h (ascii "d/a")).mpr rfl
  obtain ⟨files, hc⟩ := commitTx_eq_ok h.2
  have htree : ((db'.tree (ascii "r") result.sha).get (ascii "d/a")).isSome = true := by
    rw [← hparent]
    exact congrArg Option.isSome (hc.tree_get (ascii "d/a"))
  refine ⟨db, result, db', h, by rw [hops]; decide, htree, fun hgone => ?_⟩
  have hadds := hgone.1 (ascii "d/a") (by decide) htree
  rw [hops] at hadds
  simp [Adds] at hadds

end Registry
