import Pulsys.Registry.Commit

/-!
# Revisions

`ResolveBranch` tries a branch, a hash, and the first characters of a hash, in this order.
The last query reads the first of two rows, and this is the only way in which a commit is
returned that the revision does not identify (`resolveBranch_identifies_iff`).
-/

namespace Registry

open Bytes Transaction

/-! ## The lookups -/

def isHex (s : Bytes) : Bool :=
  s.all (fun c => (48 ≤ c && c ≤ 57) || (97 ≤ c && c ≤ 102))

inductive Query
  | selectBranch
  | selectCommit
  | selectPrefix
  | selectFile
  deriving DecidableEq

inductive ResolveError
  | notFound
  | database (query : Query)
  deriving DecidableEq

structure Limited (n : ℕ) (s : Finset Bytes) where
  rows : List Bytes
  nodup : rows.Nodup
  mem : ∀ x ∈ rows, x ∈ s
  length : rows.length = min n s.card

structure Answers where
  faults : Query → Bool := fun _ => false
  rows : (s : Finset Bytes) → Limited 2 s

def Database.hashes (db : Database) (repoID : Bytes) : Finset Bytes :=
  (db.commits.names.filter (fun k => k.1 = repoID)).image Prod.snd

def Database.withPrefix (db : Database) (repoID ref : Bytes) : Finset Bytes :=
  (db.hashes repoID).filter (ref <+: ·)

def refOrMain (ref : Bytes) : Bytes := if ref = [] then ascii "main" else ref

def Answers.ask (answers : Answers) (query : Query) : Except ResolveError Unit :=
  require (answers.faults query = false) (.database query)

def lookupPrefix (answers : Answers) (db : Database) (repoID ref : Bytes) :
    Except ResolveError Bytes :=
  if 7 ≤ ref.length ∧ isHex ref then do
    answers.ask .selectPrefix
    -- `QueryRow` reads the first row only
    expect (answers.rows (db.withPrefix repoID ref)).rows.head? .notFound
  else .error .notFound

def lookupHash (answers : Answers) (db : Database) (repoID ref : Bytes) :
    Except ResolveError Bytes :=
  if ref.length = 40 ∧ isHex ref then do
    answers.ask .selectCommit
    if ref ∈ db.hashes repoID then .ok ref else lookupPrefix answers db repoID ref
  else lookupPrefix answers db repoID ref

def resolveBranch (answers : Answers) (db : Database) (repoID ref : Bytes) :
    Except ResolveError Bytes := do
  let ref := refOrMain ref
  answers.ask .selectBranch
  match db.head repoID ref with
  | some sha => .ok sha
  | none => lookupHash answers db repoID ref

def lookupFile (answers : Answers) (db : Database) (repoID ref path : Bytes) :
    Except ResolveError (FileRevision × Bytes × Commit) := do
  let sha ← resolveBranch answers db repoID ref
  answers.ask .selectCommit
  let c ← expect (db.commits.get (repoID, sha)) .notFound
  answers.ask .selectFile
  let r ← expect ((db.fileRevisions c.id).get path) .notFound
  let b ← expect (db.blobs.get r.blobOID) .notFound
  pure (⟨r.blobOID, r.isLFS, b.size⟩, sha, c)

def Identifies (db : Database) (repoID ref sha : Bytes) : Prop :=
  db.head repoID ref = some sha
    ∨ (sha = ref ∧ ref.length = 40 ∧ sha ∈ db.hashes repoID)
    ∨ (7 ≤ ref.length ∧ isHex ref = true ∧ sha ∈ db.withPrefix repoID ref
        ∧ ∀ sha' ∈ db.withPrefix repoID ref, sha' = sha)

def Ambiguous (db : Database) (repoID ref : Bytes) : Prop :=
  db.head repoID ref = none ∧ ¬ (ref.length = 40 ∧ ref ∈ db.hashes repoID)
    ∧ 7 ≤ ref.length ∧ isHex ref = true ∧ 2 ≤ (db.withPrefix repoID ref).card

instance (db : Database) (repoID ref : Bytes) : Decidable (Ambiguous db repoID ref) :=
  inferInstanceAs (Decidable (_ ∧ _))

/-! ## Sound lookups -/

theorem Limited.mem_of_head? {n : ℕ} {s : Finset Bytes} {l : Limited n s} {x : Bytes}
    (h : l.rows.head? = some x) : x ∈ s :=
  l.mem x (List.mem_of_head? h)

theorem Limited.exists_head? {n : ℕ} {s : Finset Bytes} (l : Limited n s) (hn : 0 < n)
    (hs : 0 < s.card) : ∃ x, l.rows.head? = some x := by
  cases hrows : l.rows with
  | nil =>
    have hlen := l.length
    rw [hrows, List.length_nil] at hlen
    omega
  | cons x rest => exact ⟨x, rfl⟩

variable {answers : Answers} {db : Database} {ref repoID sha : Bytes}

theorem lookupPrefix_eq_ok (h : lookupPrefix answers db repoID ref = .ok sha) :
    7 ≤ ref.length ∧ isHex ref = true ∧ sha ∈ db.withPrefix repoID ref := by
  unfold lookupPrefix at h
  by_cases hshort : 7 ≤ ref.length ∧ isHex ref = true
  · rw [if_pos hshort, bind_eq_ok] at h
    obtain ⟨-, -, h⟩ := h
    exact ⟨hshort.1, hshort.2, Limited.mem_of_head? (expect_eq_ok.mp h)⟩
  · rw [if_neg hshort] at h
    cases h

theorem lookupHash_eq_ok (h : lookupHash answers db repoID ref = .ok sha) :
    (sha = ref ∧ ref.length = 40 ∧ sha ∈ db.hashes repoID)
      ∨ (¬ (ref.length = 40 ∧ ref ∈ db.hashes repoID)
        ∧ 7 ≤ ref.length ∧ isHex ref = true ∧ sha ∈ db.withPrefix repoID ref) := by
  unfold lookupHash at h
  by_cases hfull : ref.length = 40 ∧ isHex ref = true
  · rw [if_pos hfull, bind_eq_ok] at h
    obtain ⟨-, -, h⟩ := h
    by_cases hmem : ref ∈ db.hashes repoID
    · rw [if_pos hmem] at h
      obtain rfl := Except.ok.inj h
      exact .inl ⟨rfl, hfull.1, hmem⟩
    · rw [if_neg hmem] at h
      exact .inr ⟨fun hboth => hmem hboth.2, lookupPrefix_eq_ok h⟩
  · rw [if_neg hfull] at h
    obtain ⟨hlen, hhex, hsha⟩ := lookupPrefix_eq_ok h
    exact .inr ⟨fun hboth => hfull ⟨hboth.1, hhex⟩, hlen, hhex, hsha⟩

theorem identifies_of_resolveBranch (hone : ¬ Ambiguous db repoID (refOrMain ref))
    (h : resolveBranch answers db repoID ref = .ok sha) :
    Identifies db repoID (refOrMain ref) sha := by
  obtain ⟨-, -, h⟩ := bind_eq_ok.mp h
  cases hhead : db.head repoID (refOrMain ref) with
  | some sha' =>
    rw [hhead] at h
    obtain rfl := Except.ok.inj h
    exact .inl hhead
  | none =>
    rw [hhead] at h
    rcases lookupHash_eq_ok h with hfull | ⟨hnot, hlen, hhex, hsha⟩
    · exact .inr (.inl hfull)
    · -- only one commit starts with the revision
      have hcard : (db.withPrefix repoID (refOrMain ref)).card ≤ 1 := by
        by_contra hcard
        exact hone ⟨hhead, hnot, hlen, hhex, by omega⟩
      exact .inr (.inr ⟨hlen, hhex, hsha, fun sha' hsha' =>
        Finset.card_le_one.mp hcard _ hsha' _ hsha⟩)

/-! ## Ambiguous revisions -/

theorem Ambiguous.resolved (h : Ambiguous db repoID (refOrMain ref)) (answers : Answers)
    (hfaults : ∀ query, answers.faults query = false) :
    ∃ sha, resolveBranch answers db repoID ref = .ok sha
      ∧ ¬ Identifies db repoID (refOrMain ref) sha := by
  obtain ⟨hhead, hnot, hlen, hhex, hcard⟩ := h
  have hask : ∀ query, answers.ask query = .ok () := fun query =>
    require_eq_ok.mpr (hfaults query)
  obtain ⟨sha, hsha⟩ := (answers.rows (db.withPrefix repoID (refOrMain ref))).exists_head?
    (by decide) (by omega)
  have hprefix : lookupPrefix answers db repoID (refOrMain ref) = .ok sha := by
    rw [lookupPrefix, if_pos ⟨hlen, hhex⟩, hask]
    exact expect_eq_ok.mpr hsha
  have hhash : lookupHash answers db repoID (refOrMain ref) = .ok sha := by
    unfold lookupHash
    by_cases hfull : (refOrMain ref).length = 40 ∧ isHex (refOrMain ref) = true
    · rw [if_pos hfull, hask, ← hprefix]
      exact if_neg (fun hmem => hnot ⟨hfull.1, hmem⟩)
    · rw [if_neg hfull, hprefix]
  refine ⟨sha, ?_, ?_⟩
  · refine bind_eq_ok.mpr ⟨(), hask _, ?_⟩
    rw [hhead]
    exact hhash
  · rintro (hbranch | ⟨rfl, hfull, hmem⟩ | ⟨-, -, -, hall⟩)
    · rw [hhead] at hbranch
      cases hbranch
    · exact hnot ⟨hfull, hmem⟩
    · have hle : (db.withPrefix repoID (refOrMain ref)).card ≤ 1 :=
        Finset.card_le_one.mpr (fun a ha b hb => (hall a ha).trans (hall b hb).symm)
      omega

noncomputable def Answers.some : Answers where
  rows s :=
    { rows := s.toList.take 2
      nodup := s.nodup_toList.sublist (List.take_sublist _ _)
      mem := fun _ hx => Finset.mem_toList.mp (List.mem_of_mem_take hx)
      length := by rw [List.length_take, Finset.length_toList] }

/-- **`ResolveBranch` returns only commits that the revision identifies, whatever
the database answers, exactly if the revision is not ambiguous.** -/
theorem resolveBranch_identifies_iff (db : Database) (repoID ref : Bytes) :
    (∀ answers sha, resolveBranch answers db repoID ref = .ok sha →
        Identifies db repoID (refOrMain ref) sha)
      ↔ ¬ Ambiguous db repoID (refOrMain ref) := by
  refine ⟨fun h hamb => ?_, fun h answers sha => identifies_of_resolveBranch h⟩
  obtain ⟨sha, hsha, hnot⟩ := hamb.resolved .some (fun _ => rfl)
  exact hnot (h .some sha hsha)

private def hashOf (c : UInt8) : Bytes := List.replicate 7 97 ++ List.replicate 33 c

private def twoCommits : Option Database := do
  let db ← (Database.empty {ascii "r"}).insertCommit (ascii "r") (hashOf 98)
    ⟨1, none, none, ascii "one", []⟩
  db.insertCommit (ascii "r") (hashOf 99) ⟨2, some (hashOf 98), none, ascii "two", []⟩

/-- **Seven characters that two commits share are resolved to one of them**, and
nothing tells the client that there is another. -/
theorem shared_prefix_resolved :
    ∃ db, twoCommits = .some db ∧ ∃ answers sha,
      resolveBranch answers db (ascii "r") (List.replicate 7 97) = .ok sha
        ∧ hashOf 98 ∈ db.withPrefix (ascii "r") (List.replicate 7 97)
        ∧ hashOf 99 ∈ db.withPrefix (ascii "r") (List.replicate 7 97)
        ∧ ¬ Identifies db (ascii "r") (List.replicate 7 97) sha := by
  have hdb : ∃ db ∈ twoCommits, Ambiguous db (ascii "r") (List.replicate 7 97)
      ∧ hashOf 98 ∈ db.withPrefix (ascii "r") (List.replicate 7 97)
      ∧ hashOf 99 ∈ db.withPrefix (ascii "r") (List.replicate 7 97) := by decide +kernel
  obtain ⟨db, hmem, hamb, h98, h99⟩ := hdb
  have hamb' : Ambiguous db (ascii "r") (refOrMain (List.replicate 7 97)) := hamb
  obtain ⟨sha, hsha, hnot⟩ := hamb'.resolved .some (fun _ => rfl)
  exact ⟨db, hmem, .some, sha, hsha, h98, h99, hnot⟩

end Registry
