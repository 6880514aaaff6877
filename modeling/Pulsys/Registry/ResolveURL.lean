import Pulsys.Registry.Commit

/-!
# Resolve URLs

`parseResolvePath` takes the public URL of a file apart, deciding by its text whether the
first segment is a type or a namespace. The URLs of models in `datasets` and `spaces` are
read as something else, and no others (`parseResolvePath_resolveURL_iff`).
-/

namespace Registry

open Bytes

/-! ## Names -/

def isAlphanumeric (c : UInt8) : Bool :=
  (97 ≤ c && c ≤ 122) || (65 ≤ c && c ≤ 90) || (48 ≤ c && c ≤ 57)

def isRepoSlug : Bytes → Bool
  | [] => false
  | c :: rest =>
    rest.length + 1 ≤ 96 && isAlphanumeric c
      && rest.all (fun c => isAlphanumeric c || c = 46 || c = 95 || c = 45)

inductive TripleError
  | repoType (value : Bytes)
  | slug
  deriving DecidableEq

def validateRepoTriple (repoType ns name : Bytes) : Except TripleError Unit :=
  if repoType = ascii "models" ∨ repoType = ascii "datasets" ∨ repoType = ascii "spaces" then
    if !isRepoSlug ns || !isRepoSlug name then .error .slug else .ok ()
  else .error (.repoType repoType)

/-! ## The URL and its parser -/

structure ResolveTarget where
  repoType : Bytes
  ns : Bytes
  name : Bytes
  rev : Bytes
  path : Bytes
  deriving DecidableEq

def resolvePrefix (repoType : Bytes) : Bytes :=
  if repoType = ascii "datasets" then ascii "datasets/"
  else if repoType = ascii "spaces" then ascii "spaces/"
  else []

def resolveURL (t : ResolveTarget) : Bytes :=
  ascii "/" ++ resolvePrefix t.repoType ++ t.ns ++ ascii "/" ++ t.name ++ ascii "/resolve/"
    ++ t.rev ++ ascii "/" ++ t.path

def repoTypeOf (parts : List Bytes) : Bytes × List Bytes :=
  if 0 < parts.length ∧ (parts.getD 0 [] = ascii "datasets" ∨ parts.getD 0 [] = ascii "spaces")
  then (parts.getD 0 [], parts.drop 1)
  else (ascii "models", parts)

def targetOf (repoType : Bytes) (parts : List Bytes) : Option ResolveTarget :=
  if parts.length < 5 ∨ parts.getD 2 [] ≠ ascii "resolve" then none
  else some
    { repoType
      ns := parts.getD 0 []
      name := parts.getD 1 []
      rev := parts.getD 3 []
      path := (ascii "/").intercalate (parts.drop 4) }

def parseParts (parts : List Bytes) : Option ResolveTarget :=
  targetOf (repoTypeOf parts).1 (repoTypeOf parts).2

def parseResolvePath (p : Bytes) : Option ResolveTarget :=
  parseParts ((if p.head? = some SLASH then p.drop 1 else p).splitOn SLASH)

/-! ## The segments of a URL -/

theorem slash_notMem_of_isRepoSlug {s : Bytes} (h : isRepoSlug s = true) : SLASH ∉ s := by
  cases s with
  | nil => cases h
  | cons c rest =>
    rw [isRepoSlug, Bool.and_eq_true, Bool.and_eq_true, List.all_eq_true] at h
    intro hmem
    rcases List.mem_cons.mp hmem with rfl | hmem
    · exact absurd h.1.2 (by decide)
    · exact absurd (h.2 _ hmem) (by decide)

variable {repoType : Bytes} {t : ResolveTarget}

theorem validateRepoTriple_eq_ok {ns name : Bytes}
    (h : validateRepoTriple repoType ns name = .ok ()) :
    (repoType = ascii "models" ∨ repoType = ascii "datasets" ∨ repoType = ascii "spaces")
      ∧ SLASH ∉ ns ∧ SLASH ∉ name := by
  unfold validateRepoTriple at h
  by_cases ht : repoType = ascii "models" ∨ repoType = ascii "datasets" ∨ repoType = ascii "spaces"
  · rw [if_pos ht] at h
    by_cases hslug : (!isRepoSlug ns || !isRepoSlug name) = true
    · rw [if_pos hslug] at h
      cases h
    · rw [Bool.or_eq_true, not_or, Bool.not_eq_true', Bool.not_eq_true', Bool.not_eq_false,
        Bool.not_eq_false] at hslug
      exact ⟨ht, slash_notMem_of_isRepoSlug hslug.1, slash_notMem_of_isRepoSlug hslug.2⟩
  · rw [if_neg ht] at h
    cases h

def ResolveTarget.segments (t : ResolveTarget) : List Bytes :=
  t.ns :: t.name :: ascii "resolve" :: t.rev :: t.path.splitOn SLASH

theorem splitOn_resolveURL (hns : SLASH ∉ t.ns) (hname : SLASH ∉ t.name) (hrev : SLASH ∉ t.rev) :
    (t.ns ++ ascii "/" ++ t.name ++ ascii "/resolve/" ++ t.rev ++ ascii "/" ++ t.path).splitOn SLASH
      = t.segments := by
  have htext : t.ns ++ ascii "/" ++ t.name ++ ascii "/resolve/" ++ t.rev ++ ascii "/" ++ t.path
      = t.ns ++ SLASH :: (t.name ++ SLASH :: (ascii "resolve" ++ SLASH
          :: (t.rev ++ SLASH :: t.path))) := by
    rw [show ascii "/resolve/" = SLASH :: (ascii "resolve" ++ [SLASH]) by decide,
      show ascii "/" = [SLASH] by decide]
    simp only [List.append_assoc, List.cons_append, List.nil_append]
  rw [htext, splitOn_append_cons hns, splitOn_append_cons hname,
    splitOn_append_cons (by decide : SLASH ∉ ascii "resolve"), splitOn_append_cons hrev]
  rfl

theorem targetOf_segments (t : ResolveTarget) : targetOf t.repoType t.segments = some t := by
  have hlen : ¬ (t.segments.length < 5 ∨ t.segments.getD 2 [] ≠ ascii "resolve") := by
    have hpos := List.length_pos_iff.mpr (List.splitOn_ne_nil SLASH t.path)
    refine not_or.mpr ⟨?_, fun h => h rfl⟩
    rw [ResolveTarget.segments]
    simp only [List.length_cons]
    omega
  rw [targetOf, if_neg hlen]
  have hpath : (ascii "/").intercalate (t.segments.drop 4) = t.path :=
    List.intercalate_splitOn SLASH
  rw [hpath]
  rfl

theorem repoTypeOf_cons {parts : List Bytes}
    (h : repoType = ascii "datasets" ∨ repoType = ascii "spaces") :
    repoTypeOf (repoType :: parts) = (repoType, parts) :=
  if_pos ⟨Nat.succ_pos _, h⟩

theorem repoTypeOf_segments (h : ¬ (t.ns = ascii "datasets" ∨ t.ns = ascii "spaces")) :
    repoTypeOf t.segments = (ascii "models", t.segments) :=
  if_neg (fun hparts => h hparts.2)

theorem parseResolvePath_resolveURL (hns : SLASH ∉ t.ns) (hname : SLASH ∉ t.name)
    (hrev : SLASH ∉ t.rev) :
    parseResolvePath (resolveURL t)
      = parseParts (if t.repoType = ascii "datasets" ∨ t.repoType = ascii "spaces"
          then t.repoType :: t.segments else t.segments) := by
  have hcut := splitOn_resolveURL hns hname hrev
  have hparts : ((if (resolveURL t).head? = some SLASH then (resolveURL t).drop 1
      else resolveURL t)).splitOn SLASH
        = if t.repoType = ascii "datasets" ∨ t.repoType = ascii "spaces"
          then t.repoType :: t.segments else t.segments := by
    unfold resolveURL resolvePrefix
    rw [if_pos (by rfl)]
    by_cases hd : t.repoType = ascii "datasets"
    · rw [if_pos hd, if_pos (.inl hd), ← hcut, hd,
        ← splitOn_append_cons (by decide : SLASH ∉ ascii "datasets")]
      rw [show ascii "datasets/" = ascii "datasets" ++ [SLASH] by decide]
      simp only [List.append_assoc]
      rfl
    · rw [if_neg hd]
      by_cases hs : t.repoType = ascii "spaces"
      · rw [if_pos hs, if_pos (.inr hs), ← hcut, hs,
          ← splitOn_append_cons (by decide : SLASH ∉ ascii "spaces")]
        rw [show ascii "spaces/" = ascii "spaces" ++ [SLASH] by decide]
        simp only [List.append_assoc]
        rfl
      · rw [if_neg hs, if_neg (not_or.mpr ⟨hd, hs⟩), ← hcut]
        simp only [List.append_assoc]
        rfl
  rw [parseResolvePath, hparts]

/-! ## The round trip -/

theorem repoType_of_targetOf {parts : List Bytes} (h : targetOf repoType parts = some t) :
    t.repoType = repoType := by
  rw [targetOf, Option.ite_none_left_eq_some] at h
  rw [← Option.some.inj h.2]

/-- **A resolve URL names its file exactly if it is not a model's in the namespace `datasets`
or `spaces`.** -/
theorem parseResolvePath_resolveURL_iff (t : ResolveTarget)
    (hvalid : validateRepoTriple t.repoType t.ns t.name = .ok ()) (hrev : SLASH ∉ t.rev) :
    parseResolvePath (resolveURL t) = some t
      ↔ ¬ (t.repoType = ascii "models" ∧ (t.ns = ascii "datasets" ∨ t.ns = ascii "spaces")) := by
  obtain ⟨htype, hns, hname⟩ := validateRepoTriple_eq_ok hvalid
  rw [parseResolvePath_resolveURL hns hname hrev]
  by_cases hmodels : t.repoType = ascii "models"
  · have hnot : ¬ (t.repoType = ascii "datasets" ∨ t.repoType = ascii "spaces") := by
      rw [hmodels]
      decide
    rw [if_neg hnot, parseParts]
    by_cases hreserved : t.ns = ascii "datasets" ∨ t.ns = ascii "spaces"
    · -- the namespace is taken for a type, which is not that of a model
      refine iff_of_false (fun h => ?_) (not_not.mpr ⟨hmodels, hreserved⟩)
      have hread : repoTypeOf t.segments = (t.ns, t.segments.drop 1) := repoTypeOf_cons hreserved
      have hns' := repoType_of_targetOf h
      rw [hread, hmodels] at hns'
      dsimp only at hns'
      rw [← hns'] at hreserved
      exact absurd hreserved (by decide)
    · refine iff_of_true ?_ (fun h => hreserved h.2)
      rw [repoTypeOf_segments hreserved, ← hmodels]
      exact targetOf_segments t
  · have hwritten := htype.resolve_left hmodels
    rw [if_pos hwritten, parseParts, repoTypeOf_cons hwritten]
    exact iff_of_true (targetOf_segments t) (fun h => hmodels h.1)

/-- A dataset in the namespace `datasets`, and a file whose path has a segment
`resolve`. -/
theorem parseResolvePath_resolveURL_dataset :
    parseResolvePath (ascii "/datasets/datasets/n/resolve/main/resolve/f")
      = some ⟨ascii "datasets", ascii "datasets", ascii "n", ascii "main", ascii "resolve/f"⟩ :=
  (parseResolvePath_resolveURL_iff
    ⟨ascii "datasets", ascii "datasets", ascii "n", ascii "main", ascii "resolve/f"⟩
    (by decide) (by decide)).mpr (by decide)

/-- **A model in the namespace `datasets` cannot be asked for.** -/
theorem model_in_datasets_not_resolved :
    validateRepoTriple (ascii "models") (ascii "datasets") (ascii "n") = .ok ()
      ∧ validateCommitFilePath (ascii "config.json") = true
      ∧ resolveURL ⟨ascii "models", ascii "datasets", ascii "n", ascii "main", ascii "config.json"⟩
        = ascii "/datasets/n/resolve/main/config.json"
      ∧ parseResolvePath (ascii "/datasets/n/resolve/main/config.json") = none := by
  decide +kernel

end Registry
