import Pulsys.Cache.Meta

/-!
# Which models an entry belongs to

A body that is addressed by its content may belong to several models: `originPath` has the
first of them and `originPaths` all. A purge takes a model out of these fields
(`mem_originFields_removeOwner`), but does not rewrite the entry's own path
(`ownedBy_removeOwner_self`).
-/

namespace Admin

open Bytes Cache

def parseHFModelPath (p : Bytes) : Option (Bytes × Bytes × Bytes) :=
  let parts := (if p.head? = some SLASH then p.drop 1 else p).splitOn SLASH
  if 3 ≤ parts.length ∧ parts.getD 0 [] = ascii "api"
      ∧ parts.getD 1 [] = ascii "resolve-cache" then
    let parts := parts.drop 2
    let parts :=
      if 0 < parts.length ∧ (parts.getD 0 [] = ascii "models"
          ∨ parts.getD 0 [] = ascii "datasets" ∨ parts.getD 0 [] = ascii "spaces")
      then parts.drop 1 else parts
    if parts.length < 4 then none
    else some (parts.getD 0 [], parts.getD 1 [], parts.getD 2 [])
  else
    let parts :=
      if 0 < parts.length
          ∧ (parts.getD 0 [] = ascii "datasets" ∨ parts.getD 0 [] = ascii "spaces")
      then parts.drop 1 else parts
    if parts.length < 5 ∨ parts.getD 2 [] ≠ ascii "resolve" then none
    else some (parts.getD 0 [], parts.getD 1 [], parts.getD 3 [])

example : parseHFModelPath (ascii "/datasets/o/n/resolve/main/a/b")
    = some (ascii "o", ascii "n", ascii "main") := by decide +kernel

def pathMatches (p org name : Bytes) : Bool :=
  if p = [] then false
  else
    match parseHFModelPath p with
    | none => false
    | some (o, n, _) => o == org && n == name

def ownedBy (m : Meta) (org name : Bytes) : Bool :=
  if pathMatches m.originPath org name then true
  else if m.originPaths.any (pathMatches · org name) then true
  else pathMatches m.path org name

def removeOwner (m : Meta) (org name : Bytes) : Meta :=
  let originPaths := m.originPaths.filter (fun op => !pathMatches op org name)
  { m with
    originPaths := originPaths
    originPath := if pathMatches m.originPath org name then originPaths.headD []
      else m.originPath }

def hasAnyOwner (m : Meta) : Bool :=
  if m.originPath ≠ [] ∧ (parseHFModelPath m.originPath).isSome then true
  else m.originPaths.any (fun op => (parseHFModelPath op).isSome)

def modelOf (p : Bytes) : Option (Bytes × Bytes) :=
  (parseHFModelPath p).map (fun r => (r.1, r.2.1))

def originFields (m : Meta) : List Bytes := m.originPath :: m.originPaths

@[simp]
theorem modelOf_nil : modelOf [] = none := by decide +kernel

variable {name org p : Bytes} {m : Meta}

theorem pathMatches_iff : pathMatches p org name = true ↔ modelOf p = some (org, name) := by
  unfold pathMatches
  by_cases hp : p = []
  · rw [if_pos hp, hp, modelOf_nil]
    simp
  · rw [if_neg hp]
    unfold modelOf
    cases parseHFModelPath p with
    | none => simp
    | some r => simp

theorem ownedBy_iff :
    ownedBy m org name = true
      ↔ modelOf m.path = some (org, name) ∨ ∃ p ∈ originFields m, modelOf p = some (org, name) := by
  unfold ownedBy originFields
  rw [List.exists_mem_cons_iff, ← pathMatches_iff, ← pathMatches_iff]
  have hany : m.originPaths.any (pathMatches · org name) = true
      ↔ ∃ p ∈ m.originPaths, modelOf p = some (org, name) := by
    simp only [List.any_eq_true, pathMatches_iff]
  by_cases h1 : pathMatches m.originPath org name = true
  · simp [h1]
  · rw [if_neg h1]
    by_cases h2 : m.originPaths.any (pathMatches · org name) = true
    · rw [if_pos h2]
      simp [hany.mp h2]
    · rw [if_neg h2]
      simp [h1, mt hany.mpr h2]

theorem hasAnyOwner_iff :
    hasAnyOwner m = true ↔ ∃ p ∈ originFields m, (modelOf p).isSome = true := by
  have hsome : ∀ p, (modelOf p).isSome = (parseHFModelPath p).isSome := fun p => by
    simp [modelOf]
  unfold hasAnyOwner originFields
  rw [List.exists_mem_cons_iff, ← List.any_eq_true]
  simp only [hsome]
  by_cases hp : m.originPath = []
  · have hnil : (parseHFModelPath []).isSome = false := by decide +kernel
    simp [hp, hnil]
  · by_cases h : (parseHFModelPath m.originPath).isSome = true
    · simp [hp, h]
    · simp [hp, h]

theorem mem_originFields_removeOwner (hp : p ≠ []) :
    p ∈ originFields (removeOwner m org name)
      ↔ p ∈ originFields m ∧ modelOf p ≠ some (org, name) := by
  have hrest : p ∈ (removeOwner m org name).originPaths
      ↔ p ∈ m.originPaths ∧ modelOf p ≠ some (org, name) := by
    rw [removeOwner, List.mem_filter, ne_eq, ← pathMatches_iff]
    simp
  unfold originFields
  rw [List.mem_cons, hrest, List.mem_cons, or_and_right]
  by_cases hfirst : pathMatches m.originPath org name = true
  · -- the first field is taken from the others, or empty
    have hhead : (removeOwner m org name).originPath
        = (removeOwner m org name).originPaths.headD [] := if_pos hfirst
    refine or_congr_left' (fun hno => ?_)
    constructor
    · intro heq
      rw [hhead] at heq
      cases hl : (removeOwner m org name).originPaths with
      | nil => exact absurd (by rw [heq, hl]; rfl) hp
      | cons x xs =>
        rw [hl] at heq
        obtain rfl : p = x := heq
        exact absurd (hrest.mp (by rw [hl]; exact List.mem_cons_self)) hno
    · rintro ⟨rfl, hne⟩
      exact absurd (pathMatches_iff.mp hfirst) hne
  · have hsame : (removeOwner m org name).originPath = m.originPath := if_neg hfirst
    rw [hsame]
    refine or_congr_left ⟨fun heq => ⟨heq, ?_⟩, And.left⟩
    rw [heq]
    exact fun h => hfirst (pathMatches_iff.mpr h)

theorem ne_nil_of_modelOf {model : Bytes × Bytes} (h : modelOf p = some model) : p ≠ [] := by
  rintro rfl
  rw [modelOf_nil] at h
  cases h

def SharedBeside (m : Meta) (org name : Bytes) : Prop :=
  ∃ p ∈ originFields m, ∃ model, modelOf p = some model ∧ model ≠ (org, name)

instance (m : Meta) (org name : Bytes) : Decidable (SharedBeside m org name) :=
  decidable_of_iff (∃ p ∈ originFields m, ∃ model ∈ modelOf p, model ≠ (org, name)) Iff.rfl

theorem hasAnyOwner_removeOwner :
    hasAnyOwner (removeOwner m org name) = true ↔ SharedBeside m org name := by
  rw [hasAnyOwner_iff]
  constructor
  · rintro ⟨p, hp, hsome⟩
    obtain ⟨model, hmodel⟩ := Option.isSome_iff_exists.mp hsome
    obtain ⟨hmem, hne⟩ := (mem_originFields_removeOwner (ne_nil_of_modelOf hmodel)).mp hp
    exact ⟨p, hmem, model, hmodel, fun heq => hne (heq ▸ hmodel)⟩
  · rintro ⟨p, hp, model, hmodel, hne⟩
    refine ⟨p, (mem_originFields_removeOwner (ne_nil_of_modelOf hmodel)).mpr ⟨hp, ?_⟩, ?_⟩
    · rw [hmodel]
      exact fun h => hne (Option.some.inj h)
    · rw [hmodel]
      rfl

theorem ownedBy_removeOwner_of_ne {o n : Bytes} (hne : (o, n) ≠ (org, name)) :
    ownedBy (removeOwner m org name) o n = ownedBy m o n := by
  rw [Bool.eq_iff_iff, ownedBy_iff, ownedBy_iff]
  refine or_congr Iff.rfl (exists_congr (fun p => ?_))
  refine and_congr_left (fun hmodel => ?_)
  rw [mem_originFields_removeOwner (ne_nil_of_modelOf hmodel), hmodel]
  exact ⟨And.left, fun h => ⟨h, fun heq => hne (Option.some.inj heq)⟩⟩

theorem ownedBy_removeOwner_self :
    ownedBy (removeOwner m org name) org name = true ↔ modelOf m.path = some (org, name) := by
  rw [ownedBy_iff]
  refine or_iff_left ?_
  rintro ⟨p, hp, hmodel⟩
  exact ((mem_originFields_removeOwner (ne_nil_of_modelOf hmodel)).mp hp).2 hmodel

theorem headD_filter_of_not {p : Bytes → Bool} {l : List Bytes} (h : p (l.headD []) = true) :
    (l.filter p).headD [] = l.headD [] := by
  cases l with
  | nil => rfl
  | cons x xs =>
    rw [List.headD_cons] at h
    rw [List.filter_cons_of_pos h, List.headD_cons, List.headD_cons]

theorem removeOwner_removeOwner (m : Meta) (org name org' name' : Bytes) :
    removeOwner (removeOwner m org name) org' name'
      = { m with
          originPaths := (m.originPaths.filter (fun op => !pathMatches op org name)).filter
            (fun op => !pathMatches op org' name')
          originPath :=
            if pathMatches m.originPath org name ∨ pathMatches m.originPath org' name' then
              ((m.originPaths.filter (fun op => !pathMatches op org name)).filter
                (fun op => !pathMatches op org' name')).headD []
            else m.originPath } := by
  unfold removeOwner
  dsimp only
  by_cases h : pathMatches m.originPath org name = true
  · simp only [h, if_true, true_or]
    by_cases h' : pathMatches
        ((m.originPaths.filter (fun op => !pathMatches op org name)).headD []) org' name' = true
    · rw [if_pos h']
    · -- what was moved up stays, and it is the first of what is left
      rw [if_neg h', headD_filter_of_not (p := fun op => !pathMatches op org' name')
        (by rw [Bool.eq_false_of_not_eq_true h']; rfl)]
  · simp only [h, false_or, if_false, Bool.false_eq_true]

theorem removeOwner_comm (m : Meta) (org name org' name' : Bytes) :
    removeOwner (removeOwner m org name) org' name'
      = removeOwner (removeOwner m org' name') org name := by
  rw [removeOwner_removeOwner, removeOwner_removeOwner, List.filter_comm]
  simp only [or_comm]

theorem removeOwner_idem (m : Meta) (org name : Bytes) :
    removeOwner (removeOwner m org name) org name = removeOwner m org name := by
  rw [removeOwner_removeOwner, List.filter_filter]
  simp only [Bool.and_self, or_self]
  rfl

theorem not_pathMatches_of_mem_removeOwner (hp : p ∈ originFields (removeOwner m org name)) :
    pathMatches p org name = false := by
  rw [← Bool.not_eq_true, pathMatches_iff]
  intro hmodel
  exact ((mem_originFields_removeOwner (ne_nil_of_modelOf hmodel)).mp hp).2 hmodel

theorem count_originPaths_removeOwner (m : Meta) (org name p : Bytes) :
    (removeOwner m org name).originPaths.count p
      = if pathMatches p org name then 0 else m.originPaths.count p := by
  by_cases h : pathMatches p org name = true
  · rw [if_pos h]
    refine List.count_eq_zero.mpr (fun hp => ?_)
    have hno := not_pathMatches_of_mem_removeOwner (List.mem_cons_of_mem _ hp)
    rw [h] at hno
    cases hno
  · rw [if_neg h]
    exact List.count_filter (by simpa using h)

/-- **Owner removal** leaves every field but the two origin fields alone, of these every path
that does not name the model, and is idempotent and commutes. -/
theorem removeOwner_algebra (m : Meta) (org name : Bytes) :
    { removeOwner m org name with
      originPath := m.originPath, originPaths := m.originPaths } = m
    ∧ pathMatches (removeOwner m org name).originPath org name = false
    ∧ (∀ p ∈ (removeOwner m org name).originPaths, pathMatches p org name = false)
    ∧ (∀ o n, (o, n) ≠ (org, name) → ownedBy (removeOwner m org name) o n = ownedBy m o n)
    ∧ (removeOwner m org name).originPaths.Sublist m.originPaths
    ∧ (∀ p, (removeOwner m org name).originPaths.count p
        = if pathMatches p org name then 0 else m.originPaths.count p)
    ∧ removeOwner (removeOwner m org name) org name = removeOwner m org name
    ∧ ∀ org' name', removeOwner (removeOwner m org name) org' name'
        = removeOwner (removeOwner m org' name') org name := by
  refine ⟨rfl, ?_, ?_, ?_, ?_, ?_, ?_, ?_⟩
  · exact not_pathMatches_of_mem_removeOwner List.mem_cons_self
  · exact fun p hp => not_pathMatches_of_mem_removeOwner (List.mem_cons_of_mem _ hp)
  · exact fun o n hne => ownedBy_removeOwner_of_ne hne
  · exact List.filter_sublist
  · exact count_originPaths_removeOwner m org name
  · exact removeOwner_idem m org name
  · exact removeOwner_comm m org name

end Admin
