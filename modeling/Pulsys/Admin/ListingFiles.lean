import Pulsys.Admin.Listing

/-!
# The files of the listing

What is left of an entry's path behind the revision is the file's path in the repository
(`fileWithin`). The listing's own text has its last segment only, so two files may have
one text (`Attribution.dedupeKey_eq_of_file_eq`).
-/

namespace Admin

open Bytes Cache Text Firsts

def segmentsOf (p : Bytes) : List Bytes :=
  (if p.head? = some SLASH then p.drop 1 else p).splitOn SLASH

def fileStart (parts : List Bytes) : ℕ :=
  if 3 ≤ parts.length ∧ parts.getD 0 [] = ascii "api"
      ∧ parts.getD 1 [] = ascii "resolve-cache" then
    let parts := parts.drop 2
    (if 0 < parts.length ∧ (parts.getD 0 [] = ascii "models"
        ∨ parts.getD 0 [] = ascii "datasets" ∨ parts.getD 0 [] = ascii "spaces")
      then 6 else 5)
  else
    (if 0 < parts.length
        ∧ (parts.getD 0 [] = ascii "datasets" ∨ parts.getD 0 [] = ascii "spaces")
      then 5 else 4)

def fileWithin (p : Bytes) : Bytes :=
  (ascii "/").intercalate ((segmentsOf p).drop (fileStart (segmentsOf p)))

example : fileWithin (ascii "/api/resolve-cache/models/o/n/main/a/b") = ascii "a/b"
    ∧ fileWithin (ascii "/o/n/resolve/main/a/b") = ascii "a/b" := by decide +kernel

def Attribution.file (a : Attribution) : (Bytes × Bytes) × Bytes × Bytes :=
  (a.model, a.rev, fileWithin a.path)

theorem fileStart_lt {p : Bytes} (h : (parseHFModelPath p).isSome = true) :
    0 < fileStart (segmentsOf p) ∧ fileStart (segmentsOf p) < (segmentsOf p).length := by
  unfold parseHFModelPath at h
  rw [show ((if p.head? = some SLASH then p.drop 1 else p).splitOn SLASH) = segmentsOf p from rfl]
    at h
  generalize segmentsOf p = parts at h ⊢
  unfold fileStart
  dsimp only at h ⊢
  by_cases hapi : 3 ≤ parts.length ∧ parts.getD 0 [] = ascii "api"
      ∧ parts.getD 1 [] = ascii "resolve-cache"
  · rw [if_pos hapi] at h ⊢
    by_cases htype : 0 < (parts.drop 2).length ∧ ((parts.drop 2).getD 0 [] = ascii "models"
        ∨ (parts.drop 2).getD 0 [] = ascii "datasets" ∨ (parts.drop 2).getD 0 [] = ascii "spaces")
    · rw [if_pos htype] at h ⊢
      by_cases hshort : ((parts.drop 2).drop 1).length < 4
      · rw [if_pos hshort] at h
        cases h
      · rw [List.length_drop, List.length_drop] at hshort
        omega
    · rw [if_neg htype] at h ⊢
      by_cases hshort : (parts.drop 2).length < 4
      · rw [if_pos hshort] at h
        cases h
      · rw [List.length_drop] at hshort
        omega
  · rw [if_neg hapi] at h ⊢
    by_cases htype : 0 < parts.length
        ∧ (parts.getD 0 [] = ascii "datasets" ∨ parts.getD 0 [] = ascii "spaces")
    · rw [if_pos htype] at h ⊢
      by_cases hshort : (parts.drop 1).length < 5 ∨ (parts.drop 1).getD 2 [] ≠ ascii "resolve"
      · rw [if_pos hshort] at h
        cases h
      · rw [not_or, List.length_drop] at hshort
        omega
    · rw [if_neg htype] at h ⊢
      by_cases hshort : parts.length < 5 ∨ parts.getD 2 [] ≠ ascii "resolve"
      · rw [if_pos hshort] at h
        cases h
      · rw [not_or] at hshort
        omega

theorem baseName_append_cons (a b : Bytes) : baseName (a ++ SLASH :: b) = baseName b := by
  unfold baseName List.rtakeWhile
  rw [List.reverse_append, List.reverse_cons, List.append_assoc, List.takeWhile_append]
  by_cases hall : (b.reverse.takeWhile (fun c => c ≠ SLASH)).length = b.reverse.length
  · rw [if_pos hall, List.singleton_append, List.takeWhile_cons_of_neg (by simp), List.append_nil,
      (List.takeWhile_prefix _).eq_of_length hall]
  · rw [if_neg hall]

theorem baseName_trim (p : Bytes) :
    baseName (if p.head? = some SLASH then p.drop 1 else p) = baseName p := by
  by_cases h : p.head? = some SLASH
  · rw [if_pos h]
    cases p with
    | nil => rfl
    | cons c p =>
      obtain rfl : c = SLASH := Option.some.inj h
      exact (baseName_append_cons [] p).symm
  · rw [if_neg h]

theorem intercalate_take_drop {l : List Bytes} {n : ℕ} (hpos : 0 < n) (hlt : n < l.length) :
    (ascii "/").intercalate l
      = (ascii "/").intercalate (l.take n) ++ SLASH :: (ascii "/").intercalate (l.drop n) := by
  induction l generalizing n with
  | nil => cases hlt
  | cons x l ih =>
    cases l with
    | nil =>
      rw [List.length_singleton] at hlt
      omega
    | cons y l =>
      obtain ⟨n, rfl⟩ := Nat.exists_eq_succ_of_ne_zero hpos.ne'
      rw [List.take_succ_cons, List.drop_succ_cons, List.intercalate_cons_cons]
      cases n with
      | zero =>
        rw [List.take_zero, List.intercalate_singleton, List.drop_zero, List.append_assoc]
        rfl
      | succ n =>
        rw [ih (Nat.succ_pos n) (by simpa using hlt), List.take_succ_cons,
          List.intercalate_cons_cons]
        simp only [List.append_assoc]

theorem baseName_fileWithin {p : Bytes} (h : (parseHFModelPath p).isSome = true) :
    baseName p = baseName (fileWithin p) := by
  obtain ⟨hpos, hlt⟩ := fileStart_lt h
  have hjoin : (ascii "/").intercalate (segmentsOf p)
      = if p.head? = some SLASH then p.drop 1 else p := List.intercalate_splitOn SLASH
  rw [← baseName_trim p, ← hjoin, intercalate_take_drop hpos hlt, baseName_append_cons]
  rfl

theorem isSome_of_attributionOf {p : Bytes} {a : Attribution} (h : attributionOf p = some a) :
    (parseHFModelPath p).isSome = true ∧ a.path = p := by
  obtain ⟨r, hr, rfl⟩ := Option.map_eq_some_iff.mp h
  rw [hr]
  exact ⟨rfl, rfl⟩

theorem Attribution.dedupeKey_eq_of_file_eq {p q : Bytes} {a b : Attribution}
    (ha : attributionOf p = some a) (hb : attributionOf q = some b) (h : a.file = b.file) :
    a.dedupeKey = b.dedupeKey := by
  obtain ⟨hp, rfl⟩ := isSome_of_attributionOf ha
  obtain ⟨hq, rfl⟩ := isSome_of_attributionOf hb
  obtain ⟨hmodel, hrest⟩ := Prod.mk.inj h
  obtain ⟨horg, hname⟩ := Prod.mk.inj hmodel
  obtain ⟨hrev, hfile⟩ := Prod.mk.inj hrest
  rw [Attribution.dedupeKey, Attribution.dedupeKey, baseName_fileWithin hp, baseName_fileWithin hq,
    horg, hname, hrev, hfile]

def GroupedListing.totalBytes (l : GroupedListing) (model : Bytes × Bytes) : ℤ :=
  Directory.weight ModelGroup.totalBytes (l.items.get model)

theorem totalBytes_of_lists {l : GroupedListing} {includeFiles : Bool}
    {files : List (Attribution × Meta)} (h : l.Lists includeFiles files) (model : Bytes × Bytes) :
    l.totalBytes model
      = wrap64 ((files.filter (fun x => x.1.model = model)).map (fun x => fileBytes x.2)).sum := by
  rw [GroupedListing.totalBytes, h.group]
  cases files.filter (fun x => x.1.model = model) <;> rfl

theorem foldl_grandTotal (includeFiles : Bool) (files : List (Attribution × Meta)) :
    (files.foldl (fun l x => l.count includeFiles x.1 x.2) ({} : Listing)).grandTotal
      = wrap64 ((files.foldl (fun l x => l.count includeFiles x.1 x.2)
          ({} : Listing)).groups.sum ModelGroup.totalBytes) := by
  induction files using List.reverseRecOn with
  | nil => rfl
  | append_singleton files x ih =>
    rw [List.foldl_concat]
    generalize files.foldl (fun l x => l.count includeFiles x.1 x.2) ({} : Listing) = l at ih ⊢
    have hsum : (l.count includeFiles x.1 x.2).groups.sum ModelGroup.totalBytes
        = l.groups.sum ModelGroup.totalBytes
          - Directory.weight ModelGroup.totalBytes (l.groups.get x.1.model)
          + wrap64 (Directory.weight ModelGroup.totalBytes (l.groups.get x.1.model)
            + fileBytes x.2) := by
      have hnew : ((l.groups.get x.1.model).getD { upstream := x.2.upstreamHost }).totalBytes
          = Directory.weight ModelGroup.totalBytes (l.groups.get x.1.model) := by
        cases l.groups.get x.1.model <;> rfl
      rw [Listing.count, Directory.sum_write, ModelGroup.add, hnew]
      ring
    have hgrand : (l.count includeFiles x.1 x.2).grandTotal
        = wrap64 (l.grandTotal + fileBytes x.2) := rfl
    rw [hsum, hgrand, wrap64_add_wrap64, ih, add_comm (wrap64 _), wrap64_add_wrap64]
    congr 1
    ring

theorem grandTotalBytes_eq {maxEntries : ℤ} {includeFiles : Bool} {entries : List Entry}
    {l : GroupedListing} (hwithin : (entries.filterMap Entry.read).length ≤ scanLimit maxEntries)
    (hl : listGroupedFromCache (.ok entries) maxEntries includeFiles = .ok l) :
    l.grandTotalBytes = wrap64 (l.items.sum ModelGroup.totalBytes) := by
  obtain rfl := Except.ok.inj hl
  unfold scanEntries
  rw [foldl_listing rfl (by simpa using hwithin)]
  exact foldl_grandTotal includeFiles _

/-- **Every file is counted once exactly if no two files have one text.** -/
theorem listing_counts_once_iff (maxEntries : ℤ) (includeFiles : Bool) (entries : List Entry)
    (l : GroupedListing) (hwithin : (entries.filterMap Entry.read).length ≤ scanLimit maxEntries)
    (hl : listGroupedFromCache (.ok entries) maxEntries includeFiles = .ok l) :
    ((∀ model,
        l.fileCount model
          = ((firsts (fun x => x.1.file) (entries.filterMap Entry.attributed)).filter
            (fun x => x.1.model = model)).length
        ∧ l.totalBytes model
          = wrap64 (((firsts (fun x => x.1.file) (entries.filterMap Entry.attributed)).filter
            (fun x => x.1.model = model)).map (fun x => fileBytes x.2)).sum)
      ∧ l.grandTotalBytes = wrap64 (l.items.sum ModelGroup.totalBytes))
    ↔ ∀ x ∈ entries.filterMap Entry.attributed, ∀ y ∈ entries.filterMap Entry.attributed,
        x.1.dedupeKey = y.1.dedupeKey → x.1.file = y.1.file := by
  have hlists := lists_listGroupedFromCache hwithin hl
  have hkey : ∀ x ∈ entries.filterMap Entry.attributed, ∀ y ∈ entries.filterMap Entry.attributed,
      x.1.file = y.1.file → x.1.dedupeKey = y.1.dedupeKey := by
    intro x hx y hy hfile
    obtain ⟨e, -, he⟩ := List.mem_filterMap.mp hx
    obtain ⟨e', -, he'⟩ := List.mem_filterMap.mp hy
    exact Attribution.dedupeKey_eq_of_file_eq (attributed_eq_some he).2.2.2
      (attributed_eq_some he').2.2.2 hfile
  constructor
  · rintro ⟨h, -⟩
    refine injOn_of_length_filter_firsts hkey (fun x _ y _ hfile => (Prod.mk.inj hfile).1)
      (fun model => ?_)
    exact (fileCount_of_lists hlists model).symm.trans (h model).1
  · intro hinj
    have hsame := firsts_congr (fun x hx y hy => ⟨hinj x hx y hy, hkey x hx y hy⟩)
    refine ⟨fun model => ?_, grandTotalBytes_eq hwithin hl⟩
    rw [← hsame]
    exact ⟨fileCount_of_lists hlists model, totalBytes_of_lists hlists model⟩

private def cachedFile (path : Bytes) (size : ℤ) : Entry where
  contents := some { path, statusCode := 200, total := some size }

private def twoFiles : List Entry :=
  [cachedFile (ascii "/o/n/resolve/main/a/f") 3,
    cachedFile (ascii "/api/resolve-cache/models/o/n/main/a/f") 3,
    cachedFile (ascii "/o/n/resolve/main/a/g") 4]

theorem listing_counts_once_two_files :
    ∃ l, listGroupedFromCache (.ok twoFiles) 0 false = .ok l
      ∧ (∀ model,
        l.fileCount model
          = ((firsts (fun x => x.1.file) (twoFiles.filterMap Entry.attributed)).filter
            (fun x => x.1.model = model)).length
        ∧ l.totalBytes model
          = wrap64 (((firsts (fun x => x.1.file) (twoFiles.filterMap Entry.attributed)).filter
            (fun x => x.1.model = model)).map (fun x => fileBytes x.2)).sum)
      ∧ l.grandTotalBytes = wrap64 (l.items.sum ModelGroup.totalBytes) :=
  ⟨_, rfl, (listing_counts_once_iff 0 false twoFiles _ (by decide +kernel) rfl).mpr
    (by decide +kernel)⟩

private def sameName : List Entry :=
  [cachedFile (ascii "/o/n/resolve/main/a/f") 3, cachedFile (ascii "/o/n/resolve/main/b/f") 4]

/-- **Two files of one name are counted as one**, and the second one's size is
missing. -/
theorem same_name_counted_once :
    ((firsts (fun x => x.1.file) (sameName.filterMap Entry.attributed)).filter
        (fun x => x.1.model = (ascii "o", ascii "n"))).length = 2
      ∧ ∃ l, listGroupedFromCache (.ok sameName) 0 false = .ok l
        ∧ l.fileCount (ascii "o", ascii "n") = 1 ∧ l.totalBytes (ascii "o", ascii "n") = 3 :=
  ⟨by decide +kernel, _, rfl, by decide +kernel, by decide +kernel⟩

end Admin
