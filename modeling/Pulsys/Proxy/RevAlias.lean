import Pulsys.Proxy.Upstream

/-!
# Aliases for commits

With the entry for a name, as `main`, an alias is written under the commit that the
response names. The path is taken apart at the first `/resolve/`, which is wrong where an
organisation or a repository is called `resolve` (`eq_of_resolveRevAliasPath`).
-/

namespace Proxy

open Bytes Cache

def resolveRevAliasPath (path newRev : Bytes) : Option Bytes :=
  let marker := ascii "/resolve/"
  match index marker path with
  | none => none
  | some i =>
    let rest := path.drop (i + marker.length)
    match indexByte rest SLASH with
    | none => none
    | some j =>
      if j = 0 then none
      else if rest.take j = newRev then some path
      else some (path.take (i + marker.length) ++ newRev ++ rest.drop j)

example : resolveRevAliasPath (ascii "/o/r/resolve/main/f/g") (ascii "c0ffee")
    = some (ascii "/o/r/resolve/c0ffee/f/g") := by decide

def revAlias (f : Fetch) (canonicalKey : Bytes) : Option Alias :=
  let sha := f.commit
  if sha = [] then none
  else
    match resolveRevAliasPath f.target.path sha with
    | none => none
    | some aliasPath =>
      if aliasPath = f.target.path then none
      else
        some
          { canonicalKey := canonicalKey
            host := f.target.host
            path := aliasPath
            rawQuery := f.target.rawQuery }

def maybeWriteRevAlias (sha256 : Bytes → Bytes) (f : Fetch) (canonicalKey : Bytes) :
    Option (Bytes × Alias) :=
  match revAlias f canonicalKey with
  | none => none
  | some a =>
    let aliasKey := Target.key sha256 { f.target with path := a.path }
    if aliasKey = canonicalKey then none else some (aliasKey, a)

theorem revAlias_some {f : Fetch} {canonicalKey : Bytes} {a : Alias}
    (h : revAlias f canonicalKey = some a) :
    a.canonicalKey = canonicalKey ∧ resolveRevAliasPath f.target.path f.commit = some a.path
      ∧ a.rawQuery = f.target.rawQuery := by
  unfold revAlias at h
  dsimp only at h
  rw [Option.ite_none_left_eq_some] at h
  obtain ⟨-, h⟩ := h
  split at h
  · cases h
  · next aliasPath hpath =>
    obtain ⟨-, h⟩ := Option.ite_none_left_eq_some.mp h
    cases h
    exact ⟨rfl, hpath, rfl⟩

theorem maybeWriteRevAlias_some {sha256 : Bytes → Bytes} {f : Fetch} {canonicalKey k : Bytes}
    {a : Alias} (h : maybeWriteRevAlias sha256 f canonicalKey = some (k, a)) :
    a.canonicalKey = canonicalKey ∧ k = Target.key sha256 { f.target with path := a.path }
      ∧ resolveRevAliasPath f.target.path f.commit = some a.path
      ∧ a.rawQuery = f.target.rawQuery := by
  unfold maybeWriteRevAlias at h
  split at h
  · cases h
  · next a' ha =>
    obtain ⟨-, h⟩ := Option.ite_none_left_eq_some.mp h
    obtain ⟨rfl, rfl⟩ := Prod.mk.inj (Option.some.inj h)
    obtain ⟨hkey, hpath, hquery⟩ := revAlias_some ha
    exact ⟨hkey, rfl, hpath, hquery⟩

/-! ## The paths of files -/

structure ResolvePath where
  org : Bytes
  repo : Bytes
  rev : Bytes
  file : Bytes
  org_segment : SLASH ∉ org
  repo_segment : SLASH ∉ repo
  rev_segment : SLASH ∉ rev

namespace ResolvePath

def repoPath (p : ResolvePath) : Bytes := SLASH :: (p.org ++ SLASH :: p.repo)

def pathAt (p : ResolvePath) (rev : Bytes) : Bytes :=
  p.repoPath ++ ascii "/resolve/" ++ (rev ++ SLASH :: p.file)

def path (p : ResolvePath) : Bytes := p.pathAt p.rev

def Unambiguous (p : ResolvePath) : Prop :=
  p.org ≠ ascii "resolve" ∧ p.repo ≠ ascii "resolve"

instance (p : ResolvePath) : Decidable p.Unambiguous :=
  inferInstanceAs (Decidable (_ ∧ _))

end ResolvePath

theorem not_marker_of_segment {seg rest : Bytes} (hseg : SLASH ∉ seg)
    (hne : seg ≠ ascii "resolve") : ¬ ascii "/resolve/" <+: SLASH :: (seg ++ SLASH :: rest) := by
  rintro ⟨r, hr⟩
  have htail : ascii "resolve" ++ SLASH :: r = seg ++ SLASH :: rest := (List.cons.inj hr).2
  exact hne (cut_unique (by decide) hseg htail).1.symm

theorem index_marker_segment {seg rest : Bytes} (hseg : SLASH ∉ seg)
    (hne : seg ≠ ascii "resolve") :
    index (ascii "/resolve/") (SLASH :: (seg ++ SLASH :: rest))
      = (index (ascii "/resolve/") (SLASH :: rest)).map (· + (seg.length + 1)) := by
  have hpass := @index_append_of_notMem SLASH (ascii "resolve/") seg hseg (SLASH :: rest)
  rw [index_cons_of_ne (not_marker_of_segment hseg hne),
    show ascii "/resolve/" = SLASH :: ascii "resolve/" from rfl, hpass, Option.map_map]
  rfl

theorem index_marker {p : ResolvePath} (hp : p.Unambiguous) (tail : Bytes) :
    index (ascii "/resolve/") (p.repoPath ++ (ascii "/resolve/" ++ tail))
      = some p.repoPath.length := by
  have hpath : p.repoPath ++ (ascii "/resolve/" ++ tail)
      = SLASH :: (p.org ++ SLASH :: (p.repo ++ SLASH :: (ascii "resolve/" ++ tail))) := by
    simp only [ResolvePath.repoPath, List.cons_append, List.append_assoc]
    rfl
  have hmark : index (ascii "/resolve/") (SLASH :: (ascii "resolve/" ++ tail)) = some 0 :=
    index_eq_zero ⟨tail, rfl⟩
  rw [hpath, index_marker_segment p.org_segment hp.1, index_marker_segment p.repo_segment hp.2,
    hmark]
  simp only [Option.map_some, ResolvePath.repoPath, List.length_cons, List.length_append]
  congr 1
  omega

theorem resolveRevAliasPath_some {path newRev out : Bytes}
    (h : resolveRevAliasPath path newRev = some out) :
    ∃ l rev rest, path = l ++ (ascii "/resolve/" ++ (rev ++ SLASH :: rest))
      ∧ index (ascii "/resolve/") path = some l.length
      ∧ out = l ++ (ascii "/resolve/" ++ (newRev ++ SLASH :: rest)) := by
  unfold resolveRevAliasPath at h
  dsimp only at h
  split at h
  · cases h
  · next i hi =>
    obtain ⟨l, r, hpath, rfl, -⟩ := exists_of_index hi
    have hdrop : path.drop (l.length + (ascii "/resolve/").length) = r := by
      rw [hpath, ← List.length_append, List.drop_left]
    have htake : path.take (l.length + (ascii "/resolve/").length) = l ++ ascii "/resolve/" := by
      rw [hpath, ← List.length_append, List.take_left]
    rw [hdrop, htake] at h
    split at h
    · cases h
    · next j hj =>
      obtain ⟨rev, rest, rfl, -, rfl⟩ := exists_of_indexByte hj
      rw [List.take_left, List.drop_left, Option.ite_none_left_eq_some] at h
      refine ⟨l, rev, rest, by rw [hpath, List.append_assoc], hi, ?_⟩
      obtain ⟨-, h⟩ := h
      split at h
      · next heq =>
        cases h
        rw [← heq, hpath, List.append_assoc]
      · cases h
        simp only [List.append_assoc]

theorem eq_of_resolveRevAliasPath {path newRev : Bytes} {p : ResolvePath}
    (hp : p.Unambiguous) (hrev : SLASH ∉ newRev)
    (h : resolveRevAliasPath path newRev = some p.path) :
    newRev = p.rev ∧ ∃ rev, path = p.pathAt rev := by
  obtain ⟨l, rev, rest, hpath, hindex, hout⟩ := resolveRevAliasPath_some h
  have hsplit : p.path = p.repoPath ++ (ascii "/resolve/" ++ (p.rev ++ SLASH :: p.file)) := by
    rw [ResolvePath.path, ResolvePath.pathAt, List.append_assoc]
  -- the two paths have their first marker at one place
  have hl : index (ascii "/resolve/") p.path = some l.length := by
    rw [hout]
    exact index_append_right (hpath ▸ hindex)
  have hlen : l.length = p.repoPath.length := by
    rw [hsplit, index_marker hp] at hl
    exact (Option.some.inj hl).symm
  obtain ⟨rfl, htail⟩ := List.append_inj (hout.symm.trans hsplit) hlen
  obtain ⟨rfl, rfl⟩ := cut_unique hrev p.rev_segment (List.append_cancel_left htail)
  exact ⟨rfl, rev, by rw [hpath, ResolvePath.pathAt, List.append_assoc]⟩

end Proxy
