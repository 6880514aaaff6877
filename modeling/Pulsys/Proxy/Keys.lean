import Pulsys.Proxy.Routing

/-!
# Keys and what they stand for

A key is the hash of five parts joined by a bar. A path and a query may both hold bars:
`/a|b` with the query `c` and `/a` with the query `b|c` have one key. The same account
settles when server and handler come to the same key.
-/

namespace Cache

open Bytes

theorem toNat_hexDigit {d : ℕ} (h : d < 16) :
    ((if d < 10 then 48 + d else 87 + d).toUInt8).toNat = if d < 10 then 48 + d else 87 + d := by
  show (if d < 10 then 48 + d else 87 + d) % 256 = _
  split <;> omega

theorem hexEncode_injective : Function.Injective hexEncode := by
  intro b b' h
  induction b generalizing b' with
  | nil =>
    cases b' with
    | nil => rfl
    | cons c' b' => simp [hexEncode] at h
  | cons c b ih =>
    cases b' with
    | nil => simp [hexEncode] at h
    | cons c' b' =>
      simp only [hexEncode, List.flatMap_cons, List.cons_append, List.nil_append,
        List.cons.injEq] at h
      obtain ⟨hhi, hlo, hrest⟩ := h
      have hlt := c.toNat_lt
      have hlt' := c'.toNat_lt
      have hhi' := congrArg UInt8.toNat hhi
      have hlo' := congrArg UInt8.toNat hlo
      rw [toNat_hexDigit (by omega), toNat_hexDigit (by omega)] at hhi' hlo'
      have hc : c.toNat = c'.toNat := by
        split at hhi' <;> split at hhi' <;> split at hlo' <;> split at hlo' <;> omega
      rw [UInt8.toNat_inj.mp hc, ih hrest]

end Cache

namespace Proxy

open Bytes Cache

abbrev BAR : UInt8 := 124

namespace Lookup

def normMethod (k : Lookup) : Bytes := Text.toUpper (Text.trimSpace k.method)

def normHost (k : Lookup) : Bytes := Text.toLower (Text.trimSpace k.host)

def normPath (k : Lookup) : Bytes :=
  if Text.trimSpace k.path = [] then [SLASH] else Text.trimSpace k.path

theorem key_eq (sha256 : Bytes → Bytes) (k : Lookup) : k.key sha256
    = hexEncode (sha256 (k.normMethod ++ BAR :: (k.normHost ++ BAR :: (k.normPath
      ++ BAR :: (k.query ++ BAR :: authBucket sha256 k.auth))))) := rfl

structure Same (sha256 : Bytes → Bytes) (k k' : Lookup) : Prop where
  method : k.normMethod = k'.normMethod
  host : k.normHost = k'.normHost
  path : k.normPath = k'.normPath
  query : k.query = k'.query
  bucket : authBucket sha256 k.auth = authBucket sha256 k'.auth

def Shifted (sha256 : Bytes → Bytes) (k k' : Lookup) : Prop :=
  k.normMethod = k'.normMethod ∧ k.normHost = k'.normHost
    ∧ authBucket sha256 k.auth = authBucket sha256 k'.auth
    ∧ ∃ x, (k'.normPath = k.normPath ++ BAR :: x ∧ k.query = x ++ BAR :: k'.query)
      ∨ (k.normPath = k'.normPath ++ BAR :: x ∧ k'.query = x ++ BAR :: k.query)

/-! ## What routing makes sure of -/

structure Routed (k : Lookup) : Prop where
  method : ∀ c ∈ k.method, Coreserver.UpperByte c
  host : SLASH ∉ k.host
  path : k.path.head? = some SLASH
  auth : k.auth = []

namespace Routed

variable {k k' : Lookup}

theorem bar_notMem_method (h : k.Routed) : BAR ∉ k.normMethod := by
  intro hmem
  have htrim : ∀ c ∈ Text.trimSpace k.method, Coreserver.UpperByte c :=
    fun c hc => h.method c ((Text.trimSpace_infix k.method).subset hc)
  obtain ⟨c, hc, heq⟩ := List.mem_map.mp hmem
  have hupper := htrim c hc
  rw [if_neg] at heq
  · subst heq
    exact absurd hupper.2 (by decide)
  · intro hlower
    simp only [Bool.and_eq_true, decide_eq_true_eq] at hlower
    exact absurd (UInt8.le_trans hlower.1 hupper.2) (by decide)

theorem slash_notMem_host (h : k.Routed) : SLASH ∉ k.normHost := fun hmem =>
  h.host ((Text.trimSpace_infix k.host).subset (Text.mem_toLower (by decide) hmem))

theorem normPath_eq (h : k.Routed) : ∃ p, k.normPath = SLASH :: p := by
  have hhead := Text.head?_trimSpace h.path (by decide)
  unfold normPath
  cases htrim : Text.trimSpace k.path with
  | nil => exact ⟨[], rfl⟩
  | cons c p =>
    rw [htrim] at hhead
    cases hhead
    exact ⟨p, rfl⟩

theorem bucket_eq (h : k.Routed) (sha256 : Bytes → Bytes) :
    authBucket sha256 k.auth = ascii "anon" := by
  rw [h.auth]
  rfl

theorem key_eq_iff {sha256 : Bytes → Bytes} (hinj : Function.Injective sha256)
    (h : k.Routed) (h' : k'.Routed) :
    k.key sha256 = k'.key sha256 ↔ k.normMethod = k'.normMethod ∧ k.normHost = k'.normHost
      ∧ k.normPath ++ BAR :: k.query = k'.normPath ++ BAR :: k'.query := by
  rw [key_eq, key_eq, h.bucket_eq, h'.bucket_eq]
  constructor
  · intro hkey
    obtain ⟨hmethod, hrest⟩ := cut_unique h.bar_notMem_method h'.bar_notMem_method
      (hinj (hexEncode_injective hkey))
    -- the first slash is the first byte of the path
    obtain ⟨p, hp⟩ := h.normPath_eq
    obtain ⟨p', hp'⟩ := h'.normPath_eq
    have hslash : ∀ host : Bytes, SLASH ∉ host → SLASH ∉ host ++ [BAR] := by
      intro host hhost
      simpa using ⟨hhost, by decide⟩
    have hjoin : ∀ host tail : Bytes, host ++ BAR :: SLASH :: tail
        = (host ++ [BAR]) ++ SLASH :: tail := by simp
    rw [hp, hp', List.cons_append, List.cons_append, hjoin, hjoin] at hrest
    obtain ⟨hhost, htail⟩ := cut_unique (hslash _ h.slash_notMem_host)
      (hslash _ h'.slash_notMem_host) hrest
    -- the last bar is the one before the bucket
    rw [← List.cons_append, ← List.append_assoc, ← List.cons_append, ← List.append_assoc] at htail
    have hbar : BAR ∉ ascii "anon" := by decide
    obtain ⟨hpq, -⟩ := cut_unique_last hbar hbar htail
    refine ⟨hmethod, List.append_cancel_right hhost, ?_⟩
    rw [hp, hp', List.cons_append, List.cons_append, hpq]
  · rintro ⟨hmethod, hhost, hpq⟩
    have hassoc : ∀ p q r : Bytes, p ++ BAR :: (q ++ BAR :: r) = (p ++ BAR :: q) ++ BAR :: r := by
      simp
    rw [hmethod, hhost, hassoc k.normPath, hpq, ← hassoc]

end Routed

end Lookup

namespace Handler

theorem head?_parseRequestURI {target : Bytes} {url : URL}
    (h : parseRequestURI target = some url) : url.path.head? = some SLASH := by
  unfold parseRequestURI at h
  obtain ⟨hslash, h⟩ := Option.ite_none_left_eq_some.mp h
  obtain ⟨path, hpath, rfl⟩ := Option.map_eq_some_iff.mp h
  obtain ⟨t, rfl⟩ : ∃ t, target = SLASH :: t := by
    cases target with
    | nil => simp at hslash
    | cons c t =>
      obtain rfl : c = SLASH := by simpa using hslash
      exact ⟨t, rfl⟩
  have hcut : Coreserver.targetPath (SLASH :: t) = SLASH :: Coreserver.targetPath t := rfl
  rw [hcut, Percent.pathUnescape, Percent.unescape_cons_of_ne (by decide)] at hpath
  obtain ⟨d, -, rfl⟩ := Option.map_eq_some_iff.mp hpath
  rfl

theorem routeUpstream_ok {h : Handler} {path host path' : Bytes}
    (hr : h.routeUpstream path = .ok (host, path')) :
    (hostPath.isPrefixOf path = false
        ∧ host = Text.toLower (Text.trimSpace h.defaultHost) ∧ path' = path)
      ∨ (∃ l r, path = hostPath ++ (l ++ SLASH :: r) ∧ SLASH ∉ l ∧ r ≠ [] ∧ host = Text.toLower l
          ∧ path' = SLASH :: r) := by
  unfold routeUpstream at hr
  split at hr
  · next hpre =>
    obtain ⟨rfl, rfl⟩ := Prod.mk.inj (Except.ok.inj hr)
    exact .inl ⟨by simpa using hpre, rfl, rfl⟩
  · next hpre =>
    obtain ⟨rest, rfl⟩ : ∃ rest, path = hostPath ++ rest := by
      obtain ⟨rest, hrest⟩ := List.isPrefixOf_iff_prefix.mp
        (show hostPath.isPrefixOf path = true by simpa using hpre)
      exact ⟨rest, hrest.symm⟩
    have hdrop : (hostPath ++ rest).drop 4 = rest := rfl
    simp only [hdrop] at hr
    split at hr
    · cases hr
    · next i hi =>
      obtain ⟨l, r, rfl, hl, rfl⟩ := exists_of_indexByte hi
      split at hr
      · cases hr
      · next hend =>
        have hr' : r ≠ [] := by
          rintro rfl
          exact hend (.inr (by simp))
        split at hr
        · cases hr
        · obtain ⟨rfl, rfl⟩ := Prod.mk.inj (Except.ok.inj hr)
          refine .inr ⟨l, r, rfl, hl, hr', by simp, by simp⟩

theorem routed_of_lookup {h : Handler} {method : Bytes} {url : URL} {k : Lookup}
    (hmethod : ∀ c ∈ method, Coreserver.UpperByte c) (hpath : url.path.head? = some SLASH)
    (hk : h.lookup method url = some k) : k.Routed := by
  obtain ⟨-, t, ht, rfl⟩ := lookup_eq_some.mp hk
  unfold target at ht
  cases hr : h.routeUpstream url.path with
  | error e => simp [hr] at ht
  | ok t' =>
    obtain ⟨host, path⟩ := t'
    rw [hr] at ht
    obtain rfl := Except.ok.inj ht
    rcases routeUpstream_ok hr with ⟨-, hhost, hpath'⟩ | ⟨l, r, -, hl, -, hhost, hpath'⟩
    · refine ⟨hmethod, fun hmem => ?_, by rw [hpath']; exact hpath, rfl⟩
      rw [hhost] at hmem
      exact h.defaultHost_slash ((Text.trimSpace_infix h.defaultHost).subset
        (Text.mem_toLower (by decide) hmem))
    · refine ⟨hmethod, fun hmem => ?_, by rw [hpath']; rfl, rfl⟩
      rw [hhost] at hmem
      exact hl (Text.mem_toLower (by decide) hmem)

theorem routed_of_lineLookup {h : Handler} {l : Coreserver.RequestLine} {k : Lookup}
    (hk : h.lineLookup l = some k) : k.Routed := by
  obtain ⟨url, hurl, hk⟩ := Option.bind_eq_some_iff.mp hk
  exact routed_of_lookup l.method_upper (head?_parseRequestURI hurl) hk

end Handler

/-! ## When keys collide -/

theorem bar_cut_iff {p q p' q' : Bytes} : p ++ BAR :: q = p' ++ BAR :: q'
    ↔ (p = p' ∧ q = q') ∨ ∃ x, (p' = p ++ BAR :: x ∧ q = x ++ BAR :: q')
      ∨ (p = p' ++ BAR :: x ∧ q' = x ++ BAR :: q) := by
  constructor
  · intro h
    rcases List.append_eq_append_iff.mp h with ⟨as, rfl, hq⟩ | ⟨as, rfl, hq⟩
    · cases as with
      | nil => exact .inl ⟨(List.append_nil p).symm, (List.cons.inj hq).2⟩
      | cons c x =>
        obtain ⟨rfl, rfl⟩ := List.cons.inj hq
        exact .inr ⟨x, .inl ⟨rfl, rfl⟩⟩
    · cases as with
      | nil => exact .inl ⟨List.append_nil p', (List.cons.inj hq).2.symm⟩
      | cons c x =>
        obtain ⟨rfl, rfl⟩ := List.cons.inj hq
        exact .inr ⟨x, .inr ⟨rfl, rfl⟩⟩
  · rintro (⟨rfl, rfl⟩ | ⟨x, ⟨rfl, rfl⟩ | ⟨rfl, rfl⟩⟩)
    · rfl
    · simp
    · simp

/-- **Two requests have different keys unless they ask for the same, exactly where the
parts of the keys are not shifted over a bar.** -/
theorem key_injective_iff (h : Handler) (hinj : Function.Injective h.sha256)
    {l l' : Coreserver.RequestLine} {k k' : Lookup} (hk : h.lineLookup l = some k)
    (hk' : h.lineLookup l' = some k') :
    (k.key h.sha256 = k'.key h.sha256 → k.Same h.sha256 k') ↔ ¬ k.Shifted h.sha256 k' := by
  have hr := Handler.routed_of_lineLookup hk
  have hr' := Handler.routed_of_lineLookup hk'
  rw [hr.key_eq_iff hinj hr']
  constructor
  · rintro hsame ⟨hmethod, hhost, -, x, hshift⟩
    have hpath := (hsame ⟨hmethod, hhost, bar_cut_iff.mpr (.inr ⟨x, hshift⟩)⟩).path
    -- a path is not longer than itself
    have hlen := congrArg List.length hpath
    rcases hshift with ⟨hp, -⟩ | ⟨hp, -⟩
    · rw [hp] at hlen
      simp at hlen
    · rw [hp] at hlen
      simp at hlen
  · rintro hshift ⟨hmethod, hhost, hpq⟩
    have hbucket : authBucket h.sha256 k.auth = authBucket h.sha256 k'.auth := by
      rw [hr.bucket_eq, hr'.bucket_eq]
    rcases bar_cut_iff.mp hpq with ⟨hpath, hquery⟩ | hx
    · exact ⟨hmethod, hhost, hpath, hquery, hbucket⟩
    · exact absurd ⟨hmethod, hhost, hbucket, hx⟩ hshift

def plainHandler : Handler where
  sha256 := id
  defaultHost := ascii "hf"
  allowf := fun _ => false
  offline := true
  strictOffline := false
  defaultHost_graph := forall_mem_of_all (by decide)
  defaultHost_slash := by decide

def getLine (target : Bytes) (hslash : target.head? = some SLASH)
    (hvisible : ∀ c ∈ target, Coreserver.VisibleByte c) : Coreserver.RequestLine where
  method := ascii "GET"
  target := target
  http11 := true
  method_ne := by decide
  method_upper := forall_mem_of_all (by decide)
  target_slash := hslash
  target_visible := hvisible

def getLookup (path query : Bytes) : Lookup := ⟨ascii "GET", ascii "hf", path, query, []⟩

def lineA : Coreserver.RequestLine :=
  getLine (ascii "/a?c") (by decide) (forall_mem_of_all (by decide))

def lineBarPath : Coreserver.RequestLine :=
  getLine (ascii "/a|b?c") (by decide) (forall_mem_of_all (by decide))

def lineBarQuery : Coreserver.RequestLine :=
  getLine (ascii "/a?b|c") (by decide) (forall_mem_of_all (by decide))

theorem key_injective_unshifted :
    plainHandler.lineLookup lineA = some (getLookup (ascii "/a") (ascii "c"))
      ∧ plainHandler.lineLookup lineBarPath = some (getLookup (ascii "/a|b") (ascii "c"))
      ∧ (getLookup (ascii "/a") (ascii "c")).key id
        ≠ (getLookup (ascii "/a|b") (ascii "c")).key id := by
  have hA : plainHandler.lineLookup lineA = some (getLookup (ascii "/a") (ascii "c")) := by
    decide +kernel
  have hB : plainHandler.lineLookup lineBarPath
      = some (getLookup (ascii "/a|b") (ascii "c")) := by decide +kernel
  refine ⟨hA, hB, fun hkey => ?_⟩
  have hsame := (key_injective_iff plainHandler Function.injective_id hA hB).mpr ?_ hkey
  · exact absurd hsame.path (by decide +kernel)
  · -- the query that would be left is too short for a bar
    rintro ⟨-, -, -, x, ⟨-, hq⟩ | ⟨hp, -⟩⟩
    · have := congrArg List.length hq
      simp [getLookup, ascii] at this
    · have := congrArg List.length hp
      have hlen : (getLookup (ascii "/a") (ascii "c")).normPath.length = 2 := by decide +kernel
      have hlen' : (getLookup (ascii "/a|b") (ascii "c")).normPath.length = 4 := by
        decide +kernel
      rw [List.length_append, List.length_cons, hlen, hlen'] at this
      omega

/-- **Two targets have one key.** -/
theorem bar_in_path_collides :
    plainHandler.lineLookup lineBarPath = some (getLookup (ascii "/a|b") (ascii "c"))
      ∧ plainHandler.lineLookup lineBarQuery = some (getLookup (ascii "/a") (ascii "b|c"))
      ∧ (getLookup (ascii "/a|b") (ascii "c")).key id
        = (getLookup (ascii "/a") (ascii "b|c")).key id
      ∧ ¬ (getLookup (ascii "/a|b") (ascii "c")).Same id (getLookup (ascii "/a") (ascii "b|c")) :=
  ⟨by decide +kernel, by decide +kernel, by decide +kernel,
    fun h => absurd h.path (by decide +kernel)⟩

end Proxy
