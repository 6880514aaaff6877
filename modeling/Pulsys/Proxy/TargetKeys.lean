import Pulsys.Proxy.Keys

/-!
# Raw and decoded targets

The server cuts path and query from the raw request line and takes the default host; the
handler has them decoded and takes host and marker out. They come to one key only for a
target with nothing to decode or take out, since both make a text shorter.
-/

namespace Proxy

open Bytes Cache
open Coreserver (Block Field RequestLine Server UpperByte nil_blank)

/-! ## The query -/

variable {q : Bytes}

theorem cleanQuery_eq_self (h : (extractAndStripOrigin q).1 = []) : cleanQuery q = q := if_pos h

theorem exists_originValue (h : (extractAndStripOrigin q).1 ≠ []) :
    ∃ seg ∈ q.splitOn 38, (originValue seg).isSome = true := by
  by_contra hnone
  push Not at hnone
  refine h ?_
  unfold extractAndStripOrigin
  split
  · rfl
  · -- a segment that carries no origin leaves the one found so far
    refine (List.foldl_ext _ (fun origin _ => origin) [] (fun origin seg hseg => ?_)).trans
      (List.foldl_fixed _)
    have hval : originValue seg = none := by
      simpa using hnone seg hseg
    rw [hval]

theorem length_cleanQuery_lt (h : (extractAndStripOrigin q).1 ≠ []) :
    (cleanQuery q).length < q.length := by
  obtain ⟨seg, hmem, hval⟩ := exists_originValue h
  have hne : seg ≠ [] := by
    rintro rfl
    exact absurd hval (by decide)
  have hdrop : (!isOriginSegment seg) = false := by simp [isOriginSegment, hval]
  have hcut : (extractAndStripOrigin q).2
      = [38].intercalate ((q.splitOn 38).filter (fun seg => !isOriginSegment seg)) := by
    unfold extractAndStripOrigin at h ⊢
    split at h
    · exact absurd rfl h
    · next hindex => rw [if_neg hindex]
  have hlt := @length_intercalate_filter_lt 38 (fun seg => !isOriginSegment seg) _ _
    hmem hdrop hne
  rw [List.intercalate_splitOn] at hlt
  rwa [cleanQuery, if_neg h, hcut]

theorem length_cleanQuery_le (q : Bytes) : (cleanQuery q).length ≤ q.length := by
  by_cases h : (extractAndStripOrigin q).1 = []
  · rw [cleanQuery_eq_self h]
  · exact (length_cleanQuery_lt h).le

/-! ## The two keys -/

namespace Handler

structure PlainTarget (h : Handler) (target : Bytes) : Prop where
  percent : Percent.PERCENT ∉ Coreserver.targetPath target
  healthz : Coreserver.targetPath target ≠ ascii "/healthz"
  host : hostPath.isPrefixOf (Coreserver.targetPath target) = false
  origin : isContentAddressedHost h.defaultHost = true
    ∨ (extractAndStripOrigin (Coreserver.targetQuery target)).1 = []

def rawLookup (h : Handler) (target : Bytes) : Lookup :=
  ⟨ascii "GET", h.defaultHost, Coreserver.targetPath target,
    if isContentAddressedHost h.defaultHost then [] else Coreserver.targetQuery target, []⟩

structure Fronts (s : Server) (h : Handler) : Prop where
  sha256 : s.sha256 = h.sha256
  defaultHost : s.defaultHost = h.defaultHost

variable {h : Handler} {k : Lookup}

theorem lookupKey_eq {s : Server} (hs : Fronts s h) (blk : Block)
    (req : Coreserver.Request) :
    s.lookupKey (blk.request req).parsed = (h.rawLookup blk.target).key h.sha256 := by
  obtain ⟨-, -, hpath, hquery, -, -⟩ := blk.request_frame req
  obtain ⟨hp, hq⟩ := Coreserver.splitTarget_data blk.targetWindow
  have hp' : (blk.request req).parsed.path = Coreserver.targetPath blk.target := by
    show (blk.request req).path.data = _
    rw [hpath, hp]
    rfl
  have hq' : (blk.request req).parsed.query = Coreserver.targetQuery blk.target := by
    show (blk.request req).query.data = _
    rw [hquery, hq]
    rfl
  unfold Server.lookupKey rawLookup Lookup.key
  rw [hp', hq', hs.sha256, hs.defaultHost]

theorem head?_targetPath (l : RequestLine) :
    (Coreserver.targetPath l.target).head? = some SLASH := by
  have hslash := l.target_slash
  cases ht : l.target with
  | nil => simp [ht] at hslash
  | cons c t =>
    obtain rfl : c = SLASH := by simpa [ht] using hslash
    rfl

theorem routed_rawLookup (h : Handler) (l : RequestLine) :
    (h.rawLookup l.target).Routed where
  method := @forall_mem_of_all UpperByte _ (ascii "GET") (by decide)
  host := h.defaultHost_slash
  path := head?_targetPath l
  auth := rfl

theorem normHost_default (h : Handler) (k : Lookup)
    (hk : k.host = Text.toLower (Text.trimSpace h.defaultHost)) :
    k.normHost = Text.toLower (Text.trimSpace h.defaultHost) := by
  have htrim : ∀ b : Bytes, (∀ c ∈ b, Text.isGraph c = true) → Text.trimSpace b = b :=
    fun b hb => Text.trimSpace_eq_self (fun c hc => hb c (List.mem_of_mem_head? hc))
      (fun c hc => hb c (List.mem_of_mem_getLast? hc))
  rw [htrim _ h.defaultHost_graph] at hk ⊢
  rw [Lookup.normHost, hk, htrim _ (Text.isGraph_toLower h.defaultHost_graph),
    Text.toLower_toLower]

theorem normPath_of_visible (l : RequestLine)
    (hk : k.path = Coreserver.targetPath l.target) :
    k.normPath = Coreserver.targetPath l.target := by
  have hgraph : ∀ c ∈ Coreserver.targetPath l.target, Text.isGraph c = true := by
    intro c hc
    have hv := l.target_visible c ((List.takeWhile_sublist _).subset hc)
    simpa [Text.isGraph, Coreserver.VisibleByte] using hv
  have htrim : Text.trimSpace k.path = Coreserver.targetPath l.target := by
    rw [hk]
    exact Text.trimSpace_eq_self (fun c hc => hgraph c (List.mem_of_mem_head? hc))
      (fun c hc => hgraph c (List.mem_of_mem_getLast? hc))
  have hne : Coreserver.targetPath l.target ≠ [] := by
    intro hnil
    simpa [hnil] using head?_targetPath l
  rw [Lookup.normPath, htrim, if_neg hne]

theorem length_normPath_le (hk : k.Routed) : k.normPath.length ≤ k.path.length := by
  unfold Lookup.normPath
  split
  · have hpath := hk.path
    cases hp : k.path with
    | nil => simp [hp] at hpath
    | cons c p => simp
  · exact (Text.trimSpace_infix k.path).length_le

theorem lookup_some {method : Bytes} {url : URL} (hk : h.lookup method url = some k) :
    k.method = method ∧ url.path ≠ ascii "/healthz"
      ∧ k.query = (if isContentAddressedHost k.host then [] else cleanQuery url.rawQuery)
      ∧ ((hostPath.isPrefixOf url.path = false ∧ k.path = url.path
          ∧ k.host = Text.toLower (Text.trimSpace h.defaultHost))
        ∨ k.path.length < url.path.length) := by
  obtain ⟨hhealth, t, ht, rfl⟩ := lookup_eq_some.mp hk
  unfold target at ht
  cases hr : h.routeUpstream url.path with
  | error e => simp [hr] at ht
  | ok t' =>
    obtain ⟨host, path⟩ := t'
    rw [hr] at ht
    obtain rfl := Except.ok.inj ht
    refine ⟨rfl, hhealth, rfl, ?_⟩
    rcases routeUpstream_ok hr with ⟨hpre, hhost, hpath⟩ | ⟨l, r, hurl, -, -, -, hpath⟩
    · exact .inl ⟨hpre, hpath, hhost⟩
    · refine .inr ?_
      show path.length < url.path.length
      rw [hpath, hurl]
      have hlen : hostPath.length = 4 := rfl
      simp only [List.length_append, List.length_cons, hlen]
      omega

theorem lineLookup_of_plainTarget {l : RequestLine} (hget : l.method = ascii "GET")
    (hplain : h.PlainTarget l.target) :
    ∃ k, h.lineLookup l = some k ∧ k.method = ascii "GET"
      ∧ k.normHost = (h.rawLookup l.target).normHost
      ∧ k.path = Coreserver.targetPath l.target
      ∧ k.query = (h.rawLookup l.target).query := by
  have huri : parseRequestURI l.target
      = some ⟨Coreserver.targetPath l.target, Coreserver.targetQuery l.target⟩ := by
    rw [parseRequestURI, if_neg (by simp [l.target_slash]),
      Percent.pathUnescape_eq_self hplain.percent]
    rfl
  have hroute : h.routeUpstream (Coreserver.targetPath l.target)
      = .ok (Text.toLower (Text.trimSpace h.defaultHost), Coreserver.targetPath l.target) :=
    if_pos (by simp [hplain.host])
  have hlookup : h.lineLookup l = some ⟨l.method, Text.toLower (Text.trimSpace h.defaultHost),
      Coreserver.targetPath l.target, Target.keyQuery ⟨Text.toLower
        (Text.trimSpace h.defaultHost), Coreserver.targetPath l.target,
        cleanQuery (Coreserver.targetQuery l.target)⟩, []⟩ := by
    rw [lineLookup, huri, Option.bind_some, lookup, if_neg hplain.healthz, target, hroute]
  refine ⟨_, hlookup, hget, ?_, rfl, ?_⟩
  · exact normHost_default h _ rfl
  · have hca : isContentAddressedHost (Text.toLower (Text.trimSpace h.defaultHost))
        = isContentAddressedHost h.defaultHost :=
      congrArg contentAddressedHosts.contains
        (normHost_default h ⟨[], Text.toLower (Text.trimSpace h.defaultHost), [], [], []⟩ rfl)
    unfold rawLookup Target.keyQuery
    dsimp only
    rw [hca]
    rcases hplain.origin with hyes | horigin
    · rw [if_pos hyes, if_pos hyes]
    · rw [cleanQuery_eq_self horigin]

theorem plainTarget_of_key_eq (hinj : Function.Injective h.sha256) {l : RequestLine}
    (hk : h.lineLookup l = some k) (hkey : k.key h.sha256 = (h.rawLookup l.target).key h.sha256) :
    h.PlainTarget l.target := by
  have hr := routed_of_lineLookup hk
  obtain ⟨-, hhost, hpq⟩ := (hr.key_eq_iff hinj (routed_rawLookup h l)).mp hkey
  rw [normPath_of_visible l (k := h.rawLookup l.target) rfl] at hpq
  obtain ⟨url, hurl, hk⟩ := Option.bind_eq_some_iff.mp hk
  obtain ⟨-, hhealth, hquery, hcases⟩ := lookup_some hk
  obtain ⟨hdec, hq⟩ : Percent.pathUnescape (Coreserver.targetPath l.target) = some url.path
      ∧ url.rawQuery = Coreserver.targetQuery l.target := by
    unfold parseRequestURI at hurl
    obtain ⟨-, hurl⟩ := Option.ite_none_left_eq_some.mp hurl
    obtain ⟨path, hpath, rfl⟩ := Option.map_eq_some_iff.mp hurl
    exact ⟨hpath, rfl⟩
  have hca : isContentAddressedHost k.host = isContentAddressedHost h.defaultHost :=
    congrArg contentAddressedHosts.contains hhost
  rw [hca, hq] at hquery
  -- neither part of the handler's key is longer than the server's, so none is shorter
  have hqlen : k.query.length ≤ (h.rawLookup l.target).query.length := by
    rw [hquery]
    unfold rawLookup
    dsimp only
    split
    · exact Nat.le_refl _
    · exact length_cleanQuery_le _
  have hlen := congrArg List.length hpq
  simp only [List.length_append, List.length_cons] at hlen
  have hnorm := length_normPath_le hr
  have hdeclen := (Percent.length_unescape hdec).1
  rcases hcases with ⟨hpre, hpath, -⟩ | hshort
  · rw [hpath] at hnorm
    have hpercent := Percent.percent_notMem_of_length hdec (by omega)
    have hsame : Coreserver.targetPath l.target = url.path :=
      Option.some.inj ((Percent.pathUnescape_eq_self hpercent).symm.trans hdec)
    rw [normPath_of_visible l (hpath.trans hsame.symm)] at hpq
    have hquery' : (h.rawLookup l.target).query = k.query :=
      (List.cons.inj (List.append_cancel_left hpq)).2.symm
    refine ⟨hpercent, hsame ▸ hhealth, hsame ▸ hpre, ?_⟩
    by_contra hnot
    push Not at hnot
    -- an origin that counts would have made the query shorter
    rw [hquery] at hquery'
    unfold rawLookup at hquery'
    dsimp only at hquery'
    rw [if_neg hnot.1, if_neg hnot.1] at hquery'
    have := length_cleanQuery_lt hnot.2
    rw [← hquery'] at this
    omega
  · omega

/-- **The server's key and the handler's agree exactly on plain targets**, for every
header block that is accepted. -/
theorem lookupKey_eq_iff_plainTarget {s : Server} {h : Handler} (hs : Fronts s h)
    (hinj : Function.Injective h.sha256) (blk : Block)
    (hget : blk.method = ascii "GET") (req : Coreserver.Request) :
    (h.lineLookup blk.toRequestLine).map (Lookup.key h.sha256)
        = some (s.lookupKey (blk.request req).parsed)
      ↔ h.PlainTarget blk.target := by
  rw [lookupKey_eq hs]
  constructor
  · intro heq
    obtain ⟨k, hk, hkey⟩ := Option.map_eq_some_iff.mp heq
    exact plainTarget_of_key_eq hinj hk hkey
  · intro hplain
    obtain ⟨k, hk, hmethod, hhost, hpath, hquery⟩ := lineLookup_of_plainTarget hget hplain
    rw [hk, Option.map_some]
    refine congrArg some (((routed_of_lineLookup hk).key_eq_iff hinj
      (routed_rawLookup h blk.toRequestLine)).mpr ⟨?_, hhost, ?_⟩)
    · rw [Lookup.normMethod, hmethod]
      rfl
    · rw [hquery, normPath_of_visible blk.toRequestLine hpath,
        normPath_of_visible blk.toRequestLine (k := h.rawLookup blk.target) rfl]

end Handler

def hostField : Field where
  name := ascii "Host"
  lead := []
  value := ascii "h"
  trail := []
  name_ne := by decide
  name_token := forall_mem_of_all (by decide)
  lead_blank := nil_blank
  trail_blank := nil_blank
  value_text := forall_mem_of_all (by decide)
  value_trimmed := Coreserver.trimmed_of_ends (by decide) (by decide)
  trail_nil := by decide

def bareBlock (l : RequestLine) : Block where
  toRequestLine := l
  fields := [hostField]
  one_host := by decide
  clen_le := by decide
  clen_ok := by decide
  te_ok := by decide
  te_clen := by decide

def plainServer : Server := .cold (ascii "hf")

def lineEscaped : RequestLine :=
  getLine (ascii "/m/resolve/r/a%20b") (by decide) (forall_mem_of_all (by decide))

def lineEscapedTwice : RequestLine :=
  getLine (ascii "/m/resolve/r/a%2520b") (by decide) (forall_mem_of_all (by decide))

theorem lookupKey_eq_iff_plainTarget_a :
    plainHandler.PlainTarget (ascii "/a?c")
      ∧ (plainHandler.lineLookup lineA).map (Lookup.key id)
        = some (plainServer.lookupKey ((bareBlock lineA).request {}).parsed) := by
  have hplain : plainHandler.PlainTarget (ascii "/a?c") :=
    ⟨by decide +kernel, by decide +kernel, by decide +kernel, .inr (by decide +kernel)⟩
  exact ⟨hplain, (Handler.lookupKey_eq_iff_plainTarget ⟨rfl, rfl⟩ Function.injective_id
    (bareBlock lineA) rfl {}).mpr hplain⟩

/-- **The server looks for one file where the handler has filed another.** -/
theorem escaped_target_reads_other_slot :
    (plainHandler.lineLookup lineEscaped).map (Lookup.key id)
        ≠ some (plainServer.lookupKey ((bareBlock lineEscaped).request {}).parsed)
      ∧ (plainHandler.lineLookup lineEscapedTwice).map (Lookup.key id)
        = some (plainServer.lookupKey ((bareBlock lineEscaped).request {}).parsed) := by
  constructor <;> decide +kernel

end Proxy
