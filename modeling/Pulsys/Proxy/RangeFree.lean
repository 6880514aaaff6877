import Pulsys.Proxy.Conduct
import Pulsys.Proxy.KeyHexCache

/-!
# The redirects on record

A redirect that upstream gives out for one range of a file may not be good for another. So only
a location that was given to a request without a range may go on record, under the key of what
was asked for. Many requests are served at a time, their operations interleaved in every way,
and between them the segments of downloads are put on record and entries are removed. All
handlers get their keys from one table, which a restart empties.

Two things may go wrong. `cacheableLocation` tells by the first `Range` header, to which an empty
one is none, and what upstream then answers for a range goes on record. And the table may give
out the key of another path and query, whose entry then has the location. If the table tells the
requests apart as `KeyHex` does, then all locations are right exactly if no request with a range
that is not told reaches upstream (`locations_rangeFree_iff`).
-/

namespace Proxy

open Bytes Cache
open Interaction (Path)

inductive RecordEvent
  | deed (i : ℕ) (d : Deed) (stored : Bool)
  | checkpoint (key : Bytes) (p : SegmentParams) (written : ℕ)
  | commit (key : Bytes) (p : SegmentParams) (written : ℕ)
  | remove (key : Bytes)

abbrev Records : Type := Bytes → Option Meta

def Records.after (m : Records) : RecordEvent → Records
  | .deed _ ⟨.storeRedirect key red, _⟩ true =>
    if red.valid then Function.update m key (some (redirectMeta red (m key))) else m
  | .deed _ ⟨.storeAlias key a, _⟩ true =>
    Function.update m key ((aliasMeta a (m key)).or (m key))
  | .checkpoint key p n => Function.update m key (some (p.checkpointMeta n (m key)))
  | .commit key p n => Function.update m key (some (p.commitMeta n (m key)))
  | .remove key => Function.update m key none
  | _ => m

def records (log : List RecordEvent) : Records := log.foldl Records.after (fun _ => none)

def deedsOf (i : ℕ) (log : List RecordEvent) : List Deed :=
  log.filterMap (fun
    | .deed j d _ => if j = i then some d else none
    | _ => none)

def lookups (log : List RecordEvent) : List (Lookup × Bytes) :=
  log.filterMap (fun
    | .deed _ ⟨.keyHex k, v⟩ _ => some (k, v)
    | _ => none)

def Tabled (sha256 : Bytes → Bytes) (log : List RecordEvent) : Prop :=
  ∃ tables : List KeyHexCache,
    (∀ c ∈ tables, ∃ es, Runs.run (KeyHexCache.get sha256) {} es = some c)
      ∧ lookups log = tables.flatMap KeyHexCache.returned

namespace Service

variable (s : Service)

structure Serves (requests : ℕ → Inbound) (log : List RecordEvent) : Prop where
  path : ∀ i, ∃ rest, Path (s.serveHTTP (requests i)) (deedsOf i log) rest
  tabled : Tabled s.sha256 log

def ToldApart (log : List RecordEvent) : Prop :=
  KeyHexCache.Agree s.sha256 ((lookups log).map Prod.fst)

def RangeFree (log : List RecordEvent) (key location : Bytes) : Prop :=
  ∃ (t : Target) (x : Outbound × Response), key = Target.key s.sha256 t ∧ s.Asks t x.1
    ∧ x.1.method = ascii "GET" ∧ x.1.header.has rangeKey = false
    ∧ isCacheableRedirectStatus x.2.status = true
    ∧ x.2.header.get (ascii "Location") = location
    ∧ ∃ i stored, .deed i ⟨.send x.1, some x.2⟩ stored ∈ log

def Sends (r : Inbound) : Prop :=
  ∃ t out, s.Reaches r t ∧ r.method = ascii "GET"
    ∧ s.up.request r.method t.host t.path t.rawQuery
      (forwardHeader s.upstreamHFToken t.host r.header) r.reqBody = .ok out

variable {s} {requests : ℕ → Inbound} {log : List RecordEvent} {e : RecordEvent}

theorem RangeFree.mono {key location : Bytes} (h : s.RangeFree log key location)
    (e : RecordEvent) : s.RangeFree (log ++ [e]) key location := by
  obtain ⟨t, x, hkey, hasks, hget, hrange, hstatus, hloc, i, stored, hmem⟩ := h
  exact ⟨t, x, hkey, hasks, hget, hrange, hstatus, hloc, i, stored, List.mem_append_left _ hmem⟩

theorem path_of_append {i : ℕ} {more : List RecordEvent} {rest : Prog Unit}
    (h : Path (s.serveHTTP (requests i)) (deedsOf i (log ++ more)) rest) :
    ∃ rest, Path (s.serveHTTP (requests i)) (deedsOf i log) rest := by
  rw [deedsOf, List.filterMap_append] at h
  obtain ⟨m, hm, -⟩ := h.split
  exact ⟨m, hm⟩

theorem eq_key_of_toldApart (htable : Tabled s.sha256 log) (hapart : s.ToldApart log)
    {k : Lookup} {v : Bytes} (h : (k, v) ∈ lookups log) : v = k.key s.sha256 := by
  obtain ⟨tables, hruns, hall⟩ := htable
  rw [hall] at h
  obtain ⟨c, hc, hreturned⟩ := List.mem_flatMap.mp h
  obtain ⟨es, hrun⟩ := hruns c hc
  have hcalls : c.returned.map Prod.fst = es.map GetCall.args :=
    (KeyHexCache.args_returned hrun).trans (List.nil_append _)
  have hsub : ∀ a ∈ es.map GetCall.args, a ∈ (lookups log).map Prod.fst := by
    intro a ha
    rw [← hcalls] at ha
    obtain ⟨r, hr, rfl⟩ := List.mem_map.mp ha
    rw [hall]
    exact List.mem_map_of_mem (List.mem_flatMap.mpr ⟨c, hc, hr⟩)
  exact KeyHexCache.returned_of_agree
    (fun a ha b hb => hapart a (hsub a ha) b (hsub b hb)) rfl hrun (k, v) hreturned

theorem mem_of_mem_deedsOf {i : ℕ} {d : Deed} (h : d ∈ deedsOf i log) :
    ∃ stored, .deed i d stored ∈ log := by
  obtain ⟨e, he, hd⟩ := List.mem_filterMap.mp h
  cases e with
  | deed j d' stored =>
    obtain ⟨hj, hd'⟩ := Option.ite_none_right_eq_some.mp hd
    cases hd'
    exact ⟨stored, hj ▸ he⟩
  | _ => cases hd

theorem mem_lookups {k : Lookup} {v : Bytes} {i : ℕ} {stored : Bool}
    (h : .deed i ⟨.keyHex k, v⟩ stored ∈ log) : (k, v) ∈ lookups log :=
  List.mem_filterMap.mpr ⟨_, h, rfl⟩

theorem rangeFree_of_storeRedirect {i : ℕ} {key : Bytes} {red : Redirect} {ans : Unit}
    {stored : Bool} {rest : Prog Unit} (htold : s.Sends (requests i) → (requests i).RangeTold)
    (hkeys : ∀ k v, (k, v) ∈ lookups log → v = k.key s.sha256)
    (hpath : Path (s.serveHTTP (requests i))
      (deedsOf i (log ++ [.deed i ⟨.storeRedirect key red, ans⟩ stored])) rest) :
    s.RangeFree log key red.location := by
  have hdeeds : deedsOf i (log ++ [.deed i ⟨.storeRedirect key red, ans⟩ stored])
      = deedsOf i log ++ [⟨.storeRedirect key red, ans⟩] := by
    simp [deedsOf, List.filterMap_append]
  rw [hdeeds] at hpath
  obtain ⟨t, ht⟩ : ∃ t : Target, ∀ t', s.target (requests i).url = .ok t' → t' = t := by
    cases s.target (requests i).url with
    | error e => exact ⟨⟨[], [], []⟩, fun _ h => (nomatch h)⟩
    | ok t => exact ⟨t, fun t' h => (Except.ok.inj h).symm⟩
  rcases conforms_of_path ht hpath with hquiet | ⟨keyHex, tail, hbefore, hconforms⟩
  · exact hquiet.elim
  obtain ⟨rfl, -, ⟨x, hx, hget, hasks, hstatus, hloc, hrange⟩, hreach, hmethod, out, hout⟩ :=
    hconforms
  -- the key is the table's answer for the target
  obtain ⟨stored', hasked⟩ := mem_of_mem_deedsOf (hbefore ▸ List.mem_cons_self)
  have hkey := hkeys _ _ (mem_lookups hasked)
  rw [hmethod] at hkey
  refine ⟨t, x, hkey, hasks, hget, hrange (htold ⟨t, out, hreach, hmethod, hout⟩), hstatus, hloc,
    i, ?_⟩
  rcases mem_answered_noted hx with hnil | hmem
  · exact absurd hnil List.not_mem_nil
  · exact mem_of_mem_deedsOf (hbefore ▸ List.mem_cons_of_mem _ hmem)

theorem location_after {m : Records} {key : Bytes} {x' : Meta} (hx' : m.after e key = some x')
    (hloc : x'.location ≠ []) :
    (∃ x, m key = some x ∧ x.location = x'.location)
      ∨ ∃ i red ans, e = .deed i ⟨.storeRedirect key red, ans⟩ true
        ∧ red.location = x'.location := by
  have hset : ∀ {key' : Bytes} {v : Option Meta}, Function.update m key' v key = some x' →
      (key = key' ∧ v = some x') ∨ m key = some x' := by
    intro key' v h
    by_cases hk : key = key'
    · subst hk
      rw [Function.update_self] at h
      exact .inl ⟨rfl, h⟩
    · rw [Function.update_of_ne hk] at h
      exact .inr h
  -- a segment's record has the location of the one before
  have hkept : ∀ {v : Meta}, some v = some x' →
      v.location = ((m key).map Meta.location).getD [] →
      ∃ x, m key = some x ∧ x.location = x'.location := by
    rintro v ⟨⟩ hv
    cases hm : m key with
    | none => exact absurd (by rw [hv, hm]; rfl) hloc
    | some x => exact ⟨x, rfl, by rw [hv, hm]; rfl⟩
  unfold Records.after at hx'
  split at hx'
  · next i key' red ans =>
    split at hx'
    · rcases hset hx' with ⟨rfl, hv⟩ | hold
      · cases hv
        exact .inr ⟨i, red, ans, rfl, rfl⟩
      · exact .inl ⟨x', hold, rfl⟩
    · exact .inl ⟨x', hx', rfl⟩
  · next i key' a ans =>
    rcases hset hx' with ⟨rfl, hv⟩ | hold
    · rcases Option.or_eq_some_iff.mp hv with hnew | ⟨-, hold⟩
      · exact absurd (eq_newMeta_of_aliasMeta hnew ▸ rfl) hloc
      · exact .inl ⟨x', hold, rfl⟩
    · exact .inl ⟨x', hold, rfl⟩
  · next key' p n =>
    rcases hset hx' with ⟨rfl, hv⟩ | hold
    · exact .inl (hkept hv (location_checkpointMeta p n _))
    · exact .inl ⟨x', hold, rfl⟩
  · next key' p n =>
    rcases hset hx' with ⟨rfl, hv⟩ | hold
    · exact .inl (hkept hv (location_commitMeta p n _))
    · exact .inl ⟨x', hold, rfl⟩
  · rcases hset hx' with ⟨-, hv⟩ | hold
    · cases hv
    · exact .inl ⟨x', hold, rfl⟩
  · exact .inl ⟨x', hx', rfl⟩

theorem rangeFree_of_told (htold : ∀ i, s.Sends (requests i) → (requests i).RangeTold)
    (hpaths : ∀ i, ∃ rest, Path (s.serveHTTP (requests i)) (deedsOf i log) rest)
    (hkeys : ∀ k v, (k, v) ∈ lookups log → v = k.key s.sha256) {key : Bytes} {m : Meta}
    (hm : records log key = some m) (hloc : m.location ≠ []) : s.RangeFree log key m.location := by
  induction log using List.reverseRecOn generalizing m with
  | nil => cases hm
  | append_singleton log e ih =>
    have hkeys' : ∀ k v, (k, v) ∈ lookups log → v = k.key s.sha256 := by
      intro k v hmem
      refine hkeys k v ?_
      rw [lookups, List.filterMap_append]
      exact List.mem_append_left _ hmem
    rw [records, List.foldl_append] at hm
    rcases location_after hm hloc with ⟨m', hm', hsame⟩ | ⟨i, red, ans, rfl, hred⟩
    · have hbefore := ih (fun i => path_of_append (hpaths i).choose_spec) hkeys' hm'
        (hsame ▸ hloc)
      exact hsame ▸ hbefore.mono e
    · obtain ⟨rest, hpath⟩ := hpaths i
      exact hred ▸ (rangeFree_of_storeRedirect (htold i) hkeys' hpath).mono _

/-! ## A range that is not told -/

def movedResponse : Response :=
  ⟨⟨302, Coreserver.Header.empty.set (ascii "Location") (ascii "/x"), 0⟩, []⟩

def Idle : Op → Prop
  | .loadMeta _ | .acquireRange _ | .acquireRangeCtx _ _ => True
  | _ => False

def movedRedirect (t : Target) : Redirect := Fetch.redirect ⟨t, movedResponse.toUpstream, []⟩

def movedDeeds (out : Outbound) (key : Bytes) (t : Target) : List Deed :=
  [⟨.send out, some movedResponse⟩, ⟨.storeRedirect key (movedRedirect t), ()⟩]

variable {r : Inbound} {t : Target} {out : Outbound}

theorem path_tryServeFromCache (rangeHdr keyHex : Bytes) (headOnly : Bool) :
    Path (s.tryServeFromCache rangeHdr keyHex headOnly) [⟨.loadMeta keyHex, none⟩]
      (.done false) :=
  .step (.here _)

theorem exists_path_fetch (hget : r.method = ascii "GET") (hrange : r.range = [])
    (hout : s.up.request r.method t.host t.path t.rawQuery
      (forwardHeader s.upstreamHFToken t.host r.header) r.reqBody = .ok out)
    (keyHex originPath : Bytes) (ticket : Option RangeTicket) :
    ∃ rest, Path (s.fetch r t keyHex originPath false ticket) (movedDeeds out keyHex t) rest := by
  have hup : s.upDo r.method t (forwardHeader s.upstreamHFToken t.host r.header) r.reqBody
      = perform (.send out) := by
    rw [upDo, hout]
  have hlocation : s.cacheableLocation movedResponse t
      (forwardHeader s.upstreamHFToken t.host r.header) = pure (some movedResponse.header) :=
    if_pos ((range_forwardHeader _ _ _).1.trans hrange)
  have hredirect : ∀ hdr auth, ∃ rest, Path (s.cacheRedirect hdr movedResponse keyHex t auth
      (forwardHeader s.upstreamHFToken t.host r.header))
      [⟨.storeRedirect keyHex (movedRedirect t), ()⟩] rest := by
    intro hdr auth
    rw [cacheRedirect, if_neg (by decide), hlocation]
    exact ⟨_, .step (.here _)⟩
  have hrelay : ∀ path auth, ∃ rest, Path (s.relay r.method path t keyHex originPath auth
      (forwardHeader s.upstreamHFToken t.host r.header) false ticket movedResponse)
      [⟨.storeRedirect keyHex (movedRedirect t), ()⟩] rest := by
    intro path auth
    unfold relay
    dsimp only
    rw [if_neg Bool.false_ne_true, if_neg (fun h => absurd h.2 (by decide)),
      if_pos ⟨hget, by decide⟩]
    obtain ⟨rest, hpath⟩ := hredirect (copyAndRewriteHeaders s.rewriter securityHeader
      movedResponse.header (if originPath = [] ∧ hostPath.isPrefixOf path = false then path
        else originPath)) auth
    exact ⟨_, hpath.bind_left _⟩
  obtain ⟨rest, hpath⟩ := hrelay r.url.path (r.header.get authorizationKey)
  rw [fetch, hup]
  exact ⟨rest, .step hpath⟩

theorem exists_path_serveHTTP (hreach : s.Reaches r t) (hget : r.method = ascii "GET")
    (hrange : r.range = [])
    (hout : s.up.request r.method t.host t.path t.rawQuery
      (forwardHeader s.upstreamHFToken t.host r.header) r.reqBody = .ok out) (keyHex : Bytes) :
    ∃ before rest, (∀ d ∈ before, Idle d.1)
      ∧ Path (s.serveHTTP r)
        (⟨.keyHex (t.lookup r.method), keyHex⟩ :: (before ++ movedDeeds out keyHex t)) rest := by
  have hfetch := fun ticket => exists_path_fetch hget hrange hout keyHex
    (extractAndStripOrigin r.url.rawQuery).1 ticket
  have hforward : ∃ before rest, (∀ d ∈ before, Idle d.1) ∧ Path (s.forward r t keyHex
      (extractAndStripOrigin r.url.rawQuery).1 (s.artifact r.method t))
      (before ++ movedDeeds out keyHex t) rest := by
    unfold forward
    split
    · obtain ⟨rest, hpath⟩ := hfetch (some ⟨keyHex, (inflightRange r.range).start,
        (inflightRange r.range).stop⟩)
      dsimp only
      split
      · exact ⟨[⟨.acquireRangeCtx _ _, true⟩, ⟨.loadMeta _, none⟩], rest, by simp [Idle],
          .step (((path_tryServeFromCache _ _ _).bind_left _).trans hpath)⟩
      · exact ⟨[⟨.acquireRange _, ()⟩, ⟨.loadMeta _, none⟩], rest, by simp [Idle],
          .step (((path_tryServeFromCache _ _ _).bind_left _).trans hpath)⟩
    · obtain ⟨rest, hpath⟩ := hfetch none
      exact ⟨[], rest, fun _ h => absurd h List.not_mem_nil, hpath⟩
  obtain ⟨before, rest, hidle, hpath⟩ := hforward
  have hrest : Path (if s.strictOffline then respondOffline securityHeader t.host t.path r.range
          keyHex (s.artifact r.method t) r.method
        else s.forward r t keyHex (extractAndStripOrigin r.url.rawQuery).1
          (s.artifact r.method t)) (before ++ movedDeeds out keyHex t) rest := by
    rw [hreach.online]
    exact hpath
  have htarget : ∃ before, (∀ d ∈ before, Idle d.1)
      ∧ Path (s.serveTarget r t keyHex) (before ++ movedDeeds out keyHex t) rest := by
    have hhead : (r.method == ascii "HEAD") = false := by
      rw [hget]
      decide
    unfold serveTarget
    dsimp only
    simp only [hhead, Bool.false_eq_true, if_false]
    split
    · refine ⟨⟨.loadMeta keyHex, none⟩ :: before, List.forall_mem_cons.mpr ⟨trivial, hidle⟩, ?_⟩
      exact ((path_tryServeFromCache _ _ _).bind_left _).trans hrest
    · exact ⟨before, hidle, hrest⟩
  obtain ⟨before, hidle, hpath⟩ := htarget
  refine ⟨before, rest, hidle, ?_⟩
  unfold serveHTTP
  rw [if_neg hreach.healthz, hreach.target]
  exact .step hpath

theorem foldl_after_idle (i : ℕ) {before : List Deed} (h : ∀ d ∈ before, Idle d.1) (m : Records) :
    (before.map (fun d => RecordEvent.deed i d true)).foldl Records.after m = m := by
  induction before with
  | nil => rfl
  | cons d before ih =>
    obtain ⟨hd, hrest⟩ := List.forall_mem_cons.mp h
    have hsame : m.after (.deed i d true) = m := by
      obtain ⟨op, ans⟩ := d
      cases op <;> first | rfl | exact hd.elim
    rw [List.map_cons, List.foldl_cons, hsame]
    exact ih hrest

theorem lookups_idle (i : ℕ) {before : List Deed} (h : ∀ d ∈ before, Idle d.1) :
    lookups (before.map (fun d => RecordEvent.deed i d true)) = [] := by
  rw [lookups, List.filterMap_map, List.filterMap_eq_nil_iff]
  rintro ⟨op, ans⟩ hd
  have hidle := h _ hd
  cases op <;> first | rfl | exact hidle.elim

theorem exists_moved {i : ℕ} (hreach : s.Reaches (requests i) t)
    (hget : (requests i).method = ascii "GET") (hrange : (requests i).range = [])
    (hout : s.up.request (requests i).method t.host t.path t.rawQuery
      (forwardHeader s.upstreamHFToken t.host (requests i).header) (requests i).reqBody = .ok out)
    (keyHex : Bytes) :
    ∃ log, (∃ rest, Path (s.serveHTTP (requests i)) (deedsOf i log) rest)
      ∧ (∀ j, j ≠ i → deedsOf j log = [])
      ∧ lookups log = [(t.lookup (ascii "GET"), keyHex)]
      ∧ records log keyHex = some (redirectMeta (movedRedirect t) none)
      ∧ ∀ x resp j stored, .deed j ⟨.send x, some resp⟩ stored ∈ log → x = out := by
  obtain ⟨before, rest, hidle, hpath⟩ := exists_path_serveHTTP hreach hget hrange hout keyHex
  rw [hget] at hpath
  refine ⟨(⟨.keyHex (t.lookup (ascii "GET")), keyHex⟩
    :: (before ++ movedDeeds out keyHex t)).map (fun d => RecordEvent.deed i d true),
    ?_, ?_, ?_, ?_, ?_⟩
  · have hown : ∀ deeds : List Deed,
        deedsOf i (deeds.map (fun d => RecordEvent.deed i d true)) = deeds := by
      intro deeds
      rw [deedsOf, List.filterMap_map]
      exact (List.filterMap_congr (fun _ _ => if_pos rfl)).trans List.filterMap_some
    rw [hown]
    exact ⟨rest, hpath⟩
  · intro j hj
    rw [deedsOf, List.filterMap_map, List.filterMap_eq_nil_iff]
    exact fun _ _ => if_neg hj.symm
  · have hkeys : lookups ((before ++ movedDeeds out keyHex t).map
        (fun d => RecordEvent.deed i d true)) = [] := by
      rw [List.map_append, lookups, List.filterMap_append]
      exact List.append_eq_nil_iff.mpr ⟨lookups_idle i hidle, rfl⟩
    exact congrArg ((t.lookup (ascii "GET"), keyHex) :: ·) hkeys
  · rw [records, List.map_cons, List.foldl_cons, List.map_append, List.foldl_append,
      foldl_after_idle i hidle]
    exact Function.update_self ..
  · intro x resp j stored hmem
    obtain ⟨d, hd, heq⟩ := List.mem_map.mp hmem
    cases heq
    rcases List.mem_cons.mp hd with hd | hd
    · cases hd
    rcases List.mem_append.mp hd with hd | hd
    · exact (hidle _ hd).elim
    rcases List.mem_cons.mp hd with hd | hd
    · exact Op.send.inj (congrArg Sigma.fst hd)
    · cases List.mem_singleton.mp hd

theorem exists_not_rangeFree {i : ℕ} (hsends : s.Sends (requests i))
    (hhas : (requests i).header.has rangeKey = true) (hrange : (requests i).range = []) :
    ∃ log, s.Serves requests log ∧ s.ToldApart log ∧ ∃ key m, records log key = some m
      ∧ m.location ≠ [] ∧ ¬ s.RangeFree log key m.location := by
  obtain ⟨t, out, hreach, hget, hout⟩ := hsends
  obtain ⟨c, hrun, hreturned⟩ :=
    KeyHexCache.exists_get_first s.sha256 (t.lookup (ascii "GET"))
  obtain ⟨log, hpath, hothers, hlookups, hrecord, hsent⟩ :=
    exists_moved hreach hget hrange hout ((t.lookup (ascii "GET")).key s.sha256)
  refine ⟨log, ⟨fun j => ?_, [c], ?_, ?_⟩, ?_, _, _, hrecord, (by decide : ascii "/x" ≠ []),
    ?_⟩
  · by_cases hj : j = i
    · exact hj ▸ hpath
    · rw [hothers j hj]
      exact ⟨_, .here _⟩
  · intro c' hc'
    exact List.mem_singleton.mp hc' ▸ ⟨_, hrun⟩
  · rw [hlookups, List.flatMap_singleton, hreturned]
  · rw [ToldApart, hlookups]
    intro a ha b hb _ _ _
    rw [List.mem_singleton.mp ha, List.mem_singleton.mp hb]
  · -- the only request that was sent is the one with the range
    rintro ⟨-, x, -, -, -, hno, -, -, j, stored, hmem⟩
    obtain ⟨-, hheader, -, -⟩ := NetClient.request_eq_ok hout
    rw [hsent _ _ _ _ hmem, hheader, applyHeaders, Coreserver.Header.has_keep,
      (range_forwardHeader _ _ _).2, hhas] at hno
    exact absurd hno (by decide +kernel)

private def twoRanges : Inbound :=
  ⟨ascii "GET", ⟨ascii "/o/m/resolve/main/f", []⟩,
    ⟨[(rangeKey, [[], ascii "bytes=0-5"])], List.nodup_singleton _⟩, none⟩

end Service

end Proxy
