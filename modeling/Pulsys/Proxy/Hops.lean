import Pulsys.Base.RootedPath
import Pulsys.Proxy.Keys
import Pulsys.Proxy.Program

/-!
# Redirects through the proxy

The host of a location is put into the path, the path is joined and cleaned, decoded again
and escaped anew. This leads to where the location led exactly at the default port and with
a path that all this leaves alone (`redirect_survives_iff`).
-/

namespace Proxy

open Bytes Cache
open RootedPath

/-! ## Escaped paths -/

def plainInPath (c : UInt8) : Bool :=
  (48 ≤ c && c ≤ 57) || (65 ≤ c && c ≤ 90) || (97 ≤ c && c ≤ 122)
    || (ascii "-_.~$&+,/:;=@").contains c

def escapeByte (c : UInt8) : Bytes :=
  if plainInPath c then [c] else 37 :: Text.toUpper (hexEncode [c])

def escapePath (b : Bytes) : Bytes := b.flatMap escapeByte

theorem pathUnescape_escapePath (b : Bytes) : Percent.pathUnescape (escapePath b) = some b :=
  Percent.unescape_flatMap (forall_byte (by decide +kernel)) b

theorem escapePath_inj {a b : Bytes} : escapePath a = escapePath b ↔ a = b := by
  refine ⟨fun h => ?_, congrArg escapePath⟩
  have hdecoded := congrArg Percent.pathUnescape h
  rwa [pathUnescape_escapePath, pathUnescape_escapePath, Option.some.injEq] at hdecoded

theorem slash_of_escapeByte : ∀ c, (SLASH ∈ escapeByte c → c = SLASH)
    ∧ ((escapeByte c).getLast? = some SLASH ↔ c = SLASH) :=
  forall_byte (by decide +kernel)

theorem escapeByte_ne_nil (c : UInt8) : escapeByte c ≠ [] := by
  unfold escapeByte
  split <;> exact List.cons_ne_nil _ _

theorem slash_notMem_escapePath {b : Bytes} (h : SLASH ∉ b) : SLASH ∉ escapePath b := by
  intro hmem
  obtain ⟨c, hc, hslash⟩ := List.mem_flatMap.mp hmem
  exact h ((slash_of_escapeByte c).1 hslash ▸ hc)

theorem escapePath_append (a b : Bytes) : escapePath (a ++ b) = escapePath a ++ escapePath b :=
  List.flatMap_append

theorem escapePath_ofSegments (ss : List Bytes) :
    escapePath (ofSegments ss) = ofSegments (ss.map escapePath) := by
  induction ss with
  | nil => rfl
  | cons s ss ih =>
    rw [List.map_cons, @ofSegments_cons (escapePath s), ← ih, ← escapePath_append]
    rfl

theorem getLast?_escapePath (b : Bytes) :
    (escapePath b).getLast? = some SLASH ↔ b.getLast? = some SLASH := by
  rcases List.eq_nil_or_concat b with rfl | ⟨b, c, rfl⟩
  · exact Iff.rfl
  · have hlast : (escapePath (b ++ [c])).getLast? = (escapeByte c).getLast? := by
      rw [escapePath_append, ← List.getLast?_append_of_ne_nil (escapePath b) (escapeByte_ne_nil c)]
      simp [escapePath]
    rw [List.concat_eq_append, hlast, (slash_of_escapeByte c).2]
    simp

theorem foldl_cleanStep_escapePath (ss kept : List Bytes) :
    (ss.map escapePath).foldl cleanStep (kept.map escapePath)
      = (ss.foldl cleanStep kept).map escapePath := by
  induction ss generalizing kept with
  | nil => rfl
  | cons s ss ih =>
    have hnil : escapePath s = [] ↔ s = [] := @escapePath_inj s []
    have hdot : escapePath s = [46] ↔ s = [46] := @escapePath_inj s [46]
    have hback : escapePath s = [46, 46] ↔ s = [46, 46] := @escapePath_inj s [46, 46]
    have hstep : cleanStep (kept.map escapePath) (escapePath s)
        = (cleanStep kept s).map escapePath := by
      unfold cleanStep
      simp only [hnil, hdot, hback]
      split
      · rfl
      · split
        · exact List.map_dropLast.symm
        · simp
    rw [List.map_cons, List.foldl_cons, hstep, ih]
    rfl

theorem clean_escapePath (t : Bytes) :
    clean (escapePath (SLASH :: t)) = escapePath (clean (SLASH :: t)) := by
  have hslash : ∀ s ∈ t.splitOn SLASH, SLASH ∉ s := fun s hs => (mem_splitOn hs).1
  have hslash' : ∀ s ∈ (t.splitOn SLASH).map escapePath, SLASH ∉ s := by
    intro s hs
    obtain ⟨s', hs', rfl⟩ := List.mem_map.mp hs
    exact slash_notMem_escapePath (hslash s' hs')
  have hfold := foldl_cleanStep_escapePath (t.splitOn SLASH) []
  rw [← ofSegments_splitOn t, escapePath_ofSegments]
  unfold clean
  rw [splitOn_ofSegments hslash, splitOn_ofSegments hslash', List.foldl_cons, List.foldl_cons]
  show (if List.foldl cleanStep [] _ = [] then _ else ofSegments (List.foldl cleanStep [] _))
    = escapePath
      (if List.foldl cleanStep [] _ = [] then _ else ofSegments (List.foldl cleanStep [] _))
  rw [List.map_nil] at hfold
  simp only [hfold, List.map_eq_nil_iff]
  split
  · rfl
  · exact (escapePath_ofSegments _).symm

theorem join_escapePath {elems : List Bytes} (hne : elems ≠ []) :
    join (elems.map escapePath) = escapePath (join elems) := by
  obtain ⟨e, es, rfl⟩ := List.exists_cons_of_ne_nil hne
  have hlast : ((e :: es).map escapePath).getLast?.bind List.getLast? = some SLASH
      ↔ (e :: es).getLast?.bind List.getLast? = some SLASH := by
    rw [List.getLast?_map]
    cases (e :: es).getLast? with
    | none => exact Iff.rfl
    | some x => exact getLast?_escapePath x
  unfold join
  dsimp only
  rw [← escapePath_ofSegments, ofSegments_cons, clean_escapePath]
  simp only [hlast, ne_eq, getLast?_escapePath]
  split
  · exact (escapePath_append (clean (SLASH :: (e ++ ofSegments es))) [SLASH]).symm
  · rfl

theorem exists_of_escapePath {b x : Bytes} (h : escapePath b = SLASH :: x) :
    ∃ t, b = SLASH :: t ∧ x = escapePath t := by
  cases b with
  | nil => cases h
  | cons c t =>
    have hmem : SLASH ∈ escapeByte c := by
      have hb : escapeByte c ++ escapePath t = SLASH :: x := h
      refine List.mem_of_mem_head? ?_
      rw [← List.head?_append_of_ne_nil _ (escapeByte_ne_nil c), hb]
      rfl
    obtain rfl := (slash_of_escapeByte c).1 hmem
    exact ⟨t, rfl, (List.cons.inj h).2.symm⟩

/-! ## The hop -/

def effectivePort (scheme host : Bytes) : Bytes :=
  let byScheme := if scheme = ascii "https" then ascii "443" else ascii "80"
  match lastIndexByte host COLON with
  | none => byScheme
  | some i =>
    if validOptionalPort (host.drop i) ∧ host.drop (i + 1) ≠ [] then host.drop (i + 1)
    else byScheme

structure NetURL.KeepsPath (net : NetURL) (base : Bytes) (requested : Bytes → Option Bytes) :
    Prop where
  parse : ∀ s u, net.parse s = some u → u.host ≠ [] →
    u.escapedPath = [] ∨ u.escapedPath.head? = some SLASH
  joinPath : ∀ elems joined q d, net.joinPath base elems = some joined →
    Percent.pathUnescape (join elems) = some d → requested (net.withQuery joined q) = some d

def Service.LeadsTo (s : Service) (u : ParsedURL) (path : Option Bytes) : Prop :=
  ∃ d host out, path = some d ∧ s.routeUpstream d = .ok (host, out)
    ∧ ∀ method rawQuery hdr body, ∃ o, s.up.request method host out rawQuery hdr body = .ok o
      ∧ o.urlHost = Text.toLower u.hostname
      ∧ effectivePort o.scheme o.urlHost = effectivePort u.scheme u.host
      ∧ escapePath o.path = u.requestPath

def NetClient.Takes (c : NetClient) (host : Bytes) : Prop :=
  (host = c.defaultHost ∨ c.allow host = true) ∧ c.net.accepts host = true

def SegmentHost (host : Bytes) : Prop := Proper host ∧ ∀ c ∈ host, plainInPath c = true

theorem normal_of_routed {h : Handler} {d host out : Bytes} (hd : Normal d)
    (hroute : h.routeUpstream d = .ok (host, out)) : Normal out := by
  rcases Handler.routeUpstream_ok hroute with ⟨-, -, rfl⟩ | ⟨l, r, hpath, hl, hr, -, rfl⟩
  · exact hd
  have hsegs : d.splitOn SLASH = [] :: ascii "_p" :: l :: r.splitOn SLASH := by
    have htext : d = SLASH :: (ascii "_p" ++ SLASH :: (l ++ SLASH :: r)) := hpath
    rw [htext, splitOn_cons_slash, splitOn_append_cons (by decide), splitOn_append_cons hl]
  obtain ⟨ss, -, hss, hd⟩ := hd
  have hnot : ∀ s ∈ ss, SLASH ∉ s := fun s hs => (hss s hs).2.2.2
  rcases hd with hd | hd
  · rw [hd, splitOn_ofSegments hnot, List.cons.injEq] at hsegs
    refine ⟨r.splitOn SLASH, List.splitOn_ne_nil _ _, fun s hs => hss s ?_,
      .inl (ofSegments_splitOn r).symm⟩
    rw [hsegs.2]
    exact List.mem_cons_of_mem _ (List.mem_cons_of_mem _ hs)
  · have hslash : ofSegments ss ++ [SLASH] = ofSegments (ss ++ [[]]) :=
      (ofSegments_append ss [[]]).symm
    obtain ⟨init, last, hsplit⟩ : ∃ init last, r.splitOn SLASH = init ++ [last] :=
      (List.eq_nil_or_concat' _).resolve_left (List.splitOn_ne_nil _ _)
    have hnot' : ∀ s ∈ ss ++ [[]], SLASH ∉ s := by simpa [or_imp, forall_and] using hnot
    rw [hd, hslash, splitOn_ofSegments hnot', List.cons.injEq, hsplit] at hsegs
    obtain ⟨rfl, hlast⟩ := List.append_inj'
      (show ss ++ [[]] = (ascii "_p" :: l :: init) ++ [last] from hsegs.2) rfl
    have htext : SLASH :: r = ofSegments init ++ [SLASH] := by
      rw [← ofSegments_splitOn, hsplit, ← List.head_eq_of_cons_eq hlast]
      exact ofSegments_append init [[]]
    refine ⟨init, ?_, fun s hs => hss s ?_, .inr htext⟩
    · rintro rfl
      exact hr (List.cons.inj htext).2
    · exact List.mem_cons_of_mem _ (List.mem_cons_of_mem _ hs)

theorem routeUpstream_of_host {h : Handler} {host t : Bytes} (hhost : Proper host)
    (hlower : Text.toLower host = host) (hallow : h.allowf host = true) (ht : t ≠ []) :
    h.routeUpstream (ofSegments [ascii "_p", host] ++ SLASH :: t) = .ok (host, SLASH :: t) := by
  have htext : ofSegments [ascii "_p", host] ++ SLASH :: t = hostPath ++ (host ++ SLASH :: t) := by
    simp [ofSegments, hostPath, ascii]
  have hdrop : (hostPath ++ (host ++ SLASH :: t)).drop 4 = host ++ SLASH :: t := rfl
  have hpre : hostPath.isPrefixOf (hostPath ++ (host ++ SLASH :: t)) = true := by
    rw [List.isPrefixOf_iff_prefix]
    exact List.prefix_append _ _
  have hlen : ¬ (host.length = 0 ∨ host.length = (host ++ SLASH :: t).length - 1) := by
    have hpos := List.length_pos_of_ne_nil hhost.1
    have htpos := List.length_pos_of_ne_nil ht
    rw [List.length_append, List.length_cons]
    omega
  unfold Handler.routeUpstream
  rw [htext, hdrop, hpre, if_neg (by simp)]
  dsimp only
  rw [indexByte_append hhost.2.2.2]
  dsimp only
  rw [if_neg hlen, List.take_left, List.drop_left, hlower, hallow, if_neg (by simp)]

theorem escapePath_of_plain {b : Bytes} (h : ∀ c ∈ b, plainInPath c = true) : escapePath b = b := by
  induction b with
  | nil => rfl
  | cons c b ih =>
    have hc : escapeByte c = [c] := if_pos (h c List.mem_cons_self)
    have hb := ih (fun x hx => h x (List.mem_cons_of_mem _ hx))
    rw [escapePath, List.flatMap_cons, hc]
    exact congrArg (c :: ·) hb

theorem two_le_length_of_normal {p : Bytes} (h : Normal p) : 2 ≤ p.length := by
  obtain ⟨ss, hne, hss, hp⟩ := h
  obtain ⟨s, ss, rfl⟩ := List.exists_cons_of_ne_nil hne
  have hs := List.length_pos_of_ne_nil (hss s List.mem_cons_self).1
  rcases hp with rfl | rfl <;>
    simp only [ofSegments_cons, List.length_append, List.length_cons] <;> omega

theorem request_of_takes {c : NetClient} {host : Bytes} (hhost : SegmentHost host)
    (hlower : Text.toLower host = host) (h : c.Takes host) (method path rawQuery : Bytes)
    (hdr : Coreserver.Header) (body : Bytes) :
    ∃ o, c.request method host path rawQuery hdr body = .ok o ∧ o.urlHost = host := by
  have hplain : ∀ x, plainInPath x = true → Text.isGraph x = true :=
    forall_byte (by decide +kernel)
  unfold NetClient.request
  rw [Text.trimSpace_of_graph (fun x hx => hplain x (hhost.2 x hx)), hlower, if_neg hhost.1.1,
    if_neg (not_not_intro h.1), h.2]
  exact ⟨_, rfl, rfl⟩

/-- **When a redirect survives the hop**: exactly with the default port, and a path that the
library escapes so, not the root, without empty segments and those of dots. -/
theorem redirect_survives_iff (s : Service) {requested : Bytes → Option Bytes}
    (hnet : s.net.KeepsPath s.publicBase requested) (location origin : Bytes) {v : Bytes}
    {u : ParsedURL}
    (hu : s.net.parse location = some u)
    (hv : s.rewriter.locationToProxyWithOrigin location origin = some v)
    (hhost : SegmentHost (Text.toLower u.hostname))
    (hup : s.up.Takes (Text.toLower u.hostname)) :
    s.LeadsTo u (requested v)
      ↔ effectivePort s.up.scheme (Text.toLower u.hostname) = effectivePort u.scheme u.host
        ∧ ∃ path, u.requestPath = escapePath path ∧ Normal path := by
  obtain ⟨u', joined, hu', hne, hallowed, hjoined, rfl⟩ :=
    Rewriter.exists_of_locationToProxyWithOrigin hv
  cases hu.symm.trans hu'
  obtain ⟨x, hx⟩ : ∃ x, u.requestPath = SLASH :: x := by
    unfold ParsedURL.requestPath
    split
    · exact ⟨[], rfl⟩
    · next hpath =>
      obtain ⟨t, ht⟩ := List.head?_eq_some_iff.mp ((hnet.parse _ _ hu hne).resolve_left hpath)
      exact ⟨t, ht⟩
  rw [hx, if_pos List.head?_cons, List.drop_one, List.tail_cons] at hjoined
  have hfront : ∀ s ∈ [ascii "_p", Text.toLower u.hostname], Proper s := by
    intro s hs
    rcases List.mem_cons.mp hs with rfl | hs
    · exact ⟨by decide, by decide, by decide, by decide⟩
    · exact List.mem_singleton.mp hs ▸ hhost.1
  -- what the client asks for is decoded again
  have hrequested : ∀ t, x = escapePath t →
      requested (s.rewriter.net.withQuery joined (markQuery u.rawQuery origin))
        = some (join [ascii "_p", Text.toLower u.hostname, t]) := by
    rintro t rfl
    refine hnet.joinPath _ _ _ _ hjoined ?_
    have helems : [ascii "_p", Text.toLower u.hostname, escapePath t]
        = [ascii "_p", Text.toLower u.hostname, t].map escapePath := by
      simp only [List.map_cons, List.map_nil, escapePath_of_plain hhost.2]
      rfl
    rw [helems, join_escapePath (List.cons_ne_nil _ _), pathUnescape_escapePath]
  constructor
  · rintro ⟨d, host, out, hd, hroute, hsent⟩
    obtain ⟨o, ho, hname, hport, hesc⟩ := hsent [] [] .empty []
    obtain ⟨-, -, -, -, hscheme, hsame⟩ := NetClient.request_eq_ok ho
    rw [hsame] at hesc
    rw [hname, hscheme] at hport
    obtain ⟨t, hout, hxt⟩ := exists_of_escapePath (hesc.trans hx)
    rw [hrequested t hxt, Option.some.injEq] at hd
    refine ⟨hport, _, hesc.symm, ?_⟩
    rcases join_cases [ascii "_p", Text.toLower u.hostname, t] with hroot | hclean
    · -- the host has been climbed over, up to the root; but the root leads to the host
      exfalso
      have hlong : ∀ r : Bytes, [SLASH] ≠ ascii "/_p" ++ r := fun r h => by
        have := (List.cons.inj h).2
        cases this
      rw [hroot] at hd
      subst hd
      rcases Handler.routeUpstream_ok hroute with ⟨-, -, rfl⟩ | ⟨l, r, hpath, -⟩
      · obtain rfl : [] = t := (List.cons.inj hout).2
        have hjoin : join [ascii "_p", Text.toLower u.hostname, []]
            = ofSegments [ascii "_p", Text.toLower u.hostname] := by
          have htext : ofSegments [ascii "_p", Text.toLower u.hostname, []]
              = ofSegments [ascii "_p", Text.toLower u.hostname] ++ [SLASH] :=
            ofSegments_append [ascii "_p", Text.toLower u.hostname] [[]]
          unfold join
          rw [htext, (clean_ofSegments (List.cons_ne_nil _ _) hfront).2]
          exact if_neg (fun hc => nomatch hc.1)
        exact hlong _ (hroot.symm.trans hjoin)
      · exact hlong _ hpath
    · rw [hd] at hclean
      have hcleanOut := normal_of_routed hclean hroute
      have hlen := two_le_length_of_normal hcleanOut
      rw [if_neg (by rintro rfl; cases hlen)]
      exact hcleanOut
  · rintro ⟨hport, path, hpath, hclean⟩
    obtain ⟨t, rfl, hxt⟩ := exists_of_escapePath (hpath.symm.trans hx)
    have ht : t ≠ [] := by
      rintro rfl
      exact absurd (two_le_length_of_normal hclean) (by simp)
    have hroute : s.routeUpstream (join [ascii "_p", Text.toLower u.hostname, t])
        = .ok (Text.toLower u.hostname, SLASH :: t) := by
      rw [show [ascii "_p", Text.toLower u.hostname, t]
        = [ascii "_p", Text.toLower u.hostname] ++ [t] from rfl, join_of_normal hfront hclean]
      exact routeUpstream_of_host hhost.1 (Text.toLower_toLower _) hallowed ht
    refine ⟨_, _, _, hrequested t hxt, hroute, fun method rawQuery hdr body => ?_⟩
    obtain ⟨o, ho, hname⟩ := request_of_takes hhost (Text.toLower_toLower _) hup method
      (SLASH :: t) rawQuery hdr body
    obtain ⟨-, -, -, -, hscheme, hsame⟩ := NetClient.request_eq_ok ho
    refine ⟨o, ho, hname, ?_, ?_⟩
    · rw [hname, hscheme, hport]
    · rw [hsame, if_neg (List.cons_ne_nil _ _), hpath]

private def cdnService (path : Bytes) : Service where
  toHandler := { Service.plainService.toHandler with allowf := fun _ => true }
  upstreamHFToken := []
  up := { Service.plainService.up with allow := fun _ => true }
  net :=
    { parse := fun _ => some ⟨ascii "https", ascii "cdn", ascii "cdn", path, []⟩
      joinPath := fun _ elems => if OneLine (join elems) then some (join elems) else none
      withQuery := fun b _ => if OneLine b then b else []
      parse_rawQuery := by
        rintro _ _ ⟨⟩
        exact ⟨List.not_mem_nil, List.not_mem_nil⟩
      withQuery_oneLine := by
        intro b q _
        split
        · assumption
        · decide }
  publicBase := []
  inflightBudget := 0

private theorem cdnService_keepsPath {path : Bytes} (h : path.head? = some SLASH) :
    (cdnService path).net.KeepsPath [] Percent.pathUnescape where
  parse := by
    rintro _ _ ⟨⟩ -
    exact .inr h
  joinPath := by
    intro elems joined q d hjoined hd
    obtain ⟨hline, ⟨⟩⟩ := Option.ite_none_right_eq_some.mp hjoined
    show Percent.pathUnescape (if OneLine (join elems) then join elems else []) = some d
    rw [if_pos hline, hd]

theorem redirect_survives_plain :
    (cdnService (ascii "/a%20b/")).LeadsTo
      ⟨ascii "https", ascii "cdn", ascii "cdn", ascii "/a%20b/", []⟩
      (Percent.pathUnescape (ascii "/_p/cdn/a%20b/")) := by
  refine (redirect_survives_iff _ (cdnService_keepsPath (by decide)) [] [] rfl
    (by decide +kernel) ⟨⟨by decide, by decide, by decide, by decide⟩, by decide +kernel⟩
    ⟨.inr rfl, rfl⟩).mpr
    ⟨by decide +kernel, ascii "/a b/", by decide +kernel, [ascii "a b"], by decide, ?_,
      .inr (by decide)⟩
  simp only [List.mem_singleton, forall_eq]
  exact ⟨by decide, by decide, by decide, by decide⟩

/-- **A repeated slash does not survive.** -/
theorem repeated_slash_lost :
    (cdnService (ascii "/a//b")).rewriter.locationToProxyWithOrigin [] []
        = some (ascii "/_p/cdn/a/b")
      ∧ ¬ (cdnService (ascii "/a//b")).LeadsTo
        ⟨ascii "https", ascii "cdn", ascii "cdn", ascii "/a//b", []⟩
        (Percent.pathUnescape (ascii "/_p/cdn/a/b")) := by
  refine ⟨by decide +kernel, ?_⟩
  rintro ⟨d, host, out, hd, hroute, hsent⟩
  have hrequested : Percent.pathUnescape (ascii "/_p/cdn/a/b") = some (ascii "/_p/cdn/a/b") := by
    decide +kernel
  have hrouted : (cdnService (ascii "/a//b")).routeUpstream (ascii "/_p/cdn/a/b")
      = .ok (ascii "cdn", ascii "/a/b") := by decide +kernel
  cases hrequested.symm.trans hd
  cases hrouted.symm.trans hroute
  obtain ⟨o, ho, -, -, hpath⟩ := hsent [] [] .empty []
  rw [(NetClient.request_eq_ok ho).2.2.2.2.2] at hpath
  exact absurd hpath (by decide +kernel)

end Proxy
