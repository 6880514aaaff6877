import Pulsys.Proxy.Routing

/-!
# What goes upstream

The caller's credential is replaced by the proxy's token, except for content-addressed
hosts (`forwardHeader`). This is decided by the host as it is spelled: such a host gets the
token exactly when it is not spelled as a bare name (`no_token_iff_bareName`).
-/

namespace Proxy

open Bytes Cache

/-! ## Headers -/

def hopRequestHeaders : List Bytes :=
  [ascii "connection", ascii "keep-alive", ascii "proxy-connection", ascii "upgrade",
    ascii "te", ascii "trailer", ascii "transfer-encoding", ascii "host",
    ascii "accept-encoding"]

def hopByHop : List Bytes :=
  [ascii "connection", ascii "keep-alive", ascii "proxy-connection", ascii "upgrade",
    ascii "te", ascii "trailer", ascii "transfer-encoding", ascii "host",
    ascii "proxy-authorization"]

end Proxy

namespace Coreserver.Header

def keep (h : Header) (p : Bytes → Bool) : Header where
  entries := h.entries.filter (fun e => p e.1)
  nodup := h.nodup.sublist (List.filter_sublist.map _)

def has (h : Header) (key : Bytes) : Bool := h.entries.any (·.1 == key)

theorem has_set (h : Header) (key value : Bytes) : (h.set key value).has key = true := by
  simp [has, set]

theorem has_del (h : Header) (key : Bytes) : (h.del key).has key = false := by
  simp [has, del]

theorem has_set_of_ne (h : Header) {key key' : Bytes} (hne : key' ≠ key) (value : Bytes) :
    (h.set key value).has key' = h.has key' := by
  rw [Bool.eq_iff_iff]
  simp only [has, set, del, List.any_eq_true, List.mem_append, List.mem_filter,
    List.mem_singleton, decide_eq_true_eq, beq_iff_eq]
  constructor
  · rintro ⟨e, ⟨he, -⟩ | rfl, rfl⟩
    · exact ⟨e, he, rfl⟩
    · exact absurd rfl hne
  · rintro ⟨e, he, rfl⟩
    exact ⟨e, .inl ⟨he, hne⟩, rfl⟩

theorem has_keep (h : Header) (p : Bytes → Bool) (key : Bytes) :
    (h.keep p).has key = (h.has key && p key) := by
  rw [Bool.eq_iff_iff, Bool.and_eq_true]
  simp only [has, keep, List.any_eq_true, List.mem_filter, beq_iff_eq]
  constructor
  · rintro ⟨e, ⟨he, hp⟩, rfl⟩
    exact ⟨⟨e, he, rfl⟩, hp⟩
  · rintro ⟨⟨e, he, rfl⟩, hp⟩
    exact ⟨e, ⟨he, hp⟩, rfl⟩

theorem keep_keep (h : Header) (p q : Bytes → Bool) :
    (h.keep p).keep q = h.keep (fun k => p k && q k) := by
  have hentries : (h.entries.filter (fun e => p e.1)).filter (fun e => q e.1)
      = h.entries.filter (fun e => p e.1 && q e.1) := by
    rw [List.filter_filter]
    exact congrArg (fun f => h.entries.filter f) (funext (fun e => Bool.and_comm _ _))
  show Header.mk _ _ = Header.mk _ _
  congr 1

end Coreserver.Header

namespace Proxy

open Bytes Cache

def authorizationKey : Bytes := ascii "Authorization"

def passesOn (name : Bytes) : Bool :=
  !hopRequestHeaders.contains (Text.toLower name)
    && Text.toLower name != ascii "authorization"

def forwardHeader (upstreamHFToken upstreamHost : Bytes) (inbound : Coreserver.Header) :
    Coreserver.Header :=
  let hdr := inbound.keep passesOn
  if !isContentAddressedHost upstreamHost && upstreamHFToken != [] then
    hdr.set authorizationKey (ascii "Bearer " ++ upstreamHFToken)
  else hdr

def applyHeaders (hdr : Coreserver.Header) : Coreserver.Header :=
  hdr.keep (fun name => !hopByHop.contains (Text.toLower name))

/-! ## The allowlist -/

def denyHostnames : List Bytes :=
  [ascii "localhost", ascii "metadata.google.internal", ascii "metadata.aws.internal",
    ascii "169.254.169.254"]

def trimBrackets (s : Bytes) : Bytes :=
  (s.dropWhile (fun c => c == 91 || c == 93)).rdropWhile (fun c => c == 91 || c == 93)

def lastIndexByte (s : Bytes) (c : UInt8) : Option ℕ :=
  (indexByte s.reverse c).map (fun i => s.length - 1 - i)

def bareHost (h : Bytes) : Bytes :=
  match lastIndexByte h COLON with
  | some i =>
    if h.head? = some 91 then
      match indexByte h 93 with
      | some j => trimBrackets (h.take (j + 1))
      | none => h
    else h.take i
  | none => if h.head? = some 91 then trimBrackets h else h

def hostAllowed (privateIP : Bytes → Bool) (allowed : List Bytes) (host : Bytes) : Bool :=
  let h := Text.toLower (Text.trimSpace host)
  let bare := bareHost h
  if h = [] then false
  else if denyHostnames.contains bare then false
  else if privateIP (trimBrackets bare) then false
  else allowed.any (fun a =>
    h == a || (46 :: a).isSuffixOf h || bare == a || (46 :: a).isSuffixOf bare)

/-! ## The client -/

structure NetHTTP where
  accepts : Bytes → Bool
  toASCII : Bytes → Option Bytes

structure NetClient where
  defaultHost : Bytes
  allow : Bytes → Bool
  scheme : Bytes
  net : NetHTTP

structure Outbound where
  method : Bytes
  scheme : Bytes
  urlHost : Bytes
  path : Bytes
  rawQuery : Bytes
  header : Coreserver.Header
  host : Bytes
  body : Bytes

inductive OutboundError
  | emptyHost
  | hostNotAllowed (host : Bytes)
  | badURL
  deriving DecidableEq

def NetClient.request (c : NetClient) (method host path rawQuery : Bytes)
    (hdr : Coreserver.Header) (body : Bytes) : Except OutboundError Outbound :=
  let urlHost := Text.toLower (Text.trimSpace host)
  if urlHost = [] then .error .emptyHost
  else if ¬ (urlHost = c.defaultHost ∨ c.allow urlHost = true) then .error (.hostNotAllowed urlHost)
  else if !c.net.accepts urlHost then .error .badURL
  else .ok
    { method, scheme := c.scheme, urlHost, path := if path = [] then [SLASH] else path, rawQuery,
      header := applyHeaders hdr, host, body }

def validOptionalPort (port : Bytes) : Bool :=
  match port with
  | [] => true
  | c :: digits => c == COLON && digits.all Text.isDigit

def hostname (urlHost : Bytes) : Bytes :=
  let host :=
    match lastIndexByte urlHost COLON with
    | some i => if validOptionalPort (urlHost.drop i) then urlHost.take i else urlHost
    | none => urlHost
  if host.head? = some 91 ∧ host.getLast? = some 93 then (host.drop 1).dropLast else host

def NetHTTP.contacted (net : NetHTTP) (urlHost : Bytes) : Option Bytes :=
  if (hostname urlHost).all (· < 128) then some (hostname urlHost)
  else net.toASCII (hostname urlHost)

def Handler.sends (h : Handler) (c : NetClient) (upstreamHFToken method : Bytes) (url : URL)
    (inbound : Coreserver.Header) (body : Bytes) : Option Outbound :=
  match h.target url with
  | .error _ => none
  | .ok t => (c.request method t.host t.path t.rawQuery
      (forwardHeader upstreamHFToken t.host inbound) body).toOption

/-! ## Who gets the token -/

theorem passesOn_authorization : passesOn authorizationKey = false := by decide +kernel

theorem has_authorization_forwardHeader (token host : Bytes) (inbound : Coreserver.Header) :
    (forwardHeader token host inbound).has authorizationKey
      = (!isContentAddressedHost host && token != []) := by
  have hnone : (inbound.keep passesOn).has authorizationKey = false := by
    rw [Coreserver.Header.has_keep, passesOn_authorization, Bool.and_false]
  rw [forwardHeader]
  split
  · next h => rw [Coreserver.Header.has_set, h]
  · next h => rw [hnone, Bool.eq_false_iff.mpr h]

theorem has_authorization_applyHeaders (hdr : Coreserver.Header) :
    (applyHeaders hdr).has authorizationKey = hdr.has authorizationKey := by
  have hpass : (!hopByHop.contains (Text.toLower authorizationKey)) = true := by decide +kernel
  rw [applyHeaders, Coreserver.Header.has_keep, hpass, Bool.and_true]

theorem NetClient.request_eq_ok {c : NetClient} {method host path rawQuery : Bytes}
    {hdr : Coreserver.Header} {body : Bytes} {out : Outbound}
    (h : c.request method host path rawQuery hdr body = .ok out) :
    out.urlHost = Text.toLower (Text.trimSpace host) ∧ out.header = applyHeaders hdr
      ∧ out.method = method ∧ out.rawQuery = rawQuery ∧ out.scheme = c.scheme
      ∧ out.path = if path = [] then [SLASH] else path := by
  rw [request] at h
  split at h
  · cases h
  · split at h
    · cases h
    · split at h
      · cases h
      · obtain rfl := Except.ok.inj h
        exact ⟨rfl, rfl, rfl, rfl, rfl, rfl⟩

theorem contacted_of_contentAddressed (net : NetHTTP) {host : Bytes}
    (h : host ∈ contentAddressedHosts) : net.contacted host = some host := by
  have hplain : ∀ x ∈ contentAddressedHosts,
      hostname x = x ∧ (hostname x).all (· < 128) = true := by decide +kernel
  obtain ⟨hname, hascii⟩ := hplain host h
  rw [NetHTTP.contacted, if_pos hascii, hname]

/-- **The token and the content-addressed hosts**: none sees a credential exactly if no token
is configured or the host is spelled as the bare name. -/
theorem no_token_iff_bareName (h : Handler) (c : NetClient) (token method : Bytes) (url : URL)
    (inbound : Coreserver.Header) (body : Bytes) {out : Outbound}
    (hout : h.sends c token method url inbound body = some out) :
    (∀ name, c.net.contacted out.urlHost = some name → name ∈ contentAddressedHosts →
        out.header.has authorizationKey = false)
      ↔ token = [] ∨ ∀ name, c.net.contacted out.urlHost = some name →
        name ∈ contentAddressedHosts → name = out.urlHost := by
  obtain ⟨t, hurl, hheader⟩ : ∃ t : Target, out.urlHost = Text.toLower (Text.trimSpace t.host)
      ∧ out.header = applyHeaders (forwardHeader token t.host inbound) := by
    rw [Handler.sends] at hout
    split at hout
    · cases hout
    · next t ht =>
      cases hreq : c.request method t.host t.path t.rawQuery
          (forwardHeader token t.host inbound) body with
      | error e =>
        rw [hreq] at hout
        cases hout
      | ok out' =>
        rw [hreq] at hout
        cases hout
        obtain ⟨hurl, hheader, -⟩ := NetClient.request_eq_ok hreq
        exact ⟨t, hurl, hheader⟩
  -- the table is asked for the host as the URL has it
  have hhas : out.header.has authorizationKey
      = (!contentAddressedHosts.contains out.urlHost && token != []) := by
    rw [hheader, has_authorization_applyHeaders, has_authorization_forwardHeader, hurl,
      isContentAddressedHost]
  rw [hhas]
  constructor
  · intro hno
    by_cases htoken : token = []
    · exact .inl htoken
    · refine .inr (fun name hname hmem => ?_)
      have hfalse := hno name hname hmem
      rw [Bool.and_eq_false_iff, bne_eq_false_iff_eq, Bool.not_eq_false'] at hfalse
      have hbare := hfalse.resolve_right htoken
      rw [List.contains_iff_mem] at hbare
      exact Option.some.inj (hname.symm.trans (contacted_of_contentAddressed c.net hbare))
  · rintro (rfl | hbare) name hname hmem
    · exact Bool.and_false _
    · obtain rfl := hbare name hname hmem
      rw [List.contains_iff_mem.mpr hmem]
      rfl

def defaultAllowHosts : List Bytes :=
  [ascii "huggingface.co", ascii "hf.co", ascii "huggingface.com",
    ascii "cdn-lfs.huggingface.co", ascii "lfs.huggingface.co",
    ascii "cas-bridge.xethub.hf.co", ascii "xethub.hf.co"]

theorem huggingface_graph : ∀ c ∈ ascii "huggingface.co", Text.isGraph c = true :=
  forall_mem_of_all (by decide)

theorem huggingface_slash : SLASH ∉ ascii "huggingface.co" := by decide

private def defaultProxy : Handler where
  sha256 := id
  defaultHost := ascii "huggingface.co"
  allowf := hostAllowed (fun _ => false) defaultAllowHosts
  offline := true
  strictOffline := false
  defaultHost_graph := huggingface_graph
  defaultHost_slash := huggingface_slash

private def defaultClient : NetClient where
  defaultHost := ascii "huggingface.co"
  allow := hostAllowed (fun _ => false) defaultAllowHosts
  scheme := ascii "https"
  net := ⟨fun _ => true, fun _ => none⟩

theorem no_token_iff_bareName_bridge :
    ∃ out ∈ defaultProxy.sends defaultClient (ascii "hf_x") (ascii "GET")
        ⟨ascii "/_p/CAS-bridge.xethub.hf.co/x", []⟩ .empty [],
      (∀ name, defaultClient.net.contacted out.urlHost = some name →
          name ∈ contentAddressedHosts → out.header.has authorizationKey = false)
        ↔ ascii "hf_x" = [] ∨ ∀ name, defaultClient.net.contacted out.urlHost = some name →
          name ∈ contentAddressedHosts → name = out.urlHost :=
  ⟨_, rfl, no_token_iff_bareName defaultProxy defaultClient (ascii "hf_x") (ascii "GET")
    ⟨ascii "/_p/CAS-bridge.xethub.hf.co/x", []⟩ .empty [] rfl⟩

/-- **A port is enough.** -/
theorem token_sent_with_port :
    ∃ out ∈ defaultProxy.sends defaultClient (ascii "hf_x") (ascii "GET")
        ⟨ascii "/_p/cas-bridge.xethub.hf.co:443/x", []⟩ .empty [],
      defaultClient.net.contacted out.urlHost = some (ascii "cas-bridge.xethub.hf.co")
        ∧ ascii "cas-bridge.xethub.hf.co" ∈ contentAddressedHosts
        ∧ out.header.get authorizationKey = ascii "Bearer hf_x" :=
  ⟨_, rfl, by decide +kernel, by decide +kernel, by decide +kernel⟩

end Proxy
