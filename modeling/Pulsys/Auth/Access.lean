import Pulsys.Auth.PATGate

/-!
# Requests to the admin API

A request is authenticated by its access token or by its session, in several queries, beside
logins, logouts and other requests. Then it passes the test of the CSRF token and the test of
the route. `admin_requests_mediated` says what is known of a request that reaches a handler.
-/

namespace Auth

open Bytes Text Runs

inductive Role
  | owner
  | admin
  | member
  | reader
  deriving DecidableEq

def Role.rank : Role → ℕ
  | .owner => 4
  | .admin => 3
  | .member => 2
  | .reader => 1

def Role.atLeast (r min : Role) : Bool := min.rank ≤ r.rank

inductive Actor
  | anonymous
  | user (role : Role)
  | token (scopes : List Bytes)
  deriving DecidableEq

def Actor.hasScope (a : Actor) (scope : Bytes) : Bool :=
  match a with
  | .anonymous => false
  | .user role => role.atLeast .admin
  | .token scopes => scopes.any (fun s => s == scope || s == ascii "*")

structure Route where
  method : Bytes
  path : Bytes
  minRole : Role
  tokenScope : Bytes
  deriving DecidableEq

def apiRoute (method path : String) (minRole : Role) (tokenScope : String) : Route :=
  ⟨ascii method, ascii "/admin/api/v1/" ++ ascii path, minRole, ascii tokenScope⟩

def mount : List Route :=
  [apiRoute "GET" "tenant" .reader "admin:read",
    apiRoute "GET" "users" .admin "admin:write",
    apiRoute "GET" "tokens" .member "admin:read",
    apiRoute "POST" "tokens" .admin "admin:write",
    apiRoute "DELETE" "tokens/\x7bid\x7d" .admin "admin:write",
    apiRoute "GET" "settings" .reader "admin:read",
    apiRoute "PUT" "settings/\x7bscope\x7d/\x7bkey\x7d" .admin "admin:write",
    apiRoute "GET" "audit" .reader "admin:read",
    apiRoute "GET" "imports" .reader "admin:read",
    apiRoute "POST" "imports" .admin "admin:write",
    apiRoute "GET" "imports/\x7bid\x7d" .reader "admin:read",
    apiRoute "POST" "imports/\x7bid\x7d/cancel" .admin "admin:write",
    apiRoute "POST" "imports/\x7bid\x7d/force-cancel" .admin "admin:write",
    apiRoute "DELETE" "imports/\x7bid\x7d" .admin "admin:write",
    apiRoute "GET" "models" .reader "admin:read",
    apiRoute "GET" "models/grouped" .reader "admin:read",
    apiRoute "GET" "cache/stats" .reader "admin:read",
    apiRoute "DELETE" "models/cache" .admin "admin:write"]

structure AdminRequest where
  method : Bytes
  path : Bytes
  authorization : Bytes := []
  session : Bytes := []
  csrfHeader : Bytes := []
  csrfCookie : Bytes := []

def AdminRequest.pat (r : AdminRequest) : Option Bytes :=
  (bearerFromBytes r.authorization).filter isPAT

inductive Outcome
  | refused (status : ℕ) (reason : Bytes)
  | unrouted
  | served (route : Route) (actor : Actor)

def safeMethod (method : Bytes) : Bool :=
  [ascii "GET", ascii "HEAD", ascii "OPTIONS"].contains method

def csrfExemptPath (path : Bytes) : Bool :=
  [ascii "/auth/session", ascii "/auth/oidc/config"].contains path

def validateCSRF (r : AdminRequest) (actor : Actor) (sessionCSRF : Bytes) : Bool :=
  match actor with
  | .token _ => true
  | .anonymous => false
  | .user _ =>
    let header := Text.trimSpace r.csrfHeader
    sessionCSRF != [] && header != [] && header == sessionCSRF && r.csrfCookie != []
      && r.csrfCookie == header

def csrfProtect (r : AdminRequest) (actor : Actor) (sessionCSRF : Bytes) : Bool :=
  safeMethod r.method || csrfExemptPath r.path || actor == .anonymous
    || validateCSRF r actor sessionCSRF

def Route.allows (route : Route) (actor : Actor) : Bool :=
  match actor with
  | .anonymous => false
  | .user role => role.atLeast route.minRole
  | .token _ => actor.hasScope route.tokenScope || actor.hasScope (ascii "admin:*")

def requireAccess (route : Route) (actor : Actor) : Outcome :=
  if actor == .anonymous then .refused 401 (ascii "unauthenticated")
  else if route.allows actor then .served route actor
  else .refused 403 (ascii "forbidden")

section
variable (mux : Bytes → Bytes → Option Route)

def adminHandler (r : AdminRequest) (actor : Actor) (sessionCSRF : Bytes) : Outcome :=
  if !csrfProtect r actor sessionCSRF then
    .refused 403 (ascii "csrf token missing or invalid")
  else if actor == .anonymous then .refused 401 (ascii "unauthorized")
  else
    match mux r.method r.path with
    | none => .unrouted
    | some route => requireAccess route actor

def Serves : Prop :=
  ∀ method path route, mux method path = some route →
    route ∈ mount ∧ (route.method = method ∨ route.method = ascii "GET" ∧ method = ascii "HEAD")
      ∧ ascii "/admin/" <+: path

end

structure Session where
  tokenHash : Key
  userID : ℕ
  csrfToken : Bytes
  expiresAt : ℤ
  revoked : Bool := false

structure User where
  role : Role
  isActive : Bool := true

structure APIToken extends TokenRow where
  scopes : List Bytes

structure Tables where
  storeClock : ℤ := 0
  sessions : List Session := []
  users : ℕ → Option User := fun _ => none
  tokens : Key → Option APIToken := fun _ => none

inductive Progress
  | authenticating
  | found (id : ℕ) (row : Session)
  | touching (id : ℕ) (row : Session) (role : Role)
  | done (session : Option ℕ) (outcome : Outcome)

structure AdminCall where
  request : AdminRequest
  progress : Progress
  before : Tables
  seen : List Tables

structure AdminPlane extends Tables where
  sessionTTL : ℤ := 0
  clock : ℤ := 0
  calls : ℕ → Option AdminCall := fun _ => none

inductive AdminEvent
  | tick (clock storeClock : ℤ)
  | createSession (tok : Bytes) (userID : ℕ) (csrf : Bytes) (ttl : ℤ)
  | revokeSession (tok : Bytes)
  | setUser (id : ℕ) (user : Option User)
  | createToken (hash : Key) (expiresAt : Option ℤ) (scopes : List Bytes)
  | revokeToken (hash : Key)
  | request (i : ℕ) (r : AdminRequest)
  | lookupAPIToken (i : ℕ) (fails : Bool)
  | lookupSession (i : ℕ) (fails : Bool)
  | lookupUser (i : ℕ) (fails : Bool)
  | touchSession (i : ℕ) (fails : Bool)

def Session.revoke (hash : Key) (row : Session) : Session :=
  if row.tokenHash = hash then { row with revoked := true } else row

def Session.touch (expires : ℤ) (row : Session) : Session :=
  if row.revoked then row else { row with expiresAt := expires }

def Tables.apiToken (t : Tables) (hash : Key) : Option APIToken :=
  (t.tokens hash).filter (fun row =>
    !row.revoked && row.expiresAt.all (fun expires => decide (t.storeClock < expires)))

def Tables.sessionOf (t : Tables) (hash : Key) : Option ℕ :=
  t.sessions.findIdx? (fun row =>
    row.tokenHash == hash && !row.revoked && decide (t.storeClock < row.expiresAt))

namespace AdminPlane

def ttl (s : AdminPlane) : ℤ := if 0 < s.sessionTTL then s.sessionTTL else 8 * 3600000000000

def goOn (s : AdminPlane) (i : ℕ) (c : AdminCall) (progress : Progress) : AdminPlane :=
  { s with
    calls := Function.update s.calls i (some { c with progress, seen := s.toTables :: c.seen }) }

def unauthorized (s : AdminPlane) (i : ℕ) (c : AdminCall) (failed : Bool) : AdminPlane :=
  s.goOn i c (.done none (.refused 401
    (if failed then ascii "authentication failed" else ascii "invalid or revoked credential")))

variable (tokenHash : Bytes → Key) (mux : Bytes → Bytes → Option Route)

def step (s : AdminPlane) : AdminEvent → Option AdminPlane
  | .tick clock storeClock => some { s with clock, storeClock }
  | .createSession tok userID csrf ttl =>
    -- `sessions_token_hash_uq`
    if s.sessions.any (fun row => row.tokenHash == tokenHash tok && !row.revoked) then none
    else some { s with
      sessions := s.sessions ++ [⟨tokenHash tok, userID, csrf, s.clock + ttl, false⟩] }
  | .revokeSession tok =>
    some { s with sessions := s.sessions.map (Session.revoke (tokenHash tok)) }
  | .setUser id user => some { s with users := Function.update s.users id user }
  | .createToken hash expiresAt scopes =>
    if (s.tokens hash).isSome then none
    else some { s with tokens := Function.update s.tokens hash (some ⟨⟨false, expiresAt⟩, scopes⟩) }
  | .revokeToken hash =>
    some { s with
      tokens := Function.update s.tokens hash
        ((s.tokens hash).map (fun row => { row with revoked := true })) }
  | .request i r =>
    if (s.calls i).isSome then none
    else
      some (s.goOn i ⟨r, .authenticating, s.toTables, []⟩
        (if r.pat = none ∧ r.session = [] then .done none (adminHandler mux r .anonymous [])
          else .authenticating))
  | .lookupAPIToken i fails => (s.calls i).bind (fun c =>
    match c.progress, c.request.pat with
    | .authenticating, some tok =>
      if fails then some (s.unauthorized i c true)
      else
        match s.apiToken (tokenHash tok) with
        | none => some (s.unauthorized i c false)
        | some row =>
          some (s.goOn i c (.done none (adminHandler mux c.request (.token row.scopes) [])))
    | _, _ => none)
  | .lookupSession i fails => (s.calls i).bind (fun c =>
    match c.progress, c.request.pat with
    | .authenticating, none =>
      if fails then some (s.unauthorized i c true)
      else
        match s.sessionOf (tokenHash c.request.session) with
        | none => some (s.unauthorized i c false)
        | some id => (s.sessions[id]?).map (fun row => s.goOn i c (.found id row))
    | _, _ => none)
  | .lookupUser i fails => (s.calls i).bind (fun c =>
    match c.progress with
    | .found id row =>
      match if fails then none else s.users row.userID with
      | none => some (s.unauthorized i c true)
      | some user =>
        if user.isActive then some (s.goOn i c (.touching id row user.role))
        else some (s.unauthorized i c false)
    | _ => none)
  | .touchSession i fails => (s.calls i).bind (fun c =>
    match c.progress with
    | .touching id row role =>
      -- an error is ignored
      let sessions := if fails then s.sessions
        else s.sessions.modify id (Session.touch (s.clock + s.ttl))
      some ({ s with sessions }.goOn i c
        (.done (some id) (adminHandler mux c.request (.user role) row.csrfToken)))
    | _ => none)

end AdminPlane

structure Tables.Later (t t' : Tables) : Prop where
  sessions : ∀ (id : ℕ) (r : Session), t.sessions[id]? = some r →
    ∃ r', t'.sessions[id]? = some r' ∧ (r.revoked = true → r'.revoked = true)
  tokens : ∀ hash k, t.tokens hash = some k →
    ∃ k', t'.tokens hash = some k' ∧ (k.revoked = true → k'.revoked = true)

theorem Session.revoked_revoke (hash : Key) {r : Session} (h : r.revoked = true) :
    (r.revoke hash).revoked = true := by
  rw [Session.revoke]
  split
  · rfl
  · exact h

theorem Session.revoked_touch (expires : ℤ) {r : Session} (h : r.revoked = true) :
    (r.touch expires).revoked = true := by
  rw [Session.touch, if_pos h]
  exact h

namespace Tables

variable {t t' t₁ t₂ t₃ : Tables}

theorem Later.refl (t : Tables) : t.Later t :=
  ⟨fun _ r hr => ⟨r, hr, id⟩, fun _ k hk => ⟨k, hk, id⟩⟩

theorem Later.trans (h : t₁.Later t₂) (h' : t₂.Later t₃) : t₁.Later t₃ := by
  refine ⟨fun id r hr => ?_, fun hash k hk => ?_⟩
  · obtain ⟨r₂, hr₂, hrev⟩ := h.sessions id r hr
    obtain ⟨r₃, hr₃, hrev'⟩ := h'.sessions id r₂ hr₂
    exact ⟨r₃, hr₃, fun hr => hrev' (hrev hr)⟩
  · obtain ⟨k₂, hk₂, hrev⟩ := h.tokens hash k hk
    obtain ⟨k₃, hk₃, hrev'⟩ := h'.tokens hash k₂ hk₂
    exact ⟨k₃, hk₃, fun hr => hrev' (hrev hr)⟩

theorem later_map {f : Session → Session}
    (hf : ∀ r : Session, r.revoked = true → (f r).revoked = true) :
    t.Later { t with sessions := t.sessions.map f } := by
  refine ⟨fun id r hr => ⟨f r, ?_, hf r⟩, (Later.refl t).tokens⟩
  rw [List.getElem?_map, hr, Option.map_some]

theorem later_modify (id : ℕ) {f : Session → Session}
    (hf : ∀ r : Session, r.revoked = true → (f r).revoked = true) :
    t.Later { t with sessions := t.sessions.modify id f } := by
  refine ⟨fun j r hr => ⟨if id = j then f r else r, ?_, fun hrev => ?_⟩, (Later.refl t).tokens⟩
  · rw [List.getElem?_modify, hr, Option.map_eq_map, Option.map_some]
  · split
    · exact hf r hrev
    · exact hrev

theorem later_append (row : Session) : t.Later { t with sessions := t.sessions ++ [row] } := by
  refine ⟨fun id r hr => ⟨r, ?_, fun hrev => hrev⟩, (Later.refl t).tokens⟩
  obtain ⟨hlt, -⟩ := List.getElem?_eq_some_iff.mp hr
  rw [List.getElem?_append_left hlt, hr]

theorem later_update {hash : Key} {row : Option APIToken}
    (h : ∀ k, t.tokens hash = some k →
      ∃ k', row = some k' ∧ (k.revoked = true → k'.revoked = true)) :
    t.Later { t with tokens := Function.update t.tokens hash row } := by
  refine ⟨(Later.refl t).sessions, fun hash' k hk => ?_⟩
  by_cases heq : hash' = hash
  · subst heq
    obtain ⟨k', hrow, hrev⟩ := h k hk
    exact ⟨k', (Function.update_self _ _ _).trans hrow, hrev⟩
  · exact ⟨k, (Function.update_of_ne heq _ _).trans hk, id⟩

end Tables

section
variable (tokenHash : Bytes → Key) (mux : Bytes → Bytes → Option Route)

structure AdminRequest.Holds (before : Tables) (seen : List Tables) (r : AdminRequest) (id : ℕ)
    (row : Session) : Prop where
  pat : r.pat = none
  tokenHash : row.tokenHash = tokenHash r.session
  kept : ∀ old, before.sessions[id]? = some old → old.revoked = false
  valid : row.revoked = false
    ∧ ∃ t ∈ seen, t.sessions[id]? = some row ∧ t.storeClock < row.expiresAt

def AdminRequest.Entitled (before : Tables) (seen : List Tables) (r : AdminRequest)
    (route : Route) : Option ℕ → Actor → Prop
  | some id, .user role =>
    route.allows (.user role) = true
      ∧ ∃ row, r.Holds tokenHash before seen id row
        ∧ (∃ t ∈ seen, t.users row.userID = some ⟨role, true⟩)
        ∧ (safeMethod r.method = false → row.csrfToken ≠ []
          ∧ Text.trimSpace r.csrfHeader = row.csrfToken ∧ r.csrfCookie = row.csrfToken)
  | none, .token scopes =>
    route.allows (.token scopes) = true
      ∧ ∃ tok, r.pat = some tok
        ∧ (∀ old, before.tokens (tokenHash tok) = some old → old.revoked = false)
        ∧ ∃ t ∈ seen, ∃ k, t.apiToken (tokenHash tok) = some k ∧ k.scopes = scopes
  | _, _ => False

def AdminCall.Fine (c : AdminCall) : Prop :=
  match c.progress with
  | .found id row => c.request.Holds tokenHash c.before c.seen id row
  | .touching id row role => c.request.Holds tokenHash c.before c.seen id row
    ∧ ∃ t ∈ c.seen, t.users row.userID = some ⟨role, true⟩
  | .done session (.served route actor) =>
    mux c.request.method c.request.path = some route
      ∧ c.request.Entitled tokenHash c.before c.seen route session actor
  | _ => True

def AdminPlane.Sound (s : AdminPlane) : Prop :=
  ∀ i c, s.calls i = some c → c.before.Later s.toTables ∧ c.Fine tokenHash mux

variable {tokenHash mux} {before t t' : Tables} {seen : List Tables} {c : AdminCall}
  {r : AdminRequest}

theorem AdminRequest.Holds.more {id : ℕ} {row : Session}
    (h : r.Holds tokenHash before seen id row) (t : Tables) :
    r.Holds tokenHash before (t :: seen) id row := by
  obtain ⟨hrevoked, t', ht', hrow⟩ := h.valid
  exact ⟨h.pat, h.tokenHash, h.kept, hrevoked, t', List.mem_cons_of_mem _ ht', hrow⟩

theorem adminHandler_served {actor actor' : Actor} {csrf : Bytes}
    {route : Route} (h : adminHandler mux r actor csrf = .served route actor') :
    actor' = actor ∧ csrfProtect r actor csrf = true ∧ mux r.method r.path = some route
      ∧ route.allows actor = true := by
  rw [adminHandler] at h
  split at h
  · cases h
  · next hcsrf =>
    split at h
    · cases h
    · next hactor =>
      split at h
      · cases h
      · next route' hroute =>
        rw [requireAccess, if_neg hactor] at h
        split at h
        · next hallows =>
          cases h
          exact ⟨rfl, by simpa using hcsrf, hroute, hallows⟩
        · cases h

theorem csrf_of_user (hmux : Serves mux) {role : Role} {csrf : Bytes}
    {route : Route} (hroute : mux r.method r.path = some route)
    (h : csrfProtect r (.user role) csrf = true) (hchanges : safeMethod r.method = false) :
    csrf ≠ [] ∧ Text.trimSpace r.csrfHeader = csrf ∧ r.csrfCookie = csrf := by
  have hexempt : csrfExemptPath r.path = false := by
    obtain ⟨-, -, t, ht⟩ := hmux _ _ _ hroute
    rw [← ht]
    rfl
  simp only [csrfProtect, hchanges, hexempt, validateCSRF, Bool.false_or, Bool.or_eq_true,
    Bool.and_eq_true, bne_iff_ne, beq_iff_eq, reduceCtorEq, false_or] at h
  obtain ⟨⟨⟨⟨hne, -⟩, hheader⟩, -⟩, hcookie⟩ := h
  exact ⟨hne, hheader, hcookie.trans hheader⟩

theorem AdminCall.fine_done {session : Option ℕ} {actor : Actor} {csrf : Bytes}
    (h : ∀ route, route.allows actor = true → csrfProtect c.request actor csrf = true →
      mux c.request.method c.request.path = some route →
      c.request.Entitled tokenHash c.before seen route session actor) :
    AdminCall.Fine tokenHash mux
      { c with progress := .done session (adminHandler mux c.request actor csrf), seen } := by
  cases hout : adminHandler mux c.request actor csrf with
  | refused status reason => trivial
  | unrouted => trivial
  | served route actor' =>
    obtain ⟨rfl, hcsrf, hroute, hallows⟩ := adminHandler_served hout
    exact ⟨hroute, h route hallows hcsrf hroute⟩

namespace AdminPlane.Sound

variable {s s' : AdminPlane} {i : ℕ}

theorem setTables (h : s.Sound tokenHash mux) (hlater : s.toTables.Later t') :
    AdminPlane.Sound tokenHash mux { s with toTables := t' } :=
  fun i c hc => ⟨(h i c hc).1.trans hlater, (h i c hc).2⟩

theorem goOn (h : s.Sound tokenHash mux) (hbefore : c.before.Later s.toTables)
    {progress : Progress}
    (hfine : AdminCall.Fine tokenHash mux { c with progress, seen := s.toTables :: c.seen }) :
    (s.goOn i c progress).Sound tokenHash mux := by
  intro j b hb
  rcases Parties.update_eq_some hb with ⟨-, heq⟩ | ⟨-, hb⟩
  · cases heq
    exact ⟨hbefore, hfine⟩
  · exact h j b hb

theorem lookupAPIToken (h : s.Sound tokenHash mux) (hbefore : c.before.Later s.toTables)
    {tok : Bytes} (hpat : c.request.pat = some tok) {row : APIToken}
    (hrow : s.apiToken (tokenHash tok) = some row) :
    (s.goOn i c (.done none (adminHandler mux c.request (.token row.scopes) []))).Sound
      tokenHash mux := by
  refine h.goOn hbefore (AdminCall.fine_done (fun route hallows _ _ => ?_))
  refine ⟨hallows, tok, hpat, fun k hk => ?_, s.toTables, List.mem_cons_self, row, hrow, rfl⟩
  -- had it been revoked before, it would be now
  obtain ⟨htokens, hvalid⟩ := Option.filter_eq_some_iff.mp hrow
  obtain ⟨row', hrow', hrevoked⟩ := hbefore.tokens _ k hk
  cases htokens.symm.trans hrow'
  by_contra hk
  rw [hrevoked (by simpa using hk)] at hvalid
  cases hvalid

theorem lookupSession (h : s.Sound tokenHash mux) (hbefore : c.before.Later s.toTables)
    (hpat : c.request.pat = none) {id : ℕ} {row : Session}
    (hid : s.sessionOf (tokenHash c.request.session) = some id)
    (hrow : s.sessions[id]? = some row) :
    (s.goOn i c (.found id row)).Sound tokenHash mux := by
  have hvalid : (row.tokenHash = tokenHash c.request.session ∧ row.revoked = false)
      ∧ s.storeClock < row.expiresAt := by
    obtain ⟨hlt, hp, -⟩ := List.findIdx?_eq_some_iff_getElem.mp hid
    obtain ⟨_, hget⟩ := List.getElem?_eq_some_iff.mp hrow
    rw [hget] at hp
    simpa only [Bool.and_eq_true, beq_iff_eq, Bool.not_eq_true', decide_eq_true_eq] using hp
  obtain ⟨⟨hhash, hrevoked⟩, hexpires⟩ := hvalid
  refine h.goOn hbefore ⟨hpat, hhash, fun r hr => ?_, hrevoked, s.toTables,
    List.mem_cons_self, hrow, hexpires⟩
  obtain ⟨row', hrow', hlater⟩ := hbefore.sessions id r hr
  cases hrow.symm.trans hrow'
  by_contra hrev
  rw [hlater (by simpa using hrev)] at hrevoked
  cases hrevoked

theorem lookupUser (h : s.Sound tokenHash mux) (hbefore : c.before.Later s.toTables)
    {id : ℕ} {row : Session} (hholds : c.request.Holds tokenHash c.before c.seen id row)
    {user : User} (huser : s.users row.userID = some user) (hactive : user.isActive = true) :
    (s.goOn i c (.touching id row user.role)).Sound tokenHash mux := by
  refine h.goOn hbefore ⟨hholds.more _, s.toTables, List.mem_cons_self, huser.trans ?_⟩
  obtain ⟨role, isActive⟩ := user
  cases hactive
  rfl

theorem touchSession (hmux : Serves mux) (h : s.Sound tokenHash mux)
    (hbefore : c.before.Later s.toTables) {id : ℕ} {row : Session} {role : Role}
    (hholds : c.request.Holds tokenHash c.before c.seen id row)
    (huser : ∃ t ∈ c.seen, t.users row.userID = some ⟨role, true⟩) :
    (s.goOn i c (.done (some id)
      (adminHandler mux c.request (.user role) row.csrfToken))).Sound tokenHash mux := by
  obtain ⟨t, ht, hrole⟩ := huser
  exact h.goOn hbefore (AdminCall.fine_done (fun _ hallows hcsrf hroute =>
    ⟨hallows, row, hholds.more _, ⟨t, List.mem_cons_of_mem _ ht, hrole⟩,
      csrf_of_user hmux hroute hcsrf⟩))

theorem step (hmux : Serves mux) (h : s.Sound tokenHash mux) {e : AdminEvent}
    (hs : s.step tokenHash mux e = some s') : s'.Sound tokenHash mux := by
  cases e with
  | tick clock storeClock =>
    cases hs
    exact h.setTables ⟨(Tables.Later.refl _).sessions, (Tables.Later.refl _).tokens⟩
  | createSession tok userID csrf ttl =>
    simp only [AdminPlane.step, Option.ite_none_left_eq_some] at hs
    cases hs.2
    exact h.setTables (Tables.later_append _)
  | revokeSession tok =>
    cases hs
    exact h.setTables (Tables.later_map (fun _ => Session.revoked_revoke _))
  | setUser id user =>
    cases hs
    exact h.setTables ⟨(Tables.Later.refl _).sessions, (Tables.Later.refl _).tokens⟩
  | createToken hash expiresAt scopes =>
    simp only [AdminPlane.step, Option.ite_none_left_eq_some] at hs
    obtain ⟨hnew, heq⟩ := hs
    cases heq
    exact h.setTables (Tables.later_update (fun k hk => absurd (by simp [hk]) hnew))
  | revokeToken hash =>
    cases hs
    exact h.setTables (Tables.later_update (fun k hk =>
      ⟨{ k with revoked := true }, by rw [hk, Option.map_some], fun _ => rfl⟩))
  | request i r =>
    simp only [AdminPlane.step, Option.ite_none_left_eq_some] at hs
    cases hs.2
    refine h.goOn (.refl _) ?_
    split
    · exact AdminCall.fine_done (fun _ hallows => by cases hallows)
    · trivial
  | lookupAPIToken i fails =>
    obtain ⟨c, hc, hs⟩ := Option.bind_eq_some_iff.mp hs
    have hbefore := (h i c hc).1
    split at hs
    · next tok _ hpat =>
      split at hs
      · cases hs
        exact h.goOn hbefore trivial
      · split at hs
        · cases hs
          exact h.goOn hbefore trivial
        · next row hrow =>
          cases hs
          exact h.lookupAPIToken hbefore hpat hrow
    · cases hs
  | lookupSession i fails =>
    obtain ⟨c, hc, hs⟩ := Option.bind_eq_some_iff.mp hs
    have hbefore := (h i c hc).1
    split at hs
    · next _ hpat =>
      split at hs
      · cases hs
        exact h.goOn hbefore trivial
      · split at hs
        · cases hs
          exact h.goOn hbefore trivial
        · next id hid =>
          obtain ⟨row, hrow, rfl⟩ := Option.map_eq_some_iff.mp hs
          exact h.lookupSession hbefore hpat hid hrow
    · cases hs
  | lookupUser i fails =>
    obtain ⟨c, hc, hs⟩ := Option.bind_eq_some_iff.mp hs
    obtain ⟨hbefore, hfine⟩ := h i c hc
    split at hs
    · next id row hprogress =>
      rw [AdminCall.Fine, hprogress] at hfine
      split at hs
      · cases hs
        exact h.goOn hbefore trivial
      · next user huser =>
        split at hs
        · next hactive =>
          cases hs
          exact h.lookupUser hbefore hfine (Option.ite_none_left_eq_some.mp huser).2 hactive
        · cases hs
          exact h.goOn hbefore trivial
    · cases hs
  | touchSession i fails =>
    obtain ⟨c, hc, hs⟩ := Option.bind_eq_some_iff.mp hs
    obtain ⟨hbefore, hfine⟩ := h i c hc
    split at hs
    · next id row role hprogress =>
      rw [AdminCall.Fine, hprogress] at hfine
      cases hs
      have hlater : s.toTables.Later { s.toTables with
          sessions := if fails then s.sessions
            else s.sessions.modify id (Session.touch (s.clock + s.ttl)) } := by
        split
        · exact .refl _
        · exact Tables.later_modify id (fun _ => Session.revoked_touch _)
      exact (h.setTables hlater).touchSession hmux (hbefore.trans hlater) hfine.1 hfine.2
    · cases hs

end AdminPlane.Sound

/-- **A request that reaches a handler is entitled to it**, whatever happens to sessions, users
and tokens at the same time. What changes anything takes the role of an administrator, or a
token for writing. -/
theorem admin_requests_mediated (hmux : Serves mux) {s s' : AdminPlane}
    (hstart : s.calls = fun _ => none) {es : List AdminEvent}
    (hrun : run (AdminPlane.step tokenHash mux) s es = some s') {i : ℕ} {c : AdminCall}
    (hcall : s'.calls i = some c) {session : Option ℕ} {route : Route} {actor : Actor}
    (hserved : c.progress = .done session (.served route actor)) :
    c.request.Entitled tokenHash c.before c.seen route session actor
      ∧ route ∈ mount
      ∧ (safeMethod c.request.method = false →
        route.minRole = .admin ∧ route.tokenScope = ascii "admin:write") := by
  have h0 : s.Sound tokenHash mux := by
    intro i c hc
    rw [hstart] at hc
    cases hc
  have hsound := invariant_of_step (fun s e s' h hs => h.step hmux hs) h0 hrun
  have hfine := (hsound i c hcall).2
  rw [AdminCall.Fine, hserved] at hfine
  obtain ⟨hroute, hentitled⟩ := hfine
  obtain ⟨hmem, hmethod, -⟩ := hmux _ _ _ hroute
  refine ⟨hentitled, hmem, fun hchanges => ?_⟩
  have hroutes : ∀ r ∈ mount, safeMethod r.method = true
      ∨ (r.minRole = .admin ∧ r.tokenScope = ascii "admin:write") := by decide
  rcases hmethod with heq | ⟨-, heq⟩
  · exact (hroutes route hmem).resolve_left (by simp [heq, hchanges])
  · rw [heq] at hchanges
    cases hchanges

end

private def oneRoute (method path : Bytes) : Option Route :=
  if method = ascii "POST" ∧ path = ascii "/admin/api/v1/imports" then
    some (apiRoute "POST" "imports" .admin "admin:write")
  else none

private theorem serves_oneRoute : Serves oneRoute := by
  intro method path route h
  obtain ⟨⟨rfl, rfl⟩, hroute⟩ := Option.ite_none_right_eq_some.mp h
  cases hroute
  exact ⟨by decide, .inl rfl, ascii "api/v1/imports", by decide⟩

/-- An administrator with a session starts an import. -/
theorem admin_requests_mediated_import : ∃ s c,
    run (AdminPlane.step (fun _ => .replicate 32 0) oneRoute) {}
        [.setUser 7 (some ⟨.admin, true⟩), .createSession [1] 7 [2] 10,
          .request 0 ⟨ascii "POST", ascii "/admin/api/v1/imports", [], [1], [2], [2]⟩,
          .lookupSession 0 false, .lookupUser 0 false, .touchSession 0 false] = some s
      ∧ s.calls 0 = some c
      ∧ c.request.Entitled (fun _ => .replicate 32 0) c.before c.seen
        (apiRoute "POST" "imports" .admin "admin:write") (some 0) (.user .admin) := by
  have hrun : run (AdminPlane.step (fun _ => .replicate 32 0) oneRoute) {}
      [.setUser 7 (some ⟨.admin, true⟩), .createSession [1] 7 [2] 10,
        .request 0 ⟨ascii "POST", ascii "/admin/api/v1/imports", [], [1], [2], [2]⟩,
        .lookupSession 0 false, .lookupUser 0 false, .touchSession 0 false] = some _ := rfl
  refine ⟨_, _, hrun, rfl, ?_⟩
  exact (admin_requests_mediated serves_oneRoute rfl hrun
    (show AdminPlane.calls _ 0 = some _ from rfl)
    (show _ = Progress.done (some 0) (.served _ _) from rfl)).1

end Auth
