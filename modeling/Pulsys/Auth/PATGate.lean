import Mathlib.Algebra.Order.Ring.Int
import Pulsys.Base.Parties
import Pulsys.Base.Runs
import Pulsys.Base.Text

/-!
# Revoking an access token

To revoke a token the handler marks it in the store and then drops its hash from the gate.
A check that has asked before the one and fills the cache after the other brings it back;
`revocation_is_final` says that this is all that can go wrong.
-/

namespace Auth

open Bytes Text Runs

abbrev Key := Vector UInt8 32

def gateAllow : List Bytes := [ascii "/healthz", ascii "/readyz", ascii "/metrics"]

def bearerFromBytes (auth : Bytes) : Option Bytes :=
  if auth.length < (ascii "Bearer ").length then none
  else if toLower (auth.take (ascii "Bearer ").length) ≠ toLower (ascii "Bearer ") then none
  else
    let tok := Text.trimSpace (auth.drop (ascii "Bearer ").length)
    if tok = [] then none else some tok

def isPAT (tok : Bytes) : Bool := (ascii "pulsys_").isPrefixOf tok

inductive Stage
  | looking (tok : Bytes)
  | missed (tok : Bytes)
  | found (tok : Bytes)
  | returned (status : ℕ) (reason : Bytes)
  deriving DecidableEq

structure Check where
  stage : Stage
  late : Bool
  deriving DecidableEq

structure TokenRow where
  revoked : Bool := false
  expiresAt : Option ℤ := none
  deriving DecidableEq

structure Gate where
  positiveTTL : ℤ := 0
  clock : ℤ := 0
  storeClock : ℤ := 0
  cache : Key → Option ℤ := fun _ => none
  tokens : Key → Option TokenRow := fun _ => none
  closed : Key → Bool := fun _ => false
  checks : ℕ → Option Check := fun _ => none

inductive Event
  | tick (clock storeClock : ℤ)
  | createToken (hash : Key) (expiresAt : Option ℤ)
  | revokeToken (hash : Key)
  | invalidateByHash (hash : Bytes)
  | start (i : ℕ) (auth path : Bytes)
  | lookupCached (i : ℕ)
  | lookupAPIToken (i : ℕ) (fails : Bool)
  | storeCached (i : ℕ)

def Gate.ttl (g : Gate) : ℤ := if 0 < g.positiveTTL then g.positiveTTL else 60000000000

def Gate.finds (g : Gate) (hash : Key) : Bool :=
  (g.tokens hash).any (fun row =>
    !row.revoked && row.expiresAt.all (fun expires => decide (g.storeClock < expires)))

def Gate.revoked (g : Gate) (hash : Key) : Bool := (g.tokens hash).any TokenRow.revoked

section
variable (tokenHash : Bytes → Key)

def startStage (auth path : Bytes) : Stage :=
  if gateAllow.contains path then .returned 0 []
  else
    match bearerFromBytes auth with
    | none => .returned 401 (ascii "missing Authorization (expected Bearer pulsys_...)")
    | some tok =>
      if isPAT tok then .looking tok
      else .returned 401 (ascii "unsupported credential (expected Bearer pulsys_...)")

def Gate.comesLate (g : Gate) (auth path : Bytes) : Bool :=
  !gateAllow.contains path
    && (bearerFromBytes auth).any (fun tok => g.closed (tokenHash tok))

def Gate.goOn (g : Gate) (i : ℕ) (c : Check) (stage : Stage) : Gate :=
  { g with checks := Function.update g.checks i (some { c with stage }) }

def step (g : Gate) : Event → Option Gate
  | .tick clock storeClock => some { g with clock, storeClock }
  | .createToken hash expiresAt =>
    -- `tokens_hash_uq`
    if (g.tokens hash).isSome then none
    else some { g with tokens := Function.update g.tokens hash (some { expiresAt }) }
  | .revokeToken hash =>
    some { g with
      tokens := Function.update g.tokens hash
        ((g.tokens hash).map (fun row => { row with revoked := true })) }
  | .invalidateByHash hash =>
    if h : hash.length = 32 then
      let key : Key := ⟨hash.toArray, h⟩
      some { g with
        cache := Function.update g.cache key none
        closed := Function.update g.closed key (g.closed key || g.revoked key) }
    else some g
  | .start i auth path =>
    if (g.checks i).isSome then none
    else some { g with
      checks := Function.update g.checks i
        (some ⟨startStage auth path, g.comesLate tokenHash auth path⟩) }
  | .lookupCached i => (g.checks i).bind (fun c =>
    match c.stage with
    | .looking tok =>
      match g.cache (tokenHash tok) with
      | none => some (g.goOn i c (.missed tok))
      | some expires =>
        if expires < g.clock then
          some ({ g with cache := Function.update g.cache (tokenHash tok) none }.goOn i c
            (.missed tok))
        else some (g.goOn i c (.returned 0 []))
    | _ => none)
  | .lookupAPIToken i fails => (g.checks i).bind (fun c =>
    match c.stage with
    | .missed tok =>
      if fails then some (g.goOn i c (.returned 401 (ascii "authentication failed")))
      else if g.finds (tokenHash tok) then some (g.goOn i c (.found tok))
      else some (g.goOn i c (.returned 401 (ascii "invalid or revoked token")))
    | _ => none)
  | .storeCached i => (g.checks i).bind (fun c =>
    match c.stage with
    | .found tok =>
      some ({ g with
        cache := Function.update g.cache (tokenHash tok) (some (g.clock + g.ttl)) }.goOn i c
          (.returned 0 []))
    | _ => none)

def Final (g : Gate) : Prop :=
  ∀ i c, g.checks i = some c → c.late = true → ∀ reason, c.stage ≠ .returned 0 reason

def Undisturbed (g : Gate) : Event → Prop
  | .invalidateByHash hash =>
    ∀ i c tok, g.checks i = some c → c.stage = .found tok → (tokenHash tok).toList ≠ hash
  | _ => True

def Fine (closed : Key → Bool) (c : Check) : Prop :=
  match c.stage with
  | .looking tok | .missed tok => c.late = true → closed (tokenHash tok) = true
  | .found tok => c.late = false ∧ closed (tokenHash tok) = false
  | .returned status _ => c.late = true → status ≠ 0

structure Shut (g : Gate) : Prop where
  revoked : ∀ hash, g.closed hash = true → g.revoked hash = true
  uncached : ∀ hash, g.closed hash = true → g.cache hash = none
  checks : ∀ i c, g.checks i = some c → Fine tokenHash g.closed c

variable {tokenHash}

theorem Shut.final {g : Gate} (h : Shut tokenHash g) : Final g := by
  intro i c hc hlate reason hstage
  have hfine := h.checks i c hc
  rw [Fine, hstage] at hfine
  exact hfine hlate rfl

theorem Gate.finds_eq_false {g : Gate} {hash : Key} (h : g.revoked hash = true) :
    g.finds hash = false := by
  rw [Gate.revoked] at h
  rw [Gate.finds]
  cases hrow : g.tokens hash with
  | none => rfl
  | some row =>
    rw [hrow, Option.any_some] at h
    simp [h]

theorem fine_start (g : Gate) (auth path : Bytes) :
    Fine tokenHash g.closed ⟨startStage auth path, g.comesLate tokenHash auth path⟩ := by
  rw [startStage]
  split
  · next hpath =>
    intro hlate
    simp only [Gate.comesLate, hpath, Bool.not_true, Bool.false_and] at hlate
    cases hlate
  · split
    · exact fun _ h => by cases h
    · next tok htok =>
      split
      · intro hlate
        simp only [Gate.comesLate, htok, Option.any_some, Bool.and_eq_true] at hlate
        exact hlate.2
      · exact fun _ h => by cases h

theorem Fine.close {closed : Key → Bool} {c : Check} (h : Fine tokenHash closed c) {key : Key}
    {b : Bool} (hb : closed key = true → b = true)
    (hfound : ∀ tok, c.stage = .found tok → tokenHash tok ≠ key) :
    Fine tokenHash (Function.update closed key b) c := by
  -- what is closed remains so
  have hmono : ∀ hash, closed hash = true → Function.update closed key b hash = true := by
    intro hash hclosed
    by_cases heq : hash = key
    · subst heq
      rw [Function.update_self]
      exact hb hclosed
    · rwa [Function.update_of_ne heq]
  rw [Fine] at h ⊢
  cases hstage : c.stage with
  | looking tok =>
    rw [hstage] at h
    exact fun hlate => hmono _ (h hlate)
  | missed tok =>
    rw [hstage] at h
    exact fun hlate => hmono _ (h hlate)
  | found tok =>
    rw [hstage] at h
    refine ⟨h.1, ?_⟩
    rw [Function.update_of_ne (hfound tok hstage)]
    exact h.2
  | returned status reason =>
    rw [hstage] at h
    exact h

namespace Shut

variable {g : Gate}

theorem goOn (h : Shut tokenHash g) {i : ℕ} {c : Check} {stage : Stage}
    (hfine : Fine tokenHash g.closed { c with stage }) : Shut tokenHash (g.goOn i c stage) :=
  ⟨h.revoked, h.uncached, Parties.each_change h.checks hfine⟩

theorem setCache (h : Shut tokenHash g) {key : Key} {entry : Option ℤ}
    (hentry : g.closed key = true → entry = none) :
    Shut tokenHash { g with cache := Function.update g.cache key entry } := by
  refine ⟨h.revoked, fun hash hclosed => ?_, h.checks⟩
  by_cases heq : hash = key
  · subst heq
    exact (Function.update_self _ _ _).trans (hentry hclosed)
  · exact (Function.update_of_ne heq _ _).trans (h.uncached hash hclosed)

theorem setToken (h : Shut tokenHash g) {key : Key} {row : Option TokenRow}
    (hrow : g.revoked key = true → row.any TokenRow.revoked = true) :
    Shut tokenHash { g with tokens := Function.update g.tokens key row } := by
  refine ⟨fun hash hclosed => ?_, h.uncached, h.checks⟩
  have hold := h.revoked hash hclosed
  show (Function.update g.tokens key row hash).any TokenRow.revoked = true
  by_cases heq : hash = key
  · subst heq
    rw [Function.update_self]
    exact hrow hold
  · rwa [Function.update_of_ne heq]

theorem invalidate (h : Shut tokenHash g) {key : Key}
    (hfound : ∀ i c tok, g.checks i = some c → c.stage = .found tok → tokenHash tok ≠ key) :
    Shut tokenHash { g with
      cache := Function.update g.cache key none
      closed := Function.update g.closed key (g.closed key || g.revoked key) } := by
  refine ⟨fun hash hclosed => ?_, fun hash hclosed => ?_, fun i c hc => ?_⟩
  · change Function.update g.closed key (g.closed key || g.revoked key) hash = true at hclosed
    by_cases heq : hash = key
    · subst heq
      rw [Function.update_self, Bool.or_eq_true] at hclosed
      exact hclosed.elim (h.revoked hash) id
    · rw [Function.update_of_ne heq] at hclosed
      exact h.revoked hash hclosed
  · change Function.update g.closed key (g.closed key || g.revoked key) hash = true at hclosed
    by_cases heq : hash = key
    · subst heq
      exact Function.update_self _ _ _
    · rw [Function.update_of_ne heq] at hclosed
      exact (Function.update_of_ne heq _ _).trans (h.uncached hash hclosed)
  · exact (h.checks i c hc).close (fun hclosed => by rw [hclosed]; rfl) (hfound i c · hc)

theorem step {e : Event} {g' : Gate} (h : Shut tokenHash g) (hcond : Undisturbed tokenHash g e)
    (hs : step tokenHash g e = some g') : Shut tokenHash g' := by
  cases e with
  | tick clock storeClock =>
    cases hs
    exact ⟨h.revoked, h.uncached, h.checks⟩
  | createToken hash expiresAt =>
    rw [Auth.step] at hs
    split at hs
    · cases hs
    · next hnone =>
      cases hs
      refine h.setToken (fun hrevoked => ?_)
      rw [Gate.revoked, Option.not_isSome_iff_eq_none.mp hnone] at hrevoked
      cases hrevoked
  | revokeToken hash =>
    cases hs
    refine h.setToken (fun hrevoked => ?_)
    rw [Gate.revoked] at hrevoked
    cases hrow : g.tokens hash with
    | none =>
      rw [hrow] at hrevoked
      cases hrevoked
    | some row => rfl
  | invalidateByHash hash =>
    rw [Auth.step] at hs
    split at hs
    · next hlen =>
      cases hs
      refine h.invalidate (fun i c tok hc hstage heq => hcond i c tok hc hstage ?_)
      rw [heq]
      rfl
    · cases hs
      exact h
  | start i auth path =>
    rw [Auth.step] at hs
    split at hs
    · cases hs
    · cases hs
      exact ⟨h.revoked, h.uncached, Parties.each_change h.checks (fine_start g auth path)⟩
  | lookupCached i =>
    obtain ⟨c, hc, hs⟩ := Option.bind_eq_some_iff.mp hs
    have hfine := h.checks i c hc
    rw [Fine] at hfine
    split at hs
    · next tok hstage =>
      rw [hstage] at hfine
      split at hs
      · cases hs
        exact h.goOn hfine
      · next expires hcache =>
        split at hs
        · cases hs
          exact (h.setCache (fun _ => rfl)).goOn hfine
        · -- a late check's token is not in the cache
          cases hs
          refine h.goOn (fun hlate => ?_)
          rw [h.uncached _ (hfine hlate)] at hcache
          cases hcache
    · cases hs
  | lookupAPIToken i fails =>
    obtain ⟨c, hc, hs⟩ := Option.bind_eq_some_iff.mp hs
    have hfine := h.checks i c hc
    rw [Fine] at hfine
    split at hs
    · next tok hstage =>
      rw [hstage] at hfine
      split at hs
      · cases hs
        exact h.goOn (fun _ h => by cases h)
      · split at hs
        · next hfinds =>
          -- what the store finds is not revoked, and so not closed
          cases hs
          have hopen : g.closed (tokenHash tok) = false := by
            refine Bool.eq_false_iff.mpr (fun hclosed => ?_)
            rw [Gate.finds_eq_false (h.revoked _ hclosed)] at hfinds
            cases hfinds
          refine h.goOn ⟨Bool.eq_false_iff.mpr (fun hlate => ?_), hopen⟩
          rw [hfine hlate] at hopen
          cases hopen
        · cases hs
          exact h.goOn (fun _ h => by cases h)
    · cases hs
  | storeCached i =>
    obtain ⟨c, hc, hs⟩ := Option.bind_eq_some_iff.mp hs
    have hfine := h.checks i c hc
    rw [Fine] at hfine
    split at hs
    · next tok hstage =>
      rw [hstage] at hfine
      cases hs
      refine (h.setCache (fun hclosed => ?_)).goOn (fun hlate => ?_)
      · rw [hfine.2] at hclosed
        cases hclosed
      · rw [hfine.1] at hlate
        cases hlate
    · cases hs

end Shut

/-- **Revocation is final**, in every run in which no hash is dropped while a check that has
found its token is still to fill the cache. -/
theorem revocation_is_final (tokenHash : Bytes → Key) (positiveTTL clock storeClock : ℤ)
    (cache : Key → Option ℤ) (tokens : Key → Option TokenRow) (es : List Event)
    (h : Meets (step tokenHash) (Undisturbed tokenHash)
      { positiveTTL, clock, storeClock, cache, tokens } es) :
    Throughout (step tokenHash) Final { positiveTTL, clock, storeClock, cache, tokens } es := by
  have h0 : Shut tokenHash { positiveTTL, clock, storeClock, cache, tokens } := by
    constructor
    case revoked =>
      intro _ hclosed
      cases hclosed
    case uncached =>
      intro _ hclosed
      cases hclosed
    case checks =>
      intro _ _ hc
      cases hc
  exact (throughout_of_meets (fun _ _ _ hi hc hs => hi.step hc hs) h0 h).imp
    (fun _ hi => hi.final)

end

private def firstBytes (tok : Bytes) : Key := Vector.ofFn (fun i : Fin 32 => tok.getD i 0)

private def header : Bytes := ascii "Bearer pulsys_1"

private def token : Bytes := ascii "pulsys_1"

private def oneToken : Gate :=
  { tokens := Function.update (fun _ => none) (firstBytes token) (some {}) }

private def orderlyRevocation : List Event :=
  [.start 0 header (ascii "/x"), .lookupCached 0, .lookupAPIToken 0 false, .storeCached 0,
    .revokeToken (firstBytes token), .invalidateByHash (firstBytes token).toList,
    .start 1 header (ascii "/x"), .lookupCached 1, .lookupAPIToken 1 false]

theorem revocation_is_final_orderly :
    (∃ g ∈ run (step firstBytes) oneToken orderlyRevocation, g.checks 1
        = some ⟨.returned 401 (ascii "invalid or revoked token"), true⟩)
      ∧ Throughout (step firstBytes) Final oneToken orderlyRevocation := by
  refine ⟨⟨_, rfl, by decide +kernel⟩, revocation_is_final _ _ _ _ _ _ _ ?_⟩
  refine ⟨trivial, fun g₁ h₁ => ⟨trivial, fun g₂ h₂ => ⟨trivial, fun g₃ h₃ => ⟨trivial,
    fun g₄ h₄ => ⟨trivial, fun g₅ h₅ => ⟨?_, fun _ _ => ⟨trivial, fun _ _ => ⟨trivial,
      fun _ _ => ⟨trivial, fun _ _ => trivial⟩⟩⟩⟩⟩⟩⟩⟩⟩
  -- when the hash is dropped, the one check has returned
  cases h₁
  cases h₂
  cases h₃
  cases h₄
  cases h₅
  intro i c tok hc hstage
  by_cases hi : i = 0
  · subst hi
    cases hc
    cases hstage
  · simp only [Gate.goOn, Function.update_of_ne hi] at hc
    cases hc

/-- **A check that fills the cache late brings the token back.** -/
theorem revoked_token_admitted :
    ∃ g ∈ run (step firstBytes) oneToken
        [.start 0 header (ascii "/x"), .lookupCached 0, .lookupAPIToken 0 false,
          .revokeToken (firstBytes token), .invalidateByHash (firstBytes token).toList,
          .storeCached 0, .start 1 header (ascii "/x"), .lookupCached 1],
      ¬ Final g := by
  obtain ⟨g, hg, hc⟩ : ∃ g ∈ run (step firstBytes) oneToken
      [.start 0 header (ascii "/x"), .lookupCached 0, .lookupAPIToken 0 false,
        .revokeToken (firstBytes token), .invalidateByHash (firstBytes token).toList,
        .storeCached 0, .start 1 header (ascii "/x"), .lookupCached 1],
      g.checks 1 = some ⟨.returned 0 [], true⟩ := ⟨_, rfl, by decide +kernel⟩
  exact ⟨g, hg, fun hfinal => hfinal 1 _ hc rfl [] rfl⟩

end Auth
