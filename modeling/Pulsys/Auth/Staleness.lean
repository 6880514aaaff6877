import Pulsys.Auth.PATGate

/-!
# How stale the gate may be

The gate believes a hash for a while after the store has found it. As long as no two tokens
that turn up have one hash (`Mirrors`), whoever is admitted has shown a token that was good
at some time in the last `PositiveTTL` (`admitted_was_accepted`).
-/

namespace Auth

open Bytes Text Runs

inductive LookupError
  | invalidSession
  | failed
  deriving DecidableEq, Repr

namespace Gate

section
variable (tokenHash : Bytes → Key)

def lookupCached (g : Gate) (tok : Bytes) : Bool × Gate :=
  match g.cache (tokenHash tok) with
  | none => (false, g)
  | some expires =>
    if expires < g.clock then
      (false, { g with cache := Function.update g.cache (tokenHash tok) none })
    else (true, g)

def lookupAPIToken (g : Gate) (tok : Bytes) (fails : Bool) : Option LookupError :=
  if isPAT tok = false then some .invalidSession
  else if fails then some .failed
  else if g.finds (tokenHash tok) then none
  else some .invalidSession

def storeCached (g : Gate) (tok : Bytes) : Gate :=
  { g with cache := Function.update g.cache (tokenHash tok) (some (g.clock + g.ttl)) }

def check (g : Gate) (auth path : Bytes) (fails : Bool) : (ℕ × Bytes) × Gate :=
  if gateAllow.contains path then ((0, []), g)
  else
    match bearerFromBytes auth with
    | none => ((401, ascii "missing Authorization (expected Bearer pulsys_...)"), g)
    | some tok =>
      if isPAT tok = false then
        ((401, ascii "unsupported credential (expected Bearer pulsys_...)"), g)
      else
        let looked := g.lookupCached tokenHash tok
        if looked.1 then ((0, []), looked.2)
        else
          match looked.2.lookupAPIToken tokenHash tok fails with
          | some .invalidSession => ((401, ascii "invalid or revoked token"), looked.2)
          | some .failed => ((401, ascii "authentication failed"), looked.2)
          | none => ((0, []), looked.2.storeCached tokenHash tok)

variable {tokenHash} {g : Gate} {auth path tok : Bytes} {fails : Bool}

theorem lookupCached_frame (g : Gate) (tok : Bytes) :
    (g.lookupCached tokenHash tok).2
      = { g with cache := (g.lookupCached tokenHash tok).2.cache } := by
  unfold lookupCached
  split
  · rfl
  · split
    · rfl
    · rfl

theorem check_frame (g : Gate) (auth path : Bytes) (fails : Bool) :
    (g.check tokenHash auth path fails).2
      = { g with cache := (g.check tokenHash auth path fails).2.cache } := by
  unfold check
  split
  · rfl
  split
  · rfl
  split
  · rfl
  next tok _ _ =>
    dsimp only
    split
    · exact lookupCached_frame g tok
    split
    · exact lookupCached_frame g tok
    · exact lookupCached_frame g tok
    · -- `storeCached` after `lookupCached`
      unfold storeCached
      rw [lookupCached_frame g tok]

variable {key : Key} {expires : ℤ}

theorem cache_lookupCached (h : (g.lookupCached tokenHash tok).2.cache key = some expires) :
    g.cache key = some expires := by
  unfold lookupCached at h
  split at h
  · exact h
  split at h
  · by_cases hkey : key = tokenHash tok
    · rw [hkey] at h
      cases (Function.update_self _ _ _).symm.trans h
    · exact (Function.update_of_ne hkey _ _).symm.trans h
  · exact h

theorem cache_storeCached (h : (g.storeCached tokenHash tok).cache key = some expires) :
    key = tokenHash tok ∧ expires = g.clock + g.ttl ∨ g.cache key = some expires := by
  change Function.update g.cache (tokenHash tok) (some (g.clock + g.ttl)) key = some expires at h
  by_cases hkey : key = tokenHash tok
  · rw [hkey, Function.update_self] at h
    exact .inl ⟨hkey, (Option.some.inj h).symm⟩
  · rw [Function.update_of_ne hkey] at h
    exact .inr h

theorem finds_lookupCached (g : Gate) (tok : Bytes) (hash : Key) :
    (g.lookupCached tokenHash tok).2.finds hash = g.finds hash := by
  rw [lookupCached_frame]
  rfl

theorem lookupAPIToken_eq_none (h : g.lookupAPIToken tokenHash tok fails = none) :
    g.finds (tokenHash tok) = true := by
  unfold lookupAPIToken at h
  split at h
  · cases h
  split at h
  · cases h
  split at h
  · next hfinds => exact hfinds
  · cases h

theorem cache_check (h : (g.check tokenHash auth path fails).2.cache key = some expires) :
    g.cache key = some expires ∨ g.finds key = true ∧ expires = g.clock + g.ttl := by
  unfold check at h
  split at h
  · exact .inl h
  split at h
  · exact .inl h
  split at h
  · exact .inl h
  next tok _ _ =>
    dsimp only at h
    split at h
    · exact .inl (cache_lookupCached h)
    split at h
    · exact .inl (cache_lookupCached h)
    · exact .inl (cache_lookupCached h)
    · next hlookup =>
      have hfinds := (finds_lookupCached g tok _).symm.trans (lookupAPIToken_eq_none hlookup)
      rcases cache_storeCached h with ⟨rfl, hentry⟩ | hold
      · rw [lookupCached_frame g tok] at hentry
        exact .inr ⟨hfinds, hentry⟩
      · exact .inl (cache_lookupCached hold)

theorem admitted_check (hpath : gateAllow.contains path = false)
    (h : (g.check tokenHash auth path fails).1.1 = 0) :
    ∃ tok, bearerFromBytes auth = some tok ∧ isPAT tok = true
      ∧ ((∃ expires, g.cache (tokenHash tok) = some expires ∧ g.clock ≤ expires)
        ∨ g.finds (tokenHash tok) = true) := by
  unfold check at h
  rw [if_neg (by rw [hpath]; decide)] at h
  split at h
  · cases h
  next tok hbearer =>
    split at h
    · cases h
    next hpat =>
      refine ⟨tok, hbearer, Bool.eq_true_of_not_eq_false hpat, ?_⟩
      dsimp only at h
      split at h
      · next hhit =>
        unfold lookupCached at hhit
        split at hhit
        · cases hhit
        next expires hentry =>
          split at hhit
          · cases hhit
          · next hlive => exact .inl ⟨expires, hentry, not_lt.mp hlive⟩
      split at h
      · cases h
      · cases h
      · next hlookup =>
        exact .inr ((finds_lookupCached g tok _).symm.trans (lookupAPIToken_eq_none hlookup))

end

end Gate

section
variable {tokenHash : Bytes → Key} {g : Gate} {i : ℕ} {late : Bool} {tok : Bytes}

def Gate.having (g : Gate) (i : ℕ) (late : Bool) (stage : Stage) : Gate :=
  { g with checks := Function.update g.checks i (some ⟨stage, late⟩) }

theorem Gate.goOn_having (g : Gate) (i : ℕ) (late : Bool) (stage stage' : Stage) :
    (g.having i late stage).goOn i ⟨stage, late⟩ stage' = g.having i late stage' := by
  unfold Gate.goOn Gate.having
  dsimp only
  rw [Function.update_idem]

theorem checks_having (g : Gate) (i : ℕ) (late : Bool) (stage : Stage) :
    (g.having i late stage).checks i = some ⟨stage, late⟩ :=
  Function.update_self _ _ _

theorem step_start (hfree : g.checks i = none) (auth path : Bytes) :
    step tokenHash g (.start i auth path)
      = some (g.having i (g.comesLate tokenHash auth path) (startStage auth path)) := by
  rw [step, hfree]
  rfl

theorem step_lookupCached :
    step tokenHash (g.having i late (.looking tok)) (.lookupCached i)
      = some ((g.lookupCached tokenHash tok).2.having i late
        (if (g.lookupCached tokenHash tok).1 then .returned 0 [] else .missed tok)) := by
  have hcache : (g.having i late (.looking tok)).cache (tokenHash tok) = g.cache (tokenHash tok) :=
    rfl
  unfold step
  dsimp only
  rw [checks_having, Option.bind_some]
  dsimp only
  rw [hcache]
  cases hentry : g.cache (tokenHash tok) with
  | none =>
    have hlooked : g.lookupCached tokenHash tok = (false, g) := by
      rw [Gate.lookupCached, hentry]
    rw [hlooked]
    exact congrArg some (g.goOn_having i late _ _)
  | some expires =>
    by_cases hgone : expires < g.clock
    · have hlooked : g.lookupCached tokenHash tok
          = (false, { g with cache := Function.update g.cache (tokenHash tok) none }) := by
        rw [Gate.lookupCached, hentry]
        exact if_pos hgone
      rw [hlooked]
      exact (if_pos hgone).trans (congrArg some (Gate.goOn_having
        { g with cache := Function.update g.cache (tokenHash tok) none } i late (.looking tok) _))
    · have hlooked : g.lookupCached tokenHash tok = (true, g) := by
        rw [Gate.lookupCached, hentry]
        exact if_neg hgone
      rw [hlooked]
      exact (if_neg hgone).trans (congrArg some (g.goOn_having i late _ _))

theorem step_lookupAPIToken (hpat : isPAT tok = true) (fails : Bool) :
    step tokenHash (g.having i late (.missed tok)) (.lookupAPIToken i fails)
      = some (g.having i late (match g.lookupAPIToken tokenHash tok fails with
        | some .invalidSession => .returned 401 (ascii "invalid or revoked token")
        | some .failed => .returned 401 (ascii "authentication failed")
        | none => .found tok)) := by
  have hfinds : (g.having i late (.missed tok)).finds (tokenHash tok) = g.finds (tokenHash tok) :=
    rfl
  unfold step Gate.lookupAPIToken
  dsimp only
  rw [checks_having, Option.bind_some, hpat, if_neg (by decide)]
  dsimp only
  rw [hfinds]
  cases fails with
  | true => exact congrArg some (g.goOn_having i late _ _)
  | false =>
    cases g.finds (tokenHash tok) with
    | true => exact congrArg some (g.goOn_having i late _ _)
    | false => exact congrArg some (g.goOn_having i late _ _)

theorem step_storeCached :
    step tokenHash (g.having i late (.found tok)) (.storeCached i)
      = some ((g.storeCached tokenHash tok).having i late (.returned 0 [])) := by
  unfold step
  dsimp only
  rw [checks_having, Option.bind_some]
  exact congrArg some ((g.storeCached tokenHash tok).goOn_having i late _ _)

end

theorem check_is_run (tokenHash : Bytes → Key) {g : Gate} {i : ℕ} (hfree : g.checks i = none)
    (auth path : Bytes) (fails : Bool) :
    ∃ es, run (step tokenHash) g es = some ((g.check tokenHash auth path fails).2.having i
      (g.comesLate tokenHash auth path) (.returned (g.check tokenHash auth path fails).1.1
        (g.check tokenHash auth path fails).1.2)) := by
  have hstart := @step_start tokenHash g i hfree auth path
  unfold startStage at hstart
  unfold Gate.check
  by_cases hpath : gateAllow.contains path = true
  · rw [if_pos hpath] at hstart ⊢
    exact ⟨[.start i auth path], run_cons.mpr ⟨_, hstart, rfl⟩⟩
  rw [if_neg hpath] at hstart ⊢
  cases hbearer : bearerFromBytes auth with
  | none =>
    rw [hbearer] at hstart
    exact ⟨[.start i auth path], run_cons.mpr ⟨_, hstart, rfl⟩⟩
  | some tok =>
    rw [hbearer] at hstart
    dsimp only at hstart ⊢
    cases hpat : isPAT tok with
    | false =>
      rw [hpat] at hstart
      exact ⟨[.start i auth path], run_cons.mpr ⟨_, hstart, rfl⟩⟩
    | true =>
      rw [hpat, if_pos rfl] at hstart
      rw [if_neg (by decide)]
      have hlook := @step_lookupCached tokenHash g i (g.comesLate tokenHash auth path) tok
      cases hhit : (g.lookupCached tokenHash tok).1 with
      | true =>
        rw [hhit, if_pos rfl] at hlook
        rw [if_pos rfl]
        exact ⟨[.start i auth path, .lookupCached i],
          run_cons.mpr ⟨_, hstart, run_cons.mpr ⟨_, hlook, rfl⟩⟩⟩
      | false =>
        rw [hhit, if_neg (by decide)] at hlook
        rw [if_neg (by decide)]
        have hask := @step_lookupAPIToken tokenHash (g.lookupCached tokenHash tok).2 i
          (g.comesLate tokenHash auth path) tok hpat fails
        cases hfound : (g.lookupCached tokenHash tok).2.lookupAPIToken tokenHash tok fails with
        | none =>
          rw [hfound] at hask
          exact ⟨[.start i auth path, .lookupCached i, .lookupAPIToken i fails, .storeCached i],
            run_cons.mpr ⟨_, hstart, run_cons.mpr ⟨_, hlook, run_cons.mpr ⟨_, hask,
              run_cons.mpr ⟨_, step_storeCached, rfl⟩⟩⟩⟩⟩
        | some err =>
          rw [hfound] at hask
          cases err with
          | invalidSession =>
            exact ⟨[.start i auth path, .lookupCached i, .lookupAPIToken i fails],
              run_cons.mpr ⟨_, hstart, run_cons.mpr ⟨_, hlook, run_cons.mpr ⟨_, hask, rfl⟩⟩⟩⟩
          | failed =>
            exact ⟨[.start i auth path, .lookupCached i, .lookupAPIToken i fails],
              run_cons.mpr ⟨_, hstart, run_cons.mpr ⟨_, hlook, run_cons.mpr ⟨_, hask, rfl⟩⟩⟩⟩

theorem check_is_run_unknown :
    ∃ es, run (step (fun _ => .replicate 32 0)) {} es
      = some (Gate.having {} 0 false (.returned 401 (ascii "invalid or revoked token"))) :=
  check_is_run _ rfl (ascii "Bearer pulsys_1") (ascii "/x") false

def Presents (auth tok : Bytes) : Prop :=
  ∃ (scheme : Bytes) (front back : List Bytes), toLower scheme = ascii "bearer "
    ∧ (∀ p ∈ front ++ back, p ∈ spaces)
    ∧ auth = scheme ++ (front.flatten ++ (tok ++ back.flatten))

theorem presents_of_bearerFromBytes {auth tok : Bytes} (h : bearerFromBytes auth = some tok) :
    Presents auth tok := by
  unfold bearerFromBytes at h
  obtain ⟨-, h⟩ := Option.ite_none_left_eq_some.mp h
  obtain ⟨hscheme, h⟩ := Option.ite_none_left_eq_some.mp h
  obtain ⟨-, h⟩ := Option.ite_none_left_eq_some.mp h
  cases h
  obtain ⟨front, back, hspaces, hrest⟩ := trimSpace_split (auth.drop (ascii "Bearer ").length)
  refine ⟨auth.take (ascii "Bearer ").length, front, back, not_not.mp hscheme, hspaces, ?_⟩
  rw [← hrest, List.take_append_drop]

structure Handed where
  gate : Gate
  issued : Bytes → Option TokenRow := fun _ => none

inductive GateCall
  | tick (clock storeClock : ℤ)
  | createToken (tok : Bytes) (expiresAt : Option ℤ)
  | revokeToken (tok : Bytes)
  | invalidateByHash (hash : Bytes)
  | check (auth path : Bytes) (fails : Bool)

def GateCall.token : GateCall → Option Bytes
  | .tick _ _ => none
  | .createToken tok _ => some tok
  | .revokeToken tok => some tok
  | .invalidateByHash _ => none
  | .check auth _ _ => bearerFromBytes auth

namespace Handed

def accepts (s : Handed) (tok : Bytes) : Bool :=
  isPAT tok && (s.issued tok).any (fun row =>
    !row.revoked && row.expiresAt.all (fun expires => decide (s.gate.storeClock < expires)))

section
variable (tokenHash : Bytes → Key)

def call (s : Handed) : GateCall → Option Handed
  | .tick clock storeClock =>
    if s.gate.clock ≤ clock then
      (step tokenHash s.gate (.tick clock storeClock)).map ({ s with gate := · })
    else none
  | .createToken tok expiresAt =>
    (step tokenHash s.gate (.createToken (tokenHash tok) expiresAt)).map
      (⟨·, Function.update s.issued tok (some { expiresAt })⟩)
  | .revokeToken tok =>
    (step tokenHash s.gate (.revokeToken (tokenHash tok))).map
      (⟨·, Function.update s.issued tok
        ((s.issued tok).map (fun row => { row with revoked := true }))⟩)
  | .invalidateByHash hash =>
    (step tokenHash s.gate (.invalidateByHash hash)).map ({ s with gate := · })
  | .check auth path fails => some { s with gate := (s.gate.check tokenHash auth path fails).2 }

variable {tokenHash} {s s' : Handed}

variable {e : GateCall}

theorem call_cases (hs : s.call tokenHash e = some s') :
    (∃ clock storeClock, s.gate.clock ≤ clock
        ∧ s' = { s with gate := { s.gate with clock, storeClock } })
      ∨ (∃ tok ∈ e.token, ∃ row row', (s.gate.tokens (tokenHash tok) = s.issued tok → row = row')
        ∧ s' = ⟨{ s.gate with tokens := Function.update s.gate.tokens (tokenHash tok) row },
          Function.update s.issued tok row'⟩)
      ∨ (∃ cache closed, (∀ key expires, cache key = some expires →
          s.gate.cache key = some expires)
        ∧ s' = { s with gate := { s.gate with cache, closed } })
      ∨ ∃ auth path fails, s' = { s with gate := (s.gate.check tokenHash auth path fails).2 } := by
  cases e with
  | tick clock storeClock =>
    obtain ⟨hle, hs⟩ := Option.ite_none_right_eq_some.mp hs
    cases hs
    exact .inl ⟨clock, storeClock, hle, rfl⟩
  | createToken tok expiresAt =>
    obtain ⟨g', hg, rfl⟩ := Option.map_eq_some_iff.mp hs
    obtain ⟨-, hg⟩ := Option.ite_none_left_eq_some.mp hg
    cases hg
    exact .inr (.inl ⟨tok, rfl, _, _, fun _ => rfl, rfl⟩)
  | revokeToken tok =>
    cases hs
    exact .inr (.inl ⟨tok, rfl, _, _, congrArg _, rfl⟩)
  | invalidateByHash hash =>
    obtain ⟨g', hg, rfl⟩ := Option.map_eq_some_iff.mp hs
    rw [step] at hg
    split at hg
    · next hlen =>
      cases hg
      refine .inr (.inr (.inl ⟨_, _, fun key expires h => ?_, rfl⟩))
      by_cases hkey : key = ⟨hash.toArray, hlen⟩
      · subst hkey
        cases (Function.update_self _ _ _).symm.trans h
      · exact (Function.update_of_ne hkey _ _).symm.trans h
    · cases hg
      exact .inr (.inr (.inl ⟨_, _, fun _ _ h => h, rfl⟩))
  | check auth path fails =>
    cases hs
    exact .inr (.inr (.inr ⟨auth, path, fails, rfl⟩))

theorem call_frame (hs : s.call tokenHash e = some s') :
    s'.gate.positiveTTL = s.gate.positiveTTL ∧ s.gate.clock ≤ s'.gate.clock := by
  rcases call_cases hs with ⟨_, _, hle, rfl⟩ | ⟨_, -, _, _, -, rfl⟩ | ⟨_, _, -, rfl⟩
    | ⟨auth, path, fails, rfl⟩
  · exact ⟨rfl, hle⟩
  · exact ⟨rfl, le_rfl⟩
  · exact ⟨rfl, le_rfl⟩
  · dsimp only
    rw [Gate.check_frame]
    exact ⟨rfl, le_rfl⟩

theorem run_frame {es : List GateCall} (hrun : run (call tokenHash) s es = some s') :
    s'.gate.positiveTTL = s.gate.positiveTTL ∧ s.gate.clock ≤ s'.gate.clock := by
  have hstep : ∀ (s₁ : Handed) (e : GateCall) (s₂ : Handed),
      s₁.gate.positiveTTL = s.gate.positiveTTL ∧ s.gate.clock ≤ s₁.gate.clock →
      s₁.call tokenHash e = some s₂ →
      s₂.gate.positiveTTL = s.gate.positiveTTL ∧ s.gate.clock ≤ s₂.gate.clock := by
    rintro s₁ e s₂ ⟨hsame, hle⟩ hs
    obtain ⟨hsame₁, hle₁⟩ := call_frame hs
    exact ⟨hsame₁.trans hsame, hle.trans hle₁⟩
  exact invariant_of_step hstep ⟨rfl, le_rfl⟩ hrun

theorem cache_call (hs : s.call tokenHash e = some s') {key : Key} {expires : ℤ}
    (h : s'.gate.cache key = some expires) :
    s.gate.cache key = some expires
      ∨ s.gate.finds key = true ∧ expires = s.gate.clock + s.gate.ttl := by
  rcases call_cases hs with ⟨_, _, -, rfl⟩ | ⟨_, -, _, _, -, rfl⟩ | ⟨_, _, hdropped, rfl⟩
    | ⟨auth, path, fails, rfl⟩
  · exact .inl h
  · exact .inl h
  · exact .inl (hdropped key expires h)
  · exact Gate.cache_check h

variable {T : Set Bytes}

def Mirrors (tokenHash : Bytes → Key) (T : Set Bytes) (s : Handed) : Prop :=
  ∀ tok ∈ T, s.gate.tokens (tokenHash tok) = s.issued tok

theorem Mirrors.update (hinj : Set.InjOn tokenHash T) (h : Mirrors tokenHash T s) {tok : Bytes}
    (htok : tok ∈ T) {g : Gate} {row row' : Option TokenRow}
    (hg : g.tokens = Function.update s.gate.tokens (tokenHash tok) row) (hrow : row = row') :
    Mirrors tokenHash T ⟨g, Function.update s.issued tok row'⟩ := by
  intro tok' htok'
  show g.tokens (tokenHash tok') = Function.update s.issued tok row' tok'
  rw [hg]
  by_cases heq : tok' = tok
  · rw [heq, Function.update_self, Function.update_self, hrow]
  · have hhash : tokenHash tok' ≠ tokenHash tok := fun hsame => heq (hinj htok' htok hsame)
    rw [Function.update_of_ne hhash, Function.update_of_ne heq]
    exact h tok' htok'

theorem Mirrors.call (hinj : Set.InjOn tokenHash T) (h : Mirrors tokenHash T s)
    (he : ∀ tok ∈ e.token, tok ∈ T) (hs : s.call tokenHash e = some s') :
    Mirrors tokenHash T s' := by
  rcases call_cases hs with ⟨_, _, -, rfl⟩ | ⟨tok, htok, row, row', hrow, rfl⟩ | ⟨_, _, -, rfl⟩
    | ⟨auth, path, fails, rfl⟩
  · exact h
  · exact h.update hinj (he tok htok) rfl (hrow (h tok (he tok htok)))
  · exact h
  · intro tok htok
    dsimp only
    rw [Gate.check_frame]
    exact h tok htok

theorem Mirrors.run (hinj : Set.InjOn tokenHash T) (h : Mirrors tokenHash T s)
    {es : List GateCall} (hes : ∀ e ∈ es, ∀ tok ∈ e.token, tok ∈ T)
    (hrun : run (Handed.call tokenHash) s es = some s') : Mirrors tokenHash T s' := by
  have hstep : ∀ (s₁ : Handed) (e : GateCall) (s₂ : Handed), Mirrors tokenHash T s₁ →
      (∀ tok ∈ e.token, tok ∈ T) ∧ True → s₁.call tokenHash e = some s₂ →
      Mirrors tokenHash T s₂ := fun _ _ _ hm he hs => hm.call hinj he.1 hs
  exact invariant hstep h ((meets_true s es).and_of_forall hes) hrun

theorem Mirrors.accepts_of_finds (h : Mirrors tokenHash T s) {tok : Bytes} (htok : tok ∈ T)
    (hpat : isPAT tok = true) (hfinds : s.gate.finds (tokenHash tok) = true) :
    s.accepts tok = true := by
  rw [Gate.finds, h tok htok] at hfinds
  rw [accepts, hpat, hfinds]
  rfl

def start (positiveTTL clock storeClock : ℤ) : Handed :=
  ⟨{ positiveTTL, clock, storeClock }, fun _ => none⟩

/-- **Bounded staleness.** Whoever is admitted has shown a token that the store accepted in
the last `PositiveTTL`, if the hash tells apart the tokens that turned up. -/
theorem admitted_was_accepted (tokenHash : Bytes → Key) (positiveTTL clock storeClock : ℤ)
    (es : List GateCall) {s : Handed}
    (hrun : run (call tokenHash) (start positiveTTL clock storeClock) es = some s)
    (auth path : Bytes) (fails : Bool)
    (hinj : Set.InjOn tokenHash
      {tok | ∃ e ∈ GateCall.check auth path fails :: es, e.token = some tok})
    (hpath : gateAllow.contains path = false)
    (hstatus : (s.gate.check tokenHash auth path fails).1.1 = 0) :
    ∃ tok s₁, bearerFromBytes auth = some tok ∧ Presents auth tok
      ∧ Visits (call tokenHash) (start positiveTTL clock storeClock) es s₁
      ∧ s₁.accepts tok = true
      ∧ s.gate.clock - (start positiveTTL clock storeClock).gate.ttl ≤ s₁.gate.clock
      ∧ s₁.gate.clock ≤ s.gate.clock := by
  obtain ⟨tok, hbearer, hpat, hfrom⟩ := Gate.admitted_check hpath hstatus
  have hmem : ∃ e ∈ GateCall.check auth path fails :: es, e.token = some tok :=
    ⟨_, List.mem_cons_self, hbearer⟩
  have hstart : Mirrors tokenHash {tok | ∃ e ∈ GateCall.check auth path fails :: es,
      e.token = some tok} (start positiveTTL clock storeClock) := fun _ _ => rfl
  rcases hfrom with ⟨expires, hentry, hlive⟩ | hfinds
  · -- the entry was made when the store had found the token
    have hsteps : ∀ (s : Handed) (e : GateCall) (s' : Handed) (entry : Key × ℤ),
        s.call tokenHash e = some s' → s'.gate.cache entry.1 = some entry.2 →
        s.gate.cache entry.1 = some entry.2
          ∨ s.gate.finds entry.1 = true ∧ entry.2 = s.gate.clock + s.gate.ttl :=
      fun s e s' entry hs h => cache_call hs h
    have hmade := @had_or_made _ _ _ _ (fun s (entry : Key × ℤ) =>
      s.gate.cache entry.1 = some entry.2) _ hsteps _ _ _ hrun (tokenHash tok, expires) hentry
    rcases hmade with hnone | ⟨s₁, hvisits, hfound, hexpires⟩
    · cases hnone
    obtain ⟨es₁, hpre, hto⟩ := hvisits
    obtain ⟨es₂, hrest⟩ := Visits.run_rest ⟨es₁, hpre, hto⟩ hrun
    obtain ⟨hsame, -⟩ := run_frame hto
    obtain ⟨-, hle⟩ := run_frame hrest
    have haccepts := (hstart.run hinj (fun e he tok htok =>
      ⟨e, List.mem_cons_of_mem _ (hpre.subset he), htok⟩) hto).accepts_of_finds hmem hpat hfound
    have httl : s₁.gate.ttl = (start positiveTTL clock storeClock).gate.ttl := by
      rw [Gate.ttl, Gate.ttl, hsame]
    refine ⟨tok, s₁, hbearer, presents_of_bearerFromBytes hbearer, ⟨es₁, hpre, hto⟩, haccepts, ?_,
      hle⟩
    rw [← httl]
    omega
  · -- the store has just found the token
    have haccepts := (hstart.run hinj (fun e he tok htok =>
      ⟨e, List.mem_cons_of_mem _ he, htok⟩) hrun).accepts_of_finds hmem hpat hfinds
    have httl : 0 ≤ (start positiveTTL clock storeClock).gate.ttl := by
      unfold Gate.ttl
      split
      · omega
      · decide
    refine ⟨tok, s, hbearer, presents_of_bearerFromBytes hbearer, ⟨es, List.prefix_rfl, hrun⟩,
      haccepts, ?_, le_rfl⟩
    omega

end

private def leading (tok : Bytes) : Key := Vector.ofFn (fun i : Fin 32 => tok.getD i 0)

private def revokedMeanwhile : List GateCall :=
  [.createToken (ascii "pulsys_1") none, .check (ascii "Bearer pulsys_1") (ascii "/x") false,
    .revokeToken (ascii "pulsys_1"), .tick 60000000000 60000000000]

theorem admitted_was_accepted_minute_ago :
    ∃ s, run (call leading) (start 0 0 0) revokedMeanwhile = some s
      ∧ s.accepts (ascii "pulsys_1") = false
      ∧ (s.gate.check leading (ascii "bearer  pulsys_1 ") (ascii "/x") false).1.1 = 0
      ∧ ∃ tok s₁, bearerFromBytes (ascii "bearer  pulsys_1 ") = some tok
        ∧ Presents (ascii "bearer  pulsys_1 ") tok
        ∧ Visits (call leading) (start 0 0 0) revokedMeanwhile s₁ ∧ s₁.accepts tok = true
        ∧ s.gate.clock - (start 0 0 0).gate.ttl ≤ s₁.gate.clock
        ∧ s₁.gate.clock ≤ s.gate.clock := by
  have hone : ∀ e ∈ GateCall.check (ascii "bearer  pulsys_1 ") (ascii "/x") false
      :: revokedMeanwhile, ∀ tok ∈ e.token, tok = ascii "pulsys_1" := by decide +kernel
  refine ⟨_, rfl, by decide +kernel, by decide +kernel,
    admitted_was_accepted leading 0 0 0 revokedMeanwhile rfl (ascii "bearer  pulsys_1 ")
      (ascii "/x") false ?_ (by decide) (by decide +kernel)⟩
  rintro a ⟨e, he, ha⟩ b ⟨e', he', hb⟩ -
  rw [hone e he a ha, hone e' he' b hb]

end Handed

end Auth
