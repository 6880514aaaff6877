import Pulsys.Cache.Growth
import Pulsys.Proxy.Filing
import Pulsys.Proxy.Serve

/-!
# Whether aliases are sound

An alias is asked for by a commit and answered from the slot of a name, which moves.
`Steady` is the condition under which the answer is of that commit: a slot such an alias
points at holds responses of one origin only, and its body is not cut.

The answer is read at three times: the alias, the entry it points at, and the bytes. What
carries the argument over the time between is that steady steps take nothing away (`Grows`) and
keep the slots that aliases for the request point at of one origin (`Inv`).
-/

namespace Proxy

open Bytes Cache

def Fetch.SameOrigin (f g : Fetch) : Prop :=
  f.target.host = g.target.host ∧ f.target.path = g.target.path ∧ f.commit = g.commit

instance (f g : Fetch) : Decidable (f.SameOrigin g) :=
  inferInstanceAs (Decidable (_ ∧ _ ∧ _))

def Fetch.IsOf (f : Fetch) (host : Bytes) (p : ResolvePath) : Prop :=
  f.target.host = host ∧ f.commit = p.rev ∧ ∃ rev, f.target.path = p.pathAt rev

theorem Fetch.IsOf.of_sameOrigin {f g : Fetch} {host : Bytes} {p : ResolvePath}
    (h : g.IsOf host p) (hsame : f.SameOrigin g) : f.IsOf host p := by
  obtain ⟨hhost, hpath, hcommit⟩ := hsame
  obtain ⟨hhost', hcommit', rev, hpath'⟩ := h
  exact ⟨hhost.trans hhost', hcommit.trans hcommit', rev, hpath.trans hpath'⟩

namespace State

variable {sha256 : Bytes → Bytes} {interval : ℤ}

def AllFiled (st : State) (key : Bytes) (P : Fetch → Prop) : Prop :=
  (∀ id < (st.slots key).nextResponse, P (st.fetches key id)) ∧ ∀ f ∈ st.redirects key, P f

instance (st : State) (key : Bytes) (P : Fetch → Prop) [DecidablePred P] :
    Decidable (st.AllFiled key P) :=
  inferInstanceAs (Decidable (_ ∧ _))

/-! ## The condition -/

def AgreesWithAliases (sha256 : Bytes → Bytes) (t : Target) (st : State) (f : Fetch) : Prop :=
  ∀ w ∈ st.aliases, w.aliasKey = t.key sha256 → w.canonicalKey = f.key sha256 →
    f.SameOrigin w.fetch

def Steady (sha256 : Bytes → Bytes) (t : Target) (K : List Bytes) (st : State) : Action → Prop
  | .streamCacheable f => st.AgreesWithAliases sha256 t f
  | .segment key e => key ∈ K → (st.slots key).CutsNothing e
  | .cacheRedirect f true => st.AgreesWithAliases sha256 t f
  | .cacheRedirect _ false => True
  | .maybeWriteRevAlias i => ∀ d ∈ st.due[i]?, ∀ r ∈ Proxy.maybeWriteRevAlias sha256 d.2 d.1,
      r.1 = t.key sha256 → (aliasMeta r.2 (st.loadMeta r.1)).isSome →
      d.1 ∈ K ∧ d.2.target.host = t.host ∧ r.2.path = t.path ∧ SLASH ∉ d.2.commit
        ∧ st.AllFiled d.1 (fun f => f.SameOrigin d.2)

instance (t : Target) (st : State) (f : Fetch) :
    Decidable (st.AgreesWithAliases sha256 t f) :=
  inferInstanceAs (Decidable (∀ w ∈ st.aliases, _ → _ → _))

instance (t : Target) (K : List Bytes) (st : State) :
    (a : Action) → Decidable (st.Steady sha256 t K a)
  | .streamCacheable f | .cacheRedirect f true =>
    inferInstanceAs (Decidable (st.AgreesWithAliases sha256 t f))
  | .segment key e => inferInstanceAs (Decidable (key ∈ K → (st.slots key).CutsNothing e))
  | .cacheRedirect _ false => isTrue trivial
  | .maybeWriteRevAlias i => inferInstanceAs (Decidable (∀ d ∈ st.due[i]?,
      ∀ r ∈ Proxy.maybeWriteRevAlias sha256 d.2 d.1, _ → _ → _ ∧ _ ∧ _ ∧ _ ∧ _))

/-! ## The invariant -/

structure SlotInv (K : List Bytes) (aliases : List Written) (redirects : List Fetch)
    (key : Bytes) (s : Slot) : Prop where
  whole : key ∈ K → s.Whole
  alias_written : ∀ m, s.entry = some m → m.aliasOf ≠ [] →
    ∃ w ∈ aliases, w.aliasKey = key ∧ w.canonicalKey = m.aliasOf
  redirect_stored : ∀ m, s.entry = some m → m.location ≠ [] →
    ∃ f ∈ redirects, f.redirect.valid = true ∧ f.redirect.location = m.location
      ∧ f.redirect.status = m.statusCode

theorem slotInv_empty (K : List Bytes) (key : Bytes) : SlotInv K [] [] key Slot.empty where
  whole := fun _ => Slot.whole_empty
  alias_written := by simp [Slot.empty]
  redirect_stored := by simp [Slot.empty]

variable {K : List Bytes} {aliases : List Written} {redirects : List Fetch} {key : Bytes} {s s' : Slot} {f : Fetch}
  {st st' : State} {t : Target}

theorem SlotInv.mono {aliases' : List Written} (h : SlotInv K aliases redirects key s)
    (hsub : aliases ⊆ aliases') : SlotInv K aliases' redirects key s := by
  refine ⟨h.whole, fun m hm halias => ?_, h.redirect_stored⟩
  obtain ⟨w, hw, hkey⟩ := h.alias_written m hm halias
  exact ⟨w, hsub hw, hkey⟩

theorem SlotInv.segment {e : Cache.Event} (h : SlotInv K aliases redirects key s)
    (hs : s.step key interval e = some s') (hseg : e.isSegment = true)
    (hcut : key ∈ K → s.CutsNothing e) : SlotInv K aliases redirects key s' := by
  have hfil := Event.isFiling_of_isSegment hseg
  have hne : ∀ a, e ≠ .storeAlias a := by
    rintro a rfl
    cases hseg
  refine ⟨fun hk => (h.whole hk).step hs hfil (hcut hk), fun m' hm' halias => ?_, fun m' hm' hloc => ?_⟩
  · obtain ⟨m, hm, heq⟩ := Slot.aliasOf_step hfil hne hs hm' halias
    rw [← heq] at halias ⊢
    exact h.alias_written m hm halias
  · obtain ⟨m, hm, heq, hstatus⟩ := Slot.location_step hseg hs hm' hloc
    obtain ⟨f, hf, hvalid, hl, hst⟩ := h.redirect_stored m hm (heq ▸ hloc)
    -- the status on record is one of a redirect, so it stays
    have hred : isCacheableRedirectStatus m.statusCode = true := by
      rw [← hst]
      exact (Bool.and_eq_true_iff.mp hvalid).1
    exact ⟨f, hf, hvalid, hl.trans heq, hst.trans (hstatus hred).symm⟩

theorem SlotInv.redirect (h : SlotInv K aliases redirects key s)
    (hs : s.step key interval (.redirect f.redirect) = some s') :
    SlotInv K aliases (f :: redirects) key s' := by
  refine ⟨fun hk => (h.whole hk).step hs rfl trivial, fun m' hm' halias => ?_, fun m' hm' hloc => ?_⟩
  · obtain ⟨m, hm, heq⟩ := Slot.aliasOf_step rfl (fun a ha => by cases ha) hs hm' halias
    rw [← heq] at halias ⊢
    exact h.alias_written m hm halias
  · cases Slot.steps_of_step hs with
    | redirect hv =>
      cases hm'
      exact ⟨f, List.mem_cons_self, hv, rfl, rfl⟩

theorem SlotInv.storeAlias {a : Alias} {m : Meta} (h : SlotInv K aliases redirects key s)
    (hm : aliasMeta a s.entry = some m) (hs : s.step key interval (.storeAlias a) = some s') :
    SlotInv K (⟨key, a.canonicalKey, f⟩ :: aliases) redirects key s' := by
  have hentry : s'.entry = some m := by
    cases Slot.steps_of_step hs
    show (aliasMeta a s.entry).or s.entry = some m
    rw [hm, Option.some_or]
  have hnew : m = a.newMeta := by
    unfold aliasMeta at hm
    split at hm
    · exact (Option.some.inj hm).symm
    · exact (Option.some.inj (Option.ite_none_left_eq_some.mp hm).2).symm
  refine ⟨fun hk => (h.whole hk).step hs rfl trivial, fun m' hm' halias => ?_, fun m' hm' hloc => ?_⟩
  · cases hentry.symm.trans hm'
    exact ⟨_, List.mem_cons_self, rfl, by rw [hnew]; rfl⟩
  · cases hentry.symm.trans hm'
    rw [hnew] at hloc
    exact absurd rfl hloc

structure Inv (sha256 : Bytes → Bytes) (t : Target) (K : List Bytes) (st : State) : Prop where
  slot : ∀ key, SlotInv K st.aliases (st.redirects key) key (st.slots key)
  aliased : ∀ w ∈ st.aliases, w.aliasKey = t.key sha256 →
    w.canonicalKey ∈ K ∧ w.fetch.target.host = t.host
      ∧ resolveRevAliasPath w.fetch.target.path w.fetch.commit = some t.path
      ∧ SLASH ∉ w.fetch.commit ∧ st.AllFiled w.canonicalKey (fun f => f.SameOrigin w.fetch)

theorem inv_empty (t : Target) (K : List Bytes) : Inv sha256 t K State.empty where
  slot := slotInv_empty K
  aliased := by simp [State.empty]

theorem AllFiled.setSlot {k : Bytes} {P : Fetch → Prop} (h : st.AllFiled k P)
    (hs : s.nextResponse = (st.slots key).nextResponse) : (st.setSlot key s).AllFiled k P := by
  refine ⟨fun id hid => h.1 id ?_, h.2⟩
  have heq : (Function.update st.slots key s k).nextResponse = (st.slots k).nextResponse := by
    by_cases hk : k = key
    · subst hk
      rw [Function.update_self, hs]
    · rw [Function.update_of_ne hk]
  rw [← heq]
  exact hid

theorem AllFiled.addFetch {k : Bytes} {P : Fetch → Prop} (h : st.AllFiled k P)
    (hf : k = key → P f) (hs : s.nextResponse = (st.slots key).nextResponse + 1) :
    ((st.addFetch key f).setSlot key s).AllFiled k P := by
  refine ⟨fun id hid => ?_, h.2⟩
  show P (Function.update st.fetches key _ k id)
  have hid' : id < (Function.update st.slots key s k).nextResponse := hid
  by_cases hk : k = key
  · subst hk
    rw [Function.update_self, hs] at hid'
    rw [Function.update_self]
    by_cases hlast : id = (st.slots k).nextResponse
    · rw [hlast, Function.update_self]
      exact hf rfl
    · rw [Function.update_of_ne hlast]
      exact h.1 id (by omega)
  · rw [Function.update_of_ne hk] at hid' ⊢
    exact h.1 id hid'

theorem Inv.streamCacheable (h : Inv sha256 t K st) {p : SegmentParams}
    (hagree : st.AgreesWithAliases sha256 t f)
    (hs : (st.slots (f.key sha256)).step (f.key sha256) interval (.beginSegment p) = some s) :
    Inv sha256 t K ((st.addFetch (f.key sha256) f).setSlot (f.key sha256) s) := by
  refine ⟨?_, fun w hw hkey => ?_⟩
  · refine (Function.forall_update_iff st.slots
      (fun k s => SlotInv K st.aliases (st.redirects k) k s)).mpr ⟨?_, fun k _ => h.slot k⟩
    exact (h.slot _).segment hs rfl (fun _ => trivial)
  · obtain ⟨hK, hhost, hpath, hseg, hfiled⟩ := h.aliased w hw hkey
    exact ⟨hK, hhost, hpath, hseg,
      hfiled.addFetch (fun hk => hagree w hw hkey hk) (Slot.nextResponse_step hs)⟩

theorem Inv.segment (h : Inv sha256 t K st) {e : Cache.Event} (he : goesOn e = true)
    (hcut : key ∈ K → (st.slots key).CutsNothing e) (hs : (st.slots key).step key interval e = some s) :
    Inv sha256 t K ((st.close key e).setSlot key s) := by
  have hnext : s.nextResponse = (st.slots key).nextResponse := by
    rw [Slot.nextResponse_step hs]
    cases e <;> first | rfl | cases he
  have hseg := isSegment_of_goesOn he
  -- closing a segment changes what is due and nothing else
  have hinv : Inv sha256 t K (st.setSlot key s) := by
    refine ⟨?_, fun w hw hkey => ?_⟩
    · refine (Function.forall_update_iff st.slots
        (fun k s => SlotInv K st.aliases (st.redirects k) k s)).mpr ⟨?_, fun k _ => h.slot k⟩
      exact (h.slot _).segment hs hseg hcut
    · obtain ⟨hK, hhost, hpath, hcommit, hfiled⟩ := h.aliased w hw hkey
      exact ⟨hK, hhost, hpath, hcommit, hfiled.setSlot hnext⟩
  cases e <;> exact ⟨hinv.slot, hinv.aliased⟩

theorem Inv.cacheRedirect (h : Inv sha256 t K st) (hagree : st.AgreesWithAliases sha256 t f)
    (hs : (st.slots (f.key sha256)).step (f.key sha256) interval (.redirect f.redirect) = some s) :
    Inv sha256 t K ((st.addRedirect (f.key sha256) f).setSlot (f.key sha256) s) := by
  refine ⟨fun k => ?_, fun w hw hkey => ?_⟩
  · show SlotInv K st.aliases (Function.update st.redirects _ _ k) k (Function.update st.slots _ _ k)
    by_cases hk : k = f.key sha256
    · subst hk
      rw [Function.update_self, Function.update_self]
      exact (h.slot _).redirect hs
    · rw [Function.update_of_ne hk, Function.update_of_ne hk]
      exact h.slot k
  · obtain ⟨hK, hhost, hpath, hcommit, hfiled⟩ := h.aliased w hw hkey
    refine ⟨hK, hhost, hpath, hcommit, (hfiled.setSlot (Slot.nextResponse_step hs)).1, ?_⟩
    show ∀ g ∈ Function.update st.redirects _ _ w.canonicalKey, _
    by_cases hk : w.canonicalKey = f.key sha256
    · rw [hk, Function.update_self, List.forall_mem_cons, ← hk]
      exact ⟨hagree w hw hkey hk, hfiled.2⟩
    · rw [Function.update_of_ne hk]
      exact hfiled.2

theorem Inv.revAlias (h : Inv sha256 t K st) {aliasKey : Bytes} {a : Alias} {m : Meta}
    (ha : Proxy.maybeWriteRevAlias sha256 f key = some (aliasKey, a))
    (hm : aliasMeta a (st.slots aliasKey).entry = some m)
    (hs : (st.slots aliasKey).step aliasKey interval (.storeAlias a) = some s)
    (hsteady : aliasKey = t.key sha256 → key ∈ K ∧ f.target.host = t.host ∧ a.path = t.path
      ∧ SLASH ∉ f.commit ∧ st.AllFiled key (fun g => g.SameOrigin f)) :
    Inv sha256 t K { st.setSlot aliasKey s with aliases := ⟨aliasKey, key, f⟩ :: st.aliases } := by
  obtain ⟨rfl, -, hresolve, -⟩ := maybeWriteRevAlias_some ha
  have hnext : s.nextResponse = (st.slots aliasKey).nextResponse := Slot.nextResponse_step hs
  refine ⟨?_, fun w hw hkey => ?_⟩
  · refine (Function.forall_update_iff st.slots
      (fun k s => SlotInv K _ (st.redirects k) k s)).mpr ⟨?_, fun k _ => ?_⟩
    · exact (h.slot _).storeAlias hm hs
    · exact (h.slot k).mono (List.subset_cons_self _ _)
  · rcases List.mem_cons.mp hw with rfl | hw
    · obtain ⟨hK, hhost, hpath, hcommit, hfiled⟩ := hsteady hkey
      exact ⟨hK, hhost, hpath ▸ hresolve, hcommit, hfiled.setSlot hnext⟩
    · obtain ⟨hK, hhost, hpath, hcommit, hfiled⟩ := h.aliased w hw hkey
      exact ⟨hK, hhost, hpath, hcommit, hfiled.setSlot hnext⟩

theorem Inv.step {a : Action} (h : Inv sha256 t K st) (hsteady : st.Steady sha256 t K a)
    (hs : st.step sha256 interval a = some st') : Inv sha256 t K st' := by
  cases steps_of_step sha256 interval hs with
  | streamCacheable hp hslot => exact h.streamCacheable hsteady hslot
  | segment he hslot => exact h.segment he hsteady hslot
  | cacheRedirect hslot =>
    have := h.cacheRedirect hsteady hslot
    exact ⟨this.slot, this.aliased⟩
  | redirectFails => exact ⟨h.slot, h.aliased⟩
  | noAlias => exact ⟨h.slot, h.aliased⟩
  | revAlias hdue ha hm hslot =>
    have := h.revAlias ha hm hslot
      (fun hkey => hsteady _ hdue _ ha hkey (Option.isSome_of_eq_some hm))
    exact ⟨this.slot, this.aliased⟩

/-! ## What stays -/

structure Grows (K : List Bytes) (st st' : State) : Prop where
  aliases : st.aliases ⊆ st'.aliases
  redirects : ∀ key, st.redirects key ⊆ st'.redirects key
  cells : ∀ key ∈ K, ∀ o, ((st.slots key).cell o).isSome → ((st'.slots key).cell o).isSome

theorem Grows.refl (K : List Bytes) (st : State) : Grows K st st :=
  ⟨List.Subset.refl _, fun _ => List.Subset.refl _, fun _ _ _ h => h⟩

theorem Grows.trans {st'' : State} (h : Grows K st st') (h' : Grows K st' st'') :
    Grows K st st'' :=
  ⟨List.Subset.trans h.aliases h'.aliases,
    fun key => List.Subset.trans (h.redirects key) (h'.redirects key),
    fun key hk o hsome => h'.cells key hk o (h.cells key hk o hsome)⟩

theorem cells_setSlot (hs : key ∈ K → ∀ o, ((st.slots key).cell o).isSome → (s.cell o).isSome) :
    ∀ k ∈ K, ∀ o, ((st.slots k).cell o).isSome → (((st.setSlot key s).slots k).cell o).isSome := by
  intro k hK o h
  show ((Function.update st.slots key s k).cell o).isSome
  by_cases hk : k = key
  · subst hk
    rw [Function.update_self]
    exact hs hK o h
  · rwa [Function.update_of_ne hk]

theorem Steady.grows {a : Action} (hsteady : st.Steady sha256 t K a)
    (hs : st.step sha256 interval a = some st') : Grows K st st' := by
  cases steps_of_step sha256 interval hs with
  | streamCacheable hp hslot =>
    exact ⟨List.Subset.refl _, fun _ => List.Subset.refl _,
      cells_setSlot (fun _ o ho => Slot.isSome_cell_step hslot rfl trivial ho)⟩
  | @segment key e s he hslot =>
    have hfil := Event.isFiling_of_isSegment (isSegment_of_goesOn he)
    have hcells : key ∈ K → ∀ o, ((st.slots key).cell o).isSome → (s.cell o).isSome :=
      fun hK o ho => Slot.isSome_cell_step hslot hfil (hsteady hK) ho
    have hgrows : Grows K st (st.setSlot key s) :=
      ⟨List.Subset.refl _, fun _ => List.Subset.refl _, cells_setSlot hcells⟩
    cases e <;> exact ⟨hgrows.aliases, hgrows.redirects, hgrows.cells⟩
  | @cacheRedirect f s hslot =>
    refine ⟨List.Subset.refl _, fun key => ?_,
      cells_setSlot (fun _ o ho => Slot.isSome_cell_step hslot rfl trivial ho)⟩
    show st.redirects key ⊆ Function.update st.redirects (f.key sha256) _ key
    by_cases hk : key = f.key sha256
    · subst hk
      rw [Function.update_self]
      exact List.subset_cons_self _ _
    · rw [Function.update_of_ne hk]
      exact List.Subset.refl _
  | redirectFails => exact ⟨List.Subset.refl _, fun _ => List.Subset.refl _, fun _ _ _ h => h⟩
  | noAlias => exact ⟨List.Subset.refl _, fun _ => List.Subset.refl _, fun _ _ _ h => h⟩
  | revAlias hdue ha hm hslot =>
    exact ⟨List.subset_cons_self _ _, fun _ => List.Subset.refl _,
      cells_setSlot (fun _ o ho => Slot.isSome_cell_step hslot rfl trivial ho)⟩

theorem Inv.run {as : List Action} (h : Inv sha256 t K st)
    (hsteady : Runs.Meets (State.step sha256 interval) (Steady sha256 t K) st as)
    (hrun : Runs.run (State.step sha256 interval) st as = some st') :
    Inv sha256 t K st' ∧ Grows K st st' :=
  @Runs.invariant _ _ _ _ (fun s => Inv sha256 t K s ∧ Grows K st s)
    (fun _ _ _ hinv hc hs => ⟨hinv.1.step hc hs, hinv.2.trans (Steady.grows hc hs)⟩) _ _ _
    ⟨h, Grows.refl K st⟩ hsteady hrun

/-! ## Answers through an alias -/

def Sends (st : State) (host : Bytes) (p : ResolvePath) : Hit → Prop
  | .redirect m => ∃ key, ∃ f ∈ st.redirects key,
      f.redirect.location = m.location ∧ f.redirect.status = m.statusCode ∧ f.IsOf host p
  | .head _ => True
  | .body key _ wantStart wantEnd => ∀ o, Copies (st.slots key).bodySize wantStart wantEnd o →
      0 ≤ o ∧ ∃ id b, (st.slots key).cell o.toNat = some (id, b)
        ∧ (st.slots key).DeliveredAt o.toNat id b ∧ (st.fetches key id).IsOf host p

/-- **An answer through an alias is of the commit and the file that were asked for**, if every
step is steady for the request, and its range is not inverted. -/
theorem sends_of_steady {host rawQuery : Bytes} {p : ResolvePath} (hp : p.Unambiguous)
    {K : List Bytes} {as₁ as₂ as₃ : List Action} {s₁ s₂ s₃ : State}
    (hsteady : Runs.Meets (step sha256 interval) (Steady sha256 ⟨host, p.path, rawQuery⟩ K)
      State.empty (as₁ ++ (as₂ ++ as₃)))
    (h₁ : Runs.run (step sha256 interval) State.empty as₁ = some s₁)
    (h₂ : Runs.run (step sha256 interval) s₁ as₂ = some s₂)
    (h₃ : Runs.run (step sha256 interval) s₂ as₃ = some s₃)
    {m : Meta} (hm : s₁.loadMeta (Target.key sha256 ⟨host, p.path, rawQuery⟩) = some m)
    (halias : m.aliasOf ≠ []) {acquireBody : Bytes → Bool} {rangeHdr : Bytes} {headOnly : Bool}
    {hit : Hit}
    (hhit : tryServeFromCache s₁.loadMeta s₂.loadMeta acquireBody rangeHdr
      (Target.key sha256 ⟨host, p.path, rawQuery⟩) headOnly = some hit) (hstraight : hit.Straight) :
    s₃.Sends host p hit := by
  obtain ⟨hsteady₁, hrest⟩ := Runs.meets_append hsteady h₁
  obtain ⟨hsteady₂, hsteady₃⟩ := Runs.meets_append hrest h₂
  obtain ⟨hinv₁, -⟩ := (inv_empty _ _).run hsteady₁ h₁
  obtain ⟨hinv₂, hgrows₂⟩ := hinv₁.run hsteady₂ h₂
  obtain ⟨hinv₃, hgrows₃⟩ := hinv₂.run hsteady₃ h₃
  -- the alias was written, for a response of the commit and the file
  obtain ⟨w, hw, hkey, hcanonical⟩ := (hinv₁.slot _).alias_written m hm halias
  obtain ⟨hK, hhost, hpath, hcommit, hfiled⟩ :=
    hinv₃.aliased w (hgrows₃.aliases (hgrows₂.aliases hw)) hkey
  have hof : w.fetch.IsOf host p := by
    obtain ⟨hrev, rev, hrevpath⟩ := eq_of_resolveRevAliasPath hp hcommit hpath
    exact ⟨hhost, hrev, rev, hrevpath⟩
  rw [hcanonical] at hfiled hK
  -- the answer is made from the entry the alias points at
  obtain ⟨m', hm', hans⟩ := answers_of_tryServeFromCache hhit
  cases hm.symm.trans hm'
  obtain ⟨-, canonical, hload, hans⟩ := hans.resolve_left (fun hno => halias hno.1)
  cases hans with
  | redirect hstatus hloc =>
    obtain ⟨f, hf, -, hlocation, hcode⟩ := (hinv₂.slot _).redirect_stored canonical hload hloc
    have hf₃ := hgrows₃.redirects _ hf
    exact ⟨_, f, hf₃, hlocation, hcode, hof.of_sameOrigin (hfiled.2 f hf₃)⟩
  | head => exact trivial
  | body hcov =>
    intro o ho
    have hcovered : Covered (spansOf (s₂.slots m.aliasOf).entry) o := by
      rw [show (s₂.slots m.aliasOf).entry = some canonical from hload]
      exact covered_of_covers hcov (ho.lt hstraight)
    obtain ⟨hnonneg, hsome⟩ := ((hinv₂.slot _).whole hK).kept.entry o hcovered
    obtain ⟨⟨id, b⟩, hcell⟩ := Option.isSome_iff_exists.mp (hgrows₃.cells _ hK _ hsome)
    obtain ⟨i, -, hget⟩ := Option.bind_eq_some_iff.mp hcell
    obtain ⟨hlt, hdel⟩ := ((hinv₃.slot m.aliasOf).whole hK).sound.honest i _ id b hget
    exact ⟨hnonneg, id, b, hcell, hdel, hof.of_sameOrigin (hfiled.1 id hlt)⟩

def partOfMain (range commit : Bytes) : Fetch where
  target := ⟨ascii "huggingface.co", ascii "/o/r/resolve/main/f", []⟩
  response := ⟨206, (Coreserver.Header.empty.set (ascii "Content-Range") range).set
    (ascii "X-Repo-Commit") commit, 3⟩
  originPath := []

def fileAt (commit : Bytes) (h : SLASH ∉ commit) : ResolvePath :=
  ⟨ascii "o", ascii "r", commit, ascii "f", by decide, by decide, h⟩

def firstKey : Bytes :=
  Target.key (·) ⟨ascii "huggingface.co", (fileAt (ascii "c1") (by decide)).path, []⟩

def secondKey : Bytes :=
  Target.key (·) ⟨ascii "huggingface.co", (fileAt (ascii "c2") (by decide)).path, []⟩

def mainKey : Bytes := (partOfMain [] []).key (·)

def fetchPart (f : Fetch) (id : ℕ) (bs : Bytes) : List Action :=
  [.streamCacheable f, .segment mainKey (.truncate id true),
    .segment mainKey (.write id bs bs.length), .segment mainKey (.commit id),
    .maybeWriteRevAlias 0]

def fetchFirst : List Action :=
  fetchPart (partOfMain (ascii "bytes 0-2/6") (ascii "c1")) 0 (ascii "abc")

/-- What was fetched as of `main` is sent as of the commit that was. -/
theorem sends_of_steady_first :
    ∃ st m, Runs.run (step (·) 0) State.empty fetchFirst = some st
      ∧ tryServeFromCache st.loadMeta st.loadMeta (fun _ => true) (ascii "bytes=0-2") firstKey
          false = some (.body mainKey m 0 3)
      ∧ st.Sends (ascii "huggingface.co") (fileAt (ascii "c1") (by decide))
          (.body mainKey m 0 3) := by
  obtain ⟨st, hst, ⟨m, hm, halias⟩, m', -, hhit⟩ :
      ∃ st ∈ Runs.run (step (·) 0) State.empty fetchFirst,
        (∃ m ∈ st.loadMeta firstKey, m.aliasOf ≠ [])
          ∧ ∃ m ∈ st.loadMeta mainKey,
            tryServeFromCache st.loadMeta st.loadMeta (fun _ => true) (ascii "bytes=0-2") firstKey
              false = some (.body mainKey m 0 3) := by decide +kernel
  have hsteady : Runs.Meets (step (·) 0) (Steady (·) ⟨ascii "huggingface.co",
      (fileAt (ascii "c1") (by decide)).path, []⟩ [mainKey]) State.empty (fetchFirst ++ ([] ++ [])) := by
    decide +kernel
  exact ⟨st, m', hst, hhit, sends_of_steady (by decide) hsteady hst rfl rfl hm halias hhit
    (show (0 : ℤ) ≤ 3 by decide)⟩

def fetchMoved : List Action :=
  fetchFirst ++ fetchPart (partOfMain (ascii "bytes 3-5/6") (ascii "c2")) 1 (ascii "xyz")

/-- **An alias for the commit `c2` sends bytes of the commit `c1`**, from the slot of `main`.
-/
theorem moved_name_mixes_commits :
    ∃ st m, Runs.run (step (·) 0) State.empty fetchMoved = some st
      ∧ tryServeFromCache st.loadMeta st.loadMeta (fun _ => true) [] secondKey false
        = some (.body mainKey m 0 6)
      ∧ (st.slots mainKey).cell 0 = some (0, 97) ∧ (st.fetches mainKey 0).commit = ascii "c1"
      ∧ ¬ st.Sends (ascii "huggingface.co") (fileAt (ascii "c2") (by decide))
          (.body mainKey m 0 6) := by
  obtain ⟨st, hst, ⟨m, -, hhit⟩, hcell, hcommit⟩ :
      ∃ st ∈ Runs.run (step (·) 0) State.empty fetchMoved,
        (∃ m ∈ st.loadMeta mainKey, tryServeFromCache st.loadMeta st.loadMeta (fun _ => true) []
            secondKey false = some (.body mainKey m 0 6))
          ∧ (st.slots mainKey).cell 0 = some (0, 97)
          ∧ (st.fetches mainKey 0).commit = ascii "c1" := by decide +kernel
  refine ⟨st, m, hst, hhit, hcell, hcommit, fun hsends => ?_⟩
  obtain ⟨-, id, b, hcell', -, -, hrev, -⟩ := hsends 0 ⟨le_rfl, by rw [if_neg (by decide)]; decide⟩
  obtain ⟨rfl, -⟩ := Prod.mk.inj (Option.some.inj (hcell.symm.trans hcell'))
  rw [hcommit] at hrev
  exact absurd hrev (by decide)

end State

end Proxy
