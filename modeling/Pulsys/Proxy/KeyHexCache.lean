import Pulsys.Base.Directory
import Pulsys.Base.Runs
import Pulsys.Proxy.Keys

/-!
# The table of keys

`KeyHexCache` joins the arguments of `KeyHex` by bars, without trimming them first. It is
right throughout a sequence of calls exactly if no two of them are one text to the table
and two to `KeyHex` (`get_transparent_iff`).
-/

namespace Proxy

open Bytes Cache

def maxKeyHexCacheEntries : ℤ := 50000

def keyHexStackBufSize : ℕ := 768

def Lookup.composite (k : Lookup) : Bytes :=
  k.method ++ BAR :: (k.host ++ BAR :: (k.path ++ BAR :: (k.query ++ BAR :: k.auth)))

def Lookup.Short (k : Lookup) : Prop := k.composite.length ≤ keyHexStackBufSize

instance (k : Lookup) : Decidable k.Short :=
  inferInstanceAs (Decidable (k.composite.length ≤ keyHexStackBufSize))

structure GetCall where
  args : Lookup
  victim : Bytes

structure KeyHexCache where
  m : Directory Bytes Bytes := .empty
  returned : List (Lookup × Bytes) := []

namespace KeyHexCache

variable (sha256 : Bytes → Bytes)

def reply (c : KeyHexCache) (k : Lookup) (v : Bytes) : KeyHexCache :=
  { c with returned := c.returned ++ [(k, v)] }

def store (c : KeyHexCache) (k : Lookup) : KeyHexCache :=
  { c with m := c.m.write k.composite (k.key sha256) }.reply k (k.key sha256)

def get (c : KeyHexCache) (e : GetCall) : Option KeyHexCache :=
  if ¬ e.args.Short then some (c.reply e.args (e.args.key sha256))
  else
    match c.m.get e.args.composite with
    | some v => some (c.reply e.args v)
    | none =>
      if 0 < maxKeyHexCacheEntries ∧ maxKeyHexCacheEntries ≤ c.m.count then
        if (c.m.get e.victim).isSome then
          some ({ c with m := c.m.remove e.victim }.store sha256 e.args)
        else none
      else some (c.store sha256 e.args)

/-! ## What a call does -/

variable {sha256}

inductive Gets (sha256 : Bytes → Bytes) (c : KeyHexCache) : GetCall → KeyHexCache → Prop
  | long {e : GetCall} (h : ¬ e.args.Short) : Gets sha256 c e (c.reply e.args (e.args.key sha256))
  | hit {e : GetCall} {v : Bytes} (h : e.args.Short) (hv : c.m.get e.args.composite = some v) :
    Gets sha256 c e (c.reply e.args v)
  | evict {e : GetCall} (h : e.args.Short) (hnone : c.m.get e.args.composite = none) :
    Gets sha256 c e ({ c with m := c.m.remove e.victim }.store sha256 e.args)
  | miss {e : GetCall} (h : e.args.Short) (hnone : c.m.get e.args.composite = none) :
    Gets sha256 c e (c.store sha256 e.args)

variable {c c' : KeyHexCache} {e : GetCall} {es : List GetCall}

theorem gets_of_get (h : c.get sha256 e = some c') : Gets sha256 c e c' := by
  unfold get at h
  split at h
  · next hlong =>
    cases h
    exact .long hlong
  next hshort =>
  rw [not_not] at hshort
  split at h
  · next v hv =>
    cases h
    exact .hit hshort hv
  next hnone =>
  split at h
  · split at h
    · cases h
      exact .evict hshort hnone
    · cases h
  · cases h
    exact .miss hshort hnone

theorem Gets.returned (h : Gets sha256 c e c') :
    ∃ v, c'.returned = c.returned ++ [(e.args, v)]
      ∧ (e.args.Short → c'.m.get e.args.composite = some v
        ∧ ∀ w, c.m.get e.args.composite = some w → v = w) := by
  cases h with
  | long hlong => exact ⟨_, rfl, fun hshort => absurd hshort hlong⟩
  | hit hshort hv =>
    refine ⟨_, rfl, fun _ => ⟨hv, fun w hw => ?_⟩⟩
    exact Option.some.inj (hv.symm.trans hw)
  | evict hshort hnone =>
    refine ⟨_, rfl, fun _ => ⟨Directory.get_write _ _ _, fun w hw => ?_⟩⟩
    rw [hnone] at hw
    cases hw
  | miss hshort hnone =>
    refine ⟨_, rfl, fun _ => ⟨Directory.get_write _ _ _, fun w hw => ?_⟩⟩
    rw [hnone] at hw
    cases hw

theorem Gets.entry (h : Gets sha256 c e c') {t v : Bytes} (hv : c'.m.get t = some v) :
    c.m.get t = some v ∨ (e.args.Short ∧ t = e.args.composite ∧ v = e.args.key sha256) := by
  cases h with
  | long | hit => exact .inl hv
  | evict hshort hnone =>
    rcases Directory.get_write_eq_some hv with ⟨rfl, rfl⟩ | ⟨-, hv⟩
    · exact .inr ⟨hshort, rfl, rfl⟩
    · refine .inl ?_
      by_cases ht : t = e.victim
      · rw [ht, Directory.get_remove] at hv
        cases hv
      · rwa [Directory.get_remove_of_ne _ ht] at hv
  | miss hshort hnone =>
    rcases Directory.get_write_eq_some hv with ⟨rfl, rfl⟩ | ⟨-, hv⟩
    · exact .inr ⟨hshort, rfl, rfl⟩
    · exact .inl hv

/-! ## Calls that the table tells apart -/

def Agree (sha256 : Bytes → Bytes) (calls : List Lookup) : Prop :=
  ∀ a ∈ calls, ∀ b ∈ calls, a.Short → b.Short → a.composite = b.composite →
    a.key sha256 = b.key sha256

structure Right (sha256 : Bytes → Bytes) (calls : List Lookup) (c : KeyHexCache) : Prop where
  entry : ∀ t v, c.m.get t = some v →
    ∃ k ∈ calls, k.Short ∧ k.composite = t ∧ v = k.key sha256
  returned : ∀ r ∈ c.returned, r.2 = r.1.key sha256

theorem Right.step {calls : List Lookup} (hagree : Agree sha256 calls) (hr : c.Right sha256 calls)
    (he : e.args ∈ calls) (h : Gets sha256 c e c') : c'.Right sha256 calls where
  entry t v hv := by
    rcases h.entry hv with hv | ⟨hshort, rfl, rfl⟩
    · exact hr.entry t v hv
    · exact ⟨e.args, he, hshort, rfl, rfl⟩
  returned := by
    -- all ways but a hit return the key itself
    have hreply : ∀ v, v = e.args.key sha256 → ∀ r ∈ c.returned ++ [(e.args, v)],
        r.2 = r.1.key sha256 := by
      rintro v rfl r hmem
      rcases List.mem_append.mp hmem with hmem | hmem
      · exact hr.returned r hmem
      · rw [List.mem_singleton.mp hmem]
    cases h with
    | long | evict | miss => exact hreply _ rfl
    | hit hshort hv =>
      obtain ⟨k, hk, hkshort, hcomp, rfl⟩ := hr.entry _ _ hv
      exact hreply _ (hagree k hk e.args he hkshort hshort hcomp)

theorem exists_get_first (sha256 : Bytes → Bytes) (k : Lookup) :
    ∃ c, Runs.run (get sha256) {} [⟨k, []⟩] = some c ∧ c.returned = [(k, k.key sha256)] := by
  by_cases hshort : k.Short
  · refine ⟨store sha256 {} k, Runs.run_cons.mpr ⟨_, ?_, rfl⟩, rfl⟩
    rw [get, if_neg (not_not.mpr hshort)]
    exact if_neg (by decide)
  · refine ⟨reply {} k (k.key sha256), Runs.run_cons.mpr ⟨_, ?_, rfl⟩, rfl⟩
    rw [get, if_pos hshort]

theorem args_returned (hrun : Runs.run (get sha256) c es = some c') :
    c'.returned.map Prod.fst = c.returned.map Prod.fst ++ es.map GetCall.args := by
  induction es generalizing c with
  | nil =>
    cases hrun
    rw [List.map_nil, List.append_nil]
  | cons e es ih =>
    obtain ⟨c₁, hget, hrest⟩ := Runs.run_cons.mp hrun
    obtain ⟨v, hv, -⟩ := (gets_of_get hget).returned
    rw [ih hrest, hv, List.map_append, List.append_assoc]
    rfl

theorem returned_of_agree {calls : List Lookup} (hagree : Agree sha256 calls)
    (hcalls : es.map GetCall.args = calls) (hrun : Runs.run (get sha256) {} es = some c) :
    ∀ r ∈ c.returned, r.2 = r.1.key sha256 := by
  have hmem : ∀ e ∈ es, e.args ∈ calls := fun e he => hcalls ▸ List.mem_map_of_mem he
  have hstart : Right sha256 calls {} := by
    refine ⟨?_, ?_⟩
    · rintro t v ⟨⟩
    · rintro r ⟨⟩
  have hstep : ∀ s e s', Right sha256 calls s → e.args ∈ calls ∧ True →
      s.get sha256 e = some s' → Right sha256 calls s' :=
    fun s e s' hi hc hs => hi.step hagree hc.1 (gets_of_get hs)
  exact (Runs.invariant hstep hstart ((Runs.meets_true _ _).and_of_forall hmem) hrun).returned

/-! ## Evictions that keep an entry -/

theorem exists_victim (hfull : maxKeyHexCacheEntries ≤ c.m.count) (t : Bytes) :
    ∃ u, u ≠ t ∧ (c.m.get u).isSome = true := by
  have hcard : 1 < c.m.names.card := by
    have : (50000 : ℤ) ≤ c.m.names.card := hfull
    omega
  obtain ⟨u, hu, hne⟩ := Finset.exists_mem_ne hcard t
  exact ⟨u, hne, (c.m.mem_names u).mp hu⟩

theorem exists_get_keeping (sha256 : Bytes → Bytes) (c : KeyHexCache) (k : Lookup) (t : Bytes) :
    ∃ e c', e.args = k ∧ c.get sha256 e = some c'
      ∧ ∀ v, c.m.get t = some v → c'.m.get t = some v := by
  by_cases hfull : maxKeyHexCacheEntries ≤ c.m.count
  · obtain ⟨u, hne, hu⟩ := exists_victim hfull t
    by_cases hshort : k.Short
    · cases hv : c.m.get k.composite with
      | some v => exact ⟨⟨k, u⟩, c.reply k v, rfl, by simp [get, hshort, hv], fun _ h => h⟩
      | none =>
        refine ⟨⟨k, u⟩, { c with m := c.m.remove u }.store sha256 k, rfl, ?_, fun v h => ?_⟩
        · have hpos : 0 < maxKeyHexCacheEntries := by decide
          simp [get, hshort, hv, hfull, hpos, hu]
        · have ht : t ≠ k.composite := by
            rintro rfl
            rw [hv] at h
            cases h
          show ((c.m.remove u).write _ _).get t = some v
          rw [Directory.get_write_of_ne _ _ ht, Directory.get_remove_of_ne _ hne.symm, h]
    · exact ⟨⟨k, u⟩, c.reply k (k.key sha256), rfl, by simp [get, hshort], fun _ h => h⟩
  · by_cases hshort : k.Short
    · cases hv : c.m.get k.composite with
      | some v => exact ⟨⟨k, []⟩, c.reply k v, rfl, by simp [get, hshort, hv], fun _ h => h⟩
      | none =>
        refine ⟨⟨k, []⟩, c.store sha256 k, rfl, by simp [get, hshort, hv, hfull], fun v h => ?_⟩
        have ht : t ≠ k.composite := by
          rintro rfl
          rw [hv] at h
          cases h
        show (c.m.write _ _).get t = some v
        rw [Directory.get_write_of_ne _ _ ht, h]
    · exact ⟨⟨k, []⟩, c.reply k (k.key sha256), rfl, by simp [get, hshort], fun _ h => h⟩

theorem returned_subset (hrun : Runs.run (get sha256) c es = some c') :
    c.returned ⊆ c'.returned := by
  have hstep : ∀ (s : KeyHexCache) (e : GetCall) (s' : KeyHexCache),
      c.returned ⊆ s.returned → s.get sha256 e = some s' →
      c.returned ⊆ s'.returned := by
    intro s e s' hsub hs
    obtain ⟨v, hv, -⟩ := (gets_of_get hs).returned
    rw [hv]
    exact List.Subset.trans hsub (List.subset_append_left _ _)
  exact Runs.invariant_of_step hstep (List.Subset.refl _) hrun

theorem exists_run_keeping (sha256 : Bytes → Bytes) (t : Bytes) (calls : List Lookup)
    (c : KeyHexCache) :
    ∃ es c' v, es.map GetCall.args = calls ∧ Runs.run (get sha256) c es = some c'
      ∧ (∀ w, c.m.get t = some w → v = w)
      ∧ ∀ k ∈ calls, k.Short → k.composite = t → (k, v) ∈ c'.returned := by
  induction calls generalizing c with
  | nil =>
    refine ⟨[], c, (c.m.get t).getD [], rfl, rfl, fun w hw => by simp [hw], ?_⟩
    simp
  | cons k calls ih =>
    obtain ⟨e, c₁, rfl, hget, hkeep⟩ := exists_get_keeping sha256 c k t
    obtain ⟨es, c', v, rfl, hrun, hsame, hall⟩ := ih c₁
    obtain ⟨v₁, hv₁, hown⟩ := (gets_of_get hget).returned
    refine ⟨e :: es, c', v, rfl, Runs.run_cons.mpr ⟨c₁, hget, hrun⟩,
      fun w hw => hsame w (hkeep w hw), ?_⟩
    intro k hk hshort hcomp
    rcases List.mem_cons.mp hk with rfl | hk
    · -- the call itself: its answer is what the table has from then on
      subst hcomp
      rw [hsame v₁ (hown hshort).1]
      exact returned_subset hrun (by simp [hv₁])
    · exact hall k hk hshort hcomp

/-- **The table returns the keys of its calls, exactly if it tells them apart as `KeyHex`
does.** -/
theorem get_transparent_iff (sha256 : Bytes → Bytes) (calls : List Lookup) :
    (∀ es c, es.map GetCall.args = calls → Runs.run (get sha256) {} es = some c →
        ∀ r ∈ c.returned, r.2 = r.1.key sha256)
      ↔ Agree sha256 calls := by
  constructor
  · intro htrans a ha b hb hashort hbshort hcomp
    obtain ⟨es, c, v, hcalls, hrun, -, hall⟩ :=
      exists_run_keeping sha256 b.composite calls {}
    have hva : v = a.key sha256 := htrans es c hcalls hrun _ (hall a ha hashort hcomp)
    have hvb : v = b.key sha256 := htrans es c hcalls hrun _ (hall b hb hbshort rfl)
    exact hva.symm.trans hvb
  · intro hagree es c hcalls hrun
    exact returned_of_agree hagree hcalls hrun

/-! ## Bars -/

structure BarFree (k : Lookup) : Prop where
  method : BAR ∉ k.method
  host : BAR ∉ k.host
  path : BAR ∉ k.path
  query : BAR ∉ k.query

theorem BarFree.eq_of_composite {a b : Lookup} (ha : BarFree a) (hb : BarFree b)
    (h : a.composite = b.composite) : a = b := by
  obtain ⟨hmethod, h⟩ := cut_unique ha.method hb.method h
  obtain ⟨hhost, h⟩ := cut_unique ha.host hb.host h
  obtain ⟨hpath, h⟩ := cut_unique ha.path hb.path h
  obtain ⟨hquery, hauth⟩ := cut_unique ha.query hb.query h
  obtain ⟨_, _, _, _, _⟩ := a
  obtain ⟨_, _, _, _, _⟩ := b
  simp only [Lookup.mk.injEq]
  exact ⟨hmethod, hhost, hpath, hquery, hauth⟩

theorem returned_of_barFree (hbar : ∀ e ∈ es, BarFree e.args)
    (hrun : Runs.run (get sha256) {} es = some c) : ∀ r ∈ c.returned, r.2 = r.1.key sha256 := by
  refine returned_of_agree (fun a ha b hb _ _ hcomp => ?_) rfl hrun
  obtain ⟨e, he, rfl⟩ := List.mem_map.mp ha
  obtain ⟨e', he', rfl⟩ := List.mem_map.mp hb
  rw [(hbar e he).eq_of_composite (hbar e' he') hcomp]

theorem returned_of_barFree_twice :
    ∃ c, Runs.run (get id) {} (.replicate 2 ⟨getLookup (ascii "/a") [], []⟩) = some c
      ∧ ∀ r ∈ c.returned, r.2 = r.1.key id := by
  have hrun : Runs.run (get id) {} (.replicate 2 ⟨getLookup (ascii "/a") [], []⟩) = some _ := rfl
  refine ⟨_, hrun, returned_of_barFree (fun e he => ?_) hrun⟩
  rw [List.eq_of_mem_replicate he]
  exact ⟨by decide, by decide, by decide, by decide⟩

/-- **A call gets the key of another.** -/
theorem other_key_returned :
    ∃ c, Runs.run (get id) {} [⟨getLookup (ascii "/a ") (ascii "x|q"), []⟩,
          ⟨getLookup (ascii "/a |x") (ascii "q"), []⟩] = some c
      ∧ (getLookup (ascii "/a |x") (ascii "q"),
          (getLookup (ascii "/a ") (ascii "x|q")).key id) ∈ c.returned
      ∧ (getLookup (ascii "/a ") (ascii "x|q")).key id
        ≠ (getLookup (ascii "/a |x") (ascii "q")).key id :=
  ⟨_, rfl, by decide, by decide⟩

end KeyHexCache

end Proxy
