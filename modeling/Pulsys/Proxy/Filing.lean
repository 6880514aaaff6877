import Pulsys.Cache.WellFormed
import Pulsys.Proxy.RevAlias

/-!
# Filing what upstream answers

The handlers work side by side on one store. Each files its response under the key of what
it asked for (`Cache.Slot`), and then writes the alias for the commit that the response
names, also when the response could not be stored.
-/

namespace Proxy

open Bytes Cache

structure Written where
  aliasKey : Bytes
  canonicalKey : Bytes
  fetch : Fetch

structure State where
  slots : Bytes → Slot
  fetches : Bytes → ℕ → Fetch
  due : List (Bytes × Fetch)
  redirects : Bytes → List Fetch
  aliases : List Written

inductive Action
  | streamCacheable (f : Fetch)
  | segment (key : Bytes) (e : Cache.Event)
  | cacheRedirect (f : Fetch) (ok : Bool)
  | maybeWriteRevAlias (i : ℕ)

def goesOn : Cache.Event → Bool
  | .truncate _ _ => true
  | .write _ _ _ => true
  | .checkpoint _ => true
  | .commit _ => true
  | .abandon _ => true
  | _ => false

theorem isSegment_of_goesOn {e : Cache.Event} (h : goesOn e = true) : e.isSegment = true := by
  cases e <;> first | rfl | cases h

namespace State

variable (sha256 : Bytes → Bytes) (interval : ℤ)

def empty : State where
  slots := fun _ => .empty
  fetches := fun _ _ => ⟨⟨[], [], []⟩, ⟨0, .empty, -1⟩, []⟩
  due := []
  redirects := fun _ => []
  aliases := []

def loadMeta (st : State) (key : Bytes) : Option Meta := (st.slots key).entry

def setSlot (st : State) (key : Bytes) (s : Slot) : State :=
  { st with slots := Function.update st.slots key s }

def addFetch (st : State) (key : Bytes) (f : Fetch) : State :=
  { st with
    fetches := Function.update st.fetches key
      (Function.update (st.fetches key) (st.slots key).nextResponse f) }

def close (st : State) (key : Bytes) : Cache.Event → State
  | .commit id => { st with due := st.due ++ [(key, st.fetches key id)] }
  | .abandon id => { st with due := st.due ++ [(key, st.fetches key id)] }
  | _ => st

def addRedirect (st : State) (key : Bytes) (f : Fetch) : State :=
  { st with redirects := Function.update st.redirects key (f :: st.redirects key) }

def step (st : State) : Action → Option State
  | .streamCacheable f =>
    match f.segmentParams with
    | none => none
    | some p =>
      ((st.slots (f.key sha256)).step (f.key sha256) interval (.beginSegment p)).map
        (fun s => (st.addFetch (f.key sha256) f).setSlot (f.key sha256) s)
  | .segment key e =>
    if goesOn e then
      ((st.slots key).step key interval e).map (fun s => (st.close key e).setSlot key s)
    else none
  | .cacheRedirect f ok =>
    let due := st.due ++ [(f.key sha256, f)]
    if ok then
      ((st.slots (f.key sha256)).step (f.key sha256) interval (.redirect f.redirect)).map
        (fun s => { (st.addRedirect (f.key sha256) f).setSlot (f.key sha256) s with due := due })
    else if f.redirect.valid then some { st with due := due }
    else none
  | .maybeWriteRevAlias i =>
    match st.due[i]? with
    | none => none
    | some (key, f) =>
      let st := { st with due := st.due.eraseIdx i }
      match Proxy.maybeWriteRevAlias sha256 f key with
      | none => some st
      | some (aliasKey, a) =>
        -- a concrete entry under the alias's key stays
        match aliasMeta a (st.slots aliasKey).entry with
        | none => some st
        | some _ =>
          ((st.slots aliasKey).step aliasKey interval (.storeAlias a)).map (fun s =>
            { st.setSlot aliasKey s with aliases := ⟨aliasKey, key, f⟩ :: st.aliases })

inductive Steps (st : State) : Action → State → Prop
  | streamCacheable {f : Fetch} {p : SegmentParams} {s : Slot}
      (hp : f.segmentParams = some p)
      (hs : (st.slots (f.key sha256)).step (f.key sha256) interval (.beginSegment p) = some s) :
      Steps st (.streamCacheable f) ((st.addFetch (f.key sha256) f).setSlot (f.key sha256) s)
  | segment {key : Bytes} {e : Cache.Event} {s : Slot} (he : goesOn e = true)
      (hs : (st.slots key).step key interval e = some s) :
      Steps st (.segment key e) ((st.close key e).setSlot key s)
  | cacheRedirect {f : Fetch} {s : Slot}
      (hs : (st.slots (f.key sha256)).step (f.key sha256) interval (.redirect f.redirect)
        = some s) :
      Steps st (.cacheRedirect f true)
        { (st.addRedirect (f.key sha256) f).setSlot (f.key sha256) s with
          due := st.due ++ [(f.key sha256, f)] }
  | redirectFails {f : Fetch} :
      Steps st (.cacheRedirect f false) { st with due := st.due ++ [(f.key sha256, f)] }
  | noAlias {i : ℕ} :
      Steps st (.maybeWriteRevAlias i) { st with due := st.due.eraseIdx i }
  | revAlias {i : ℕ} {key aliasKey : Bytes} {f : Fetch} {a : Alias} {m : Meta} {s : Slot}
      (hdue : st.due[i]? = some (key, f))
      (ha : Proxy.maybeWriteRevAlias sha256 f key = some (aliasKey, a))
      (hm : aliasMeta a (st.slots aliasKey).entry = some m)
      (hs : (st.slots aliasKey).step aliasKey interval (.storeAlias a) = some s) :
      Steps st (.maybeWriteRevAlias i)
        { ({ st with due := st.due.eraseIdx i } : State).setSlot aliasKey s with
          aliases := ⟨aliasKey, key, f⟩ :: st.aliases }

theorem steps_of_step {st st' : State} {a : Action}
    (h : st.step sha256 interval a = some st') : Steps sha256 interval st a st' := by
  cases a with
  | streamCacheable f =>
    rw [step] at h
    split at h
    · cases h
    · next p hp =>
      obtain ⟨s, hs, rfl⟩ := Option.map_eq_some_iff.mp h
      exact .streamCacheable hp hs
  | segment key e =>
    rw [step, Option.ite_none_right_eq_some] at h
    obtain ⟨he, h⟩ := h
    obtain ⟨s, hs, rfl⟩ := Option.map_eq_some_iff.mp h
    exact .segment he hs
  | cacheRedirect f ok =>
    cases ok with
    | true =>
      obtain ⟨s, hs, rfl⟩ := Option.map_eq_some_iff.mp h
      exact .cacheRedirect hs
    | false =>
      obtain ⟨-, h⟩ := Option.ite_none_right_eq_some.mp h
      cases h
      exact .redirectFails
  | maybeWriteRevAlias i =>
    rw [step] at h
    split at h
    · cases h
    · next key f hdue =>
      dsimp only at h
      split at h
      · cases h
        exact .noAlias
      · next aliasKey a ha =>
        split at h
        · cases h
          exact .noAlias
        · next m hm =>
          obtain ⟨s, hs, rfl⟩ := Option.map_eq_some_iff.mp h
          exact .revAlias hdue ha hm hs

end State

end Proxy
