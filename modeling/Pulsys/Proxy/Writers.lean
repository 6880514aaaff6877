import Pulsys.Base.Parties
import Pulsys.Cache.Inflight
import Pulsys.Proxy.Upstream

/-!
# Whether two writers touch the same bytes

A request registers the range it asks for and writes what upstream answers with; one for
metadata takes no ticket, and a purge drops the set of ranges that are held. The state is
that of one key, with the requests at their stages of `forward`.
-/

namespace Proxy

open Bytes Cache

structure Ticket where
  set : ℕ
  span : Span
  deriving DecidableEq, Repr

structure Forwarded where
  artifact : Bool
  method : Bytes
  rangeHdr : Bytes
  bounded : Bool
  target : Target
  originPath : Bytes

inductive Stage
  | waiting (set : ℕ)
  | checking (ticket : Option Ticket)
  | asking (ticket : Option Ticket) (passthrough : Bool)
  | opening (ticket : Option Ticket) (params : SegmentParams)
  | writing (ticket : Option Ticket) (id : ℕ)
  | leaving (ticket : Option Ticket)

structure Underway where
  request : Forwarded
  stage : Stage

namespace Forwarded

def takesTicket (r : Forwarded) : Bool := r.artifact && r.method == ascii "GET"

def inflightRange (r : Forwarded) : Span := Proxy.inflightRange r.rangeHdr

def segment (r : Forwarded) (passthrough : Bool) (u : Upstream) : Option SegmentParams :=
  if passthrough then none
  else if r.method = ascii "GET" then Fetch.segmentParams ⟨r.target, u, r.originPath⟩
  else none

theorem start_lt_stop_inflightRange (r : Forwarded) :
    r.inflightRange.start < r.inflightRange.stop := by
  have hwhole : wholeFile.start < wholeFile.stop := by decide
  unfold inflightRange Proxy.inflightRange
  split
  · exact hwhole
  · split
    · split
      · next hlt => exact hlt
      · exact hwhole
    · exact hwhole

theorem get_of_segment {r : Forwarded} {pass : Bool} {u : Upstream} {p : SegmentParams}
    (h : r.segment pass u = some p) : pass = false ∧ r.method = ascii "GET" := by
  unfold segment at h
  obtain ⟨hpass, h⟩ := Option.ite_none_left_eq_some.mp h
  obtain ⟨hget, -⟩ := Option.ite_none_right_eq_some.mp h
  exact ⟨by simpa using hpass, hget⟩

end Forwarded

namespace Underway

def ticket (p : Underway) : Option Ticket :=
  match p.stage with
  | .waiting _ => none
  | .checking t | .asking t _ | .opening t _ | .writing t _ | .leaving t => t

def set (p : Underway) : Option ℕ :=
  match p.stage with
  | .waiting k => some k
  | .checking t | .asking t _ | .opening t _ | .writing t _ | .leaving t => t.map Ticket.set

def writer (p : Underway) : Option ℕ :=
  match p.stage with
  | .writing _ id => some id
  | _ => none

end Underway

structure Writers where
  slot : Slot
  sets : ℕ → List Span
  current : Option ℕ
  nextSet : ℕ
  requests : ℕ → Option Underway
  nextRequest : ℕ
  drops : ℕ

inductive WritersEvent
  | forward (r : Forwarded)
  | acquire (q : ℕ)
  | giveUp (q : ℕ)
  | recheck (q : ℕ) (hit : Bool)
  | answer (q : ℕ) (u : Option Upstream)
  | beginSegment (q : ℕ) (ok : Bool)
  | segment (q : ℕ) (e : Event)
  | release (q : ℕ)
  | store (e : Event)
  | dropSet

namespace Writers

def empty : Writers where
  slot := .empty
  sets := fun _ => []
  current := none
  nextSet := 0
  requests := fun _ => none
  nextRequest := 0
  drops := 0

def advance (s : Writers) (q : ℕ) (p : Underway) (stage : Stage) : Writers :=
  { s with requests := Function.update s.requests q (some { p with stage := stage }) }

def loadOrStore (s : Writers) : ℕ × Writers :=
  match s.current with
  | some k => (k, s)
  | none => (s.nextSet, { s with
      sets := Function.update s.sets s.nextSet []
      current := some s.nextSet
      nextSet := s.nextSet + 1 })

def arrive (s : Writers) (r : Forwarded) (stage : Stage) : Writers :=
  { s with
    requests := Function.update s.requests s.nextRequest (some ⟨r, stage⟩)
    nextRequest := s.nextRequest + 1 }

def giveBack (s : Writers) : Option Ticket → Writers
  | none => s
  | some t => { s with sets := Function.update s.sets t.set ((s.sets t.set).erase t.span) }

def step (key : Bytes) (interval : ℤ) (s : Writers) : WritersEvent → Option Writers
  | .forward r =>
    if r.takesTicket then some (s.loadOrStore.2.arrive r (.waiting s.loadOrStore.1))
    else some (s.arrive r (.asking none false))
  | .acquire q =>
    match s.requests q with
    | some ⟨r, .waiting k⟩ =>
      if spansOverlap (s.sets k) r.inflightRange then none
      else some { s.advance q ⟨r, .waiting k⟩ (.checking (some ⟨k, r.inflightRange⟩)) with
        sets := Function.update s.sets k (s.sets k ++ [r.inflightRange]) }
    | _ => none
  | .giveUp q =>
    match s.requests q with
    | some ⟨r, .waiting k⟩ =>
      -- the range is looked at once more before the clock is
      if r.bounded ∧ spansOverlap (s.sets k) r.inflightRange = true
      then some (s.advance q ⟨r, .waiting k⟩ (.checking none))
      else none
    | _ => none
  | .recheck q hit =>
    match s.requests q with
    | some ⟨r, .checking t⟩ =>
      some (s.advance q ⟨r, .checking t⟩ (if hit then .leaving t else .asking t t.isNone))
    | _ => none
  | .answer q u =>
    match s.requests q with
    | some ⟨r, .asking t pass⟩ =>
      some (s.advance q ⟨r, .asking t pass⟩ (match u.bind (r.segment pass) with
        | some p => .opening t p
        | none => .leaving t))
    | _ => none
  | .beginSegment q ok =>
    match s.requests q with
    | some ⟨r, .opening t p⟩ =>
      if ok then (s.slot.step key interval (.beginSegment p)).map (fun slot =>
        { s.advance q ⟨r, .opening t p⟩ (.writing t s.slot.nextResponse) with slot := slot })
      else some (s.advance q ⟨r, .opening t p⟩ (.leaving t))
    | _ => none
  | .segment q e =>
    match s.requests q with
    | some ⟨r, .writing t id⟩ =>
      if e.writer = some id then (s.slot.step key interval e).map (fun slot =>
        { s.advance q ⟨r, .writing t id⟩
            (if (slot.writers id).isNone then .leaving t else .writing t id) with slot := slot })
      else none
    | _ => none
  | .release q =>
    match s.requests q with
    | some ⟨_, .leaving t⟩ =>
      some { s.giveBack t with requests := Function.update s.requests q none }
    | _ => none
  | .store e =>
    if e.isSegment then none
    else (s.slot.step key interval e).map (fun slot =>
      { s with slot := slot, drops := if e.isRemove then s.drops + 1 else s.drops })
  | .dropSet =>
    if s.drops = 0 then none else some { s with current := none, drops := s.drops - 1 }

/-! ## Exclusion -/

def Exclusive (s : Writers) : Prop :=
  ∀ i j w v, i ≠ j → s.slot.writers i = some w → s.slot.writers j = some v →
    (s.slot.touched i w).Apart (s.slot.touched j v)

def Within (s : Writers) : Prop :=
  ∀ q r t id w, s.requests q = some ⟨r, .writing t id⟩ → r.artifact = true →
    s.slot.writers id = some w →
    ∃ k, t = some k ∧ k.span ∈ s.sets k.set ∧ ∀ o, (s.slot.touched id w).Has o → k.span.Has o

def Guarded (s : Writers) : WritersEvent → Prop
  | .beginSegment q true => ∀ p ∈ s.requests q, ∀ q' < s.nextRequest, ∀ p' ∈ s.requests q',
      p'.writer.isSome → p.ticket.isSome ∧ p'.ticket.isSome
  | .segment q e => ∀ p ∈ s.requests q, ∀ t ∈ p.ticket, ∀ id ∈ p.writer,
      ∀ w ∈ s.slot.writers id, ∀ o, (s.slot.ahead id w e.taken).Has o → t.span.Has o
  | .dropSet => ∀ q < s.nextRequest, ∀ p ∈ s.requests q, p.set = none
  | _ => True

instance (s : Writers) : ∀ e, Decidable (s.Guarded e)
  | .beginSegment q true => inferInstanceAs (Decidable (∀ p ∈ s.requests q,
      ∀ q' < s.nextRequest, ∀ p' ∈ s.requests q',
      p'.writer.isSome → p.ticket.isSome ∧ p'.ticket.isSome))
  | .segment q e => inferInstanceAs (Decidable (∀ p ∈ s.requests q, ∀ t ∈ p.ticket,
      ∀ id ∈ p.writer, ∀ w ∈ s.slot.writers id,
      ∀ o, (s.slot.ahead id w e.taken).Has o → t.span.Has o))
  | .dropSet => inferInstanceAs (Decidable (∀ q < s.nextRequest, ∀ p ∈ s.requests q, p.set = none))
  | .beginSegment _ false | .forward _ | .acquire _ | .giveUp _ | .recheck _ _ | .answer _ _
  | .release _ | .store _ => isTrue trivial

end Writers

/-! ## What a request is entitled to -/

namespace Underway

def Ticketed (p : Underway) : Prop :=
  match p.stage with
  | .asking t pass => p.request.takesTicket = true → pass = false → t.isSome
  | .opening t _ | .writing t _ => p.request.artifact = true → t.isSome
  | _ => True

structure Beside (p p' : Underway) : Prop where
  apart : ∀ t t', p.ticket = some t → p'.ticket = some t' → t.span.Apart t'.span
  writers : ∀ i j, p.writer = some i → p'.writer = some j →
    i ≠ j ∧ p.ticket.isSome ∧ p'.ticket.isSome

theorem Beside.symm (p p' : Underway) (h : Beside p p') : Beside p' p where
  apart t t' ht ht' := (h.apart t' t ht' ht).symm
  writers i j hi hj :=
    have ⟨hne, ht, ht'⟩ := h.writers j i hj hi
    ⟨hne.symm, ht', ht⟩

structure Inherits (p' p : Underway) : Prop where
  ticket : ∀ t, p'.ticket = some t → p.ticket = some t
  set : ∀ k, p'.set = some k → p.set = some k
  writer : ∀ id, p'.writer = some id → p.writer = some id ∧ p'.ticket = p.ticket

variable {p : Underway}

theorem Beside.inherits {p' b : Underway} (h : Beside p b) (hle : Inherits p' p) : Beside p' b where
  apart t t' ht ht' := h.apart t t' (hle.ticket t ht) ht'
  writers i j hi hj := by
    obtain ⟨hi', hticket⟩ := hle.writer i hi
    rw [hticket]
    exact h.writers i j hi' hj

theorem Beside.of_nothing (hticket : p.ticket = none) (hwriter : p.writer = none) (b : Underway) :
    Beside p b where
  apart t t' ht _ := by
    rw [hticket] at ht
    cases ht
  writers i j hi _ := by
    rw [hwriter] at hi
    cases hi

theorem set_of_ticket {t : Ticket} (h : p.ticket = some t) : p.set = some t.set := by
  obtain ⟨r, stage⟩ := p
  cases stage with
  | waiting k => cases h
  | checking | asking | opening | writing | leaving =>
    obtain rfl : _ = some t := h
    rfl

end Underway

namespace Writers

open Underway

structure Fine (s : Writers) (p : Underway) : Prop where
  held : ∀ t, p.ticket = some t → t.span ∈ s.sets t.set
  nonempty : ∀ t, p.ticket = some t → t.span.start < t.span.stop
  current : ∀ k, p.set = some k → s.current = some k
  writer_lt : ∀ id, p.writer = some id → id < s.slot.nextResponse
  within : ∀ id t w, p.writer = some id → p.ticket = some t → s.slot.writers id = some w →
    ∀ o, (s.slot.touched id w).Has o → t.span.Has o
  ticketed : p.Ticketed

structure Orderly (s : Writers) : Prop where
  fresh : ∀ q, s.nextRequest ≤ q → s.requests q = none
  parties : Parties.Orderly s.Fine Beside s.requests
  owned : ∀ id w, s.slot.writers id = some w →
    ∃ q p, s.requests q = some p ∧ p.writer = some id

theorem orderly_empty : Writers.empty.Orderly :=
  ⟨fun _ _ => rfl, Parties.orderly_none, nofun⟩

variable {s : Writers} {id q : ℕ} {p : Underway} {stage : Stage} {r : Forwarded}

theorem Orderly.lt_nextRequest (h : s.Orderly) (hp : s.requests q = some p) :
    q < s.nextRequest := by
  by_contra hq
  rw [h.fresh q (not_lt.mp hq)] at hp
  cases hp

theorem Orderly.exclusive (h : s.Orderly) : s.Exclusive := by
  intro i j w v hne hw hv
  obtain ⟨q, p, hp, hi⟩ := h.owned i w hw
  obtain ⟨q', p', hp', hj⟩ := h.owned j v hv
  have hq : q ≠ q' := by
    rintro rfl
    cases hp.symm.trans hp'
    exact hne (Option.some.inj (hi.symm.trans hj))
  have hbeside := h.parties.pair q q' p p' hq hp hp'
  obtain ⟨-, ht, ht'⟩ := hbeside.writers i j hi hj
  obtain ⟨t, ht⟩ := Option.isSome_iff_exists.mp ht
  obtain ⟨t', ht'⟩ := Option.isSome_iff_exists.mp ht'
  exact (hbeside.apart t t' ht ht').mono
    ((h.parties.each q p hp).within i t w hi ht hw)
    ((h.parties.each q' p' hp').within j t' v hj ht' hv)

theorem Orderly.inside (h : s.Orderly) : s.Within := by
  intro q r t id w hp hart hw
  have hfine := h.parties.each q _ hp
  obtain ⟨k, rfl⟩ := Option.isSome_iff_exists.mp (hfine.ticketed hart)
  exact ⟨k, rfl, hfine.held k rfl, hfine.within id k w rfl rfl hw⟩

/-! ## The invariant under the steps -/

theorem Fine.of_frame {s' : Writers} (h : s.Fine p)
    (hheld : ∀ t, p.ticket = some t → t.span ∈ s'.sets t.set)
    (hcurrent : ∀ k, p.set = some k → s'.current = some k) (hslot : s'.slot = s.slot) :
    s'.Fine p where
  held := hheld
  nonempty := h.nonempty
  current := hcurrent
  writer_lt := by
    rw [hslot]
    exact h.writer_lt
  within := by
    rw [hslot]
    exact h.within
  ticketed := h.ticketed

theorem Fine.inherits {p' : Underway} (h : s.Fine p) (hle : Inherits p' p)
    (hticketed : p'.Ticketed) : s.Fine p' where
  held t ht := h.held t (hle.ticket t ht)
  nonempty t ht := h.nonempty t (hle.ticket t ht)
  current k hk := h.current k (hle.set k hk)
  writer_lt id hid := h.writer_lt id (hle.writer id hid).1
  within id t w hid ht hw := h.within id t w (hle.writer id hid).1 (hle.ticket t ht) hw
  ticketed := hticketed

theorem Orderly.fresh_update (h : s.Orderly) (hp : s.requests q = some p) (v : Option Underway) :
    ∀ q', s.nextRequest ≤ q' → Function.update s.requests q v q' = none := by
  intro q' hq'
  have hlt := h.lt_nextRequest hp
  rw [Function.update_of_ne (by omega)]
  exact h.fresh q' hq'

theorem owned_update {v : Option Underway} (hp : s.requests q = some p)
    (hkeep : p.writer = some id → ∃ p', v = some p' ∧ p'.writer = some id)
    (hown : ∃ q p, s.requests q = some p ∧ p.writer = some id) :
    ∃ q' p', Function.update s.requests q v q' = some p' ∧ p'.writer = some id := by
  obtain ⟨r, b, hb, hid⟩ := hown
  by_cases hr : r = q
  · subst hr
    cases hp.symm.trans hb
    obtain ⟨p', hv, hid'⟩ := hkeep hid
    exact ⟨r, p', by rw [Function.update_self, hv], hid'⟩
  · exact ⟨r, b, by rw [Function.update_of_ne hr, hb], hid⟩

theorem owned_update_of_idle {v : Option Underway} (hp : s.requests q = some p)
    (hidle : p.writer = none) (hown : ∃ q p, s.requests q = some p ∧ p.writer = some id) :
    ∃ q' p', Function.update s.requests q v q' = some p' ∧ p'.writer = some id := by
  refine owned_update hp (fun hid => ?_) hown
  rw [hidle] at hid
  cases hid

theorem Orderly.advance (h : s.Orderly) (hp : s.requests q = some p)
    (hle : Inherits { p with stage := stage } p) (hticketed : Ticketed { p with stage := stage })
    (hkeep : ∀ id w, p.writer = some id → s.slot.writers id = some w →
      Underway.writer { p with stage := stage } = some id) : (s.advance q p stage).Orderly where
  fresh := h.fresh_update hp _
  parties := by
    have hparties := h.parties.change (i := q) Beside.symm
      ((h.parties.each q p hp).inherits hle hticketed)
      (fun j b hj hb => (h.parties.pair q j p b hj.symm hp hb).inherits hle)
    exact hparties.imp (fun _ _ _ hf => hf.of_frame hf.held hf.current rfl)
  owned id w hw := owned_update hp (fun hid => ⟨_, rfl, hkeep id w hid hw⟩) (h.owned id w hw)

theorem Orderly.advance_of_idle (h : s.Orderly) (hp : s.requests q = some p)
    (hidle : p.writer = none) (hle : Inherits { p with stage := stage } p)
    (hticketed : Ticketed { p with stage := stage }) : (s.advance q p stage).Orderly := by
  refine h.advance hp hle hticketed (fun id w hid _ => ?_)
  rw [hidle] at hid
  cases hid

theorem Orderly.arrive (h : s.Orderly) (hfine : s.Fine ⟨r, stage⟩)
    (hticket : Underway.ticket ⟨r, stage⟩ = none) (hwriter : Underway.writer ⟨r, stage⟩ = none) :
    (s.arrive r stage).Orderly where
  fresh q hq := by
    have hlt : s.nextRequest + 1 ≤ q := hq
    show Function.update s.requests s.nextRequest _ q = none
    rw [Function.update_of_ne (by omega)]
    exact h.fresh q (by omega)
  parties := by
    have hparties := h.parties.change (i := s.nextRequest) Beside.symm hfine
      (fun _ b _ _ => Beside.of_nothing hticket hwriter b)
    exact hparties.imp (fun _ _ _ hf => hf.of_frame hf.held hf.current rfl)
  owned id w hw := by
    obtain ⟨q, p, hp, hid⟩ := h.owned id w hw
    have hne : q ≠ s.nextRequest := Nat.ne_of_lt (h.lt_nextRequest hp)
    exact ⟨q, p, (Function.update_of_ne hne _ _).trans hp, hid⟩

theorem current_loadOrStore (s : Writers) :
    s.loadOrStore.2.current = some s.loadOrStore.1 := by
  unfold loadOrStore
  split
  · next k hk => exact hk
  · rfl

theorem Orderly.loadOrStore (h : s.Orderly) : s.loadOrStore.2.Orderly := by
  unfold Writers.loadOrStore
  split
  · exact h
  · next hnone =>
    refine ⟨h.fresh, h.parties.imp (fun q p hp hf => ?_), h.owned⟩
    have hset : ∀ k, p.set ≠ some k := by
      intro k hk
      have := hf.current k hk
      rw [hnone] at this
      cases this
    exact hf.of_frame (fun t ht => absurd (set_of_ticket ht) (hset t.set))
      (fun k hk => absurd hk (hset k)) rfl

theorem Orderly.acquire (h : s.Orderly) {k : ℕ} (hp : s.requests q = some ⟨r, .waiting k⟩)
    (hfree : spansOverlap (s.sets k) r.inflightRange = false) :
    Orderly { s.advance q ⟨r, .waiting k⟩ (.checking (some ⟨k, r.inflightRange⟩)) with
      sets := Function.update s.sets k (s.sets k ++ [r.inflightRange]) } := by
  have hk : s.current = some k := (h.parties.each q _ hp).current k rfl
  have hgrow : ∀ j sp, sp ∈ s.sets j →
      sp ∈ Function.update s.sets k (s.sets k ++ [r.inflightRange]) j := by
    intro j sp hsp
    by_cases hj : j = k
    · subst hj
      rw [Function.update_self]
      exact List.mem_append_left _ hsp
    · rwa [Function.update_of_ne hj]
  have hothers : Parties.Orderly (Fine
      { s.advance q ⟨r, .waiting k⟩ (.checking (some ⟨k, r.inflightRange⟩)) with
        sets := Function.update s.sets k (s.sets k ++ [r.inflightRange]) })
      Beside s.requests :=
    h.parties.imp (fun _ _ _ hf =>
      hf.of_frame (fun t ht => hgrow t.set t.span (hf.held t ht)) hf.current rfl)
  refine ⟨h.fresh_update hp _, ?_, fun id w hw => owned_update_of_idle hp rfl (h.owned id w hw)⟩
  refine hothers.change Beside.symm ?_ ?_
  · -- the new ticket is the last of its set
    refine ⟨?_, ?_, ?_, nofun, nofun, trivial⟩
    · rintro t ⟨⟩
      show _ ∈ Function.update s.sets k _ k
      rw [Function.update_self]
      exact List.mem_append_right _ (List.mem_singleton.mpr rfl)
    · rintro t ⟨⟩
      exact r.start_lt_stop_inflightRange
    · rintro j ⟨⟩
      exact hk
  · intro j b _ hb
    have hf := h.parties.each j b hb
    refine ⟨?_, nofun⟩
    rintro t t' ⟨⟩ ht'
    have hsame : t'.set = k :=
      Option.some.inj ((hf.current t'.set (set_of_ticket ht')).symm.trans hk)
    have hmem : t'.span ∈ s.sets k := by
      rw [← hsame]
      exact hf.held t' ht'
    exact apart_of_spansOverlap hfree hmem

theorem Orderly.release (h : s.Orderly) {t : Option Ticket}
    (hp : s.requests q = some ⟨r, .leaving t⟩) :
    Orderly { s.giveBack t with requests := Function.update s.requests q none } := by
  have hheld : ∀ q' p', q' ≠ q → s.requests q' = some p' → ∀ t', p'.ticket = some t' →
      t'.span ∈ (s.giveBack t).sets t'.set := by
    intro q' p' hq' hp' t' ht'
    have hmem := (h.parties.each q' p' hp').held t' ht'
    cases t with
    | none => exact hmem
    | some t =>
      have hapart := (h.parties.pair q q' _ p' hq'.symm hp hp').apart t t' rfl ht'
      have hne : t'.span ≠ t.span := hapart.ne ((h.parties.each q _ hp).nonempty t rfl)
      show _ ∈ Function.update s.sets t.set _ t'.set
      by_cases hset : t'.set = t.set
      · rw [hset, Function.update_self, List.mem_erase_of_ne hne, ← hset]
        exact hmem
      · rwa [Function.update_of_ne hset]
  have hslot : (s.giveBack t).slot = s.slot := by cases t <;> rfl
  have hcurrent : (s.giveBack t).current = s.current := by cases t <;> rfl
  have hnext : (s.giveBack t).nextRequest = s.nextRequest := by cases t <;> rfl
  refine ⟨?_, h.parties.leave.imp (fun q' p' hp' hf => ?_), ?_⟩
  · show ∀ q', (s.giveBack t).nextRequest ≤ q' → _
    rw [hnext]
    exact h.fresh_update hp none
  · have hq' : q' ≠ q := by
      rintro rfl
      rw [Function.update_self] at hp'
      cases hp'
    rw [Function.update_of_ne hq'] at hp'
    refine hf.of_frame (hheld q' p' hq' hp') (fun k hk => ?_) hslot
    exact hcurrent.trans (hf.current k hk)
  · show ∀ id w, (s.giveBack t).slot.writers id = some w → _
    rw [hslot]
    exact fun id w hw => owned_update_of_idle hp rfl (h.owned id w hw)

theorem Orderly.beginSegment (h : s.Orderly) {t : Option Ticket} {p : SegmentParams}
    (hp : s.requests q = some ⟨r, .opening t p⟩)
    (hbeside : ∀ q' < s.nextRequest, ∀ p' ∈ s.requests q',
      p'.writer.isSome → t.isSome ∧ p'.ticket.isSome) :
    Orderly { s.advance q ⟨r, .opening t p⟩ (.writing t s.slot.nextResponse) with
      slot := s.slot.openBody p } := by
  have hold := h.parties.each q _ hp
  have hwriters : ∀ id, id < s.slot.nextResponse →
      (s.slot.openBody p).writers id = s.slot.writers id := by
    intro id hid
    exact Function.update_of_ne (Nat.ne_of_lt hid) _ _
  have hothers : Parties.Orderly (Fine
      { s.advance q ⟨r, .opening t p⟩ (.writing t s.slot.nextResponse) with
        slot := s.slot.openBody p }) Beside s.requests := by
    refine h.parties.imp (fun _ b _ hf => ⟨hf.held, hf.nonempty, hf.current, ?_, ?_, hf.ticketed⟩)
    · exact fun id hid => Nat.lt_succ_of_lt (hf.writer_lt id hid)
    · intro id k w hid hk hw o ho
      have hlt := hf.writer_lt id hid
      refine hf.within id k w hid hk ((hwriters id hlt).symm.trans hw) o ?_
      unfold Slot.touched at ho ⊢
      rwa [Slot.params_openBody_of_lt hlt] at ho
  refine ⟨h.fresh_update hp _, hothers.change Beside.symm ?_ ?_, ?_⟩
  · refine ⟨hold.held, hold.nonempty, hold.current, ?_, ?_, hold.ticketed⟩
    · rintro id ⟨⟩
      exact Nat.lt_succ_self _
    · rintro id k w ⟨⟩ - hw o ⟨hlo, hhi⟩
      have hnew : (s.slot.openBody p).writers s.slot.nextResponse
          = some { file := s.slot.body.getD s.slot.nextFile } := Function.update_self _ _ _
      cases hnew.symm.trans hw
      simp only [Slot.touched, Nat.cast_zero, add_zero] at hlo hhi
      omega
  · intro j b hj hb
    refine ⟨(h.parties.pair q j _ b hj.symm hp hb).apart, ?_⟩
    rintro i k ⟨⟩ hk
    have hlt := (h.parties.each j b hb).writer_lt k hk
    refine ⟨(Nat.ne_of_lt hlt).symm, ?_⟩
    exact hbeside j (h.lt_nextRequest hb) b hb (by rw [hk]; rfl)
  · intro id w hw
    by_cases hid : id = s.slot.nextResponse
    · subst hid
      exact ⟨q, _, Function.update_self _ _ _, rfl⟩
    · have hw' : s.slot.writers id = some w := (Function.update_of_ne hid _ _).symm.trans hw
      exact owned_update_of_idle hp rfl (h.owned id w hw')

theorem Orderly.segment (h : s.Orderly) {n : ℕ} {slot : Slot} (hp : s.requests q = some p)
    (hid : p.writer = some id) (hadv : Slot.Advance s.slot slot id n)
    (hahead : ∀ t ∈ p.ticket, ∀ w ∈ s.slot.writers id,
      ∀ o, (s.slot.ahead id w n).Has o → t.span.Has o) : Orderly { s with slot := slot } := by
  refine ⟨h.fresh, h.parties.imp (fun q' b hb hf => ?_), ?_⟩
  · refine ⟨hf.held, hf.nonempty, hf.current, ?_, ?_, hf.ticketed⟩
    · show ∀ i, b.writer = some i → i < slot.nextResponse
      rw [hadv.nextResponse]
      exact hf.writer_lt
    · intro i t w' hi ht hw' o ho
      by_cases heq : i = id
      · subst heq
        -- the writer is this request's, so the bytes ahead are within its range
        have hsame : q' = q := by
          by_contra hne
          exact ((h.parties.pair q' q b p hne hb hp).writers i i hi hid).1 rfl
        subst hsame
        cases hb.symm.trans hp
        obtain ⟨w, hw, htouched⟩ := hadv.has_touched hw'
        rcases htouched o ho with hbefore | hnew
        · exact hf.within i t w hi ht hw o hbefore
        · exact hahead t ht w hw o hnew
      · rw [hadv.others i heq] at hw'
        refine hf.within i t w' hi ht hw' o ?_
        unfold Slot.touched at ho ⊢
        rwa [hadv.params] at ho
  · intro i w hw
    by_cases heq : i = id
    · subst heq
      exact ⟨q, p, hp, hid⟩
    · exact h.owned i w ((hadv.others i heq).symm.trans hw)

theorem Orderly.store (h : s.Orderly) {slot : Slot} (n : ℕ) (hw : slot.writers = s.slot.writers)
    (hr : slot.responses = s.slot.responses) (hn : slot.nextResponse = s.slot.nextResponse) :
    Orderly { s with slot := slot, drops := n } := by
  have htouched : ∀ id w, slot.touched id w = s.slot.touched id w := by
    intro id w
    simp only [Slot.touched, Slot.params, hr]
  refine ⟨h.fresh, h.parties.imp (fun _ b _ hf =>
    ⟨hf.held, hf.nonempty, hf.current, ?_, ?_, hf.ticketed⟩), ?_⟩
  · show ∀ i, b.writer = some i → i < slot.nextResponse
    rw [hn]
    exact hf.writer_lt
  · intro id t w hid ht hw' o ho
    rw [hw] at hw'
    rw [htouched] at ho
    exact hf.within id t w hid ht hw' o ho
  · show ∀ id w, slot.writers id = some w → _
    rw [hw]
    exact h.owned

theorem Orderly.dropSet (h : s.Orderly) (n : ℕ)
    (hunused : ∀ q < s.nextRequest, ∀ p ∈ s.requests q, p.set = none) :
    Orderly { s with current := none, drops := n } := by
  refine ⟨h.fresh, h.parties.imp (fun q p hp hf => ?_), h.owned⟩
  refine hf.of_frame hf.held (fun k hk => ?_) rfl
  rw [hunused q (h.lt_nextRequest hp) p hp] at hk
  cases hk

theorem Orderly.step {key : Bytes} {interval : ℤ} {s' : Writers} {e : WritersEvent}
    (h : s.Orderly) (hg : s.Guarded e) (hs : s.step key interval e = some s') : s'.Orderly := by
  cases e with
  | forward r =>
    rw [Writers.step] at hs
    split at hs
    · cases hs
      refine h.loadOrStore.arrive ⟨nofun, nofun, ?_, nofun, nofun, trivial⟩ rfl rfl
      rintro k ⟨⟩
      exact s.current_loadOrStore
    · next hno =>
      cases hs
      exact h.arrive ⟨nofun, nofun, nofun, nofun, nofun, fun hyes => absurd hyes hno⟩ rfl rfl
  | acquire q =>
    rw [Writers.step] at hs
    split at hs
    · next r k hp =>
      obtain ⟨hfree, hs⟩ := Option.ite_none_left_eq_some.mp hs
      cases hs
      exact h.acquire hp (by simpa using hfree)
    · cases hs
  | giveUp q =>
    rw [Writers.step] at hs
    split at hs
    · next r k hp =>
      obtain ⟨-, hs⟩ := Option.ite_none_right_eq_some.mp hs
      cases hs
      exact h.advance_of_idle hp rfl ⟨nofun, nofun, nofun⟩ trivial
    · cases hs
  | recheck q hit =>
    rw [Writers.step] at hs
    split at hs
    · next r t hp =>
      cases hs
      cases hit with
      | true => exact h.advance_of_idle hp rfl ⟨fun _ ht => ht, fun _ hk => hk, nofun⟩ trivial
      | false =>
        refine h.advance_of_idle hp rfl ⟨fun _ ht => ht, fun _ hk => hk, nofun⟩ ?_
        intro _ hpass
        cases t with
        | none => cases hpass
        | some t => rfl
    · cases hs
  | answer q u =>
    rw [Writers.step] at hs
    split at hs
    · next r t pass hp =>
      cases hs
      have hticketed := (h.parties.each q _ hp).ticketed
      split
      · next p hseg =>
        refine h.advance_of_idle hp rfl ⟨fun _ ht => ht, fun _ hk => hk, nofun⟩ ?_
        -- what is filed is the answer to a GET that is not only passed on
        intro hart
        obtain ⟨v, -, hseg⟩ := Option.bind_eq_some_iff.mp hseg
        obtain ⟨hpass, hget⟩ := Forwarded.get_of_segment hseg
        have hart : r.artifact = true := hart
        exact hticketed (by simp [Forwarded.takesTicket, hart, hget]) hpass
      · exact h.advance_of_idle hp rfl ⟨fun _ ht => ht, fun _ hk => hk, nofun⟩ trivial
    · cases hs
  | beginSegment q ok =>
    rw [Writers.step] at hs
    split at hs
    · next r t p hp =>
      cases ok with
      | true =>
        obtain ⟨slot, hslot, rfl⟩ := Option.map_eq_some_iff.mp hs
        cases Slot.steps_of_step hslot with
        | beginSegment hv => exact h.beginSegment hp (hg _ hp)
      | false =>
        cases hs
        exact h.advance_of_idle hp rfl ⟨fun _ ht => ht, fun _ hk => hk, nofun⟩ trivial
    · cases hs
  | segment q e =>
    rw [Writers.step] at hs
    split at hs
    · next r t id hp =>
      obtain ⟨hown, hs⟩ := Option.ite_none_right_eq_some.mp hs
      obtain ⟨slot, hslot, rfl⟩ := Option.map_eq_some_iff.mp hs
      have hnext : Orderly { s with slot := slot } :=
        h.segment hp rfl (Slot.advance_of_step hown hslot)
          (fun t ht w hw => hg _ hp t ht id rfl w hw)
      have hticketed := (h.parties.each q _ hp).ticketed
      -- the request is done with its writer when that is closed
      refine @Orderly.advance { s with slot := slot } q _ _ hnext hp ?_ ?_ ?_
      · split
        · exact ⟨fun _ ht => ht, fun _ hk => hk, nofun⟩
        · exact ⟨fun _ ht => ht, fun _ hk => hk, fun _ hid => ⟨hid, rfl⟩⟩
      · split
        · trivial
        · exact hticketed
      · rintro i w ⟨⟩ hw
        have hw : slot.writers id = some w := hw
        rw [hw]
        rfl
    · cases hs
  | release q =>
    rw [Writers.step] at hs
    split at hs
    · next r t hp =>
      cases hs
      exact h.release hp
    · cases hs
  | store e =>
    rw [Writers.step] at hs
    obtain ⟨hseg, hs⟩ := Option.ite_none_left_eq_some.mp hs
    obtain ⟨slot, hslot, rfl⟩ := Option.map_eq_some_iff.mp hs
    obtain ⟨hw, hr, hn⟩ := Slot.frame_of_step (by simpa using hseg) hslot
    exact h.store _ hw hr hn
  | dropSet =>
    rw [Writers.step] at hs
    obtain ⟨-, hs⟩ := Option.ite_none_left_eq_some.mp hs
    cases hs
    exact h.dropSet _ hg

/-- **In every state of every run of guarded steps no two writers have touched the same
byte.** -/
theorem exclusive_of_guarded {key : Bytes} {interval : ℤ} {es : List WritersEvent}
    (hmeets : Runs.Meets (step key interval) Guarded empty es) :
    Runs.Throughout (step key interval) (fun s => s.Exclusive ∧ s.Within) empty es := by
  have horderly : Runs.Throughout (Writers.step key interval) Orderly empty es :=
    Runs.throughout_of_meets (fun _ _ _ h hg hs => h.step hg hs) orderly_empty hmeets
  exact horderly.imp (fun _ h => ⟨h.exclusive, h.inside⟩)

/-! ## Runs -/

def getFor (artifact : Bool) (rangeHdr : Bytes) : Forwarded :=
  ⟨artifact, ascii "GET", rangeHdr, true, ⟨ascii "hf", ascii "/m", []⟩, []⟩

def wholeAnswer : Upstream := ⟨200, .empty, 4⟩

def partAnswer (contentRange : Bytes) : Upstream :=
  ⟨206, Coreserver.Header.empty.set (ascii "Content-Range") contentRange, 2⟩

def take (q : ℕ) (rangeHdr : Bytes) : List WritersEvent :=
  [.forward (getFor true rangeHdr), .acquire q, .recheck q false]

def answered (q id : ℕ) (u : Upstream) (bs : Bytes) : List WritersEvent :=
  [.answer q (some u), .beginSegment q true, .segment q (.truncate id true),
    .segment q (.write id bs bs.length)]

def closed (q id : ℕ) : List WritersEvent := [.segment q (.commit id), .release q]

def halves : List WritersEvent :=
  take 0 (ascii "bytes=0-1") ++ take 1 (ascii "bytes=2-3")
    ++ answered 0 0 (partAnswer (ascii "bytes 0-1/4")) [1, 2]
    ++ answered 1 1 (partAnswer (ascii "bytes 2-3/4")) [3, 4]
    ++ closed 0 0 ++ closed 1 1 ++ [.store .purgeRead, .store .remove, .dropSet]

theorem exclusive_of_guarded_halves :
    (Runs.run (step [107] 0) empty halves).isSome
      ∧ Runs.Throughout (step [107] 0) (fun s => s.Exclusive ∧ s.Within) empty halves :=
  ⟨by decide +kernel, exclusive_of_guarded (by decide +kernel)⟩

def Clash (s : Writers) (i j : ℕ) : Prop :=
  ∃ w ∈ s.slot.writers i, ∃ v ∈ s.slot.writers j,
    w.file = v.file ∧ ¬ (s.slot.touched i w).Apart (s.slot.touched j v)

instance (s : Writers) (i j : ℕ) : Decidable (s.Clash i j) :=
  inferInstanceAs (Decidable (∃ w ∈ s.slot.writers i, ∃ v ∈ s.slot.writers j,
    w.file = v.file ∧ ¬ (s.slot.touched i w).Apart (s.slot.touched j v)))

theorem Clash.not_exclusive {i j : ℕ} (h : s.Clash i j) (hne : i ≠ j) : ¬ s.Exclusive := by
  obtain ⟨w, hw, v, hv, -, hclash⟩ := h
  exact fun hex => hclash (hex i j w v hne hw hv)

def Strays (s : Writers) (q : ℕ) : Prop :=
  ∃ p ∈ s.requests q, p.request.artifact = true ∧ ∃ id ∈ p.writer, ∃ w ∈ s.slot.writers id,
    ∃ t ∈ p.ticket, ¬ ∀ o, (s.slot.touched id w).Has o → t.span.Has o

instance (s : Writers) (q : ℕ) : Decidable (s.Strays q) :=
  inferInstanceAs (Decidable (∃ p ∈ s.requests q, p.request.artifact = true ∧ ∃ id ∈ p.writer,
    ∃ w ∈ s.slot.writers id, ∃ t ∈ p.ticket,
      ¬ ∀ o, (s.slot.touched id w).Has o → t.span.Has o))

theorem Strays.not_within (h : s.Strays q) : ¬ s.Within := by
  obtain ⟨⟨r, stage⟩, hp, hart, id, hid, w, hw, t, ht, hout⟩ := h
  intro hwithin
  cases stage with
  | writing ticket i =>
    obtain rfl : i = id := Option.some.inj hid
    obtain rfl : ticket = some t := ht
    obtain ⟨k, hk, -, hin⟩ := hwithin q r _ i w hp hart hw
    cases hk
    exact hout hin
  | waiting | checking | asking | opening | leaving => cases hid

def rangesIgnored : List WritersEvent :=
  take 0 (ascii "bytes=0-1") ++ take 1 (ascii "bytes=2-3")
    ++ answered 0 0 wholeAnswer [1] ++ answered 1 1 wholeAnswer [1]

def metadataTwice : List WritersEvent :=
  [.forward (getFor false []), .forward (getFor false [])]
    ++ answered 0 0 wholeAnswer [1] ++ answered 1 1 wholeAnswer [1]

def purgedMeanwhile : List WritersEvent :=
  take 0 [] ++ answered 0 0 wholeAnswer [1] ++ closed 0 0
    ++ [.store .purgeRead, .store .remove] ++ take 1 [] ++ answered 1 1 wholeAnswer [1]
    ++ [.dropSet] ++ take 2 [] ++ answered 2 2 wholeAnswer [1]

/-- **Writers of one file touch the same bytes.** -/
theorem writers_touch_same_bytes :
    (∃ s, Runs.run (step [107] 0) empty rangesIgnored = some s ∧ ¬ s.Exclusive ∧ ¬ s.Within)
    ∧ (∃ s, Runs.run (step [107] 0) empty metadataTwice = some s ∧ ¬ s.Exclusive)
    ∧ (∃ s, Runs.run (step [107] 0) empty purgedMeanwhile = some s ∧ ¬ s.Exclusive) := by
  have hranges : ∃ s ∈ Runs.run (step [107] 0) empty rangesIgnored, s.Clash 0 1 ∧ s.Strays 1 := by
    decide +kernel
  have hmetadata : ∃ s ∈ Runs.run (step [107] 0) empty metadataTwice, s.Clash 0 1 := by
    decide +kernel
  have hpurge : ∃ s ∈ Runs.run (step [107] 0) empty purgedMeanwhile, s.Clash 1 2 := by
    decide +kernel
  refine ⟨?_, ?_, ?_⟩
  · obtain ⟨s, hs, hclash, hstrays⟩ := hranges
    exact ⟨s, hs, hclash.not_exclusive (by decide), hstrays.not_within⟩
  · obtain ⟨s, hs, hclash⟩ := hmetadata
    exact ⟨s, hs, hclash.not_exclusive (by decide)⟩
  · obtain ⟨s, hs, hclash⟩ := hpurge
    exact ⟨s, hs, hclash.not_exclusive (by decide)⟩

end Writers

end Proxy
