import Pulsys.Cache.WellFormed

/-!
# Ranges in flight, and what a writer has touched

A range is registered once none of the registered ones overlaps it, and removed when the
fetch is over. A writer has touched the bytes from its offset on, as many as it has written;
only a write makes that longer (`Slot.Advance`).
-/

namespace Cache

/-! ## The set of ranges -/

def Span.Apart (a b : Span) : Prop := ∀ o, a.Has o → ¬ b.Has o

instance (a b : Span) : Decidable (a.Apart b) :=
  inferInstanceAs (Decidable (∀ o, a.Has o → ¬ b.Has o))

variable {a b : Span}

theorem Span.Apart.symm (h : a.Apart b) : b.Apart a :=
  fun o hb ha => h o ha hb

theorem Span.Apart.mono {c d : Span} (h : a.Apart b) (hc : ∀ o, c.Has o → a.Has o)
    (hd : ∀ o, d.Has o → b.Has o) : c.Apart d :=
  fun o ho ho' => h o (hc o ho) (hd o ho')

theorem Span.Apart.ne (h : a.Apart b) (hne : a.start < a.stop) : b ≠ a := by
  rintro rfl
  exact h b.start ⟨le_refl _, hne⟩ ⟨le_refl _, hne⟩

def spansOverlap (set : List Span) (sp : Span) : Bool :=
  set.any (fun s => s.start < sp.stop && sp.start < s.stop)

theorem apart_of_spansOverlap {set : List Span} {sp s : Span}
    (h : spansOverlap set sp = false) (hs : s ∈ set) : sp.Apart s := by
  have hno : ¬ (s.start < sp.stop ∧ sp.start < s.stop) := by
    simpa using List.any_eq_false.mp h s hs
  rintro o ⟨hlo, hhi⟩ ⟨hlo', hhi'⟩
  exact hno ⟨by omega, by omega⟩

/-! ## What a writer has touched -/

def Event.writer : Event → Option ℕ
  | .truncate id _ => some id
  | .write id _ _ => some id
  | .checkpoint id => some id
  | .commit id => some id
  | .abandon id => some id
  | _ => none

def Event.taken : Event → ℕ
  | .write _ _ n => n
  | _ => 0

def Event.isRemove : Event → Bool
  | .remove => true
  | _ => false

namespace Slot

def ahead (s : Slot) (id : ℕ) (w : SegmentWriter) (n : ℕ) : Span :=
  ⟨(s.params id).start + w.written, (s.params id).start + w.written + n⟩

def touched (s : Slot) (id : ℕ) (w : SegmentWriter) : Span :=
  ⟨(s.params id).start, (s.params id).start + w.written⟩

structure Advance (s s' : Slot) (id n : ℕ) : Prop where
  others : ∀ i, i ≠ id → s'.writers i = s.writers i
  params : ∀ i, s'.params i = s.params i
  nextResponse : s'.nextResponse = s.nextResponse
  own : ∀ w', s'.writers id = some w' →
    ∃ w, s.writers id = some w ∧ w'.written = w.written + n

variable {s s' : Slot} {id : ℕ}

theorem Advance.of_update {n : ℕ} {v : Option SegmentWriter}
    (hw : s'.writers = Function.update s.writers id v) (hp : ∀ i, s'.params i = s.params i)
    (hn : s'.nextResponse = s.nextResponse)
    (hv : ∀ w', v = some w' → ∃ w, s.writers id = some w ∧ w'.written = w.written + n) :
    Advance s s' id n where
  others i hi := by rw [hw, Function.update_of_ne hi]
  params := hp
  nextResponse := hn
  own w' hw' := by
    rw [hw, Function.update_self] at hw'
    exact hv w' hw'

theorem advance_of_step {key : Bytes} {interval : ℤ} {e : Event} (hid : e.writer = some id)
    (hs : s.step key interval e = some s') : Advance s s' id e.taken := by
  cases steps_of_step hs with
  | @cut i w hw hr =>
    obtain rfl : i = id := Option.some.inj hid
    exact .of_update rfl (fun _ => rfl) rfl (fun w' hw' => ⟨w, hw, by cases hw'; rfl⟩)
  | @write i w bs n hw hr hf hn hmax =>
    obtain rfl : i = id := Option.some.inj hid
    exact .of_update rfl (params_writeBody s i w bs n) rfl
      (fun w' hw' => ⟨w, hw, by cases hw'; rfl⟩)
  | @checkpoint i w hw hr hpos =>
    obtain rfl : i = id := Option.some.inj hid
    exact .of_update rfl (fun _ => rfl) rfl (fun w' hw' => ⟨w, hw, by cases hw'; rfl⟩)
  | @cutFails i w hw hr =>
    obtain rfl : i = id := Option.some.inj hid
    exact .of_update rfl (fun _ => rfl) rfl nofun
  | @commit i w hw hr =>
    obtain rfl : i = id := Option.some.inj hid
    exact .of_update rfl (fun _ => rfl) rfl nofun
  | @abandon i w hw =>
    obtain rfl : i = id := Option.some.inj hid
    exact .of_update rfl (fun _ => rfl) rfl nofun
  | beginSegment | redirect | storeAlias | trimRead | trimWrite | purgeRead | remove => cases hid

theorem Advance.has_touched {n : ℕ} (h : Advance s s' id n) {w' : SegmentWriter}
    (hw' : s'.writers id = some w') :
    ∃ w, s.writers id = some w ∧ ∀ o, (s'.touched id w').Has o →
      (s.touched id w).Has o ∨ (s.ahead id w n).Has o := by
  obtain ⟨w, hw, hwritten⟩ := h.own w' hw'
  refine ⟨w, hw, ?_⟩
  rintro o ⟨hlo, hhi⟩
  simp only [touched, h.params, hwritten] at hlo hhi
  by_cases ho : o < (s.params id).start + w.written
  · exact .inl ⟨hlo, ho⟩
  · refine .inr ⟨?_, ?_⟩ <;> simp only [ahead] <;> omega

theorem frame_of_step {key : Bytes} {interval : ℤ} {e : Event} (hseg : e.isSegment = false)
    (hs : s.step key interval e = some s') :
    s'.writers = s.writers ∧ s'.responses = s.responses ∧ s'.nextResponse = s.nextResponse := by
  cases steps_of_step hs with
  | redirect | storeAlias | trimRead | trimWrite | purgeRead | remove => exact ⟨rfl, rfl, rfl⟩
  | beginSegment | cut | cutFails | write | checkpoint | commit | abandon => cases hseg

theorem params_openBody_of_lt {p : SegmentParams} {i : ℕ} (hi : i < s.nextResponse) :
    (s.openBody p).params i = s.params i := by
  simp only [params, openBody]
  rw [Function.update_of_ne (Nat.ne_of_lt hi)]

end Slot

end Cache
