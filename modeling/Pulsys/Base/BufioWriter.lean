import Pulsys.Base.Bytes

/-!
# Buffered writers over a connection

A writer passes on what it collects when its buffer is full or flushed, and does nothing
after a failure. `Writer.Given w t`: nothing failed and `t` was passed on or is in the
buffer, or the connection has as much of `t` as it takes.
-/

namespace Bufio

structure Sink where
  sent : Bytes
  limit : Option ℕ

namespace Sink

def Takes (s : Sink) (n : ℕ) : Prop := ∀ l, s.limit = some l → n ≤ l

instance (s : Sink) (n : ℕ) : Decidable (s.Takes n) :=
  match h : s.limit with
  | none => isTrue (fun l hl => by rw [h] at hl; cases hl)
  | some l =>
    if hn : n ≤ l then isTrue (fun l' hl => by rw [h] at hl; cases hl; exact hn)
    else isFalse (fun ht => hn (ht l h))

def write (s : Sink) (p : Bytes) : Sink × Bool :=
  if s.Takes (s.sent.length + p.length) then ({ s with sent := s.sent ++ p }, false)
  else ({ s with sent := s.sent ++ p.take (s.limit.getD 0 - s.sent.length) }, true)

variable {s : Sink}

theorem write_ok {p : Bytes} (h : s.Takes (s.sent.length + p.length)) :
    s.write p = ({ s with sent := s.sent ++ p }, false) := by
  rw [write, if_pos h]

theorem write_fails {p : Bytes} (h : ¬ s.Takes (s.sent.length + p.length))
    (hsent : s.Takes s.sent.length) :
    (s.write p).2 = true ∧ ∃ l, (s.write p).1.limit = some l ∧ l < (s.sent ++ p).length
      ∧ (s.write p).1.sent = (s.sent ++ p).take l := by
  obtain ⟨l, hl, hlt⟩ : ∃ l, s.limit = some l ∧ ¬ s.sent.length + p.length ≤ l := by
    simpa only [Takes, not_forall, exists_prop] using h
  rw [write, if_neg h]
  refine ⟨rfl, l, hl, by rw [List.length_append]; omega, ?_⟩
  dsimp only
  rw [hl, Option.getD_some, List.take_append, List.take_of_length_le (hsent l hl)]

end Sink

structure Writer where
  size : ℕ
  buf : Bytes
  sink : Sink
  err : Bool

namespace Writer

def new (size : ℕ) (limit : Option ℕ) : Writer := ⟨size, [], ⟨[], limit⟩, false⟩

def pass (w : Writer) (p : Bytes) : Writer :=
  { w with sink := (w.sink.write p).1, err := (w.sink.write p).2 }

def flush (w : Writer) : Writer :=
  if w.err then w
  else if w.buf = [] then w
  else
    let w' := w.pass w.buf
    if w'.err then w' else { w' with buf := [] }

def write (w : Writer) (p : Bytes) : Writer :=
  if w.err then w
  else if p.length ≤ w.size - w.buf.length then { w with buf := w.buf ++ p }
  else if w.buf = [] then w.pass p
  else
    let n := w.size - w.buf.length
    let w' := { w with buf := w.buf ++ p.take n }.flush
    if w'.err then w'
    else if (p.drop n).length ≤ w'.size then { w' with buf := p.drop n }
    else w'.pass (p.drop n)

def writeByte (w : Writer) (c : UInt8) : Writer :=
  if w.err then w
  else
    let w' := if w.size ≤ w.buf.length then w.flush else w
    if w'.err then w' else { w' with buf := w'.buf ++ [c] }

def writeAll (w : Writer) (ps : List Bytes) : Writer := ps.foldl write w

theorem limit_pass (w : Writer) (p : Bytes) : (w.pass p).sink.limit = w.sink.limit := by
  unfold pass Sink.write
  dsimp only
  split <;> rfl

theorem limit_flush (w : Writer) : w.flush.sink.limit = w.sink.limit := by
  unfold flush
  dsimp only
  split
  · rfl
  split
  · rfl
  split
  · exact limit_pass w w.buf
  · exact limit_pass w w.buf

theorem limit_write (w : Writer) (p : Bytes) : (w.write p).sink.limit = w.sink.limit := by
  unfold write
  dsimp only
  split
  · rfl
  split
  · rfl
  split
  · exact limit_pass w p
  split
  · exact limit_flush _
  split
  · exact limit_flush _
  · exact (limit_pass _ _).trans (limit_flush _)

theorem limit_writeByte (w : Writer) (c : UInt8) :
    (w.writeByte c).sink.limit = w.sink.limit := by
  unfold writeByte
  dsimp only
  split
  · rfl
  have hroom : (if w.size ≤ w.buf.length then w.flush else w).sink.limit = w.sink.limit := by
    split
    · exact limit_flush w
    · rfl
  generalize (if w.size ≤ w.buf.length then w.flush else w) = w' at hroom ⊢
  split
  · exact hroom
  · exact hroom

theorem limit_writeAll (w : Writer) (ps : List Bytes) :
    (w.writeAll ps).sink.limit = w.sink.limit := by
  induction ps generalizing w with
  | nil => rfl
  | cons p ps ih => exact (ih (w.write p)).trans (limit_write w p)

def Given (w : Writer) (t : Bytes) : Prop :=
  if w.err then ∃ l, w.sink.limit = some l ∧ l < t.length ∧ w.sink.sent = t.take l
  else w.sink.sent ++ w.buf = t ∧ w.sink.Takes w.sink.sent.length

theorem given_new (size : ℕ) (limit : Option ℕ) : (new size limit).Given [] := by
  refine ⟨rfl, ?_⟩
  intro l _
  exact Nat.zero_le l

variable {w : Writer} {t : Bytes}

theorem Given.more_of_err (h : w.Given t) (he : w.err = true) (p : Bytes) : w.Given (t ++ p) := by
  unfold Given at *
  rw [if_pos he] at *
  obtain ⟨l, hl, hlt, hsent⟩ := h
  refine ⟨l, hl, by rw [List.length_append]; omega, ?_⟩
  rw [hsent, List.take_append_of_le_length hlt.le]

theorem Given.pass {p : Bytes} (hbuf : w.buf = []) (herr : w.err = false) (h : w.Given t) :
    (w.pass p).Given (t ++ p) ∧ (w.pass p).buf = [] := by
  unfold Given at h
  rw [herr, if_neg (by simp), hbuf, List.append_nil] at h
  refine ⟨?_, hbuf⟩
  unfold Writer.pass Given
  by_cases hp : w.sink.Takes (w.sink.sent.length + p.length)
  · rw [Sink.write_ok hp]
    refine ⟨?_, ?_⟩
    · simp [hbuf, h.1]
    · simpa [Sink.Takes] using hp
  · obtain ⟨hf, hcut⟩ := Sink.write_fails hp h.2
    simp only [hf, if_true]
    rwa [h.1] at hcut

theorem Given.flush (h : w.Given t) :
    w.flush.Given t ∧ (w.flush.err = false → w.flush.buf = []) ∧ w.flush.size = w.size := by
  unfold Writer.flush
  by_cases he : w.err = true
  · rw [if_pos he]
    exact ⟨h, fun hf => absurd he (by simp [hf]), rfl⟩
  rw [if_neg he]
  have herr : w.err = false := by simpa using he
  by_cases hb : w.buf = []
  · rw [if_pos hb]
    exact ⟨h, fun _ => hb, rfl⟩
  rw [if_neg hb]
  unfold Given at h
  rw [if_neg he] at h
  -- the writer with its buffer set aside was given what was passed on
  have h0 : ({ w with buf := [] } : Writer).Given w.sink.sent := by
    unfold Given
    rw [if_neg he]
    exact ⟨by simp, h.2⟩
  have herr0 : ({ w with buf := [] } : Writer).err = false := herr
  obtain ⟨hpass, -⟩ := h0.pass (p := w.buf) rfl herr0
  rw [h.1] at hpass
  unfold Given Writer.pass at hpass ⊢
  dsimp only at hpass ⊢
  cases hw : (w.sink.write w.buf).2 with
  | true =>
    simp only [hw, if_true] at hpass ⊢
    exact ⟨hpass, by simp, trivial⟩
  | false =>
    simp only [hw, Bool.false_eq_true, if_false] at hpass ⊢
    exact ⟨hpass, by simp, trivial⟩

theorem Given.write (h : w.Given t) (p : Bytes) : (w.write p).Given (t ++ p) := by
  unfold Writer.write
  by_cases he : w.err = true
  · rw [if_pos he]
    exact h.more_of_err he p
  rw [if_neg he]
  have herr : w.err = false := by simpa using he
  split
  · unfold Given at h ⊢
    rw [if_neg he] at h
    dsimp only
    rw [if_neg he, ← h.1, List.append_assoc]
    exact ⟨rfl, h.2⟩
  split
  · next hb => exact (h.pass hb herr).1
  · set n := w.size - w.buf.length
    have hfill : ({ w with buf := w.buf ++ p.take n } : Writer).Given (t ++ p.take n) := by
      unfold Given at h ⊢
      rw [if_neg he] at h
      dsimp only
      rw [if_neg he, ← h.1, List.append_assoc]
      exact ⟨rfl, h.2⟩
    obtain ⟨hfl, hempty, hsize⟩ := hfill.flush
    have hcut : t ++ p.take n ++ p.drop n = t ++ p := by
      rw [List.append_assoc, List.take_append_drop]
    dsimp only
    split
    · next hef =>
      rw [← hcut]
      exact hfl.more_of_err hef _
    next hef =>
    have hef' : ({ w with buf := w.buf ++ p.take n } : Writer).flush.err = false := by
      simpa using hef
    split
    · unfold Given at hfl ⊢
      rw [if_neg hef] at hfl
      dsimp only
      rw [if_neg hef, ← hcut, ← hfl.1, hempty hef', List.append_nil]
      exact ⟨rfl, hfl.2⟩
    · rw [← hcut]
      exact (hfl.pass (hempty hef') hef').1

theorem Given.writeByte (h : w.Given t) (c : UInt8) : (w.writeByte c).Given (t ++ [c]) := by
  unfold Writer.writeByte
  by_cases he : w.err = true
  · rw [if_pos he]
    exact h.more_of_err he [c]
  rw [if_neg he]
  have hroom : (if w.size ≤ w.buf.length then w.flush else w).Given t := by
    split
    · exact h.flush.1
    · exact h
  dsimp only
  generalize (if w.size ≤ w.buf.length then w.flush else w) = w' at hroom ⊢
  split
  · next hef => exact hroom.more_of_err hef [c]
  · next hef =>
    unfold Given at hroom ⊢
    rw [if_neg hef] at hroom
    dsimp only
    rw [if_neg hef, ← hroom.1, List.append_assoc]
    exact ⟨rfl, hroom.2⟩

theorem Given.writeAll (h : w.Given t) (ps : List Bytes) :
    (w.writeAll ps).Given (t ++ ps.flatten) := by
  induction ps generalizing w t with
  | nil => simpa [Writer.writeAll] using h
  | cons p ps ih =>
    have := ih (h.write p)
    rw [List.append_assoc] at this
    exact this

theorem Given.flush_result (h : w.Given t) :
    (w.flush.err = true ↔ ¬ w.flush.sink.Takes t.length)
      ∧ (w.flush.err = false → w.flush.sink.sent = t) := by
  obtain ⟨hg, hempty, -⟩ := h.flush
  unfold Given at hg
  cases he : w.flush.err with
  | true =>
    rw [he, if_pos rfl] at hg
    obtain ⟨l, hl, hlt, -⟩ := hg
    exact ⟨iff_of_true rfl (fun ht => hlt.not_ge (ht l hl)), by simp⟩
  | false =>
    rw [he, if_neg (by simp), hempty he, List.append_nil] at hg
    refine ⟨⟨by simp, fun hn => absurd ?_ hn⟩, fun _ => hg.1⟩
    rw [← hg.1]
    exact hg.2

theorem Given.sent_flush (h : w.Given t) :
    w.flush.sink.sent = w.flush.sink.limit.elim t t.take := by
  obtain ⟨herr, hsent⟩ := h.flush_result
  cases he : w.flush.err with
  | true =>
    have hg := h.flush.1
    unfold Given at hg
    rw [he, if_pos rfl] at hg
    obtain ⟨l, hl, -, hcut⟩ := hg
    rw [hcut, hl]
    rfl
  | false =>
    rw [hsent he]
    have htakes : w.flush.sink.Takes t.length := by
      by_contra hn
      rw [herr.mpr hn] at he
      cases he
    cases hl : w.flush.sink.limit with
    | none => rfl
    | some l => exact (List.take_of_length_le (htakes l hl)).symm

end Writer

end Bufio
