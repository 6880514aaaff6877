import Pulsys.Base.CallLoop
import Pulsys.Coreserver.WarmSend

/-!
# The loops around `sendfile`

There are three: `sfState.write`, `sfHdtrState.write` and `reactorSendfile`. What is on the
socket is always a beginning of what was to be sent, and the counters are in step with it.

But the first two end as if all were sent when the kernel takes nothing. The second adds the
lengths of the head and of the body up in 64 bits, and offers no more than the sum: nothing if
that overflows, and less than the head for the negative length of an inverted range.
-/

namespace Coreserver

open Bytes Pump Text

structure Sendfile where
  header : Bytes
  file : Bytes
  off : ℕ
  n : ℤ
  header_lt : header.length < 2 ^ 63
  file_lt : file.length < 2 ^ 63
  off_lt : off < 2 ^ 63
  n_ge : -2 ^ 63 ≤ n
  n_lt : n < 2 ^ 63

def kernelSends (header file : Bytes) (offset most : ℤ) (t : Taken) : Bytes :=
  if offset < 0 then []
  else (header ++ file.drop offset.toNat).take (min t.count most.toNat)

/-! ## The loops over a file -/

structure FileState where
  transferred : ℤ := 0
  sent : Bytes := []

namespace FileState

def out (a : Sendfile) (st : FileState) (t : Taken) : Bytes :=
  let offset := wrap64 (a.off + st.transferred)
  let remaining := a.n - st.transferred
  let batch := maxSendfileSlice a.n remaining
  kernelSends [] a.file offset batch t

def advance (a : Sendfile) (st : FileState) (t : Taken) : FileState where
  transferred :=
    if 0 < (st.out a t).length then st.transferred + (st.out a t).length else st.transferred
  sent := st.sent ++ st.out a t

end FileState

def sfState (a : Sendfile) : CallLoop FileState Taken where
  ends st := if st.transferred < a.n then none else some .success
  call st t :=
    match t.err with
    | none => (st.advance a t, if (st.out a t).length = 0 then some .success else none)
    | some (.again ready) => (st.advance a t, if ready then none else some .error)
    | some .interrupted => (st.advance a t, none)
    | some .failed => (st.advance a t, some .error)

def reactorSendfile (a : Sendfile) : CallLoop FileState Taken where
  ends st := if st.transferred < a.n then none else some .success
  call st t :=
    match t.err with
    | none => (st.advance a t, if (st.out a t).length = 0 then some .error else none)
    | some .interrupted => (st.advance a t, none)
    | some (.again _) => (st.advance a t, some .error)
    | some .failed => (st.advance a t, some .error)

/-! ## The loop over a head and a file -/

structure SfHdtrState where
  bodySent : ℤ := 0
  headerSent : ℤ := 0
  sent : Bytes := []

namespace SfHdtrState

variable (a : Sendfile) (st : SfHdtrState)

def headerRemaining : ℤ := a.header.length - st.headerSent

def sentLen : ℤ := wrap64 (st.headerRemaining a + (a.n - st.bodySent))

def out (t : Taken) : Bytes :=
  let tail := if 0 < st.headerRemaining a then a.header.drop st.headerSent.toNat else []
  kernelSends tail a.file (wrap64 (a.off + st.bodySent)) (st.sentLen a) t

def advance (t : Taken) : SfHdtrState :=
  let totalShipped : ℤ := (st.out a t).length
  if 0 < totalShipped then
    if st.headerRemaining a ≤ totalShipped then
      { headerSent := a.header.length
        bodySent := st.bodySent + (totalShipped - st.headerRemaining a)
        sent := st.sent ++ st.out a t }
    else
      { bodySent := st.bodySent
        headerSent := st.headerSent + totalShipped
        sent := st.sent ++ st.out a t }
  else st

end SfHdtrState

def sfHdtrState (a : Sendfile) : CallLoop SfHdtrState Taken where
  ends st :=
    if st.bodySent < a.n ∨ st.headerSent < a.header.length then
      if st.sentLen a ≤ 0 then some .success else none
    else some .success
  call st t :=
    match t.err with
    | none => (st.advance a t, if (st.out a t).length = 0 then some .success else none)
    | some (.again ready) => (st.advance a t, if ready then none else some .error)
    | some .interrupted => (st.advance a t, none)
    | some .failed => (st.advance a t, some .error)

/-! ## What a loop is to do -/

structure LoopResult where
  sent : Bytes
  headerSent : ℤ
  bodySent : ℤ
  exit : Option Exit

structure LoopView (σ : Type) where
  loop : CallLoop σ Taken
  out : σ → Taken → Bytes
  sent : σ → Bytes
  headerSent : σ → ℤ
  bodySent : σ → ℤ

namespace LoopView

variable {σ : Type} (V : LoopView σ)

def result (s : σ) (calls : List Taken) : LoopResult :=
  let r := V.loop.run s calls
  ⟨V.sent r.1, V.headerSent r.1, V.bodySent r.1, r.2⟩

end LoopView

def sfView (a : Sendfile) : LoopView FileState :=
  ⟨sfState a, FileState.out a, FileState.sent, fun _ => 0, FileState.transferred⟩

def reactorView (a : Sendfile) : LoopView FileState :=
  ⟨reactorSendfile a, FileState.out a, FileState.sent, fun _ => 0, FileState.transferred⟩

def sfHdtrView (a : Sendfile) : LoopView SfHdtrState :=
  ⟨sfHdtrState a, SfHdtrState.out a, SfHdtrState.sent, SfHdtrState.headerSent,
    SfHdtrState.bodySent⟩

structure ExactLoop (header : Bytes) (a : Sendfile) (loop : List Taken → LoopResult)
    (calls : List Taken) : Prop where
  contiguous : (loop calls).sent <+: header ++ (a.file.drop a.off).take a.n.toNat
  inStep : (loop calls).headerSent = min (loop calls).sent.length header.length
    ∧ (loop calls).bodySent = ((loop calls).sent.length - header.length : ℕ)
  complete : (loop calls).exit = some .success →
    (loop calls).sent.length = header.length + a.n.toNat
  noSpin : ∀ t : Taken, (loop calls).exit = none → t.err = none →
    (loop (calls ++ [t])).sent = (loop calls).sent → (loop (calls ++ [t])).exit ≠ none

theorem append_prefix {text sent : Bytes} (h : sent <+: text) (k : ℕ) :
    sent ++ (text.drop sent.length).take k <+: text := by
  have heq := List.prefix_iff_eq_take.mp h
  have hadd : sent ++ (text.drop sent.length).take k = text.take (sent.length + k) := by
    rw [List.take_add, ← heq]
  rw [hadd]
  exact List.take_prefix _ _

/-! ## The file -/

namespace FileState

structure Sound (a : Sendfile) (st : FileState) : Prop where
  counted : st.transferred = st.sent.length
  le : st.sent.length ≤ a.n.toNat
  text : st.sent <+: a.file.drop a.off

variable {a : Sendfile} {st : FileState}

theorem sound_start (a : Sendfile) : Sound a {} := ⟨rfl, Nat.zero_le _, List.nil_prefix⟩

theorem Sound.out_eq (h : Sound a st) (t : Taken) :
    st.out a t = ((a.file.drop a.off).drop st.sent.length).take
      (min t.count (bodySlice a.n st.sent.length)) := by
  have hoff := a.off_lt
  have hfile := a.file_lt
  have hlen := h.text.length_le
  rw [List.length_drop] at hlen
  have hoffset : wrap64 (a.off + st.transferred) = ((a.off + st.sent.length : ℕ) : ℤ) := by
    rw [h.counted, wrap64_eq_self (by omega) (by omega)]
    exact (Nat.cast_add _ _).symm
  rw [out, hoffset, h.counted, kernelSends, if_neg (by omega), Int.toNat_natCast,
    List.nil_append, List.drop_drop, bodySlice]

theorem Sound.length_out (h : Sound a st) (t : Taken) :
    (st.out a t).length = min (min t.count (bodySlice a.n st.sent.length))
      (a.file.length - a.off - st.sent.length) := by
  rw [h.out_eq, List.length_take, List.length_drop, List.length_drop]

theorem Sound.advance (h : Sound a st) (t : Taken) : Sound a (st.advance a t) := by
  refine ⟨?_, ?_, ?_⟩
  · show (if _ then _ else _) = ((st.sent ++ st.out a t).length : ℤ)
    rw [List.length_append, Nat.cast_add, h.counted]
    split
    · rfl
    · next hnone => rw [Nat.eq_zero_of_not_pos hnone, Nat.cast_zero, add_zero]
  · show (st.sent ++ st.out a t).length ≤ a.n.toNat
    have hslice := bodySlice_le a.n st.sent.length
    have hle := h.le
    rw [List.length_append, h.length_out]
    omega
  · show st.sent ++ st.out a t <+: _
    rw [h.out_eq]
    exact append_prefix h.text _

theorem Sound.contiguous (h : Sound a st) : st.sent <+: (a.file.drop a.off).take a.n.toNat :=
  List.prefix_take_iff.mpr ⟨h.text, h.le⟩

end FileState

/-! ## The head and the file -/

namespace SfHdtrState

structure Sound (a : Sendfile) (st : SfHdtrState) : Prop where
  headerSent : st.headerSent = min st.sent.length a.header.length
  bodySent : st.bodySent = (st.sent.length - a.header.length : ℕ)
  le : st.sent.length ≤ fusedGoal a.header.length a.n
  text : st.sent <+: a.header ++ a.file.drop a.off

variable {a : Sendfile} {st : SfHdtrState}

theorem sound_start (a : Sendfile) : Sound a {} :=
  ⟨by simp, by simp, Nat.zero_le _, List.nil_prefix⟩

theorem Sound.left_eq (h : Sound a st) :
    st.headerRemaining a + (a.n - st.bodySent) = a.header.length + a.n - st.sent.length := by
  rw [headerRemaining, h.headerSent, h.bodySent]
  omega

theorem Sound.sentLen_eq (h : Sound a st)
    (hlt : st.sent.length < fusedGoal a.header.length a.n) :
    st.sentLen a = (fusedGoal a.header.length a.n - st.sent.length : ℕ) := by
  have hge := a.n_ge
  unfold fusedGoal at hlt ⊢
  split at hlt
  · next hroom =>
    rw [if_pos hroom, sentLen, h.left_eq, wrap64_eq_self (by omega) (by omega)]
    omega
  · cases hlt

theorem Sound.sentLen_le (h : Sound a st) (hge : fusedGoal a.header.length a.n ≤ st.sent.length) :
    st.sentLen a ≤ 0 := by
  have hle := h.le
  have hheader := a.header_lt
  have hn := a.n_lt
  have hn' := a.n_ge
  unfold fusedGoal at hle hge
  rw [sentLen, h.left_eq]
  split at hle
  · next hroom =>
    rw [if_pos hroom] at hge
    rw [wrap64_eq_self (by omega) (by omega)]
    omega
  · rw [wrap64_of_le (by omega) (by omega)]
    omega

theorem Sound.out_eq (h : Sound a st) (hlt : st.sent.length < fusedGoal a.header.length a.n)
    (t : Taken) :
    st.out a t = ((a.header ++ a.file.drop a.off).drop st.sent.length).take
      (min t.count (fusedGoal a.header.length a.n - st.sent.length)) := by
  have hoff := a.off_lt
  have hfile := a.file_lt
  have hlen := h.text.length_le
  rw [List.length_append, List.length_drop] at hlen
  have hoffset : wrap64 (a.off + st.bodySent)
      = ((a.off + (st.sent.length - a.header.length) : ℕ) : ℤ) := by
    rw [h.bodySent, wrap64_eq_self (by omega) (by omega)]
    exact (Nat.cast_add _ _).symm
  have htail : (if 0 < st.headerRemaining a then a.header.drop st.headerSent.toNat else [])
      = a.header.drop st.sent.length := by
    rw [headerRemaining, h.headerSent]
    split
    · rw [min_eq_left (by omega), Int.toNat_natCast]
    · rw [List.drop_of_length_le (by omega)]
  rw [out, hoffset, htail, h.sentLen_eq hlt, kernelSends, if_neg (by omega), Int.toNat_natCast,
    Int.toNat_natCast, List.drop_append, List.drop_drop]

theorem Sound.length_out (h : Sound a st) (hlt : st.sent.length < fusedGoal a.header.length a.n)
    (t : Taken) :
    (st.out a t).length = min (min t.count (fusedGoal a.header.length a.n - st.sent.length))
      (a.header.length + (a.file.length - a.off) - st.sent.length) := by
  rw [h.out_eq hlt, List.length_take, List.length_drop, List.length_append, List.length_drop]

theorem sent_advance (a : Sendfile) (st : SfHdtrState) (t : Taken) :
    (st.advance a t).sent = st.sent ++ st.out a t := by
  unfold advance
  dsimp only
  split
  · split
    · rfl
    · rfl
  · next hnone =>
    have hnil : st.out a t = [] := List.eq_nil_of_length_eq_zero (by omega)
    rw [hnil, List.append_nil]

theorem Sound.advance (h : Sound a st) (hlt : st.sent.length < fusedGoal a.header.length a.n)
    (t : Taken) : Sound a (st.advance a t) := by
  have hheader := h.headerSent
  have hbody := h.bodySent
  have hlength : (st.advance a t).sent.length = st.sent.length + (st.out a t).length := by
    rw [sent_advance, List.length_append]
  refine ⟨?_, ?_, ?_, ?_⟩
  · rw [hlength]
    unfold SfHdtrState.advance headerRemaining
    dsimp only
    split
    · split
      · dsimp only
        omega
      · dsimp only
        omega
    · omega
  · rw [hlength]
    unfold SfHdtrState.advance headerRemaining
    dsimp only
    split
    · split
      · dsimp only
        omega
      · dsimp only
        omega
    · omega
  · have hle := h.le
    rw [hlength, h.length_out hlt]
    omega
  · rw [sent_advance, h.out_eq hlt]
    exact append_prefix h.text _

theorem Sound.contiguous (h : Sound a st) :
    st.sent <+: a.header ++ (a.file.drop a.off).take a.n.toNat := by
  have hwhole : a.header ++ (a.file.drop a.off).take a.n.toNat
      = (a.header ++ a.file.drop a.off).take (a.header.length + a.n.toNat) :=
    List.take_length_add_append a.n.toNat |>.symm
  rw [hwhole]
  exact List.prefix_take_iff.mpr ⟨h.text, h.le.trans (fusedGoal_le _ _)⟩

theorem Sound.ends_eq (h : Sound a st) :
    (sfHdtrState a).ends st
      = if fusedGoal a.header.length a.n ≤ st.sent.length then some .success else none := by
  have hheader := h.headerSent
  have hbody := h.bodySent
  show (if _ ∨ _ then if st.sentLen a ≤ 0 then some Exit.success else none else some .success) = _
  by_cases hlt : st.sent.length < fusedGoal a.header.length a.n
  · have hlen := h.sentLen_eq hlt
    have hmost := fusedGoal_le a.header.length a.n
    rw [if_pos (by omega), if_neg (by omega), if_neg (by omega)]
  · rw [if_pos (not_lt.mp hlt)]
    split
    · rw [if_pos (h.sentLen_le (not_lt.mp hlt))]
    · rfl

end SfHdtrState

/-! ## The three loops -/

namespace LoopView

variable {σ : Type} {V : LoopView σ}

structure Steps (V : LoopView σ) (header : Bytes) (a : Sendfile) (I : σ → Prop) : Prop where
  sent : ∀ s t, V.sent (V.loop.call s t).1 = V.sent s ++ V.out s t
  zero : ∀ s t, t.err = none → V.out s t = [] → (V.loop.call s t).2 ≠ none
  keeps : ∀ s t, I s → V.loop.ends s = none → I (V.loop.call s t).1
  contiguous : ∀ s, I s → V.sent s <+: header ++ (a.file.drop a.off).take a.n.toNat
  inStep : ∀ s, I s → V.headerSent s = min (V.sent s).length header.length
    ∧ V.bodySent s = ((V.sent s).length - header.length : ℕ)

theorem Steps.exact_iff {header : Bytes} {a : Sendfile} {I : σ → Prop}
    (h : V.Steps header a I) {s : σ} (hs : I s) (calls : List Taken) :
    ExactLoop header a (V.result s) calls
      ↔ ((V.loop.run s calls).2 = some .success →
        (V.sent (V.loop.run s calls).1).length = header.length + a.n.toNat) := by
  have hI := CallLoop.run_keeps h.keeps hs calls
  refine ⟨fun hexact => hexact.complete, fun hcomplete => ?_⟩
  refine ⟨h.contiguous _ hI, h.inStep _ hI, hcomplete, fun t hwaits herr hsame => ?_⟩
  -- nothing was sent, so the answer ends the loop
  obtain ⟨hstate, hexit⟩ := CallLoop.run_concat_call hwaits t
  have hout : V.sent (V.loop.run s calls).1 ++ V.out (V.loop.run s calls).1 t
      = V.sent (V.loop.run s calls).1 := by
    rw [← h.sent, ← hstate]
    exact hsame
  exact hexit (h.zero _ t herr (List.append_right_eq_self.mp hout))

end LoopView

theorem verdict_eq {σ : Type} (s : σ) (t : Taken) (k : ℕ) :
    (match t.err with
      | none => (s, if k = 0 then some Exit.success else none)
      | some (.again ready) => (s, if ready then none else some .error)
      | some .interrupted => (s, none)
      | some .failed => (s, some .error)) = (s, CallLoop.verdict t.err k) := by
  obtain ⟨count, err⟩ := t
  cases err with
  | none => rfl
  | some err =>
    cases err with
    | again ready => cases ready <;> rfl
    | interrupted => rfl
    | failed => rfl

theorem call_sfState (a : Sendfile) (st : FileState) (t : Taken) :
    (sfState a).call st t = (st.advance a t, CallLoop.verdict t.err (st.out a t).length) :=
  verdict_eq _ t _

theorem call_sfHdtrState (a : Sendfile) (st : SfHdtrState) (t : Taken) :
    (sfHdtrState a).call st t = (st.advance a t, CallLoop.verdict t.err (st.out a t).length) :=
  verdict_eq _ t _

theorem call_reactorSendfile (a : Sendfile) (st : FileState) (t : Taken) :
    ((reactorSendfile a).call st t).1 = st.advance a t := by
  obtain ⟨count, err⟩ := t
  cases err with
  | none => rfl
  | some err => cases err <;> rfl

theorem reactorSendfile_call_ne_success (a : Sendfile) (st : FileState) (t : Taken) :
    ((reactorSendfile a).call st t).2 ≠ some .success := by
  obtain ⟨count, err⟩ := t
  cases err with
  | none =>
    show (if (st.out a ⟨count, none⟩).length = 0 then some Exit.error else none) ≠ some .success
    split
    · exact fun h => (by cases h)
    · exact fun h => (by cases h)
  | some err => cases err <;> exact fun h => (by cases h)

theorem verdict_of_nothing_sent {out : Bytes} {t : Taken} (herr : t.err = none)
    (hnil : out = []) : CallLoop.verdict t.err out.length ≠ none := by
  rw [herr, hnil]
  exact Option.some_ne_none _

variable {a : Sendfile}

theorem FileState.Sound.inStep {st : FileState} (h : st.Sound a) :
    (0 : ℤ) = (min st.sent.length ([] : Bytes).length : ℕ)
      ∧ st.transferred = (st.sent.length - ([] : Bytes).length : ℕ) := by
  refine ⟨?_, h.counted⟩
  rw [List.length_nil, Nat.min_zero, Nat.cast_zero]

theorem sfView_steps (a : Sendfile) : (sfView a).Steps [] a (FileState.Sound a) where
  sent st t := by
    show ((sfState a).call st t).1.sent = _
    rw [call_sfState]
    rfl
  zero st t herr hnil := by
    show ((sfState a).call st t).2 ≠ none
    rw [call_sfState]
    exact verdict_of_nothing_sent herr hnil
  keeps st t hst _ := by
    show FileState.Sound a ((sfState a).call st t).1
    rw [call_sfState]
    exact hst.advance t
  contiguous _ hst := hst.contiguous
  inStep _ hst := hst.inStep

theorem reactorView_steps (a : Sendfile) : (reactorView a).Steps [] a (FileState.Sound a) where
  sent st t := by
    show ((reactorSendfile a).call st t).1.sent = _
    rw [call_reactorSendfile]
    rfl
  zero st t herr hnil := by
    obtain ⟨count, err⟩ := t
    obtain rfl : err = none := herr
    have hnil' : st.out a ⟨count, none⟩ = [] := hnil
    show (if (st.out a ⟨count, none⟩).length = 0 then some Exit.error else none) ≠ none
    rw [hnil']
    exact Option.some_ne_none _
  keeps st t hst _ := by
    show FileState.Sound a ((reactorSendfile a).call st t).1
    rw [call_reactorSendfile]
    exact hst.advance t
  contiguous _ hst := hst.contiguous
  inStep _ hst := hst.inStep

theorem sfHdtrView_steps (a : Sendfile) :
    (sfHdtrView a).Steps a.header a (SfHdtrState.Sound a) where
  sent st t := by
    show ((sfHdtrState a).call st t).1.sent = _
    rw [call_sfHdtrState]
    exact st.sent_advance a t
  zero st t herr hnil := by
    show ((sfHdtrState a).call st t).2 ≠ none
    rw [call_sfHdtrState]
    exact verdict_of_nothing_sent herr hnil
  keeps st t hst hends := by
    show SfHdtrState.Sound a ((sfHdtrState a).call st t).1
    change (sfHdtrState a).ends st = none at hends
    rw [hst.ends_eq] at hends
    rw [call_sfHdtrState]
    exact hst.advance (not_le.mp fun hge => by rw [if_pos hge] at hends; cases hends) t
  contiguous _ hst := hst.contiguous
  inStep _ hst := ⟨hst.headerSent, hst.bodySent⟩

theorem sfState_ends (st : FileState) (hst : st.Sound a) :
    (sfState a).ends st = if a.n.toNat ≤ st.sent.length then some .success else none := by
  show (if st.transferred < a.n then none else some Exit.success) = _
  rw [hst.counted]
  by_cases hlt : st.sent.length < a.n.toNat
  · rw [if_pos (by omega), if_neg (by omega)]
  · rw [if_neg (by omega), if_pos (by omega)]

theorem sfState_call (st : FileState) (t : Taken) (hst : st.Sound a)
    (_ : st.sent.length < a.n.toNat) :
    ((sfState a).call st t).1.Sound a
      ∧ ((sfState a).call st t).1.sent.length = st.sent.length
        + min (min t.count (bodySlice a.n st.sent.length))
          (a.file.length - a.off - st.sent.length)
      ∧ ((sfState a).call st t).2 = CallLoop.verdict t.err
        (min (min t.count (bodySlice a.n st.sent.length))
          (a.file.length - a.off - st.sent.length)) := by
  rw [call_sfState]
  dsimp only
  rw [← hst.length_out]
  exact ⟨hst.advance t, List.length_append .., rfl⟩

theorem sfHdtrState_call (st : SfHdtrState) (t : Taken) (hst : st.Sound a)
    (hlt : st.sent.length < fusedGoal a.header.length a.n) :
    ((sfHdtrState a).call st t).1.Sound a
      ∧ ((sfHdtrState a).call st t).1.sent.length = st.sent.length
        + min (min t.count (fusedGoal a.header.length a.n - st.sent.length))
          (a.header.length + (a.file.length - a.off) - st.sent.length)
      ∧ ((sfHdtrState a).call st t).2 = CallLoop.verdict t.err
        (min (min t.count (fusedGoal a.header.length a.n - st.sent.length))
          (a.header.length + (a.file.length - a.off) - st.sent.length)) := by
  rw [call_sfHdtrState]
  dsimp only
  rw [← hst.length_out hlt]
  refine ⟨hst.advance hlt t, ?_, rfl⟩
  rw [st.sent_advance, List.length_append]

theorem sendFileViaRaw_eq_sfState (a : Sendfile) (calls : List Taken) :
    sendFileViaRaw a.file a.off a.n ⟨true, calls⟩
      = ⟨((sfView a).result {} calls).sent,
          CallLoop.ending ((sfView a).result {} calls).exit⟩ := by
  obtain ⟨hlength, hending⟩ := @CallLoop.run_eq_count _ _ _ _ (bodySlice a.n) _ _ sfState_ends
    sfState_call _ (FileState.sound_start a) calls
  have hsound := CallLoop.run_keeps (sfView_steps a).keeps (FileState.sound_start a) calls
  have hprefix := List.prefix_iff_eq_take.mp hsound.text
  rw [sendFileViaRaw, RawWrite.run, if_pos rfl, pump_eq, List.drop_zero, List.length_drop]
  congr 1
  · refine Eq.trans ?_ hprefix.symm
    exact congrArg (List.take · _) (hlength.trans (Nat.zero_add _)).symm
  · exact hending.symm

theorem sfState_exact_iff (a : Sendfile) (calls : List Taken) :
    ExactLoop [] a ((sfView a).result {}) calls
      ↔ ¬ Stalls (a.file.length - a.off) a.n.toNat (bodySlice a.n) 0 calls := by
  rw [(sfView_steps a).exact_iff (FileState.sound_start a), List.length_nil, Nat.zero_add]
  exact (CallLoop.run_success_iff (bodySlice_le a.n) le_rfl sfState_ends sfState_call
    (FileState.sound_start a) (Nat.zero_le _) calls).trans (and_iff_left (.inl rfl))

theorem fusedGoal_eq_iff (hlen : ℕ) (n : ℤ) :
    fusedGoal hlen n = hlen + n.toNat ↔ hlen + n < 2 ^ 63 ∧ (0 ≤ n ∨ hlen = 0) := by
  unfold fusedGoal
  split
  · omega
  · omega

theorem sfHdtrState_exact_iff (a : Sendfile) (calls : List Taken) :
    ExactLoop a.header a ((sfHdtrView a).result {}) calls
      ↔ ¬ Stalls (a.header.length + (a.file.length - a.off)) (fusedGoal a.header.length a.n)
          (fusedGoal a.header.length a.n - ·) 0 calls
        ∧ (fusedGoal a.header.length a.n = a.header.length + a.n.toNat
          ∨ (Pump.count (a.header.length + (a.file.length - a.off))
            (fusedGoal a.header.length a.n) (fusedGoal a.header.length a.n - ·) 0 calls).2
              ≠ .returned) := by
  rw [(sfHdtrView_steps a).exact_iff (SfHdtrState.sound_start a)]
  exact CallLoop.run_success_iff (fun _ => le_rfl) (fusedGoal_le _ _)
    (fun _ hst => SfHdtrState.Sound.ends_eq hst) sfHdtrState_call (SfHdtrState.sound_start a)
    (Nat.zero_le _) calls

theorem reactorSendfile_exact (a : Sendfile) (calls : List Taken) :
    ExactLoop [] a ((reactorView a).result {}) calls := by
  have hsteps := reactorView_steps a
  refine (hsteps.exact_iff (FileState.sound_start a) calls).mpr (fun hsuccess => ?_)
  have hsound := CallLoop.run_keeps hsteps.keeps (FileState.sound_start a) calls
  rw [List.length_nil, Nat.zero_add]
  rcases CallLoop.run_exit hsteps.keeps (FileState.sound_start a) calls hsuccess with
    hends | ⟨st, t, -, -, hcall⟩
  · -- the loop has ended because nothing is left
    obtain ⟨hlt, -⟩ := Option.ite_none_left_eq_some.mp hends
    rw [hsound.counted] at hlt
    exact le_antisymm hsound.le (Int.toNat_le.mpr (not_lt.mp hlt))
  · exact absurd (congrArg Prod.snd hcall) (reactorSendfile_call_ne_success a st t)

/-- **The three loops are exact exactly if the kernel does not stall for the first two**, and
the second offers all that was to be sent, or does not come to its end. -/
theorem sendfile_loops_exact_iff (a : Sendfile) (calls calls' calls'' : List Taken) :
    ExactLoop [] a ((sfView a).result {}) calls
        ∧ ExactLoop a.header a ((sfHdtrView a).result {}) calls'
        ∧ ExactLoop [] a ((reactorView a).result {}) calls''
      ↔ ¬ Stalls (a.file.length - a.off) a.n.toNat (bodySlice a.n) 0 calls
        ∧ ¬ Stalls (a.header.length + (a.file.length - a.off)) (fusedGoal a.header.length a.n)
          (fusedGoal a.header.length a.n - ·) 0 calls'
        ∧ (a.header.length + a.n < 2 ^ 63 ∧ (0 ≤ a.n ∨ a.header.length = 0)
          ∨ (Pump.count (a.header.length + (a.file.length - a.off))
            (fusedGoal a.header.length a.n) (fusedGoal a.header.length a.n - ·) 0 calls').2
              ≠ .returned) := by
  rw [sfState_exact_iff, sfHdtrState_exact_iff, and_iff_left (reactorSendfile_exact a calls''),
    fusedGoal_eq_iff]

def shortFile : Sendfile where
  header := ascii "HTTP"
  file := ascii "da"
  off := 0
  n := 4
  header_lt := by decide
  file_lt := by decide
  off_lt := by decide
  n_ge := by decide
  n_lt := by decide

def invertedRange : Sendfile :=
  { shortFile with off := 2, n := -1, off_lt := by decide, n_ge := by decide, n_lt := by decide }

/-- **Success is reported for half of the bytes** of a file that ends early, and for a head
without its last byte if the range is inverted. -/
theorem short_file_reported_as_success :
    ((sfView shortFile).result {} [⟨4, none⟩, ⟨4, none⟩]).exit = some .success
      ∧ ((sfView shortFile).result {} [⟨4, none⟩, ⟨4, none⟩]).sent = ascii "da"
      ∧ ((sfHdtrView shortFile).result {} [⟨8, none⟩, ⟨8, none⟩]).exit = some .success
      ∧ ((sfHdtrView shortFile).result {} [⟨8, none⟩, ⟨8, none⟩]).sent = ascii "HTTPda"
      ∧ ((sfHdtrView invertedRange).result {} [⟨8, none⟩]).exit = some .success
      ∧ ((sfHdtrView invertedRange).result {} [⟨8, none⟩]).sent = ascii "HTT"
      ∧ ¬ ExactLoop [] shortFile ((sfView shortFile).result {}) [⟨4, none⟩, ⟨4, none⟩]
      ∧ ¬ ExactLoop shortFile.header shortFile ((sfHdtrView shortFile).result {})
        [⟨8, none⟩, ⟨8, none⟩]
      ∧ ¬ ExactLoop invertedRange.header invertedRange ((sfHdtrView invertedRange).result {})
        [⟨8, none⟩] := by
  refine ⟨by decide, by decide, by decide, by decide, by decide, by decide, fun h => ?_,
    fun h => ?_, fun h => ?_⟩
  · exact absurd (h.complete (by decide)) (by decide)
  · exact absurd (h.complete (by decide)) (by decide)
  · exact absurd (h.complete (by decide)) (by decide)

end Coreserver
