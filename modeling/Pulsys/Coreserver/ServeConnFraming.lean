import Pulsys.Coreserver.ParserAgreement
import Pulsys.Coreserver.ServeConn

/-!
# When the loop stays in step with the client

The client ends a request with its declared body; the loop goes on where its reader is.
`Answered.Drained` is the exact condition: no body on a warm hit, and on the fallback reads
that take the body and nothing else (`takesExactly`).
-/

namespace Coreserver

open Bytes Bufio

/-! ## What a handler's reads take -/

def takesExactly : List ℕ → ℕ → ℕ → Reader → Bool
  | [], left, held, _ => held == left
  | p :: ps, left, held, br =>
    let n := min p left
    if n = 0 then takesExactly ps left held br
    else if held ≠ 0 then takesExactly ps (left - min n held) (held - min n held) br
    else
      match br.read (max n defaultBufSize) with
      | none => takesExactly ps left held br
      | some (d, br') =>
        decide (d.length ≤ left)
          && takesExactly ps (left - min n d.length) (d.length - min n d.length) br'

namespace BodyReader

inductive ReadTo (b : BodyReader) (n : ℕ) : BodyReader → Prop
  | idle (h : n = 0 ∨ (b.held = [] ∧ b.br.read (max n defaultBufSize) = none)) :
      ReadTo b n b
  | held (hn : n ≠ 0) (h : b.held ≠ []) :
      ReadTo b n { b with held := b.held.drop n, left := b.left - min n b.held.length }
  | taken (hn : n ≠ 0) (h : b.held = []) {d : Bytes} {br : Reader}
      (hread : b.br.read (max n defaultBufSize) = some (d, br)) :
      ReadTo b n ⟨br, d.drop n, b.left - min n d.length⟩

theorem readTo_read (b : BodyReader) (p : ℕ) :
    b.ReadTo (min p b.left) (b.read p).2 := by
  unfold read
  generalize min p b.left = n
  dsimp only
  split
  · next hn => exact .idle (.inl hn)
  next hn =>
  split
  · next hh =>
    rw [List.length_take]
    exact .held hn hh
  next hh =>
  have hh' : b.held = [] := by simpa using hh
  split
  · next hlarge =>
    have hmax : max n defaultBufSize = n := by omega
    cases hread : b.br.read n with
    | none => exact .idle (.inr ⟨hh', by rwa [hmax]⟩)
    | some dr =>
      obtain ⟨d, br⟩ := dr
      have hlen := (Reader.read_some hread).2.1
      have := ReadTo.taken hn hh' (by rw [hmax]; exact hread)
      rwa [List.drop_of_length_le hlen, Nat.min_eq_right hlen] at this
  · next hsmall =>
    have hmax : max n defaultBufSize = defaultBufSize := by omega
    cases hread : b.br.read defaultBufSize with
    | none => exact .idle (.inr ⟨hh', by rwa [hmax]⟩)
    | some dr =>
      obtain ⟨d, br⟩ := dr
      have := ReadTo.taken hn hh' (by rw [hmax]; exact hread)
      rw [← List.length_take] at this
      exact this

variable {b b' : BodyReader}

theorem ReadTo.balance {n : ℕ} (h : b.ReadTo n b') (hn : n ≤ b.left) :
    ∃ t, b.br.stream = t ++ b'.br.stream ∧ b'.br.size = b.br.size
      ∧ t.length + b'.left + b.held.length = b.left + b'.held.length := by
  cases h with
  | idle h => exact ⟨[], rfl, rfl, by simp⟩
  | held hn' h =>
    refine ⟨[], rfl, rfl, ?_⟩
    simp only [List.length_nil, List.length_drop]
    omega
  | taken hn' h hread =>
    obtain ⟨hs, -, hsize⟩ := Reader.read_some hread
    refine ⟨_, hs, hsize, ?_⟩
    simp only [h, List.length_nil, List.length_drop]
    omega

theorem ReadTo.over {n : ℕ} (h : b.ReadTo n b') (hn : n ≤ b.left) (hover : b.left < b.held.length) :
    b'.left < b'.held.length := by
  cases h with
  | idle h => exact hover
  | held hn' h =>
    simp only [List.length_drop]
    omega
  | taken hn' h hread => simp [h] at hover

theorem ReadTo.takesExactly_cons {p : ℕ} (h : b.ReadTo (min p b.left) b') (ps : List ℕ) :
    (takesExactly (p :: ps) b.left b.held.length b.br = true →
        takesExactly ps b'.left b'.held.length b'.br = true)
      ∧ (b'.held.length ≤ b'.left → takesExactly ps b'.left b'.held.length b'.br = true →
        takesExactly (p :: ps) b.left b.held.length b.br = true) := by
  rw [takesExactly]
  cases h with
  | idle h =>
    rcases h with h0 | ⟨hh, hread⟩
    · rw [if_pos h0]
      exact ⟨id, fun _ => id⟩
    · by_cases h0 : min p b.left = 0
      · rw [if_pos h0]
        exact ⟨id, fun _ => id⟩
      · rw [if_neg h0, if_neg (by simp [hh]), hread]
        exact ⟨id, fun _ => id⟩
  | held hn hh =>
    have hcut : b.held.length - min (min p b.left) b.held.length
        = b.held.length - min p b.left := by omega
    rw [if_neg hn, if_pos (by simpa using hh), List.length_drop, hcut]
    exact ⟨id, fun _ => id⟩
  | @taken hn hh d br hread =>
    have hcut : d.length - min (min p b.left) d.length = d.length - min p b.left := by omega
    rw [if_neg hn, if_neg (by simp [hh]), hread]
    dsimp only
    rw [List.length_drop, hcut, Bool.and_eq_true, decide_eq_true_eq]
    exact ⟨fun h => h.2, fun hle h => ⟨by omega, h⟩⟩

theorem readAll_over (ps : List ℕ) (hover : b.left < b.held.length) :
    (b.readAll ps).left < (b.readAll ps).held.length := by
  induction ps generalizing b with
  | nil => exact hover
  | cons p ps ih => exact ih ((b.readTo_read p).over (Nat.min_le_right _ _) hover)

theorem readAll_spec (b : BodyReader) (ps : List ℕ) :
    (∃ t, b.br.stream = t ++ (b.readAll ps).br.stream
        ∧ (b.readAll ps).br.size = b.br.size
        ∧ t.length + (b.readAll ps).left + b.held.length
          = b.left + (b.readAll ps).held.length)
      ∧ (takesExactly ps b.left b.held.length b.br = true
        ↔ (b.readAll ps).held.length = (b.readAll ps).left) := by
  induction ps generalizing b with
  | nil => exact ⟨⟨[], rfl, rfl, by simp [readAll]⟩, by simp [takesExactly, readAll]⟩
  | cons p ps ih =>
    have hle : min p b.left ≤ b.left := Nat.min_le_right _ _
    have hto := b.readTo_read p
    obtain ⟨⟨t', hs', hsize', hbal'⟩, hex⟩ := ih (b.read p).2
    obtain ⟨t, hs, hsize, hbal⟩ := hto.balance hle
    refine ⟨⟨t ++ t', ?_, hsize'.trans hsize, ?_⟩, ?_⟩
    · rw [hs, hs', List.append_assoc]
      rfl
    · rw [List.length_append]
      show t.length + t'.length + ((b.read p).2.readAll ps).left + b.held.length
        = b.left + ((b.read p).2.readAll ps).held.length
      omega
    · show _ ↔ ((b.read p).2.readAll ps).held.length = ((b.read p).2.readAll ps).left
      rw [← hex]
      refine ⟨(hto.takesExactly_cons ps).1, fun h => (hto.takesExactly_cons ps).2 ?_ h⟩
      -- a refill beyond the end of the body is never made up for
      by_contra hover
      have hlt := readAll_over ps (not_le.mp hover)
      rw [hex] at h
      omega

end BodyReader

theorem readBody_spec (br : Reader) (declared : ℕ) (reads : List ℕ) :
    ∃ t, br.stream = t ++ (readBody br declared reads).stream
      ∧ (readBody br declared reads).size = br.size
      ∧ (t.length = declared ↔ takesExactly reads declared 0 br = true) := by
  obtain ⟨⟨t, hs, hsize, hbal⟩, hex⟩ := BodyReader.readAll_spec ⟨br, [], declared⟩ reads
  refine ⟨t, hs, hsize, ?_⟩
  rw [show takesExactly reads declared 0 br = true ↔ _ from hex]
  simp only [List.length_nil] at hbal
  omega

/-! ## Rounds -/

namespace Answered

def bodyEnd (a : Answered) : ℕ := a.start + a.raw.length + declaredLength a.raw

def Drained (a : Answered) : Prop :=
  match a.answer with
  | .warm => declaredLength a.raw = 0
  | .fallback reads => takesExactly reads (declaredLength a.raw) 0 a.br = true

instance (a : Answered) : Decidable a.Drained := by
  unfold Drained
  cases a.answer <;> infer_instance

structure EndsAt (a : Answered) (input : Bytes) (p : ℕ) : Prop where
  raw : a.raw <+: input.drop a.start
  start_le : a.start ≤ p
  iff : p = a.bodyEnd ↔ a.Drained

end Answered

namespace ServeConn

variable {s s' : ServeConn} {c : Conn}

theorem step_cases {r : Round} (hsize : s.br.size = bufReadSize) (h : s.step r = some s') :
    s' = s.close ∨ s' = s.record.close
      ∨ ∃ (raw : Bytes) (br br' : Reader) (ans : Answer) (t : Bytes),
          s' = s.record.next raw br br' ans ∧ s.br.stream = raw ++ br.stream
            ∧ br.stream = t ++ br'.stream ∧ br'.size = bufReadSize
            ∧ (t.length = declaredLength raw
              ↔ (⟨s.pos, raw, br, ans⟩ : Answered).Drained) := by
  unfold step at h
  split at h
  · cases h
  split at h
  · exact .inl (Option.some.inj h).symm
  next br₀ hpeek =>
  obtain ⟨hstream₀, hsize₀⟩ := Reader.peek_some (by rw [hsize]; decide) hpeek
  split at h
  · exact .inr (.inl (Option.some.inj h).symm)
  next req br hread =>
  obtain ⟨blk, hblk, -, hreq, hsz⟩ := exists_of_readRequest hread
  have hraw : req.raw.data = blk.render := by
    rw [hreq, (blk.request_frame _).2.2.2.2.1]
  have hcut : s.br.stream = req.raw.data ++ br.stream := by rw [← hstream₀, hblk, hraw]
  have hbr : br.size = bufReadSize := by rw [hsz, hsize₀, hsize]
  cases h
  unfold answer
  dsimp only
  split
  · exact .inr (.inl rfl)
  split
  · -- a warm hit leaves the reader where the header block ends
    split
    · refine .inr (.inr ⟨_, br, br, .warm, [], rfl, hcut, rfl, hbr, ?_⟩)
      exact eq_comm
    · exact .inr (.inl rfl)
  split
  · exact .inr (.inl rfl)
  next hd _ =>
  split
  · exact .inr (.inl rfl)
  split
  · obtain ⟨t, hs, hsize', hex⟩ := readBody_spec br (declaredLength req.raw.data) hd.reads
    exact .inr (.inr ⟨_, br, _, .fallback hd.reads, t, rfl, hcut, hs, hsize'.trans hbr, hex⟩)
  · exact .inr (.inl rfl)

def calls (s : ServeConn) : List (Answered × ℕ) := s.log ++ (s.last.map (·, s.pos)).toList

structure Sound (s : ServeConn) (c : Conn) : Prop where
  input : s.input = c.stream
  size : s.br.size = bufReadSize
  suffix : s.br.stream <:+ s.input
  endsAt : ∀ e ∈ s.calls, e.1.EndsAt s.input e.2
  le_pos : ∀ e ∈ s.calls, e.2 ≤ s.pos
  ordered : s.calls.Pairwise (fun e e' => e.2 ≤ e'.2)

theorem sound_accept (c : Conn) : (accept c).Sound c where
  input := rfl
  size := rfl
  suffix := List.suffix_refl _
  endsAt := by simp [calls, accept]
  le_pos := by simp [calls, accept]
  ordered := by simp [calls, accept]

theorem Sound.record (h : s.Sound c) : s.record.Sound c := by
  have hcalls : s.record.calls = s.calls := by simp [calls, ServeConn.record]
  exact ⟨h.input, h.size, h.suffix, hcalls ▸ h.endsAt, hcalls ▸ h.le_pos, hcalls ▸ h.ordered⟩

theorem Sound.close (h : s.Sound c) : s.close.Sound c :=
  ⟨h.input, h.size, h.suffix, h.endsAt, h.le_pos, h.ordered⟩

theorem Sound.next (h : s.Sound c) {raw : Bytes} {br br' : Reader} {ans : Answer} {t : Bytes}
    (hcut : s.br.stream = raw ++ br.stream) (ht : br.stream = t ++ br'.stream)
    (hsize : br'.size = bufReadSize)
    (hiff : t.length = declaredLength raw ↔ (⟨s.pos, raw, br, ans⟩ : Answered).Drained) :
    (s.record.next raw br br' ans).Sound c := by
  obtain ⟨u, hu⟩ := h.suffix
  have hpos : s.pos = u.length := by
    unfold pos
    rw [← hu, List.length_append]
    omega
  have hinput : s.input = (u ++ raw ++ t) ++ br'.stream := by
    rw [← hu, hcut, ht]
    simp
  have hpos' : (s.record.next raw br br' ans).pos = u.length + raw.length + t.length := by
    show s.input.length - br'.stream.length = _
    rw [hinput]
    simp only [List.length_append]
    omega
  have hcalls : (s.record.next raw br br' ans).calls
      = s.calls ++ [(⟨s.pos, raw, br, ans⟩, u.length + raw.length + t.length)] := by
    rw [← hpos']
    rfl
  have hle : ∀ e ∈ s.calls, e.2 ≤ u.length + raw.length + t.length := fun e he => by
    have := h.le_pos e he
    omega
  refine ⟨h.input, hsize, ⟨u ++ raw ++ t, hinput.symm⟩, ?_, ?_, ?_⟩
  · rw [hcalls]
    intro e he
    rcases List.mem_append.mp he with he | he
    · exact h.endsAt e he
    · obtain rfl := List.mem_singleton.mp he
      refine ⟨?_, ?_, ?_⟩
      · show raw <+: s.input.drop s.pos
        rw [hpos, hinput]
        simp
      · show s.pos ≤ _
        omega
      · rw [← hiff, Answered.bodyEnd]
        show _ = s.pos + raw.length + declaredLength raw ↔ _
        omega
  · rw [hcalls, hpos']
    intro e he
    rcases List.mem_append.mp he with he | he
    · exact hle e he
    · obtain rfl := List.mem_singleton.mp he
      exact le_rfl
  · rw [hcalls]
    refine List.pairwise_append.mpr ⟨h.ordered, List.pairwise_singleton _ _, ?_⟩
    intro e he e' he'
    obtain rfl := List.mem_singleton.mp he'
    exact hle e he

theorem Sound.step {r : Round} (h : s.Sound c) (hs : s.step r = some s') : s'.Sound c := by
  rcases step_cases h.size hs with rfl | rfl | ⟨raw, br, br', ans, t, rfl, hcut, ht, hsz, hiff⟩
  · exact h.close
  · exact h.record.close
  · exact h.next hcut ht hsz hiff

theorem Sound.run {rs : List Round} (h : s.Sound c)
    (hrun : Runs.run ServeConn.step s rs = some s') : s'.Sound c :=
  @Runs.invariant_of_step _ _ _ (fun s => s.Sound c) (fun _ _ _ h hs => h.step hs) _ _ _ h hrun

structure Framed (s : ServeConn) : Prop where
  next : ∀ e ∈ s.log, e.2 = e.1.bodyEnd
  apart : s.log.Pairwise (fun e e' => e.1.bodyEnd ≤ e'.2)

/-- **The loop is in step with the client exactly if every body is gone when its request is
answered.** -/
theorem framed_iff_drained {c : Conn} {rs : List Round} {s : ServeConn}
    (hrun : Runs.run step (accept c) rs = some s) :
    (∀ e ∈ s.log, e.1.raw <+: c.stream.drop e.1.start)
      ∧ (s.Framed ↔ ∀ e ∈ s.log, e.1.Drained) := by
  have hsound := (sound_accept c).run hrun
  have hlog : ∀ e ∈ s.log, e ∈ s.calls := fun e he => List.mem_append_left _ he
  refine ⟨fun e he => ?_, fun h e he => ?_, fun h => ?_⟩
  · rw [← hsound.input]
    exact (hsound.endsAt e (hlog e he)).raw
  · exact (hsound.endsAt e (hlog e he)).iff.mp (h.next e he)
  · have hnext : ∀ e ∈ s.log, e.2 = e.1.bodyEnd := fun e he =>
      (hsound.endsAt e (hlog e he)).iff.mpr (h e he)
    refine ⟨hnext, ?_⟩
    -- the calls come in the order of the stream
    have hord := (List.pairwise_append.mp hsound.ordered).1
    exact hord.imp_of_mem (fun {e e'} he _ hle => hnext e he ▸ hle)

def handlerRound (reads : List ℕ) : Round where
  server := .cold (ascii "h")
  fallback := some
    { accepts := fun _ => true, reads := reads, calls := [],
      order := ⟨id, List.Perm.refl⟩, limit := none }

def postConn : Conn where
  pieces := [ascii "POST /a HTTP/1.1\r\nHost: h\r\nContent-Length: 28\r\n\r\n",
    ascii "GET /b HTTP/1.1\r\nHost: h\r\n\r\n", ascii "GET /c HTTP/1.1\r\nHost: h\r\n\r\n"]
  ne := by decide +kernel

def postRun (reads : List ℕ) : Option ServeConn :=
  Runs.run step (accept postConn) [handlerRound reads, handlerRound []]

theorem framed_iff_drained_post :
    ∃ s, postRun [512] = some s ∧ s.log.length = 1 ∧ s.Framed := by
  obtain ⟨s, hs, hlength, hdrained⟩ :
      ∃ s ∈ postRun [512], s.log.length = 1 ∧ ∀ e ∈ s.log, e.1.Drained := by
    decide +kernel
  exact ⟨s, hs, hlength, (framed_iff_drained hs).2.mpr hdrained⟩

/-- **A body that is not read is the next request.** -/
theorem unread_body_not_framed : ∃ s, postRun [] = some s ∧ ¬ s.Framed := by
  obtain ⟨s, hs, e, he, h49, h77⟩ :
      ∃ s ∈ postRun [], ∃ e ∈ s.log, e.2 = 49 ∧ e.1.bodyEnd = 77 := by decide +kernel
  refine ⟨s, hs, fun h => ?_⟩
  have := h.next e he
  omega

end ServeConn

end Coreserver
