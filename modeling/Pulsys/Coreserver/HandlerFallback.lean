import Pulsys.Coreserver.ServeConnFraming

/-!
# The fallback's reader

`HandlerFallback` parses the request again through a reader of its own, which has not
touched the connection when the header is read (`readHeader_block`). But a small read of
the body fills its buffer, which is dropped with what it held of the next request.
-/

namespace Coreserver

open Bytes Bufio

/-! ## The header -/

structure StackedReader where
  raw : Bytes
  br : Reader
  held : Bytes

def prefixReaderRead (raw : Bytes) (n : ℕ) : Option (Bytes × Bytes) :=
  if raw = [] then none else some (raw.take n, raw.drop n)

namespace StackedReader

def multiRead (s : StackedReader) (n : ℕ) : Option (Bytes × StackedReader) :=
  match prefixReaderRead s.raw n with
  | some (d, raw) => some (d, { s with raw := raw })
  | none => (s.br.read n).map fun (d, br) => (d, { s with br := br })

def fill (s : StackedReader) : Option StackedReader :=
  (s.multiRead (defaultBufSize - s.held.length)).map fun (d, s') => { s' with held := s.held ++ d }

def kept (held : Bytes) : Bytes := if held.getLast? = some CR then [CR] else []

def readLine : ℕ → StackedReader → Option (Bytes × StackedReader)
  | 0, _ => none
  | n + 1, s =>
    match indexByte s.held LF with
    | some i => some (s.held.take (i + 1), { s with held := s.held.drop (i + 1) })
    | none =>
      if defaultBufSize ≤ s.held.length then
        (readLine n { s with held := kept s.held }).map fun (l, s') =>
          (s.held.take (s.held.length - (kept s.held).length) ++ l, s')
      else s.fill.bind (readLine n)

def lookAhead (s : StackedReader) : Option StackedReader :=
  if s.held = [] then s.fill else some s

def readHeader (fuel : ℕ) : ℕ → StackedReader → Option StackedReader
  | 0, _ => none
  | n + 1, s => (s.readLine fuel).bind fun (line, s') =>
    if line = crlf ∨ line = [LF] then some s' else s'.lookAhead.bind (readHeader fuel n)

theorem fill_of_raw {s : StackedReader} (hraw : s.raw ≠ []) :
    s.fill = some
      { s with
        raw := s.raw.drop (defaultBufSize - s.held.length)
        held := s.held ++ s.raw.take (defaultBufSize - s.held.length) } := by
  rw [fill, multiRead, prefixReaderRead, if_neg hraw]
  rfl

theorem exists_of_held {s : StackedReader} {l b : Bytes} (h : s.held ++ s.raw = l ++ LF :: b)
    (hlf : LF ∉ s.held) : ∃ l', l = s.held ++ l' ∧ s.raw = l' ++ LF :: b := by
  rcases List.append_eq_append_iff.mp h with ⟨l', hl, hraw⟩ | ⟨c, hheld, hb⟩
  · exact ⟨l', hl, hraw⟩
  · cases c with
    | nil => exact ⟨[], by simpa using hheld.symm, by simpa using hb.symm⟩
    | cons x c =>
      obtain ⟨rfl, -⟩ := List.cons.inj hb
      exact absurd (hheld ▸ by simp) hlf

theorem take_append_kept (held : Bytes) :
    held.take (held.length - (kept held).length) ++ kept held = held := by
  unfold kept
  split
  · next hcr =>
    obtain ⟨h, rfl⟩ := List.getLast?_eq_some_iff.mp hcr
    simp
  · simp

theorem length_kept_le (held : Bytes) : (kept held).length ≤ 1 := by
  unfold kept
  split <;> simp

theorem readLine_of_raw {n : ℕ} {s : StackedReader} {l b : Bytes} (hl : LF ∉ l)
    (h : s.held ++ s.raw = l ++ LF :: b) (hheld : s.held.length ≤ defaultBufSize)
    (hn : 2 * s.raw.length + s.held.length < n) :
    ∃ s', s.readLine n = some (l ++ [LF], s') ∧ s'.held ++ s'.raw = b ∧ s'.br = s.br
      ∧ s'.held.length ≤ defaultBufSize := by
  induction n generalizing s l with
  | zero => omega
  | succ n ih =>
    rw [readLine]
    cases hi : indexByte s.held LF with
    | some i =>
      obtain ⟨l', r, hcut, hl', rfl⟩ := exists_of_indexByte hi
      have h' : l' ++ LF :: (r ++ s.raw) = l ++ LF :: b := by rw [← h, hcut]; simp
      obtain ⟨rfl, rfl⟩ := cut_unique hl' hl h'
      have htake : s.held.take (l'.length + 1) = l' ++ [LF] := by
        rw [hcut, List.take_append]
        simp
      have hdrop : s.held.drop (l'.length + 1) = r := by
        rw [hcut, List.drop_append]
        simp
      dsimp only
      rw [htake, hdrop]
      refine ⟨_, rfl, rfl, rfl, ?_⟩
      have hlen : s.held.length = l'.length + (r.length + 1) := by simp [hcut]
      dsimp only
      omega
    | none =>
      obtain ⟨l', rfl, hraw⟩ := exists_of_held h (indexByte_eq_none.mp hi)
      have hl' : LF ∉ l' := fun hm => hl (List.mem_append_right _ hm)
      dsimp only
      split
      · next hfull =>
        -- what was taken out of the buffer is in front of the rest of the line
        have hkept : LF ∉ kept s.held ++ l' := by
          rw [List.mem_append, not_or]
          refine ⟨fun hm => hl (List.mem_append_left _ ?_), hl'⟩
          rw [← take_append_kept s.held]
          exact List.mem_append_right _ hm
        have hshort := length_kept_le s.held
        have hsize : 4096 ≤ s.held.length := hfull
        obtain ⟨s', hs', hrest, hbr, hlen⟩ := @ih { s with held := kept s.held } (kept s.held ++ l')
          hkept (by simp [hraw]) (by show (kept s.held).length ≤ 4096; omega) (by dsimp only; omega)
        refine ⟨s', ?_, hrest, hbr, hlen⟩
        rw [hs']
        simp only [Option.map_some, ← List.append_assoc, take_append_kept]
      · next hroom =>
        have hne : s.raw ≠ [] := by simp [hraw]
        rw [fill_of_raw hne, Option.bind_some]
        have hpos : 0 < s.raw.length := List.length_pos_of_ne_nil hne
        refine ih hl ?_ ?_ ?_
        · simp [h]
        · simp
          omega
        · simp
          omega

theorem readHeader_collected {fuel n : ℕ} {s : StackedReader} {x : Bytes} (hx : Collected x)
    (h : s.held ++ s.raw = x) (hheld : s.held.length ≤ defaultBufSize)
    (hfuel : 2 * x.length < fuel) (hn : x.length ≤ n) :
    ∃ s', s.readHeader fuel n = some s' ∧ s'.held = [] ∧ s'.br = s.br := by
  -- one line of the header, given what stands behind it
  have hline : ∀ {s : StackedReader} {l b : Bytes}, LF ∉ l → s.held ++ s.raw = l ++ LF :: b →
      s.held.length ≤ defaultBufSize → 2 * (l ++ LF :: b).length < fuel →
      ∃ s', s.readLine fuel = some (l ++ [LF], s') ∧ s'.held ++ s'.raw = b ∧ s'.br = s.br
        ∧ s'.held.length ≤ defaultBufSize := by
    intro s l b hl h hheld hfuel
    refine readLine_of_raw hl h hheld ?_
    rw [← h, List.length_append] at hfuel
    omega
  induction hx generalizing s n with
  | crlf =>
    obtain ⟨n, rfl⟩ : ∃ k, n = k + 1 := ⟨n - 1, by simp at hn; omega⟩
    obtain ⟨s', hs', hrest, hbr, -⟩ := hline (by decide : LF ∉ [CR]) h hheld hfuel
    refine ⟨s', ?_, (List.append_eq_nil_iff.mp hrest).1, hbr⟩
    rw [readHeader, hs', Option.bind_some]
    exact if_pos (.inl rfl)
  | bare =>
    obtain ⟨n, rfl⟩ : ∃ k, n = k + 1 := ⟨n - 1, by simp at hn; omega⟩
    obtain ⟨s', hs', hrest, hbr, -⟩ := hline (by decide : LF ∉ []) h hheld hfuel
    refine ⟨s', ?_, (List.append_eq_nil_iff.mp hrest).1, hbr⟩
    rw [readHeader, hs', Option.bind_some]
    exact if_pos (.inr rfl)
  | @line l b hl hne hcr hb ih =>
    have hlen : (l ++ LF :: b).length = l.length + (b.length + 1) := by simp
    rw [hlen] at hn hfuel
    obtain ⟨n, rfl⟩ : ∃ k, n = k + 1 := ⟨n - 1, by omega⟩
    obtain ⟨s₁, hs₁, hrest, hbr, hheld₁⟩ := hline hl h hheld (by rw [hlen]; exact hfuel)
    have hblank : ¬ (l ++ [LF] = crlf ∨ l ++ [LF] = [LF]) := by
      rintro (heq | heq)
      · exact hcr (List.append_cancel_right (heq : l ++ [LF] = [CR] ++ [LF]))
      · exact hne (List.append_cancel_right (heq : l ++ [LF] = [] ++ [LF]))
    obtain ⟨s₂, hs₂, hrest₂, hbr₂, hheld₂⟩ : ∃ s₂, s₁.lookAhead = some s₂
        ∧ s₂.held ++ s₂.raw = b ∧ s₂.br = s₁.br ∧ s₂.held.length ≤ defaultBufSize := by
      unfold lookAhead
      split
      · next hempty =>
        have hraw : s₁.raw ≠ [] := by
          rw [hempty, List.nil_append] at hrest
          exact hrest ▸ hb.ne_nil
        refine ⟨_, fill_of_raw hraw, ?_, rfl, ?_⟩
        · simp [hrest]
        · simp
          omega
      · exact ⟨s₁, rfl, hrest, rfl, hheld₁⟩
    obtain ⟨s', hs', hempty, hbr'⟩ := @ih n s₂ hrest₂ hheld₂ (by omega) (by omega)
    refine ⟨s', ?_, hempty, hbr'.trans (hbr₂.trans hbr)⟩
    rw [readHeader, hs₁, Option.bind_some]
    exact (if_neg hblank).trans (by rw [hs₂, Option.bind_some, hs'])

end StackedReader

/-! ## The fallback -/

def handlerFallback (h : Handler) (raw : Bytes) (keepAlive : Bool) (br : Reader) : Bool × Reader :=
  let fuel := 2 * raw.length + 1
  match StackedReader.readHeader fuel fuel ⟨raw, br, []⟩ with
  | none => (false, br)
  | some s =>
    if !h.accepts raw then (false, s.br)
    else
      (!(h.exchange keepAlive).finished.bw.err,
        (BodyReader.readAll ⟨s.br, s.held, declaredLength raw⟩ h.reads).br)

def ReadsToEnd (reads : List ℕ) (declared : ℕ) (br : Reader) : Prop :=
  (BodyReader.readAll ⟨br, [], declared⟩ reads).left = declared - br.stream.length

instance (reads : List ℕ) (declared : ℕ) (br : Reader) : Decidable (ReadsToEnd reads declared br) :=
  inferInstanceAs (Decidable (_ = _))

theorem handlerFallback_block {h : Handler} {blk : Block} {keepAlive : Bool} {br br' : Reader}
    (hnil : handlerFallback h blk.render keepAlive br = (true, br')) :
    br' = readBody br (declaredLength blk.render) h.reads := by
  obtain ⟨s, hs, hempty, hbr⟩ := @StackedReader.readHeader_collected (2 * blk.render.length + 1)
    (2 * blk.render.length + 1) ⟨blk.render, br, []⟩ blk.render blk.collected rfl (Nat.zero_le _)
    (by omega) (by omega)
  unfold handlerFallback at hnil
  dsimp only at hnil
  rw [hs] at hnil
  dsimp only at hnil
  split at hnil
  · cases (Prod.mk.inj hnil).1
  · rw [← (Prod.mk.inj hnil).2, hempty, hbr]
    rfl

theorem stream_readBody_iff {br : Reader} {declared : ℕ} {reads : List ℕ}
    (hend : ReadsToEnd reads declared br) :
    (readBody br declared reads).stream = br.stream.drop declared
      ↔ br.stream.length ≤ declared ∨ takesExactly reads declared 0 br = true := by
  obtain ⟨⟨t, hs, -, hbal⟩, hex⟩ := BodyReader.readAll_spec ⟨br, [], declared⟩ reads
  have hlen : br.stream.length = t.length + (readBody br declared reads).stream.length := by
    rw [show br.stream = t ++ (readBody br declared reads).stream from hs, List.length_append]
  have hexact : takesExactly reads declared 0 br = true ↔ t.length = declared := by
    rw [show takesExactly reads declared 0 br = true ↔ _ from hex]
    simp only [List.length_nil] at hbal
    omega
  unfold ReadsToEnd at hend
  simp only [List.length_nil] at hbal
  rw [hexact]
  constructor
  · intro h
    have := congrArg List.length h
    rw [List.length_drop] at this
    omega
  · rintro (hshort | hlong)
    · -- the connection ends with the body, and the reads have taken all of it
      have hnone : (readBody br declared reads).stream.length = 0 := by omega
      rw [List.length_eq_zero_iff.mp hnone, List.drop_of_length_le hshort]
    · rw [show br.stream = t ++ (readBody br declared reads).stream from hs, List.drop_left' hlong]

/-- **When the fallback leaves the following requests alone**: if none follows, or no read has
its buffer filled beyond the end of the body. -/
theorem fallback_keeps_following_iff {br₀ br br' : Reader} {scratch : ℕ} {req : Request}
    {h : Handler} (hread : readRequest br₀ scratch {} = ((.ok (), req), br))
    (hnil : handlerFallback h req.raw.data req.keepAlive br = (true, br'))
    (hend : ReadsToEnd h.reads (declaredLength req.raw.data) br) :
    br'.stream = br.stream.drop (declaredLength req.raw.data)
      ↔ br.stream.length ≤ declaredLength req.raw.data
        ∨ takesExactly h.reads (declaredLength req.raw.data) 0 br = true := by
  obtain ⟨blk, -, -, hreq, -⟩ := exists_of_readRequest hread
  have hraw : req.raw.data = blk.render := by
    rw [hreq, (blk.request_frame _).2.2.2.2.1]
  rw [hraw] at hnil hend ⊢
  rw [handlerFallback_block hnil]
  exact stream_readBody_iff hend

def readsTwice : Handler where
  accepts := fun _ => true
  reads := [512, 512]
  calls := []
  order := .backwards
  limit := none

def postTwo : Bytes := ascii "POST /a HTTP/1.1\r\nHost: h\r\nContent-Length: 2\r\n\r\n"

def readFirst (c : Conn) : (Except ParseErr Unit × Request) × Reader :=
  readRequest (Reader.new bufReadSize c) headerScratchSize {}

def afterFallback (c : Conn) : Bool × Reader :=
  handlerFallback readsTwice (readFirst c).1.2.raw.data (readFirst c).1.2.keepAlive (readFirst c).2

def arrivesApart : Conn where
  pieces := [postTwo, ascii "ab", ascii "G"]
  ne := by decide

theorem fallback_keeps_following_apart :
    (readFirst arrivesApart).1.1 = .ok () ∧ (readFirst arrivesApart).2.stream = ascii "abG"
      ∧ (afterFallback arrivesApart).1 = true
      ∧ (afterFallback arrivesApart).2.stream = ascii "G" := by
  have hread : (readFirst arrivesApart).1.1 = .ok ()
      ∧ (readFirst arrivesApart).2.stream = ascii "abG"
      ∧ (afterFallback arrivesApart).1 = true := by decide +kernel
  have hcond : declaredLength (readFirst arrivesApart).1.2.raw.data = 2
      ∧ ReadsToEnd readsTwice.reads 2 (readFirst arrivesApart).2
      ∧ takesExactly readsTwice.reads 2 0 (readFirst arrivesApart).2 = true := by decide +kernel
  obtain ⟨hok, hbehind, hnil⟩ := hread
  obtain ⟨hlen, hend, hexact⟩ := hcond
  refine ⟨hok, hbehind, hnil, ?_⟩
  have hreq : readFirst arrivesApart
      = ((.ok (), (readFirst arrivesApart).1.2), (readFirst arrivesApart).2) :=
    Prod.ext (Prod.ext hok rfl) rfl
  have hfall : afterFallback arrivesApart = (true, (afterFallback arrivesApart).2) :=
    Prod.ext hnil rfl
  rw [← hlen] at hend hexact
  have hkept := (fallback_keeps_following_iff hreq hfall hend).mpr (.inr hexact)
  rw [hkept, hlen, hbehind]
  rfl

/-- **A byte that arrives with the body is lost.** -/
theorem following_byte_lost :
    (readFirst (Conn.ofBytes (postTwo ++ ascii "abG"))).1.1 = .ok ()
      ∧ (readFirst (Conn.ofBytes (postTwo ++ ascii "abG"))).2.stream = ascii "abG"
      ∧ declaredLength (readFirst (Conn.ofBytes (postTwo ++ ascii "abG"))).1.2.raw.data = 2
      ∧ ReadsToEnd readsTwice.reads 2 (readFirst (Conn.ofBytes (postTwo ++ ascii "abG"))).2
      ∧ (afterFallback (Conn.ofBytes (postTwo ++ ascii "abG"))).1 = true
      ∧ (afterFallback (Conn.ofBytes (postTwo ++ ascii "abG"))).2.stream = [] := by
  decide +kernel

end Coreserver
