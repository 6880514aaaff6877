import Pulsys.Coreserver.Reactor

/-!
# What the reactor reads of a request

What is read of a request is what its own header block says if and only if the bytes behind
the block agree with it as far as the shorter goes, and each of `Authorization`, `Range`
and `Content-Length` is in the block or was left empty before.
-/

namespace Coreserver

open Bytes

/-! ## The request's own bytes -/

def blockLength (buf : Bytes) : ℕ :=
  match index crlfcrlf buf with
  | some e => e + 4
  | none => 0

def Carries (block : Bytes) (k : HeaderName) : Prop :=
  ∃ blk : Block, block = blk.render ∧ named k blk.fields ≠ []

namespace Dispatch

def block (d : Dispatch) : Bytes := d.buf.take (blockLength d.buf)

def behind (d : Dispatch) : Bytes := d.buf.drop (blockLength d.buf)

def own (d : Dispatch) : View := (parseRequestFromBuf d.block {}).2.parsed

def Faithful (d : Dispatch) : Prop :=
  d.seen.method = d.own.method ∧ d.seen.path = d.own.path ∧ d.seen.query = d.own.query
    ∧ d.seen.auth = d.own.auth ∧ d.seen.range = d.own.range ∧ d.seen.raw = d.own.raw

def Agrees (d : Dispatch) : Prop := d.behind <+: d.block ∨ d.block <+: d.behind

def OwnAuth (d : Dispatch) : Prop :=
  Carries d.block .authorization ∨ d.req.auth.data = []

def OwnRange (d : Dispatch) : Prop :=
  Carries d.block .range ∨ d.req.range.data = []

def OwnContentLen (d : Dispatch) : Prop :=
  Carries d.block .contentLength ∨ d.req.contentLen = 0

structure From (d : Dispatch) (a : Accum reactorRecvBufSize) (blk : Block)
    (rest : Bytes) : Prop where
  filled : a.filled = d.buf
  buf : d.buf = blk.render ++ rest
  seen : d.seen = (blk.request { d.req with raw := ⟨0, blk.render⟩ }).view
    (a.compact blk.render.length).mem
  windows : ∀ s ∈ d.req.slices, s.Within reactorRecvBufSize

end Dispatch

theorem blockLength_of_parse {buf : Bytes} {n : ℕ} {req req' : Request}
    (h : parseRequestFromBuf buf req = (.ok n, req')) : blockLength buf = n := by
  unfold parseRequestFromBuf at h
  unfold blockLength
  split at h
  · simp at h
  · next e hidx =>
    rw [hidx]
    split at h
    · simp at h
    · exact Except.ok.inj (Prod.mk.inj h).1

theorem blockLength_render (blk : Block) (rest : Bytes) :
    blockLength (blk.render ++ rest) = blk.render.length :=
  blockLength_of_parse (parseRequestFromBuf_render blk rest {})

theorem carries_render_iff {blk : Block} {k : HeaderName} :
    Carries blk.render k ↔ named k blk.fields ≠ [] := by
  constructor
  · rintro ⟨blk', heq, hk⟩
    have hcut : blk.renderLine ++ CR :: (LF :: (renderLines blk.fields ++ (crlf ++ [])))
        = blk'.renderLine ++ CR :: (LF :: (renderLines blk'.fields ++ (crlf ++ []))) := by
      simpa [Block.render, Block.head] using heq
    have hlines := (cut_unique (cr_notMem_of_text blk.renderLine_text)
      (cr_notMem_of_text blk'.renderLine_text) hcut).2
    rw [(renderLines_injective (List.cons.inj hlines).2).1]
    exact hk
  · exact fun hk => ⟨blk, rfl, hk⟩

/-! ## What is read, and what the block says -/

namespace Dispatch.From

variable {d : Dispatch} {a : Accum reactorRecvBufSize} {blk : Block} {rest : Bytes}

theorem block_eq (h : d.From a blk rest) : d.block = blk.render := by
  rw [block, h.buf, blockLength_render, List.take_left]

theorem behind_eq (h : d.From a blk rest) : d.behind = rest := by
  rw [behind, h.buf, blockLength_render, List.drop_left]

theorem own_eq (h : d.From a blk rest) :
    d.own = (blk.request { raw := ⟨0, blk.render⟩ }).parsed := by
  have hp := parseRequestFromBuf_render blk [] {}
  rw [List.append_nil] at hp
  rw [own, h.block_eq, hp]

theorem length_le (h : d.From a blk rest) : blk.render.length ≤ a.len := by
  have := a.length_filled
  rw [h.filled, h.buf, List.length_append] at this
  omega

theorem take_mem_iff (h : d.From a blk rest) :
    (a.compact blk.render.length).mem.take blk.render.length = blk.render ↔ d.Agrees := by
  have hle := h.length_le
  have hmem : a.mem.take blk.render.length = blk.render := by
    have htake : a.filled.take blk.render.length = a.mem.take blk.render.length := by
      rw [Accum.filled, List.take_take, min_eq_left hle]
    rw [← htake, h.filled, h.buf, List.take_left]
  have hiff := a.take_compact_iff hle
  rw [hmem, h.filled, h.buf, List.take_left, List.drop_left] at hiff
  rw [Agrees, h.block_eq, h.behind_eq]
  exact hiff

theorem reload_eq (h : d.From a blk rest) (hag : d.Agrees) {s : Slice}
    (hs : s.Stable (blk.render ++ rest) ∧ s.Within blk.render.length) :
    s.reload (a.compact blk.render.length).mem = s.data := by
  have htake := h.take_mem_iff.mpr hag
  exact (Slice.reload_congr hs.2 (by rw [htake, List.take_left])).trans hs.1

theorem view_zero (h : d.From a blk rest) (hag : d.Agrees) :
    (blk.request { raw := ⟨0, blk.render⟩ }).view (a.compact blk.render.length).mem
      = d.own := by
  rw [h.own_eq]
  exact Request.view_eq_parsed (fun s hs => h.reload_eq hag (blk.slices_stable rest s hs))

theorem slot_iff (h : d.From a blk rest) (hag : d.Agrees) (k : HeaderName) {s : Slice}
    (hw : s.Within reactorRecvBufSize) :
    ((blk.lastSlot k).getD s).reload (a.compact blk.render.length).mem
        = ((blk.lastSlot k).getD .nil).data
      ↔ Carries d.block k ∨ s.data = [] := by
  rw [h.block_eq, carries_render_iff, ← blk.lastSlot_isSome]
  cases hk : blk.lastSlot k with
  | some t =>
    have := h.reload_eq hag (Block.lastSlot_stable rest hk)
    simp [this]
  | none =>
    have hlen := Slice.length_reload (s := s)
      (by rwa [(a.compact blk.render.length).size_eq])
    simp only [Option.getD_none, Slice.data_nil, Option.isSome_none, Bool.false_eq_true,
      false_or]
    rw [← List.length_eq_zero_iff, hlen, List.length_eq_zero_iff]

theorem auth_iff (h : d.From a blk rest) (hag : d.Agrees) :
    d.seen.auth = d.own.auth ↔ d.OwnAuth := by
  have hw : d.req.auth.Within reactorRecvBufSize :=
    h.windows _ (by simp [Request.slices])
  rw [OwnAuth, ← h.slot_iff hag .authorization hw, h.seen, h.own_eq, blk.request_carry]
  show _ = ((blk.request { raw := ⟨0, blk.render⟩ }).auth).data ↔ _
  rw [blk.auth_request]
  rfl

theorem range_iff (h : d.From a blk rest) (hag : d.Agrees) :
    d.seen.range = d.own.range ↔ d.OwnRange := by
  have hw : d.req.range.Within reactorRecvBufSize :=
    h.windows _ (by simp [Request.slices])
  rw [OwnRange, ← h.slot_iff hag .range hw, h.seen, h.own_eq, blk.request_carry]
  show _ = ((blk.request { raw := ⟨0, blk.render⟩ }).range).data ↔ _
  rw [blk.range_request]
  rfl

theorem contentLen_iff (h : d.From a blk rest) :
    d.seen.contentLen = d.own.contentLen ↔ d.OwnContentLen := by
  have hsome : blk.lastLength.isSome ↔ named .contentLength blk.fields ≠ [] := by
    rw [Block.lastLength, Option.isSome_map, List.getLast?_isSome]
  rw [OwnContentLen, h.block_eq, carries_render_iff, ← hsome, h.seen, h.own_eq,
    blk.request_carry]
  show blk.lastLength.getD d.req.contentLen
    = (blk.request { raw := ⟨0, blk.render⟩ }).contentLen ↔ _
  rw [blk.contentLen_request]
  cases blk.lastLength <;> simp

theorem raw_iff (h : d.From a blk rest) : d.seen.raw = d.own.raw ↔ d.Agrees := by
  have hraw : ∀ req : Request, (blk.request { req with raw := ⟨0, blk.render⟩ }).raw
      = ⟨0, blk.render⟩ := fun req => (blk.request_frame _).2.2.2.2.1
  rw [← h.take_mem_iff, h.seen, h.own_eq]
  show Slice.reload (blk.request { d.req with raw := ⟨0, blk.render⟩ }).raw _
    = (blk.request { raw := ⟨0, blk.render⟩ }).raw.data ↔ _
  rw [hraw, hraw {}]
  rfl

theorem seen_eq (h : d.From a blk rest) (hag : d.Agrees) :
    d.seen = { d.own with
      auth := d.seen.auth
      range := d.seen.range
      contentLen := d.seen.contentLen } := by
  rw [← h.view_zero hag, h.seen, blk.request_carry]
  rfl

end Dispatch.From

/-! ## Over a run -/

namespace IoConn

structure Sound (c : IoConn) : Prop where
  windows : ∀ s ∈ c.req.slices, s.Within reactorRecvBufSize
  dispatches : ∀ d ∈ c.log, ∃ a blk rest, d.From a blk rest
  stream : c.received = (c.log.map Dispatch.block).flatten ++ c.buf.filled

theorem Sound.of_sameWork {c c' : IoConn} (h : c.Sound) (hs : c.SameWork c') :
    c'.Sound := by
  obtain ⟨hbuf, hreq, hrec, hlog⟩ := hs
  exact ⟨hreq ▸ h.windows, hlog ▸ h.dispatches, by rw [hrec, hlog, hbuf]; exact h.stream⟩

theorem windows_request {req : Request} {blk : Block}
    (hreq : ∀ s ∈ req.slices, s.Within reactorRecvBufSize)
    (hlen : blk.render.length ≤ reactorRecvBufSize) :
    ∀ s ∈ (blk.request { req with raw := ⟨0, blk.render⟩ }).slices,
      s.Within reactorRecvBufSize := by
  have hzero : ∀ s ∈ (blk.request { raw := ⟨0, blk.render⟩ }).slices,
      s.Within reactorRecvBufSize :=
    fun s hs => le_trans (blk.slices_stable [] s hs).2 hlen
  have hslot : ∀ (k : HeaderName) (s : Slice), s.Within reactorRecvBufSize →
      ((blk.lastSlot k).getD s).Within reactorRecvBufSize := by
    intro k s hs
    cases hk : blk.lastSlot k with
    | none => exact hs
    | some t => exact le_trans (Block.lastSlot_stable [] hk).2 hlen
  rw [blk.request_carry]
  simp only [Request.slices, List.forall_mem_cons] at hzero hreq ⊢
  obtain ⟨h1, h2, h3, h4, h5, -, -, h8, h9⟩ := hzero
  obtain ⟨-, -, -, -, -, ha, hr, -, -⟩ := hreq
  exact ⟨h1, h2, h3, h4, h5, hslot _ _ ha, hslot _ _ hr, h8, h9⟩

theorem Sound.take {c : IoConn} (h : c.Sound) {n : ℕ} {req : Request}
    (hp : parseRequestFromBuf c.buf.filled c.req = (.ok n, req)) :
    (c.take n req).Sound := by
  obtain ⟨blk, rest, hbuf, rfl, rfl⟩ := exists_of_parseRequestFromBuf hp
  have hfrom : Dispatch.From ⟨c.buf.filled, c.req,
      (blk.request { c.req with raw := ⟨0, blk.render⟩ }).view
        (c.buf.compact blk.render.length).mem⟩ c.buf blk rest :=
    ⟨rfl, hbuf, rfl, h.windows⟩
  refine ⟨windows_request h.windows (hfrom.length_le.trans c.buf.len_le), ?_, ?_⟩
  · intro d hd
    rcases List.mem_append.mp hd with hd | hd
    · exact h.dispatches d hd
    · rw [List.mem_singleton.mp hd]
      exact ⟨_, _, _, hfrom⟩
  · show c.received = ((c.log ++ [_]).map Dispatch.block).flatten
      ++ (c.buf.compact blk.render.length).filled
    rw [List.map_append, List.flatten_append, List.map_singleton, List.flatten_singleton,
      hfrom.block_eq, Accum.filled_compact, hbuf, List.drop_left, h.stream, hbuf,
      List.append_assoc]

theorem Sound.step {c c' : IoConn} {e : Event} (h : c.Sound) (hs : c.step e = some c') :
    c'.Sound := by
  obtain ⟨c₁, hrecv, hreq, hlog, hrest⟩ := step_cases hs
  have h₁ : c₁.Sound := by
    refine ⟨hreq ▸ h.windows, hlog ▸ h.dispatches, ?_⟩
    rcases hrecv with ⟨hb, hr⟩ | ⟨data, hd, hb, hr⟩
    · rw [hr, hlog, hb]
      exact h.stream
    · rw [hr, hlog, hb, Accum.filled_push, ← List.append_assoc, ← h.stream]
  rcases hrest with hsame | ⟨n, req, hp, hsame⟩
  · exact h₁.of_sameWork hsame
  · exact (h₁.take hp).of_sameWork hsame

theorem sound_acquireIoConn (mem : Bytes) (h : mem.length = reactorRecvBufSize) :
    (acquireIoConn mem h).Sound := by
  refine ⟨?_, by simp [acquireIoConn], by simp [acquireIoConn, Accum.filled]⟩
  intro s hs
  have : s = .nil := by simpa [acquireIoConn, Request.slices] using hs
  rw [this]
  exact Slice.within_nil _

theorem sound_of_run {mem : Bytes} {h : mem.length = reactorRecvBufSize}
    {es : List Event} {c : IoConn}
    (hrun : Runs.run IoConn.step (acquireIoConn mem h) es = some c) : c.Sound :=
  Runs.invariant_of_step (fun _ _ _ hi hs => hi.step hs) (sound_acquireIoConn mem h) hrun

end IoConn

/-! ## Request stability and keep-alive isolation -/

/-- **When the reactor reads the request it accepted**: the bytes behind the block agree with
it, and credential and range are in the block or were left empty. -/
theorem dispatch_faithful_iff {mem : Bytes} {h : mem.length = reactorRecvBufSize}
    {es : List Event} {c : IoConn}
    (hrun : Runs.run IoConn.step (acquireIoConn mem h) es = some c) :
    ∀ d ∈ c.log, d.Faithful ↔ d.Agrees ∧ d.OwnAuth ∧ d.OwnRange := by
  intro d hd
  obtain ⟨a, blk, rest, hfrom⟩ := (IoConn.sound_of_run hrun).dispatches d hd
  constructor
  · rintro ⟨-, -, -, hauth, hrange, hraw⟩
    have hag := hfrom.raw_iff.mp hraw
    exact ⟨hag, (hfrom.auth_iff hag).mp hauth, (hfrom.range_iff hag).mp hrange⟩
  · rintro ⟨hag, hauth, hrange⟩
    have hseen := hfrom.seen_eq hag
    refine ⟨?_, ?_, ?_, (hfrom.auth_iff hag).mpr hauth, (hfrom.range_iff hag).mpr hrange,
      hfrom.raw_iff.mpr hag⟩
    · rw [hseen]
    · rw [hseen]
    · rw [hseen]

def warmServer : Server :=
  { Server.cold (ascii "hub") with
    loadMeta := fun _ => some { spans := [⟨0, 5⟩], total := some 5 }
    acquireBody := fun _ => true }

def warmEvents (texts : List Bytes) : List Event :=
  texts.flatMap (fun t =>
    [⟨.recv t, warmServer, true⟩, ⟨.write true, warmServer, true⟩])

theorem dispatch_faithful_single :
    ∃ c, Runs.run IoConn.step (acquireIoConn pooledMem length_pooledMem)
        (warmEvents [ascii "GET /a HTTP/1.1\r\nHost: h\r\nRange: bytes=0-1\r\n\r\n"]) = some c
      ∧ ∀ d ∈ c.log, d.Faithful := by
  have hsome : (Runs.run IoConn.step (acquireIoConn pooledMem length_pooledMem)
      (warmEvents [ascii "GET /a HTTP/1.1\r\nHost: h\r\nRange: bytes=0-1\r\n\r\n"])).any
      (fun c => c.log.all (fun d => d.behind.isEmpty && d.req.auth.data.isEmpty
        && d.req.range.data.isEmpty)) = true := by
    decide +kernel
  obtain ⟨c, hrun, hlog⟩ := (Option.any_eq_true _ _).mp hsome
  refine ⟨c, hrun, fun d hd => (dispatch_faithful_iff hrun d hd).mpr ?_⟩
  have := List.all_eq_true.mp hlog d hd
  simp only [Bool.and_eq_true, List.isEmpty_iff] at this
  exact ⟨.inl (this.1.1 ▸ List.nil_prefix), .inr this.1.2, .inr this.2⟩

/-- **A second request in the same segment changes the first.** -/
theorem dispatch_reads_next_request :
    ¬ ∀ (mem : Bytes) (h : mem.length = reactorRecvBufSize) (es : List Event) (c : IoConn),
      Runs.run IoConn.step (acquireIoConn mem h) es = some c → ∀ d ∈ c.log, d.Faithful := by
  intro hall
  have hsome : (Runs.run IoConn.step (acquireIoConn pooledMem length_pooledMem)
      [⟨.recv (ascii ("GET /a HTTP/1.1\r\nHost: h\r\n\r\n" ++
        "GET /b HTTP/1.1\r\nHost: h\r\n\r\n")), warmServer, true⟩]).any
      (fun c => c.log.any (fun d => d.seen.path == ascii "/b" && d.own.path == ascii "/a"))
      = true := by
    decide +kernel
  obtain ⟨c, hrun, hlog⟩ := (Option.any_eq_true _ _).mp hsome
  obtain ⟨d, hd, hpath⟩ := List.any_eq_true.mp hlog
  rw [Bool.and_eq_true, beq_iff_eq, beq_iff_eq] at hpath
  have hsame := (hall _ _ _ c hrun d hd).2.1
  rw [hpath.1, hpath.2] at hsame
  exact absurd hsame (by decide)

/-- **When a request is isolated from the ones before it**: the bytes behind the block agree
with it, and credential, range and content length are in it or were left empty. -/
theorem dispatch_isolated_iff {mem : Bytes} {h : mem.length = reactorRecvBufSize}
    {es : List Event} {c : IoConn}
    (hrun : Runs.run IoConn.step (acquireIoConn mem h) es = some c) :
    c.received = (c.log.map Dispatch.block).flatten ++ c.buf.filled
      ∧ ∀ d ∈ c.log, d.seen = d.own
          ↔ d.Agrees ∧ d.OwnAuth ∧ d.OwnRange ∧ d.OwnContentLen := by
  have hsound := IoConn.sound_of_run hrun
  refine ⟨hsound.stream, fun d hd => ?_⟩
  obtain ⟨a, blk, rest, hfrom⟩ := hsound.dispatches d hd
  constructor
  · intro heq
    have hag := hfrom.raw_iff.mp (congrArg View.raw heq)
    exact ⟨hag, (hfrom.auth_iff hag).mp (congrArg View.auth heq),
      (hfrom.range_iff hag).mp (congrArg View.range heq),
      hfrom.contentLen_iff.mp (congrArg View.contentLen heq)⟩
  · rintro ⟨hag, hauth, hrange, hlen⟩
    rw [hfrom.seen_eq hag, (hfrom.auth_iff hag).mpr hauth, (hfrom.range_iff hag).mpr hrange,
      hfrom.contentLen_iff.mpr hlen]

/-- Two requests one after the other, neither of which has any of the
headers. -/
theorem dispatch_isolated_two :
    ∃ c, Runs.run IoConn.step (acquireIoConn pooledMem length_pooledMem)
        (warmEvents [ascii "GET /a HTTP/1.1\r\nHost: h\r\n\r\n",
          ascii "GET /b HTTP/1.1\r\nHost: h\r\n\r\n"]) = some c
      ∧ c.log.length = 2 ∧ ∀ d ∈ c.log, d.seen = d.own := by
  have hsome : (Runs.run IoConn.step (acquireIoConn pooledMem length_pooledMem)
      (warmEvents [ascii "GET /a HTTP/1.1\r\nHost: h\r\n\r\n",
        ascii "GET /b HTTP/1.1\r\nHost: h\r\n\r\n"])).any
      (fun c => c.log.length == 2 && c.log.all (fun d => d.behind.isEmpty
        && d.req.auth.data.isEmpty && d.req.range.data.isEmpty && d.req.contentLen == 0))
      = true := by
    decide +kernel
  obtain ⟨c, hrun, hlog⟩ := (Option.any_eq_true _ _).mp hsome
  rw [Bool.and_eq_true, beq_iff_eq] at hlog
  refine ⟨c, hrun, hlog.1, fun d hd => ((dispatch_isolated_iff hrun).2 d hd).mpr ?_⟩
  have := List.all_eq_true.mp hlog.2 d hd
  simp only [Bool.and_eq_true, List.isEmpty_iff, beq_iff_eq] at this
  exact ⟨.inl (this.1.1.1 ▸ List.nil_prefix), .inr this.1.1.2, .inr this.1.2, .inr this.2⟩

/-- **A credential carries over to the next request**, which has no `Authorization` line. -/
theorem dispatch_carries_credential :
    ¬ ∀ (mem : Bytes) (h : mem.length = reactorRecvBufSize) (es : List Event) (c : IoConn),
      Runs.run IoConn.step (acquireIoConn mem h) es = some c → ∀ d ∈ c.log, d.seen = d.own := by
  intro hall
  have hsome : (Runs.run IoConn.step (acquireIoConn pooledMem length_pooledMem)
      (warmEvents [ascii "GET /a HTTP/1.1\r\nHost: h\r\nAuthorization: token\r\n\r\n",
        ascii "GET /b HTTP/1.1\r\nHost: h\r\n\r\n"])).any
      (fun c => c.log.any (fun d => d.seen.auth == ascii "token" && d.own.auth == [])) = true := by
    decide +kernel
  obtain ⟨c, hrun, hlog⟩ := (Option.any_eq_true _ _).mp hsome
  obtain ⟨d, hd, hauth⟩ := List.any_eq_true.mp hlog
  rw [Bool.and_eq_true, beq_iff_eq, beq_iff_eq] at hauth
  have hsame := congrArg View.auth (hall _ _ _ c hrun d hd)
  rw [hauth.1, hauth.2] at hsame
  exact absurd hsame (by decide)

end Coreserver
