import Pulsys.Proxy.Program

/-!
# What the client gets of a body that is stored

Where a write to the disk fails, the reader returns the error with the block, and the block
is passed on before the error is looked at. The client's bytes are a beginning of what was
stored exactly if it takes no more of that block than the disk (`faithful_iff`).
-/

namespace Proxy

open Bytes Cache

structure Tee where
  begun : Begun
  disk : ℕ → Option ℕ
  client : ℕ → Option ℕ
  others : (op : Op) → op.Answer

structure TeeState where
  opened : Bool := false
  blocks : ℕ := 0
  stored : Bytes := []
  delivered : Bytes := []

def taken (limit : Option ℕ) (b : Bytes) : Bytes := limit.elim b b.take

theorem taken_initial (limit : Option ℕ) (b : Bytes) : taken limit b <+: b := by
  cases limit with
  | none => exact List.prefix_refl b
  | some k => exact List.take_prefix k b

namespace Tee

variable (x : Tee)

def store (s : TeeState) (b : Bytes) : TeeState :=
  { s with stored := s.stored ++ taken (x.disk s.blocks) b }

def deliver (s : TeeState) (b : Bytes) : TeeState :=
  { s with blocks := s.blocks + 1, delivered := s.delivered ++ taken (x.client s.blocks) b }

def env : (op : Op) → TeeState → op.Answer × TeeState
  | .beginSegment _ _, s => (x.begun, { s with opened := x.begun == .ok })
  | .writeSegment _ b, s =>
    if b = [] then (true, s)
    else ((x.disk s.blocks).isNone, x.store s b)
  | .write b, s =>
    if b = [] then (true, s)
    else if s.opened then ((x.client s.blocks).isNone, x.deliver s b)
    else (x.others (.write b), s)
  | op, s => (x.others op, s)

def final (p : Prog Unit) : TeeState := (p.run x.env {}).2.2

def Faithful (p : Prog Unit) : Prop := (x.final p).delivered <+: (x.final p).stored

def KeepsUp : ℕ → List Bytes → Prop
  | _, [] => True
  | i, b :: bs =>
    if b = [] then KeepsUp i bs
    else (taken (x.client i) b).length ≤ (taken (x.disk i) b).length
      ∧ (x.disk i = none → x.client i = none → KeepsUp (i + 1) bs)

/-! ## The copying -/

variable {s : TeeState}

def copied (keyHex : Bytes) (s : TeeState) (body : List Bytes) : TeeState :=
  ((teeCopy keyHex body).run x.env s).2.2

def pass (s : TeeState) (b : Bytes) : TeeState := x.deliver (x.store s b) b

theorem copied_cons (keyHex : Bytes) (hs : s.opened = true) {b : Bytes} (hb : b ≠ [])
    (bs : List Bytes) :
    x.copied keyHex s (b :: bs)
      = if x.disk s.blocks = none ∧ x.client s.blocks = none then x.copied keyHex (x.pass s b) bs
        else x.pass s b := by
  have hstore : x.env (.writeSegment keyHex b) s = ((x.disk s.blocks).isNone, x.store s b) :=
    if_neg hb
  have hwrite : x.env (.write b) (x.store s b) = ((x.client s.blocks).isNone, x.pass s b) :=
    (if_neg hb).trans (if_pos hs)
  unfold copied
  rw [teeCopy, Interaction.run_ask_bind, hstore]
  dsimp only
  cases x.disk s.blocks with
  | some k =>
    rw [if_neg (by simp), Interaction.run_ask_bind, hwrite, if_neg (by simp)]
    rfl
  | none =>
    rw [if_pos Option.isNone_none, Interaction.run_ask_bind, hwrite]
    dsimp only
    cases x.client s.blocks <;> rfl

theorem faithful_copied_iff (keyHex : Bytes) (hs : s.opened = true)
    (heven : s.delivered = s.stored) (body : List Bytes) :
    (x.copied keyHex s body).delivered <+: (x.copied keyHex s body).stored
      ↔ x.KeepsUp s.blocks body := by
  induction body generalizing s with
  | nil => exact iff_of_true (heven ▸ List.prefix_refl _) trivial
  | cons b bs ih =>
    by_cases hb : b = []
    · subst hb
      exact ih hs heven
    · rw [x.copied_cons keyHex hs hb, KeepsUp, if_neg hb]
      split
      · next hboth =>
        -- both have taken it all, so they are even again
        rw [ih (s := x.pass s b) hs (by simp only [pass, deliver, store, hboth, heven])]
        simp only [hboth, le_refl, true_and, forall_const]
        rfl
      · next hone =>
        have hpass : (x.pass s b).delivered <+: (x.pass s b).stored
            ↔ (taken (x.client s.blocks) b).length ≤ (taken (x.disk s.blocks) b).length := by
          rw [pass, deliver, store, heven, List.prefix_append_right_inj]
          exact ⟨List.IsPrefix.length_le,
            List.prefix_of_prefix_length_le (taken_initial _ _) (taken_initial _ _)⟩
        rw [hpass]
        exact (and_iff_left (fun hdisk hclient => absurd ⟨hdisk, hclient⟩ hone)).symm

/-! ## The handler -/

theorem env_write_of_not_opened (hs : s.opened = false) (b : Bytes) :
    (x.env (.write b) s).2 = s := by
  by_cases hb : b = []
  · rw [env, if_pos hb]
  · rw [env, if_neg hb, if_neg (by simp [hs])]

theorem run_copy (hs : s.opened = false) (body : List Bytes) :
    ((copy body).run x.env s).2.2 = s := by
  induction body with
  | nil => rfl
  | cons b bs ih =>
    rw [copy, Interaction.run_ask_bind, x.env_write_of_not_opened hs]
    dsimp only
    split
    · exact ih
    · rfl

theorem run_refused (hs : s.opened = false) (ticket : Option RangeTicket)
    (errHdr : Coreserver.Header) (text : Bytes) (code : ℤ) :
    ((unlock ticket >>= fun _ => httpError errHdr text code).run x.env s).2.2 = s := by
  rw [Interaction.run_bind, (keeps_unlock (fun _ _ => rfl) _).run_state]
  exact x.env_write_of_not_opened hs _

variable (service : Service)

theorem faithful_streamSegment_iff (p : SegmentParams) (errHdr : Coreserver.Header) (code : ℤ)
    (hdr : Coreserver.Header) (f : Fetch) (body : List Bytes) (keyHex auth : Bytes)
    (ticket : Option RangeTicket) :
    x.Faithful (service.streamSegment p errHdr code hdr f body keyHex auth ticket)
      ↔ (x.begun = .ok → x.KeepsUp 0 body) := by
  have hbegin : x.env (.beginSegment keyHex p) {} = (x.begun, { opened := x.begun == .ok }) := rfl
  unfold Faithful final Service.streamSegment
  rw [Interaction.run_ask_bind, hbegin]
  cases x.begun with
  | ok =>
    dsimp only
    rw [Interaction.run_ask_bind, Interaction.run_bind, Interaction.run_ask_bind,
      Interaction.run_bind]
    dsimp only
    rw [(service.keeps_maybeWriteRevAlias (fun _ _ => rfl) (fun _ _ _ => rfl) _ _ _).run_state,
      (keeps_unlock (fun _ _ => rfl) _).run_state]
    exact (x.faithful_copied_iff keyHex (s := { opened := true }) rfl rfl body).trans
      ⟨fun h _ => h, fun h => h rfl⟩
  | quotaExceeded =>
    dsimp only
    rw [x.run_refused rfl]
    exact iff_of_true (List.prefix_refl _) (fun h => nomatch h)
  | failed =>
    dsimp only
    rw [x.run_refused rfl]
    exact iff_of_true (List.prefix_refl _) (fun h => nomatch h)

/-- **When the client gets nothing that was not stored**: exactly if, once the segment is
begun, the disk keeps up with the client. -/
theorem faithful_iff (hdr : Coreserver.Header) (resp : Response) (keyHex : Bytes) (t : Target)
    (auth : Bytes) (ticket : Option RangeTicket) (originPath : Bytes) :
    (x.Faithful (service.streamCacheable200 hdr resp keyHex t auth ticket originPath)
        ↔ (x.begun = .ok → x.KeepsUp 0 resp.body))
      ∧ (x.Faithful (service.streamCacheable206 hdr resp keyHex t auth ticket originPath)
        ↔ ((parseContentRangeResponse (resp.header.get (ascii "Content-Range"))).isSome →
          x.begun = .ok → x.KeepsUp 0 resp.body)) := by
  refine ⟨x.faithful_streamSegment_iff service _ _ _ _ _ _ _ _ _, ?_⟩
  unfold Service.streamCacheable206
  dsimp only
  cases parseContentRangeResponse (resp.header.get (ascii "Content-Range")) with
  | none =>
    have hfinal : x.final (streamMetadata hdr resp >>= fun _ => unlock ticket) = {} := by
      rw [final, Interaction.run_bind, (keeps_unlock (fun _ _ => rfl) _).run_state]
      exact x.run_copy rfl resp.body
    refine iff_of_true ?_ (fun h => nomatch h)
    rw [Faithful, hfinal]
  | some range =>
    exact (x.faithful_streamSegment_iff service _ _ _ _ _ _ _ _ _).trans
      ⟨fun h _ => h, fun h => h rfl⟩

private def diskFull : Tee where
  begun := .ok
  disk := fun _ => some 0
  client := fun _ => none
  others := fun op => (Service.freshSurroundings op ()).1

/-- **The client gets two bytes of which none is stored.** -/
theorem unstored_bytes_delivered :
    let p := Service.plainService.streamCacheable200 .empty ⟨⟨200, .empty, 2⟩, [ascii "ab"]⟩ [107]
      ⟨ascii "huggingface.co", ascii "/m/resolve/main/a", []⟩ [] none []
    (diskFull.final p).delivered = ascii "ab" ∧ (diskFull.final p).stored = []
      ∧ ¬ diskFull.Faithful p := by
  have hfinal : ∀ p, (diskFull.final p).delivered = ascii "ab" → (diskFull.final p).stored = [] →
      ¬ diskFull.Faithful p := by
    intro p hdelivered hstored
    rw [Faithful, hdelivered, hstored]
    decide
  exact ⟨by decide +kernel, by decide +kernel, hfinal _ (by decide +kernel) (by decide +kernel)⟩

end Tee

end Proxy
