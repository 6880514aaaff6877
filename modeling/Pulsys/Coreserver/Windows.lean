import Pulsys.Coreserver.ParserAgreement
import Pulsys.Coreserver.Warm

/-!
# The windows of a parsed request

Parsed into a request that was all zero, every window lies in the header block and shows
what it showed when it was cut (`Block.slices_stable`). In a request that was used before,
credential, range and content length may be the earlier ones (`Block.request_carry`).
-/

namespace Coreserver

open Bytes

def Request.slices (req : Request) : List Slice :=
  [req.method, req.requestURI, req.path, req.query, req.host, req.auth, req.range,
    req.raw]

theorem Request.view_eq_parsed {req : Request} {mem : Bytes}
    (h : ∀ s ∈ req.slices, s.Stable mem) : req.view mem = req.parsed := by
  simp only [slices, List.forall_mem_cons] at h
  obtain ⟨h1, h2, h3, h4, h5, h6, h7, h8, -⟩ := h
  unfold view parsed
  rw [h1, h2, h3, h4, h5, h6, h7, h8]

theorem splitTarget_stable {mem : Bytes} {n : ℕ} {s : Slice} (hs : s.Stable mem)
    (hw : s.Within n) :
    ((splitTarget s).1.Stable mem ∧ (splitTarget s).1.Within n)
      ∧ (splitTarget s).2.Stable mem ∧ (splitTarget s).2.Within n := by
  unfold splitTarget
  split
  · exact ⟨⟨hs, hw⟩, Slice.stable_nil mem, Slice.within_nil n⟩
  · next q h =>
    obtain ⟨l, r, hd, -, rfl⟩ := exists_of_indexByte h
    refine ⟨⟨hs.upTo _, hw.upTo _⟩, hs.after _, hw.after ?_⟩
    simp [hd]

theorem lastAt_stable {k : HeaderName} {fs : List Field} {s : Slice} (l r : Bytes)
    (h : lastAt k (fun off f => f.window off) l.length fs = some s) :
    s.Stable (l ++ renderLines fs ++ r)
      ∧ s.Within (l.length + (renderLines fs).length) := by
  induction fs generalizing l with
  | nil => simp [lastAt] at h
  | cons f fs ih =>
    have hlen : l.length + f.render.length + 2 = (l ++ f.render ++ crlf).length := by
      simp [Nat.add_assoc]
    have hmem : l ++ renderLines (f :: fs) ++ r
        = (l ++ f.render ++ crlf) ++ renderLines fs ++ r := by
      simp [renderLines]
    rw [lastAt, hlen] at h
    cases hrec : lastAt k (fun off f => f.window off) (l ++ f.render ++ crlf).length fs with
    | some t =>
      rw [hrec] at h
      cases h
      obtain ⟨hst, hwi⟩ := ih (l ++ f.render ++ crlf) hrec
      refine ⟨hmem ▸ hst, ?_⟩
      unfold Slice.Within at hwi ⊢
      simp only [renderLines, List.length_append] at hwi ⊢
      omega
    | none =>
      rw [hrec, Option.none_or] at h
      split at h
      · cases h
        constructor
        · have hcut : l ++ renderLines (f :: fs) ++ r
              = (l ++ f.name ++ COLON :: f.lead) ++ f.value
                ++ (f.trail ++ crlf ++ renderLines fs ++ r) := by
            simp [renderLines, Field.render]
          have hoff : f.window l.length
              = ⟨(l ++ f.name ++ COLON :: f.lead).length, f.value⟩ := by
            unfold Field.window Field.valueOff
            congr 1
            simp only [List.length_append, List.length_cons]
            omega
          rw [hcut, hoff]
          exact Slice.stable_part _ _ _
        · unfold Slice.Within Field.window Field.valueOff
          simp only [renderLines, Field.render, List.length_append, List.length_cons]
          omega
      · cases h

namespace Block

theorem lastSlot_stable {blk : Block} {k : HeaderName} {s : Slice} (rest : Bytes)
    (h : blk.lastSlot k = some s) :
    s.Stable (blk.render ++ rest) ∧ s.Within blk.render.length := by
  have hlen : blk.renderLine.length + 2 = (blk.renderLine ++ crlf).length := by simp
  rw [lastSlot, hlen] at h
  obtain ⟨hst, hwi⟩ := lastAt_stable (blk.renderLine ++ crlf) (crlf ++ rest) h
  constructor
  · simpa [render, head] using hst
  · unfold Slice.Within at hwi ⊢
    simp only [render, head, List.length_append] at hwi ⊢
    omega

theorem getD_lastSlot_stable (blk : Block) (k : HeaderName) (rest : Bytes) :
    ((blk.lastSlot k).getD .nil).Stable (blk.render ++ rest)
      ∧ ((blk.lastSlot k).getD .nil).Within blk.render.length := by
  cases h : blk.lastSlot k with
  | none => exact ⟨Slice.stable_nil _, Slice.within_nil _⟩
  | some s => exact lastSlot_stable rest h

theorem slices_stable (blk : Block) (rest : Bytes) :
    ∀ s ∈ (blk.request { raw := ⟨0, blk.render⟩ }).slices,
      s.Stable (blk.render ++ rest) ∧ s.Within blk.render.length := by
  obtain ⟨h1, h2, h3, h4, h5, -⟩ := blk.request_frame { raw := ⟨0, blk.render⟩ }
  have hmethod : (⟨0, blk.method⟩ : Slice).Stable (blk.render ++ rest)
      ∧ (⟨0, blk.method⟩ : Slice).Within blk.render.length := by
    constructor
    · simp [Slice.Stable, Slice.reload, render, head, RequestLine.renderLine]
    · simp only [Slice.Within, render, head, RequestLine.renderLine, List.length_append]
      omega
  have htarget : blk.targetWindow.Stable (blk.render ++ rest)
      ∧ blk.targetWindow.Within blk.render.length := by
    constructor
    · have hcut : blk.render ++ rest = (blk.method ++ [SP]) ++ blk.target
          ++ (SP :: versionText blk.http11 ++ crlf ++ renderLines blk.fields ++ crlf
            ++ rest) := by
        simp [render, head, RequestLine.renderLine]
      rw [hcut, targetWindow, show blk.method.length + 1 = (blk.method ++ [SP]).length by simp]
      exact Slice.stable_part _ _ _
    · simp only [Slice.Within, targetWindow, render, head, RequestLine.renderLine,
        List.length_append, List.length_cons]
      omega
  have hraw : (⟨0, blk.render⟩ : Slice).Stable (blk.render ++ rest)
      ∧ (⟨0, blk.render⟩ : Slice).Within blk.render.length := by
    constructor
    · simp [Slice.Stable, Slice.reload]
    · simp [Slice.Within]
  obtain ⟨hpath, hquery⟩ := splitTarget_stable htarget.1 htarget.2
  intro s hs
  simp only [Request.slices, h1, h2, h3, h4, h5, host_request, auth_request,
    range_request, List.mem_cons, List.not_mem_nil, or_false] at hs
  rcases hs with rfl | rfl | rfl | rfl | rfl | rfl | rfl | rfl
  · exact hmethod
  · exact htarget
  · exact hpath
  · exact hquery
  · exact blk.getD_lastSlot_stable .host rest
  · exact blk.getD_lastSlot_stable .authorization rest
  · exact blk.getD_lastSlot_stable .range rest
  · exact hraw

theorem request_carry (blk : Block) (req : Request) (raw : Slice) :
    blk.request { req with raw := raw }
      = { blk.request { raw := raw } with
          auth := (blk.lastSlot .authorization).getD req.auth
          range := (blk.lastSlot .range).getD req.range
          contentLen := blk.lastLength.getD req.contentLen } := by
  obtain ⟨h1, h2, h3, h4, h5, h6⟩ := blk.request_frame { req with raw := raw }
  obtain ⟨g1, g2, g3, g4, g5, g6⟩ := blk.request_frame { raw := raw }
  have hhost : (blk.lastSlot .host).isSome := by
    rw [lastSlot_isSome]
    intro h0
    simpa [h0] using blk.one_host
  obtain ⟨s, hs⟩ := Option.isSome_iff_exists.mp hhost
  have hh : (blk.request { req with raw := raw }).host
      = (blk.request { raw := raw }).host := by
    rw [host_request, host_request, hs]
    rfl
  have hk : (blk.request { req with raw := raw }).keepAlive
      = (blk.request { raw := raw }).keepAlive := by
    rw [keepAlive_request, keepAlive_request]
  refine Request.ext ?_ ?_ ?_ ?_ hh ?_ ?_ ?_ ?_ hk ?_
  · exact h1.trans g1.symm
  · exact h2.trans g2.symm
  · exact h3.trans g3.symm
  · exact h4.trans g4.symm
  · exact auth_request _ _
  · exact range_request _ _
  · exact h5.trans g5.symm
  · exact contentLen_request _ _
  · exact h6.trans g6.symm

end Block

end Coreserver
