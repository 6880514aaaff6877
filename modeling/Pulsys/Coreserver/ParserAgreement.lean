import Pulsys.Coreserver.Block
import Pulsys.Coreserver.Parser

/-!
# What the two parsers accept

Both parsers accept the header blocks of the grammar and nothing else. `Collected`
describes the first one's cut: a block's text is one (`Block.collected`), and in it
`\r\n\r\n` occurs at the end only (`Collected.crlfcrlf_last`).
-/

namespace Coreserver

open Bytes Bufio

/-! ## Texts cut at an empty line -/

inductive Collected : Bytes → Prop
  | crlf : Collected crlf
  | bare : Collected [LF]
  | line {l b : Bytes} (hl : LF ∉ l) (hne : l ≠ []) (hcr : l ≠ [CR])
      (hb : Collected b) : Collected (l ++ LF :: b)

theorem lf_notMem_append_cr {l : Bytes} (h : LF ∉ l) : LF ∉ l ++ [CR] := by
  rw [List.mem_append, not_or]
  exact ⟨h, by decide⟩

namespace Collected

variable {b : Bytes}

theorem ne_nil (h : Collected b) : b ≠ [] := by
  cases h <;> simp

theorem tail {l : Bytes} (hl : LF ∉ l) (hne : l ≠ []) (hcr : l ≠ [CR])
    (h : Collected (l ++ LF :: b)) : Collected b := by
  generalize hx : l ++ LF :: b = x at h
  cases h with
  | crlf =>
    have h' : l ++ LF :: b = [CR] ++ LF :: [] := hx
    exact absurd (cut_unique hl (by decide) h').1 hcr
  | bare =>
    have h' : l ++ LF :: b = [] ++ LF :: [] := hx
    exact absurd (cut_unique hl (by simp) h').1 hne
  | line hl' _ _ hb => exact (cut_unique hl hl' hx).2 ▸ hb

theorem tail_crlf {l : Bytes} (hlf : LF ∉ l) (hne : l ≠ []) (h : Collected (l ++ Bytes.crlf ++ b)) :
    Collected b := by
  have h' : Collected ((l ++ [CR]) ++ LF :: b) := by simpa using h
  exact tail (lf_notMem_append_cr hlf) (by simp) (by simp [hne]) h'

theorem eq_crlf (h : Collected b) (hp : Bytes.crlf <+: b) : b = Bytes.crlf := by
  obtain ⟨t, rfl⟩ := hp
  generalize hx : Bytes.crlf ++ t = x at h
  cases h with
  | crlf => rfl
  | bare => simp at hx
  | line hl hne hcr _ =>
    have hx' : [CR] ++ LF :: t = _ := hx
    exact absurd (cut_unique (by decide) hl hx').1.symm hcr

theorem crlfcrlf_last (h : Collected b) {x y : Bytes} (hb : b = x ++ crlfcrlf ++ y) : y = [] := by
  induction h generalizing x with
  | crlf =>
    have := congrArg List.length hb
    simp at this
    omega
  | bare =>
    have := congrArg List.length hb
    simp at this
    omega
  | @line l b hl hne hcr hb' ih =>
    by_cases hx : LF ∈ x
    · obtain ⟨x₁, x₂, rfl, hx₁⟩ := List.eq_append_cons_of_mem hx
      have hcut : l ++ LF :: b = x₁ ++ LF :: (x₂ ++ crlfcrlf ++ y) := by simpa using hb
      exact ih (cut_unique hl hx₁ hcut).2
    · have hcut : l ++ LF :: b = (x ++ [CR]) ++ LF :: (Bytes.crlf ++ y) := by
        simpa using hb
      have hrest := (cut_unique hl (lf_notMem_append_cr hx) hcut).2
      have hend := hb'.eq_crlf (hrest ▸ List.prefix_append _ _)
      simpa [hrest] using hend

end Collected

/-! ## Blocks and the two cuts -/

theorem collected_renderLines (fs : List Field) : Collected (renderLines fs ++ crlf) := by
  induction fs with
  | nil => exact .crlf
  | cons f fs ih =>
    have hlf : LF ∉ f.render := lf_notMem_of_text f.render_text
    have h : Collected ((f.render ++ [CR]) ++ LF :: (renderLines fs ++ crlf)) :=
      .line (lf_notMem_append_cr hlf) (by simp) (by simp [f.render_ne_nil]) ih
    simpa [renderLines] using h

theorem Block.collected (blk : Block) : Collected blk.render := by
  have hlf : LF ∉ blk.renderLine := lf_notMem_of_text blk.renderLine_text
  have h : Collected
      ((blk.renderLine ++ [CR]) ++ LF :: (renderLines blk.fields ++ crlf)) :=
    .line (lf_notMem_append_cr hlf) (by simp) (by simp [blk.renderLine_ne_nil])
      (collected_renderLines blk.fields)
  simpa [Block.render, Block.head] using h

variable {b : Bytes} {n scratch : ℕ} {br : Reader} {req req' : Request} {e : ParseErr} {st : Scan}

theorem collected_of_renderLines {fs : List Field} (h : Collected (renderLines fs ++ b)) :
    Collected b := by
  induction fs with
  | nil => simpa [renderLines] using h
  | cons f fs ih =>
    refine ih ?_
    refine Collected.tail_crlf (lf_notMem_of_text f.render_text) f.render_ne_nil ?_
    simpa [renderLines] using h

theorem Block.eq_render_of_collected {blk : Block} {tail : Bytes} (h : Collected b)
    (hb : b = blk.head ++ tail) (htail : AtEnd tail) : b = blk.render := by
  have hc : Collected tail := by
    subst hb
    have hlines : Collected (renderLines blk.fields ++ tail) := by
      refine Collected.tail_crlf (lf_notMem_of_text blk.renderLine_text)
        blk.renderLine_ne_nil ?_
      simpa [Block.head] using h
    exact collected_of_renderLines hlines
  rcases htail with rfl | hp
  · exact absurd rfl hc.ne_nil
  · rw [hb, hc.eq_crlf hp, Block.render]

theorem Block.exists_head (blk : Block) : ∃ l, blk.head = l ++ crlf := by
  have hlines : ∀ fs : List Field, renderLines fs = [] ∨ ∃ l, renderLines fs = l ++ crlf := by
    intro fs
    induction fs with
    | nil => exact .inl rfl
    | cons f fs ih =>
      rcases ih with h | ⟨l, h⟩
      · exact .inr ⟨f.render, by simp [renderLines, h]⟩
      · exact .inr ⟨f.render ++ crlf ++ l, by simp [renderLines, h]⟩
  rcases hlines blk.fields with h | ⟨l, h⟩
  · exact ⟨blk.renderLine, by simp [Block.head, h]⟩
  · exact ⟨blk.renderLine ++ crlf ++ l, by simp [Block.head, h]⟩

theorem exists_collected (x y : Bytes) :
    ∃ c r, x ++ crlfcrlf ++ y = c ++ r ∧ Collected c := by
  induction hn : x.length using Nat.strong_induction_on generalizing x with
  | _ n ih =>
    by_cases hx : LF ∈ x
    · obtain ⟨x₁, x₂, rfl, hx₁⟩ := List.eq_append_cons_of_mem hx
      by_cases h0 : x₁ = []
      · exact ⟨[LF], x₂ ++ crlfcrlf ++ y, by simp [h0], .bare⟩
      by_cases hcr : x₁ = [CR]
      · exact ⟨crlf, x₂ ++ crlfcrlf ++ y, by simp [hcr], .crlf⟩
      obtain ⟨c, r, hc, hcol⟩ := ih x₂.length (by simp [← hn]; omega) x₂ rfl
      refine ⟨x₁ ++ LF :: c, r, ?_, .line hx₁ h0 hcr hcol⟩
      simpa using hc
    · by_cases h0 : x = []
      · exact ⟨crlf, crlf ++ y, by simp [h0], .crlf⟩
      · refine ⟨(x ++ [CR]) ++ LF :: crlf, y, by simp, ?_⟩
        exact .line (lf_notMem_append_cr hx) (by simp) (by simp [h0]) .crlf

/-! ## The blocking parser's cut -/

theorem collectBlock_line (n : ℕ) (acc : Bytes) {l t : Bytes} (hl : LF ∉ l)
    (hs : br.stream = l ++ LF :: t) (hfit : l.length < br.size)
    (hscr : acc.length + (l.length + 1) ≤ scratch) :
    ∃ br', br'.stream = t ∧ br'.size = br.size
      ∧ collectBlock scratch (n + 1) br acc
        = if l ++ [LF] = crlf ∨ l ++ [LF] = [LF] then (.ok (acc ++ (l ++ [LF])), br')
          else collectBlock scratch n br' (acc ++ (l ++ [LF])) := by
  obtain ⟨br', hread, hstream, hsize⟩ :=
    Reader.readSliceAux_complete (n := br.size + 1) (by omega) hs hl hfit
  refine ⟨br', hstream, hsize, ?_⟩
  rw [collectBlock, Reader.readSlice, hread]
  simp only [List.length_append, List.length_singleton]
  rw [if_neg (by omega)]

theorem collectBlock_ok {br' : Reader} {acc : Bytes}
    (h : collectBlock scratch n br acc = (.ok b, br')) :
    ∃ x, b = acc ++ x ∧ Collected x ∧ br.stream = x ++ br'.stream
      ∧ b.length ≤ scratch ∧ br'.size = br.size := by
  induction n generalizing br acc with
  | zero => simp [collectBlock] at h
  | succ n ih =>
    rw [collectBlock] at h
    split at h
    · simp at h
    · next line br₁ hread =>
      obtain ⟨hs, hsz, l, rfl, hl⟩ := Reader.readSliceAux_ok hread
      split at h
      · simp at h
      · next hroom =>
        split at h
        · next hend =>
          obtain ⟨hb, rfl⟩ := Prod.mk.inj h
          obtain rfl := Except.ok.inj hb
          refine ⟨l ++ [LF], rfl, ?_, hs, by rw [List.length_append]; omega, hsz⟩
          rcases hend with he | he
          · rw [he]
            exact .crlf
          · rw [he]
            exact .bare
        · next hgo =>
          obtain ⟨x, rfl, hx, hs', hlen, hsz'⟩ := ih h
          rw [not_or] at hgo
          refine ⟨(l ++ [LF]) ++ x, by simp, ?_, ?_, hlen, hsz'.trans hsz⟩
          · have hne : l ≠ [] := by
              rintro rfl
              exact hgo.2 rfl
            have hcr : l ≠ [CR] := by
              rintro rfl
              exact hgo.1 rfl
            simpa using Collected.line hl hne hcr hx
          · rw [hs, hs']
            simp

theorem collectBlock_complete (acc : Bytes) {x t : Bytes} (hx : Collected x)
    (hs : br.stream = x ++ t) (hscr : acc.length + x.length ≤ scratch) (hsize : scratch ≤ br.size)
    (hn : scratch < n + acc.length) :
    ∃ br', collectBlock scratch n br acc = (.ok (acc ++ x), br') ∧ br'.stream = t
      ∧ br'.size = br.size := by
  induction hx generalizing n br acc with
  | crlf =>
    obtain ⟨k, rfl⟩ : ∃ k, n = k + 1 := ⟨n - 1, by simp at hscr; omega⟩
    obtain ⟨br', hstream, hsz, heq⟩ := collectBlock_line k acc (l := [CR])
      (t := t) (by decide) hs (by simp at hscr ⊢; omega) (by simpa using hscr)
    exact ⟨br', by rw [heq, if_pos (.inl rfl)]; rfl, hstream, hsz⟩
  | bare =>
    obtain ⟨k, rfl⟩ : ∃ k, n = k + 1 := ⟨n - 1, by simp at hscr; omega⟩
    obtain ⟨br', hstream, hsz, heq⟩ := collectBlock_line k acc (l := [])
      (t := t) (by simp) hs (by simp at hscr ⊢; omega) (by simpa using hscr)
    exact ⟨br', by rw [heq, if_pos (.inr rfl)]; rfl, hstream, hsz⟩
  | @line l b hl hne hcr _ ih =>
    simp only [List.length_append, List.length_cons] at hscr
    obtain ⟨k, rfl⟩ : ∃ k, n = k + 1 := ⟨n - 1, by omega⟩
    have hs' : br.stream = l ++ LF :: (b ++ t) := by simpa using hs
    have hroom : acc.length + (l.length + 1) ≤ scratch := by omega
    obtain ⟨br₁, hstream, hsz, heq⟩ := collectBlock_line k acc hl hs' (by omega) hroom
    have hgo : ¬ (l ++ [LF] = crlf ∨ l ++ [LF] = [LF]) := by
      rw [not_or]
      refine ⟨fun h => hcr ?_, fun h => hne ?_⟩
      · exact (List.append_inj' (h.trans (by rfl : crlf = [CR] ++ [LF])) rfl).1
      · simpa using h
    rw [if_neg hgo] at heq
    obtain ⟨br', h1, h2, h3⟩ := ih (n := k) (acc ++ (l ++ [LF])) hstream
      (by simp; omega) (by omega) (by simp; omega)
    exact ⟨br', by rw [heq, h1]; simp, h2, h3.trans hsz⟩

/-! ## The blocking parser -/

theorem exists_of_readRequest {br' : Reader}
    (h : readRequest br scratch req = ((.ok (), req'), br')) :
    ∃ blk : Block, br.stream = blk.render ++ br'.stream ∧ blk.render.length ≤ scratch
      ∧ req' = blk.request { req with raw := ⟨0, blk.render⟩ } ∧ br'.size = br.size := by
  unfold readRequest at h
  split at h
  · simp at h
  · next b br₁ hcol =>
    obtain ⟨x, hb, hx, hs, hlen, hsz⟩ := collectBlock_ok hcol
    rw [List.nil_append] at hb
    subst hb
    obtain ⟨hp, rfl⟩ := Prod.mk.inj h
    obtain ⟨blk, tail, hb, htail, rfl⟩ := exists_of_parseBlock hp
    obtain rfl := Block.eq_render_of_collected hx hb htail
    exact ⟨blk, hs, hlen, rfl, hsz⟩

theorem readRequest_render (blk : Block) {rest : Bytes} (req : Request)
    (hs : br.stream = blk.render ++ rest) (hfit : blk.render.length ≤ scratch)
    (hsize : scratch ≤ br.size) :
    ∃ br', readRequest br scratch req
        = ((.ok (), blk.request { req with raw := ⟨0, blk.render⟩ }), br')
      ∧ br'.stream = rest ∧ br'.size = br.size := by
  obtain ⟨br', hcol, hstream, hsz⟩ := collectBlock_complete (n := scratch + 1) []
    blk.collected hs (by simpa using hfit) hsize (by simp)
  refine ⟨br', ?_, hstream, hsz⟩
  rw [readRequest, hcol]
  show (parseBlock ⟨0, blk.head ++ crlf⟩ _, br') = _
  rw [parseBlock_head blk (.inr (List.prefix_refl _))]
  rfl

/-! ## The buffer parser -/

theorem exists_of_parseRequestFromBuf {buf : Bytes}
    (h : parseRequestFromBuf buf req = (.ok n, req')) :
    ∃ blk : Block, ∃ rest, buf = blk.render ++ rest ∧ n = blk.render.length
      ∧ req' = blk.request { req with raw := ⟨0, blk.render⟩ } := by
  unfold parseRequestFromBuf at h
  split at h
  · simp at h
  · next e hidx =>
    obtain ⟨l, r, hb, rfl, hmin⟩ := exists_of_index hidx
    have htake2 : buf.take (l.length + 2) = l ++ crlf := by
      simp [hb, List.take_append]
    have htake4 : buf.take (l.length + 4) = l ++ crlfcrlf := by
      simp [hb, List.take_append]
    rw [htake2, htake4] at h
    split at h
    · simp at h
    · next req₁ hp =>
      obtain ⟨hn, rfl⟩ := Prod.mk.inj h
      obtain ⟨blk, tail, hhead, htail, rfl⟩ := exists_of_parseBlock hp
      have hrender : blk.render = l ++ crlfcrlf := by
        rcases htail with rfl | ⟨t, rfl⟩
        · rw [Block.render, ← List.append_nil blk.head, ← hhead]
          simp
        · -- an empty line before the end would be an earlier block end
          obtain ⟨l', hl'⟩ := blk.exists_head
          have hlt : l'.length < l.length := by
            have := congrArg List.length hhead
            simp [hl'] at this
            omega
          refine absurd ?_ (hmin l'.length hlt)
          refine ⟨t ++ crlf ++ r, ?_⟩
          have : buf = l' ++ (crlfcrlf ++ (t ++ crlf ++ r)) := by
            calc buf = (l ++ crlf) ++ crlf ++ r := by simp [hb]
              _ = l' ++ (crlfcrlf ++ (t ++ crlf ++ r)) := by rw [hhead, hl']; simp
          rw [this, List.drop_left]
      refine ⟨blk, r, by rw [hb, hrender], ?_, by rw [hrender]⟩
      rw [← Except.ok.inj hn, hrender]
      simp

theorem parseRequestFromBuf_render (blk : Block) (rest : Bytes) (req : Request) :
    parseRequestFromBuf (blk.render ++ rest) req
      = (.ok blk.render.length, blk.request { req with raw := ⟨0, blk.render⟩ }) := by
  obtain ⟨l, hl⟩ := blk.exists_head
  have hrender : blk.render = l ++ crlfcrlf := by simp [Block.render, hl]
  have hidx : index crlfcrlf (blk.render ++ rest) = some l.length := by
    have hsome : (index crlfcrlf (l ++ crlfcrlf ++ rest)).isSome := index_isSome l rest
    obtain ⟨e, he⟩ := Option.isSome_iff_exists.mp hsome
    rw [hrender, he]
    obtain ⟨x, y, hxy, rfl, hmin⟩ := exists_of_index he
    have hle : x.length ≤ l.length := by
      by_contra hlt
      exact hmin l.length (by omega) ⟨rest, by simp⟩
    -- the first block end lies in the block, hence at its end
    have hpre : x ++ crlfcrlf <+: l ++ crlfcrlf := by
      have hx : x ++ crlfcrlf <+: l ++ crlfcrlf ++ rest := ⟨y, hxy.symm⟩
      refine List.prefix_of_prefix_length_le hx ⟨rest, rfl⟩ ?_
      simpa using hle
    obtain ⟨z, hz⟩ := hpre
    have hznil := blk.collected.crlfcrlf_last (hrender.trans hz.symm)
    have := congrArg List.length hz
    simp [hznil] at this
    rw [this]
  have htake2 : (blk.render ++ rest).take (l.length + 2) = blk.head := by
    simp [hrender, hl, List.take_append]
  have htake4 : (blk.render ++ rest).take (l.length + 4) = blk.render := by
    simp [hrender, List.take_append]
  have hp := parseBlock_head blk (.inl rfl) { req with raw := ⟨0, blk.render⟩ }
  rw [List.append_nil] at hp
  rw [parseRequestFromBuf, hidx]
  simp only [htake2, htake4, hp]
  rw [hrender]
  simp

/-! ## How a parse fails

The part the parsers share reports a malformed block and nothing else; that
the connection ended or that data is missing is the business of the two
cuts. -/

def ParseErr.Malformed (e : ParseErr) : Prop := e = .badRequest ∨ e = .smugglingSuspect

theorem require_error {c : Bool} {e' : ParseErr} (h : require c e = .error e') : e' = e := by
  unfold require at h
  split at h
  · simp at h
  · exact (Except.error.inj h).symm

theorem positive_error {o : Option ℕ} (h : positive o = .error e) : e = .badRequest := by
  unfold positive at h
  split at h
  · simp at h
  · exact (Except.error.inj h).symm

theorem bind_eq_error {α β : Type} {x : Except ParseErr α} {f : α → Except ParseErr β}
    (h : (x >>= f) = .error e) : x = .error e ∨ ∃ a, x = .ok a ∧ f a = .error e := by
  cases x with
  | error e' =>
    cases h
    exact .inl rfl
  | ok a => exact .inr ⟨a, rfl, h⟩

theorem setHeader_error {name : Bytes} {value : Slice} (h : setHeader name value st = .error e) :
    e = .smugglingSuspect := by
  unfold setHeader at h
  split at h
  · split at h
    · exact (Except.error.inj h).symm
    · simp at h
  split at h
  · simp at h
  split at h
  · simp at h
  split at h
  · split at h
    · exact (Except.error.inj h).symm
    · split at h
      · exact (Except.error.inj h).symm
      · simp at h
  split at h
  · split at h
    · simp at h
    · exact (Except.error.inj h).symm
  split at h
  · simp at h
  · simp at h

theorem headerLine_error {line : Slice} (h : headerLine line st = .error e) : e.Malformed := by
  unfold headerLine at h
  rcases bind_eq_error h with h | ⟨_, -, h⟩
  · exact .inr (require_error h)
  rcases bind_eq_error h with h | ⟨_, -, h⟩
  · exact .inl (positive_error h)
  rcases bind_eq_error h with h | ⟨_, -, h⟩
  · exact .inl (require_error h)
  rcases bind_eq_error h with h | ⟨_, -, h⟩
  · exact .inr (require_error h)
  · exact .inr (setHeader_error h)

theorem headerLoop_error {hdr : Slice} {st' : Scan} (h : headerLoop n hdr st = (.error e, st')) :
    e.Malformed := by
  induction n generalizing hdr st with
  | zero => exact .inl (require_error (Prod.mk.inj h).1)
  | succ n ih =>
    rw [headerLoop] at h
    split at h
    · simp at h
    split at h
    · exact .inl (Except.error.inj (Prod.mk.inj h).1).symm
    · simp at h
    · split at h
      · next hline =>
        exact (Except.error.inj (Prod.mk.inj h).1) ▸ headerLine_error hline
      · exact ih h

theorem parseRequestLine_error {line : Slice} (h : parseRequestLine line req = .error e) :
    e = .badRequest := by
  unfold parseRequestLine at h
  rcases bind_eq_error h with h | ⟨_, -, h⟩
  · exact positive_error h
  rcases bind_eq_error h with h | ⟨_, -, h⟩
  · exact require_error h
  rcases bind_eq_error h with h | ⟨_, -, h⟩
  · exact positive_error h
  rcases bind_eq_error h with h | ⟨_, -, h⟩
  · exact require_error h
  rcases bind_eq_error h with h | ⟨_, -, h⟩
  · exact require_error h
  · simp [pure, Except.pure] at h

theorem parseBlock_error {hdr : Slice} (h : parseBlock hdr req = (.error e, req')) :
    e.Malformed := by
  unfold parseBlock at h
  split at h
  · exact .inl (Except.error.inj (Prod.mk.inj h).1).symm
  split at h
  · next hline =>
    exact .inl ((Except.error.inj (Prod.mk.inj h).1) ▸ parseRequestLine_error hline)
  · unfold parseHeaders at h
    split at h
    · next hloop => exact (Except.error.inj (Prod.mk.inj h).1) ▸ headerLoop_error hloop
    split at h
    · exact .inr (Except.error.inj (Prod.mk.inj h).1).symm
    split at h
    · exact .inl (Except.error.inj (Prod.mk.inj h).1).symm
    · simp at h

theorem needMoreData_iff {buf : Bytes} :
    (parseRequestFromBuf buf req).1 = .error .needMoreData ↔ index crlfcrlf buf = none := by
  unfold parseRequestFromBuf
  constructor
  · intro h
    split at h
    · assumption
    split at h
    · next hp =>
      obtain rfl := Except.error.inj h
      rcases parseBlock_error hp with he | he <;> cases he
    · simp at h
  · intro h
    rw [h]

theorem index_none_of_readRequest_eof (hfit : br.stream.length ≤ scratch)
    (hsize : scratch ≤ br.size) (h : (readRequest br scratch req).1.1 = .error .eof) :
    index crlfcrlf br.stream = none := by
  by_contra hsome
  obtain ⟨e, he⟩ := Option.ne_none_iff_exists'.mp hsome
  obtain ⟨x, y, hs, -, -⟩ := exists_of_index he
  obtain ⟨c, r, hc, hcol⟩ := exists_collected x y
  have hs' : br.stream = c ++ r := hs.trans hc
  have hlen : c.length ≤ scratch := by
    rw [hs', List.length_append] at hfit
    omega
  obtain ⟨br', hcb, -, -⟩ := collectBlock_complete (n := scratch + 1) [] hcol hs'
    (by simpa using hlen) hsize (by simp)
  rw [readRequest, hcb] at h
  rcases parseBlock_error (Prod.ext h rfl) with he | he <;> cases he

/-! ## The parsers agree -/

/-- **The two parsers agree on every text that fits their buffers**, wherever the kernel cuts
it: they accept the same texts, with the same request and the same bytes taken. -/
theorem readRequest_agrees_parseRequestFromBuf (br : Reader) (hsize : br.size = bufReadSize)
    (hfit : br.stream.length ≤ headerScratchSize) :
    ((readRequest br headerScratchSize {}).1.1 = .ok ()
        ↔ ∃ n, (parseRequestFromBuf br.stream {}).1 = .ok n)
      ∧ (∀ n, (parseRequestFromBuf br.stream {}).1 = .ok n →
          (readRequest br headerScratchSize {}).1.2 = (parseRequestFromBuf br.stream {}).2
          ∧ (parseRequestFromBuf br.stream {}).2.raw.data.length = n
          ∧ br.stream = (parseRequestFromBuf br.stream {}).2.raw.data
              ++ (readRequest br headerScratchSize {}).2.stream)
      ∧ ((readRequest br headerScratchSize {}).1.1 = .error .eof →
          (parseRequestFromBuf br.stream {}).1 = .error .needMoreData)
      ∧ ∀ e, (parseRequestFromBuf br.stream {}).1 = .error e → e ≠ .needMoreData →
          ∃ e', (readRequest br headerScratchSize {}).1.1 = .error e' ∧ e' ≠ .eof := by
  have hsz : headerScratchSize ≤ br.size := le_of_eq hsize.symm
  -- a text the buffer parser accepts is a block, and there the two meet
  have hmeet : ∀ n, (parseRequestFromBuf br.stream {}).1 = .ok n →
      ∃ (blk : Block) (br' : Reader), br.stream = blk.render ++ br'.stream
        ∧ n = blk.render.length
        ∧ (parseRequestFromBuf br.stream {}).2 = blk.request { raw := ⟨0, blk.render⟩ }
        ∧ readRequest br headerScratchSize {}
          = ((.ok (), blk.request { raw := ⟨0, blk.render⟩ }), br') := by
    intro n hn
    obtain ⟨blk, rest, hs, hlen, hreq⟩ :=
      exists_of_parseRequestFromBuf (Prod.ext hn rfl)
    have hblk : blk.render.length ≤ headerScratchSize := by
      rw [hs, List.length_append] at hfit
      omega
    obtain ⟨br', hread, rfl, -⟩ := readRequest_render blk {} hs hblk hsz
    exact ⟨blk, br', hs, hlen, hreq, hread⟩
  have hiff : (readRequest br headerScratchSize {}).1.1 = .ok ()
      ↔ ∃ n, (parseRequestFromBuf br.stream {}).1 = .ok n := by
    constructor
    · intro h
      obtain ⟨blk, hs, -, -, -⟩ := exists_of_readRequest (Prod.ext (Prod.ext h rfl) rfl)
      refine ⟨blk.render.length, ?_⟩
      rw [hs, parseRequestFromBuf_render]
    · rintro ⟨n, hn⟩
      obtain ⟨blk, br', -, -, -, hread⟩ := hmeet n hn
      rw [hread]
  refine ⟨hiff, ?_, ?_, ?_⟩
  · intro n hn
    obtain ⟨blk, br', hs, hlen, hreq, hread⟩ := hmeet n hn
    have hraw : (blk.request { raw := ⟨0, blk.render⟩ }).raw = ⟨0, blk.render⟩ :=
      (blk.request_frame _).2.2.2.2.1
    rw [hread, hreq, hraw]
    exact ⟨rfl, hlen.symm, hs⟩
  · intro heof
    exact needMoreData_iff.mpr (index_none_of_readRequest_eof hfit hsz heof)
  · intro e he hmore
    cases hr : (readRequest br headerScratchSize {}).1.1 with
    | ok u =>
      obtain ⟨n, hn⟩ := hiff.mp hr
      rw [hn] at he
      cases he
    | error e' =>
      refine ⟨e', rfl, ?_⟩
      rintro rfl
      have hmd : (parseRequestFromBuf br.stream {}).1 = .error .needMoreData :=
        needMoreData_iff.mpr (index_none_of_readRequest_eof hfit hsz hr)
      rw [hmd] at he
      exact hmore (Except.error.inj he).symm

/-- A text both parsers read: two header lines, and the first bytes of a
body. -/
theorem readRequest_agrees_on_get :
    (readRequest (Reader.new bufReadSize
        (Conn.ofBytes (ascii "GET /a?b HTTP/1.1\r\nHost: h\r\nRange: r\r\n\r\nxy")))
      headerScratchSize {}).1.1 = .ok () :=
  (readRequest_agrees_parseRequestFromBuf _ rfl (by decide +kernel)).1.mpr
    ⟨40, by decide +kernel⟩

/-! ## The blocking parser's grammar -/

structure Block.Describes (blk : Block) (req : Request) : Prop where
  method : req.method.data = blk.method
  requestURI : req.requestURI.data = blk.target
  path : req.path.data = targetPath blk.target
  query : req.query.data = targetQuery blk.target
  http11 : req.http11 = blk.http11
  host : ∀ f ∈ named .host blk.fields, req.host.data = f.value
  range : req.range.data = (blk.lastValue .range).getD []
  auth : req.auth.data = (blk.lastValue .authorization).getD []
  contentLen : ∀ f ∈ named .contentLength blk.fields,
    some req.contentLen = parseDecimalInt64 f.value
  contentLen_none : named .contentLength blk.fields = [] → req.contentLen = 0
  keepAlive : req.keepAlive = blk.keepAlive
  raw : req.raw.data = blk.render

theorem Block.describes_request (blk : Block) :
    blk.Describes (blk.request { raw := ⟨0, blk.render⟩ }) := by
  obtain ⟨h1, h2, h3, h4, h5, h6⟩ := blk.request_frame { raw := ⟨0, blk.render⟩ }
  have hcl := blk.contentLen_request { raw := ⟨0, blk.render⟩ }
  have hd := splitTarget_data blk.targetWindow
  refine ⟨congrArg Slice.data h1, congrArg Slice.data h2,
    (congrArg Slice.data h3).trans hd.1, (congrArg Slice.data h4).trans hd.2, h6, ?_,
    ?_, ?_, ?_, ?_, blk.keepAlive_request _, congrArg Slice.data h5⟩
  · intro f hf
    obtain ⟨g, hg⟩ := List.length_eq_one_iff.mp blk.one_host
    rw [hg, List.mem_singleton] at hf
    rw [blk.host_request, data_getD_lastSlot, lastValue, hg, hf]
    rfl
  · rw [blk.range_request, data_getD_lastSlot]
    rfl
  · rw [blk.auth_request, data_getD_lastSlot]
    rfl
  · intro f hf
    obtain ⟨v, hv⟩ := Option.isSome_iff_exists.mp (blk.clen_ok f hf)
    have hone : named .contentLength blk.fields = [f] := by
      have hle := blk.clen_le
      match hcl' : named .contentLength blk.fields with
      | [] => simp [hcl'] at hf
      | [g] =>
        rw [hcl', List.mem_singleton] at hf
        rw [hf]
      | _ :: _ :: _ => simp [hcl'] at hle
    rw [hcl, lastLength, hone, hv]
    simp [hv]
  · intro h0
    rw [hcl, lastLength, h0]
    rfl

/-- **The blocking parser accepts exactly the blocks of the grammar**, and takes exactly the
block off the stream. -/
theorem readRequest_accepts_grammar (br : Reader) (hsize : br.size = bufReadSize) :
    ((readRequest br headerScratchSize {}).1.1 = .ok ()
        ↔ ∃ blk : Block, blk.render <+: br.stream ∧ blk.render.length ≤ headerScratchSize)
      ∧ ∀ blk : Block, blk.render <+: br.stream → blk.render.length ≤ headerScratchSize →
          br.stream = blk.render ++ (readRequest br headerScratchSize {}).2.stream
          ∧ blk.Describes (readRequest br headerScratchSize {}).1.2
          ∧ (∀ c ∈ blk.renderLine, TextByte c)
          ∧ ∀ f ∈ blk.fields, ∀ c ∈ f.render, TextByte c := by
  have hsz : headerScratchSize ≤ br.size := le_of_eq hsize.symm
  have hread : ∀ blk : Block, blk.render <+: br.stream →
      blk.render.length ≤ headerScratchSize →
      ∃ br', readRequest br headerScratchSize {}
          = ((.ok (), blk.request { raw := ⟨0, blk.render⟩ }), br')
        ∧ br.stream = blk.render ++ br'.stream := by
    rintro blk ⟨rest, hs⟩ hfit
    obtain ⟨br', h, rfl, -⟩ := readRequest_render blk {} hs.symm hfit hsz
    exact ⟨br', h, hs.symm⟩
  refine ⟨⟨fun h => ?_, fun ⟨blk, hp, hfit⟩ => ?_⟩, fun blk hp hfit => ?_⟩
  · obtain ⟨blk, hs, hfit, -, -⟩ := exists_of_readRequest (Prod.ext (Prod.ext h rfl) rfl)
    exact ⟨blk, ⟨_, hs.symm⟩, hfit⟩
  · obtain ⟨br', h, -⟩ := hread blk hp hfit
    rw [h]
  · obtain ⟨br', h, hs⟩ := hread blk hp hfit
    rw [h]
    exact ⟨hs, blk.describes_request, blk.renderLine_text, fun f _ => f.render_text⟩

theorem readRequest_accepts_grammar_get :
    ∃ blk : Block, blk.render <+: ascii "GET / HTTP/1.1\r\nHost: h\r\n\r\nGET"
      ∧ blk.render.length ≤ headerScratchSize := by
  have h := (readRequest_accepts_grammar (Reader.new bufReadSize
    (Conn.ofBytes (ascii "GET / HTTP/1.1\r\nHost: h\r\n\r\nGET"))) rfl).1
  rw [Reader.stream_new, Conn.stream_ofBytes] at h
  exact h.mp (by decide +kernel)

/-- **A value with a tab inside it is accepted**, so that not every byte of an
accepted block outside its line ends is free of control bytes. -/
theorem readRequest_accepts_tab :
    ¬ ∀ br : Reader, br.size = bufReadSize →
      (readRequest br headerScratchSize {}).1.1 = .ok () →
      ∀ c ∈ (readRequest br headerScratchSize {}).1.2.raw.data,
        c = CR ∨ c = LF ∨ (0x20 ≤ c ∧ c ≠ 0x7f) := by
  intro h
  have hall := h (Reader.new bufReadSize
    (Conn.ofBytes (ascii "GET / HTTP/1.1\r\nHost: a\tb\r\n\r\n"))) rfl (by decide +kernel)
  exact absurd (hall HT (by decide +kernel)) (by decide)

end Coreserver
