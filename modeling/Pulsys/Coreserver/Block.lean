import Pulsys.Coreserver.Field

/-!
# Header blocks and their grammar

In a `Block`, `Host` occurs exactly once, `Content-Length` at most once and never beside a
`Transfer-Encoding`, which is always `identity`. The parser's flags count this, and the
part the two parsers share accepts the texts of blocks and nothing else.
-/

namespace Coreserver

open Bytes

/-! ## The flags count -/

structure Scan.Compatible (st : Scan) (fs : List Field) : Prop where
  host : (named .host fs).length + st.seenHost.toNat ≤ 1
  clen : (named .contentLength fs).length + st.seenCL.toNat ≤ 1
  clen_ok : ∀ f ∈ named .contentLength fs, (parseDecimalInt64 f.value).isSome
  te_ok : ∀ f ∈ named .transferEncoding fs,
    asciiEqualFold f.value (ascii "identity") = true

theorem named_cons (k : HeaderName) (f : Field) (fs : List Field) :
    named k (f :: fs) = if f.kind = k then f :: named k fs else named k fs := by
  by_cases h : f.kind = k <;> simp [named, h]

def lastAt {α : Type} (k : HeaderName) (val : ℕ → Field → α) :
    ℕ → List Field → Option α
  | _, [] => none
  | off, f :: fs =>
    (lastAt k val (off + f.render.length + 2) fs).or
      (if f.kind = k then some (val off f) else none)

theorem lastAt_eq_getLast {α : Type} (k : HeaderName) (val : Field → α) (off : ℕ)
    (fs : List Field) :
    lastAt k (fun _ f => val f) off fs = (named k fs).getLast?.map val := by
  induction fs generalizing off with
  | nil => rfl
  | cons f fs ih =>
    rw [lastAt, ih, named_cons]
    by_cases hf : f.kind = k
    · rw [if_pos hf, if_pos hf, List.getLast?_cons]
      cases (named k fs).getLast? <;> rfl
    · rw [if_neg hf, if_neg hf, Option.or_none]

theorem map_lastAt {α β : Type} (k : HeaderName) (val : ℕ → Field → α) (h : α → β)
    (off : ℕ) (fs : List Field) :
    (lastAt k val off fs).map h = lastAt k (fun o f => h (val o f)) off fs := by
  induction fs generalizing off with
  | nil => rfl
  | cons f fs ih =>
    rw [lastAt, lastAt, ← ih]
    cases lastAt k val (off + f.render.length + 2) fs with
    | some a => rfl
    | none => by_cases hf : f.kind = k <;> simp [hf]

theorem lastAt_isSome {α : Type} (k : HeaderName) (val : ℕ → Field → α) (off : ℕ)
    (fs : List Field) : (lastAt k val off fs).isSome ↔ named k fs ≠ [] := by
  have h := congrArg Option.isSome (map_lastAt k val (fun _ => ()) off fs)
  rw [lastAt_eq_getLast, Option.isSome_map, Option.isSome_map] at h
  rw [h, List.getLast?_isSome]

namespace Scan

theorem compatible_nil (st : Scan) : st.Compatible [] :=
  ⟨by simp [named, Bool.toNat_le], by simp [named, Bool.toNat_le], by simp [named],
    by simp [named]⟩

theorem compatible_cons {st : Scan} {off : ℕ} {f : Field} {fs : List Field} :
    st.Compatible (f :: fs) ↔ st.Admits f ∧ (st.push off f).Compatible fs := by
  have hiff : ∀ (st : Scan) (fs : List Field), st.Compatible fs ↔
      (named .host fs).length + st.seenHost.toNat ≤ 1
        ∧ (named .contentLength fs).length + st.seenCL.toNat ≤ 1
        ∧ (∀ f ∈ named .contentLength fs, (parseDecimalInt64 f.value).isSome)
        ∧ ∀ f ∈ named .transferEncoding fs,
            asciiEqualFold f.value (ascii "identity") = true :=
    fun _ _ => ⟨fun h => ⟨h.1, h.2, h.3, h.4⟩, fun h => ⟨h.1, h.2.1, h.2.2.1, h.2.2.2⟩⟩
  rw [hiff, hiff]
  unfold Admits push
  cases hk : f.kind with
  | host =>
    cases hs : st.seenHost <;> simp [named_cons, hk]
  | contentLength =>
    cases hs : st.seenCL with
    | false =>
      simp only [named_cons, hk, reduceCtorEq, if_false, if_true, List.length_cons,
        Bool.toNat_false, Bool.toNat_true, List.forall_mem_cons, true_and]
      tauto
    | true => simp [named_cons, hk]
  | transferEncoding =>
    simp only [named_cons, hk, reduceCtorEq, if_false, if_true, List.forall_mem_cons]
    tauto
  | range => simp [named_cons, hk]
  | authorization => simp [named_cons, hk]
  | connection => simp [named_cons, hk]
  | other => simp [named_cons, hk]

theorem admitsAll_iff {off : ℕ} {st : Scan} {fs : List Field} :
    st.AdmitsAll off fs ↔ st.Compatible fs := by
  induction fs generalizing off st with
  | nil => simp [AdmitsAll, compatible_nil]
  | cons f fs ih => rw [AdmitsAll, ih, ← compatible_cons]

/-! ## What the lines say -/

theorem pushAll_last {α : Type} (k : HeaderName) (g : Request → α) (val : ℕ → Field → α)
    (hpush : ∀ off (st : Scan) f,
      g (st.push off f).req = if f.kind = k then val off f else g st.req)
    (off : ℕ) (st : Scan) (fs : List Field) :
    g (st.pushAll off fs).req = (lastAt k val off fs).getD (g st.req) := by
  induction fs generalizing off st with
  | nil => rfl
  | cons f fs ih =>
    rw [pushAll, ih, hpush, lastAt]
    cases lastAt k val (off + f.render.length + 2) fs with
    | some a => rfl
    | none => by_cases hf : f.kind = k <;> simp [hf]

theorem pushAll_flag (k : HeaderName) (flag : Scan → Bool)
    (hpush : ∀ off (st : Scan) f,
      flag (st.push off f) = (flag st || decide (f.kind = k)))
    (off : ℕ) (st : Scan) (fs : List Field) :
    flag (st.pushAll off fs) = (flag st || !(named k fs).isEmpty) := by
  induction fs generalizing off st with
  | nil => simp [pushAll, named]
  | cons f fs ih =>
    rw [pushAll, ih, hpush, named_cons]
    by_cases hf : f.kind = k <;> simp [hf]

theorem seenHost_pushAll (off : ℕ) (st : Scan) (fs : List Field) :
    (st.pushAll off fs).seenHost = (st.seenHost || !(named .host fs).isEmpty) :=
  pushAll_flag .host seenHost
    (fun off st f => by unfold push; cases hk : f.kind <;> simp) off st fs

theorem seenCL_pushAll (off : ℕ) (st : Scan) (fs : List Field) :
    (st.pushAll off fs).seenCL = (st.seenCL || !(named .contentLength fs).isEmpty) :=
  pushAll_flag .contentLength seenCL
    (fun off st f => by unfold push; cases hk : f.kind <;> simp) off st fs

theorem seenTE_pushAll (off : ℕ) (st : Scan) (fs : List Field) :
    (st.pushAll off fs).seenTE = (st.seenTE || !(named .transferEncoding fs).isEmpty) :=
  pushAll_flag .transferEncoding seenTE
    (fun off st f => by unfold push; cases hk : f.kind <;> simp) off st fs

theorem push_frame (off : ℕ) (st : Scan) (f : Field) :
    (st.push off f).req.method = st.req.method
      ∧ (st.push off f).req.requestURI = st.req.requestURI
      ∧ (st.push off f).req.path = st.req.path
      ∧ (st.push off f).req.query = st.req.query
      ∧ (st.push off f).req.raw = st.req.raw
      ∧ (st.push off f).req.http11 = st.req.http11 := by
  unfold push
  cases f.kind <;> simp

theorem pushAll_frame (off : ℕ) (st : Scan) (fs : List Field) :
    (st.pushAll off fs).req.method = st.req.method
      ∧ (st.pushAll off fs).req.requestURI = st.req.requestURI
      ∧ (st.pushAll off fs).req.path = st.req.path
      ∧ (st.pushAll off fs).req.query = st.req.query
      ∧ (st.pushAll off fs).req.raw = st.req.raw
      ∧ (st.pushAll off fs).req.http11 = st.req.http11 := by
  induction fs generalizing off st with
  | nil => simp [pushAll]
  | cons f fs ih =>
    obtain ⟨h1, h2, h3, h4, h5, h6⟩ := push_frame off st f
    obtain ⟨g1, g2, g3, g4, g5, g6⟩ := ih (off + f.render.length + 2) (st.push off f)
    exact ⟨g1.trans h1, g2.trans h2, g3.trans h3, g4.trans h4, g5.trans h5, g6.trans h6⟩

end Scan

/-! ## The request line -/

structure RequestLine where
  method : Bytes
  target : Bytes
  http11 : Bool
  method_ne : method ≠ []
  method_upper : ∀ c ∈ method, UpperByte c
  target_slash : target.head? = some SLASH
  target_visible : ∀ c ∈ target, VisibleByte c

def targetPath (target : Bytes) : Bytes := target.takeWhile (· ≠ QUESTION)

def targetQuery (target : Bytes) : Bytes := (target.dropWhile (· ≠ QUESTION)).tail

namespace RequestLine

def renderLine (l : RequestLine) : Bytes :=
  l.method ++ SP :: (l.target ++ SP :: versionText l.http11)

def apply (l : RequestLine) (off : ℕ) (req : Request) : Request :=
  { req with
    method := ⟨off, l.method⟩
    requestURI := ⟨off + l.method.length + 1, l.target⟩
    http11 := l.http11
    path := (splitTarget ⟨off + l.method.length + 1, l.target⟩).1
    query := (splitTarget ⟨off + l.method.length + 1, l.target⟩).2 }

theorem renderLine_text (l : RequestLine) : ∀ c ∈ l.renderLine, TextByte c := by
  have hv : ∀ c ∈ versionText l.http11, VisibleByte c := by
    have hall : ∀ b, (versionText b).all (fun c => 0x21 ≤ c && c ≤ 0x7e) = true := by decide
    intro c hc
    have := List.all_eq_true.mp (hall l.http11) c hc
    rwa [Bool.and_eq_true, decide_eq_true_eq, decide_eq_true_eq] at this
  intro c hc
  simp only [renderLine, List.mem_append, List.mem_cons] at hc
  rcases hc with hc | rfl | hc | rfl | hc
  · exact (l.method_upper c hc).visible.text
  · exact text_of_isBlank (by decide)
  · exact (l.target_visible c hc).text
  · exact text_of_isBlank (by decide)
  · exact (hv c hc).text

theorem renderLine_ne_nil (l : RequestLine) : l.renderLine ≠ [] := by
  simp [renderLine]

theorem sp_notMem_of_visible {b : Bytes} (h : ∀ c ∈ b, VisibleByte c) : SP ∉ b :=
  fun hc => absurd (h SP hc).1 (by decide)

end RequestLine

theorem splitTarget_data (s : Slice) :
    (splitTarget s).1.data = targetPath s.data
      ∧ (splitTarget s).2.data = targetQuery s.data := by
  unfold splitTarget targetPath targetQuery
  split
  · next h =>
    have hall : ∀ c ∈ s.data, decide (c ≠ QUESTION) = true := by
      intro c hc
      refine decide_eq_true ?_
      rintro rfl
      exact indexByte_eq_none.mp h hc
    rw [List.takeWhile_eq_self_iff.mpr hall, List.dropWhile_eq_nil_iff.mpr hall]
    exact ⟨rfl, rfl⟩
  · next q h =>
    obtain ⟨l, r, hs, hl, rfl⟩ := exists_of_indexByte h
    have hall : ∀ c ∈ l, decide (c ≠ QUESTION) = true := by
      intro c hc
      refine decide_eq_true ?_
      rintro rfl
      exact hl hc
    rw [hs, List.takeWhile_append_of_pos hall, List.dropWhile_append_of_pos hall]
    simp [hs, List.drop_append]

theorem parseRequestLine_renderLine (l : RequestLine) (off : ℕ) (req : Request) :
    parseRequestLine ⟨off, l.renderLine⟩ req = .ok (l.apply off req) := by
  have htne : l.target ≠ [] := by
    intro h
    simpa [h] using l.target_slash
  have hsp1 : indexByte l.renderLine SP = some l.method.length :=
    indexByte_append (RequestLine.sp_notMem_of_visible
      (fun c hc => (l.method_upper c hc).visible)) _
  have hpos1 : positive (some l.method.length) = .ok l.method.length :=
    positive_eq_ok.mpr ⟨rfl, fun h => l.method_ne (List.length_eq_zero_iff.mp h)⟩
  have hm : Slice.upTo ⟨off, l.renderLine⟩ l.method.length = ⟨off, l.method⟩ := by
    simp [Slice.upTo, RequestLine.renderLine]
  have hrest : Slice.after ⟨off, l.renderLine⟩ (l.method.length + 1)
      = ⟨off + l.method.length + 1, l.target ++ SP :: versionText l.http11⟩ := by
    simp [Slice.after, RequestLine.renderLine, List.drop_append, Nat.add_assoc]
  have hsp2 : indexByte (l.target ++ SP :: versionText l.http11) SP
      = some l.target.length :=
    indexByte_append (RequestLine.sp_notMem_of_visible l.target_visible) _
  have hpos2 : positive (some l.target.length) = .ok l.target.length :=
    positive_eq_ok.mpr ⟨rfl, fun h => htne (List.length_eq_zero_iff.mp h)⟩
  have ht : Slice.upTo ⟨off + l.method.length + 1, l.target ++ SP :: versionText l.http11⟩
      l.target.length = ⟨off + l.method.length + 1, l.target⟩ := by
    simp [Slice.upTo]
  have hp : (Slice.after
      ⟨off + l.method.length + 1, l.target ++ SP :: versionText l.http11⟩
      (l.target.length + 1)).data = versionText l.http11 := by
    simp [Slice.after, List.drop_append]
  have hmok : validMethod l.method = true :=
    validMethod_iff.mpr ⟨l.method_ne, l.method_upper⟩
  have htok : validOriginFormTarget l.target = true :=
    validOriginFormTarget_iff.mpr ⟨l.target_slash, l.target_visible⟩
  have hpok : validProtocolVersion (versionText l.http11) = true :=
    validProtocolVersion_iff.mpr ⟨_, rfl⟩
  have hv : (versionText l.http11 == ascii "HTTP/1.1") = l.http11 := by
    cases l.http11 <;> decide
  simp only [parseRequestLine, hsp1, hpos1, hm, hrest, hsp2, hpos2, ht, hp, hmok, htok,
    hpok, hv, require, if_true, ok_bind, RequestLine.apply, pure, Except.pure]

theorem exists_of_parseRequestLine {line : Slice} {req req' : Request}
    (h : parseRequestLine line req = .ok req') :
    ∃ l : RequestLine, line.data = l.renderLine := by
  unfold parseRequestLine at h
  obtain ⟨i, hsp1, h⟩ := bind_eq_ok.mp h
  obtain ⟨_, hm, h⟩ := bind_eq_ok.mp h
  obtain ⟨j, hsp2, h⟩ := bind_eq_ok.mp h
  obtain ⟨_, ht, h⟩ := bind_eq_ok.mp h
  obtain ⟨_, hp, -⟩ := bind_eq_ok.mp h
  obtain ⟨method, r, hline, -, rfl⟩ := exists_of_indexByte (positive_eq_ok.mp hsp1).1
  have hafter : (line.after (method.length + 1)).data = r := by
    simp [hline, List.drop_append]
  rw [hafter] at hsp2
  obtain ⟨target, v, hr, -, rfl⟩ := exists_of_indexByte (positive_eq_ok.mp hsp2).1
  have hmd : (line.upTo method.length).data = method := by simp [hline]
  have htd : ((line.after (method.length + 1)).upTo target.length).data = target := by
    rw [Slice.data_upTo, hafter, hr]
    simp
  have hpd : ((line.after (method.length + 1)).after (target.length + 1)).data = v := by
    rw [Slice.data_after, hafter, hr]
    simp [List.drop_append]
  rw [require_eq_ok, hmd] at hm
  rw [require_eq_ok, htd] at ht
  rw [require_eq_ok, hpd] at hp
  obtain ⟨http11, rfl⟩ := validProtocolVersion_iff.mp hp
  obtain ⟨hne, hup⟩ := validMethod_iff.mp hm
  obtain ⟨hslash, hvis⟩ := validOriginFormTarget_iff.mp ht
  exact ⟨⟨method, target, http11, hne, hup, hslash, hvis⟩, by rw [hline, hr]; rfl⟩

/-! ## Blocks -/

structure Block extends RequestLine where
  fields : List Field
  one_host : (named .host fields).length = 1
  clen_le : (named .contentLength fields).length ≤ 1
  clen_ok : ∀ f ∈ named .contentLength fields, (parseDecimalInt64 f.value).isSome
  te_ok : ∀ f ∈ named .transferEncoding fields,
    asciiEqualFold f.value (ascii "identity") = true
  te_clen : named .transferEncoding fields = [] ∨ named .contentLength fields = []

namespace Block

def head (blk : Block) : Bytes :=
  blk.renderLine ++ crlf ++ renderLines blk.fields

def render (blk : Block) : Bytes := blk.head ++ crlf

def start (blk : Block) (req : Request) : Scan :=
  { req := { blk.apply 0 req with keepAlive := blk.http11 } }

def request (blk : Block) (req : Request) : Request :=
  ((blk.start req).pushAll (blk.renderLine.length + 2) blk.fields).req

def lastValue (blk : Block) (k : HeaderName) : Option Bytes :=
  (named k blk.fields).getLast?.map (·.value)

def lastSlot (blk : Block) (k : HeaderName) : Option Slice :=
  lastAt k (fun off f => f.window off) (blk.renderLine.length + 2) blk.fields

theorem data_lastSlot (blk : Block) (k : HeaderName) :
    (blk.lastSlot k).map Slice.data = blk.lastValue k := by
  rw [lastSlot, map_lastAt]
  exact lastAt_eq_getLast k (·.value) _ _

theorem lastSlot_isSome (blk : Block) (k : HeaderName) :
    (blk.lastSlot k).isSome ↔ named k blk.fields ≠ [] :=
  lastAt_isSome k _ _ _

def keepAlive (blk : Block) : Bool :=
  if blk.http11 then (named .connection blk.fields).all (!·.closes)
  else (named .connection blk.fields).getLast?.any (!·.closes)

theorem host_request (blk : Block) (req : Request) :
    (blk.request req).host = (blk.lastSlot .host).getD req.host :=
  Scan.pushAll_last .host Request.host (fun off f => f.window off)
    (fun off st f => by unfold Scan.push; cases hk : f.kind <;> simp) _ _ _

theorem range_request (blk : Block) (req : Request) :
    (blk.request req).range = (blk.lastSlot .range).getD req.range :=
  Scan.pushAll_last .range Request.range (fun off f => f.window off)
    (fun off st f => by unfold Scan.push; cases hk : f.kind <;> simp) _ _ _

theorem auth_request (blk : Block) (req : Request) :
    (blk.request req).auth = (blk.lastSlot .authorization).getD req.auth :=
  Scan.pushAll_last .authorization Request.auth (fun off f => f.window off)
    (fun off st f => by unfold Scan.push; cases hk : f.kind <;> simp) _ _ _

theorem data_getD_lastSlot (blk : Block) (k : HeaderName) (s : Slice) :
    ((blk.lastSlot k).getD s).data = (blk.lastValue k).getD s.data := by
  rw [← data_lastSlot, Option.getD_map]

def lastLength (blk : Block) : Option ℤ :=
  (named .contentLength blk.fields).getLast?.map
    (fun f => (parseDecimalInt64 f.value).getD 0)

theorem contentLen_request (blk : Block) (req : Request) :
    (blk.request req).contentLen = blk.lastLength.getD req.contentLen := by
  rw [lastLength, ← lastAt_eq_getLast _ _ (blk.renderLine.length + 2)]
  exact Scan.pushAll_last .contentLength Request.contentLen _
    (fun off st f => by unfold Scan.push; cases hk : f.kind <;> simp) _ _ _

def targetWindow (blk : Block) : Slice := ⟨blk.method.length + 1, blk.target⟩

theorem request_frame (blk : Block) (req : Request) :
    (blk.request req).method = ⟨0, blk.method⟩
      ∧ (blk.request req).requestURI = blk.targetWindow
      ∧ (blk.request req).path = (splitTarget blk.targetWindow).1
      ∧ (blk.request req).query = (splitTarget blk.targetWindow).2
      ∧ (blk.request req).raw = req.raw
      ∧ (blk.request req).http11 = blk.http11 := by
  obtain ⟨h1, h2, h3, h4, h5, h6⟩ :=
    (blk.start req).pushAll_frame (blk.renderLine.length + 2) blk.fields
  have hw : (⟨0 + blk.method.length + 1, blk.target⟩ : Slice) = blk.targetWindow := by
    rw [targetWindow, Nat.zero_add]
  refine ⟨h1, h2.trans hw, h3.trans ?_, h4.trans ?_, h5, h6⟩
  · rw [← hw]
    rfl
  · rw [← hw]
    rfl

theorem keepAlive_pushAll (off : ℕ) (st : Scan) (fs : List Field) :
    (st.pushAll off fs).req.keepAlive
      = if st.req.http11 then st.req.keepAlive && (named .connection fs).all (!·.closes)
        else ((named .connection fs).getLast?.map (!·.closes)).getD st.req.keepAlive := by
  induction fs generalizing off st with
  | nil => simp [Scan.pushAll, named]
  | cons f fs ih =>
    rw [Scan.pushAll, ih, (st.push_frame off f).2.2.2.2.2]
    by_cases hf : f.kind = .connection
    · have hk : (st.push off f).req.keepAlive
          = connectionKeepAlive st.req.http11 st.req.keepAlive f.value := by
        rw [Scan.push, hf]
      rw [hk, named_cons, if_pos hf, List.all_cons, List.getLast?_cons,
        connectionKeepAlive, ← Field.closes]
      cases st.req.http11 <;> cases hc : f.closes <;>
        cases (named .connection fs).getLast? <;> simp [hc]
    · have hk : (st.push off f).req.keepAlive = st.req.keepAlive := by
        unfold Scan.push
        cases hf' : f.kind <;> simp_all
      rw [hk, named_cons, if_neg hf]

theorem keepAlive_request (blk : Block) (req : Request) :
    (blk.request req).keepAlive = blk.keepAlive := by
  rw [request, keepAlive_pushAll]
  unfold keepAlive start RequestLine.apply
  cases blk.http11 with
  | true => simp
  | false => cases (named .connection blk.fields).getLast? <;> simp

end Block

/-! ## The shared part of the two parsers -/

theorem compatible_start {st : Scan} {fs : List Field} (hH : st.seenHost = false)
    (hC : st.seenCL = false) (h : st.Compatible fs) :
    (named .host fs).length ≤ 1 ∧ (named .contentLength fs).length ≤ 1 :=
  ⟨by simpa [hH] using h.host, by simpa [hC] using h.clen⟩

theorem parseBlock_head (blk : Block) {tail : Bytes} (htail : AtEnd tail)
    (req : Request) :
    parseBlock ⟨0, blk.head ++ tail⟩ req = (.ok (), blk.request req) := by
  have hidx : index crlf (blk.head ++ tail) = some blk.renderLine.length := by
    rw [Block.head, List.append_assoc]
    exact index_crlf_append (cr_notMem_of_text blk.renderLine_text) _
  have hup : Slice.upTo ⟨0, blk.head ++ tail⟩ blk.renderLine.length
      = ⟨0, blk.renderLine⟩ := by
    simp [Slice.upTo, Block.head]
  have hafter : Slice.after ⟨0, blk.head ++ tail⟩ (blk.renderLine.length + 2)
      = ⟨blk.renderLine.length + 2, renderLines blk.fields ++ tail⟩ := by
    simp [Slice.after, Block.head, List.drop_append]
  have hcompat : (blk.start req).Compatible blk.fields :=
    ⟨by simp [Block.start, blk.one_host], by simpa [Block.start] using blk.clen_le,
      blk.clen_ok, blk.te_ok⟩
  have hadm : (blk.start req).AdmitsAll (blk.renderLine.length + 2) blk.fields :=
    Scan.admitsAll_iff.mpr hcompat
  have hloop := headerLoop_renderLines hadm htail le_rfl
  have hhost : ((blk.start req).pushAll (blk.renderLine.length + 2)
      blk.fields).seenHost = true := by
    rw [Scan.seenHost_pushAll]
    have : named .host blk.fields ≠ [] := by
      intro h0
      simpa [h0] using blk.one_host
    simp [this]
  have hte : (((blk.start req).pushAll (blk.renderLine.length + 2) blk.fields).seenTE
      && ((blk.start req).pushAll (blk.renderLine.length + 2) blk.fields).seenCL)
      = false := by
    rw [Scan.seenTE_pushAll, Scan.seenCL_pushAll]
    rcases blk.te_clen with h0 | h0 <;> simp [h0, Block.start]
  simp only [parseBlock, hidx, hup, parseRequestLine_renderLine, hafter, parseHeaders]
  rw [show ({ req := { blk.apply 0 req with keepAlive := (blk.apply 0 req).http11 } } : Scan)
    = blk.start req from rfl, hloop]
  simp only [hte, hhost, Bool.not_true, if_false, Bool.false_eq_true, Block.request]

theorem exists_of_parseBlock {b : Bytes} {req req' : Request}
    (h : parseBlock ⟨0, b⟩ req = (.ok (), req')) :
    ∃ (blk : Block) (tail : Bytes), b = blk.head ++ tail ∧ AtEnd tail
      ∧ req' = blk.request req := by
  unfold parseBlock at h
  split at h
  · simp at h
  · next e hidx =>
    split at h
    · simp at h
    · next req₁ hline =>
      obtain ⟨l, hl⟩ := exists_of_parseRequestLine hline
      obtain ⟨x, r, hb, hx, -⟩ := exists_of_index hidx
      simp only at hb
      have hxl : x = l.renderLine := by
        rw [← hl, Slice.data_upTo, hb, ← hx]
        simp
      subst hxl hx hb
      have hup : Slice.upTo ⟨0, l.renderLine ++ crlf ++ r⟩ l.renderLine.length
          = ⟨0, l.renderLine⟩ := by
        simp [Slice.upTo]
      have hafter : Slice.after ⟨0, l.renderLine ++ crlf ++ r⟩ (l.renderLine.length + 2)
          = ⟨l.renderLine.length + 2, r⟩ := by
        simp [Slice.after, List.drop_append]
      rw [hup, parseRequestLine_renderLine] at hline
      obtain rfl := Except.ok.inj hline
      rw [hafter] at h
      unfold parseHeaders at h
      split at h
      · simp at h
      · next st hloop =>
        obtain ⟨fs, tail, hr, htail, hadm, rfl⟩ := exists_of_headerLoop hloop
        split at h
        · simp at h
        next hteCL =>
        split at h
        · simp at h
        next hnoHost =>
        have hcompat := Scan.admitsAll_iff.mp hadm
        obtain ⟨hhost, hclen⟩ := compatible_start rfl rfl hcompat
        rw [Scan.seenTE_pushAll, Scan.seenCL_pushAll] at hteCL
        rw [Scan.seenHost_pushAll] at hnoHost
        have hone : (named .host fs).length = 1 := by
          have : named .host fs ≠ [] := by
            intro h0
            simp [h0] at hnoHost
          have := List.length_pos_of_ne_nil this
          omega
        have hexcl : named .transferEncoding fs = [] ∨ named .contentLength fs = [] := by
          by_contra hno
          rw [not_or] at hno
          simp [hno.1, hno.2] at hteCL
        refine ⟨⟨l, fs, hone, hclen, hcompat.clen_ok, hcompat.te_ok, hexcl⟩, tail, ?_,
          htail, (Prod.mk.inj h).2.symm⟩
        simp only at hr
        simp [Block.head, hr]

end Coreserver
