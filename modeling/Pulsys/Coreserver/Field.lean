import Pulsys.Coreserver.Request

/-!
# Header lines and their grammar

A `Field` is a token, a colon, and a value between blanks, without a control byte but the
tab. The line reader accepts the texts of fields and nothing else, and the loop over the
lines admits each or not by the ones before it.
-/

namespace Coreserver

open Bytes

/-! ## Bytes -/

def TextByte (c : UInt8) : Prop := c = HT ∨ (0x20 ≤ c ∧ c ≠ 0x7f)

def delimiters : Bytes := ascii "\"(),/:;<=>?@[\\]\x7b\x7d"

def TokenByte (c : UInt8) : Prop := 0x21 ≤ c ∧ c ≤ 0x7e ∧ c ∉ delimiters

def UpperByte (c : UInt8) : Prop := 65 ≤ c ∧ c ≤ 90

def VisibleByte (c : UInt8) : Prop := 0x21 ≤ c ∧ c ≤ 0x7e

instance : DecidablePred TextByte := fun c =>
  inferInstanceAs (Decidable (c = HT ∨ (0x20 ≤ c ∧ c ≠ 0x7f)))

instance : DecidablePred TokenByte := fun c =>
  inferInstanceAs (Decidable (0x21 ≤ c ∧ c ≤ 0x7e ∧ c ∉ delimiters))

instance : DecidablePred UpperByte := fun c => inferInstanceAs (Decidable (65 ≤ c ∧ c ≤ 90))

instance : DecidablePred VisibleByte := fun c =>
  inferInstanceAs (Decidable (0x21 ≤ c ∧ c ≤ 0x7e))

def Trimmed (b : Bytes) : Prop :=
  (∀ c, b.head? = some c → isBlank c = false)
    ∧ ∀ c, b.getLast? = some c → isBlank c = false

theorem nil_blank : ∀ c ∈ ([] : Bytes), isBlank c = true := List.forall_mem_nil _

variable {b : Bytes} {c : UInt8} {st st' : Scan}

theorem trimmed_of_ends (hhead : b.head?.all (fun c => !isBlank c) = true)
    (hlast : b.getLast?.all (fun c => !isBlank c) = true) : Trimmed b := by
  constructor
  · intro c hc
    rw [hc] at hhead
    simpa using hhead
  · intro c hc
    rw [hc] at hlast
    simpa using hlast

theorem textByte_iff : (isBlank c || (0x21 ≤ c && c ≤ 0x7e) || 0x80 ≤ c) = true ↔ TextByte c := by
  simp only [isBlank, TextByte, SP, HT, Bool.or_eq_true, Bool.and_eq_true, beq_iff_eq,
    decide_eq_true_eq, UInt8.le_iff_toNat_le, ← UInt8.toNat_inj, Ne,
    UInt8.reduceToNat]
  omega

theorem isTchar_iff : isTchar c = true ↔ TokenByte c := by
  have h : ∀ n : Fin 256, isTchar (UInt8.ofFin n) = true ↔
      0x21 ≤ UInt8.ofFin n ∧ UInt8.ofFin n ≤ 0x7e
        ∧ UInt8.ofFin n ∉ delimiters := by
    decide +kernel
  exact h c.toFin

theorem validHeaderValue_iff : validHeaderValue b = true ↔ ∀ c ∈ b, TextByte c := by
  rw [validHeaderValue, List.all_eq_true]
  exact forall₂_congr (fun _ _ => textByte_iff)

theorem validHeaderName_iff : validHeaderName b = true ↔ b ≠ [] ∧ ∀ c ∈ b, TokenByte c := by
  simp only [validHeaderName, Bool.and_eq_true, Bool.not_eq_true',
    List.isEmpty_eq_false_iff, List.all_eq_true, isTchar_iff, ne_eq]

theorem validMethod_iff : validMethod b = true ↔ b ≠ [] ∧ ∀ c ∈ b, UpperByte c := by
  simp only [validMethod, Bool.and_eq_true, Bool.not_eq_true',
    List.isEmpty_eq_false_iff, List.all_eq_true, UpperByte, decide_eq_true_eq, ne_eq]

theorem validOriginFormTarget_iff :
    validOriginFormTarget b = true ↔ b.head? = some SLASH ∧ ∀ c ∈ b, VisibleByte c := by
  simp only [validOriginFormTarget, Bool.and_eq_true, beq_iff_eq, List.all_eq_true,
    VisibleByte, decide_eq_true_eq]

def versionText (http11 : Bool) : Bytes :=
  if http11 then ascii "HTTP/1.1" else ascii "HTTP/1.0"

theorem validProtocolVersion_iff : validProtocolVersion b = true ↔ ∃ v, b = versionText v := by
  constructor
  · intro h
    simp only [validProtocolVersion, Bool.and_eq_true, Bool.or_eq_true, beq_iff_eq,
      List.isPrefixOf_iff_prefix] at h
    obtain ⟨⟨⟨⟨hlen, t, rfl⟩, h5⟩, h6⟩, h7⟩ := h
    obtain ⟨x, y, z, rfl⟩ : ∃ x y z, t = [x, y, z] := by
      rw [← List.length_eq_three]
      have : (ascii "HTTP/").length = 5 := by decide
      rw [List.length_append] at hlen
      omega
    have hx : x = 49 := by simpa [ascii] using h5
    have hy : y = 46 := by simpa [ascii] using h6
    have hz : z = 48 ∨ z = 49 := by simpa [ascii] using h7
    subst hx hy
    rcases hz with rfl | rfl
    · exact ⟨false, by decide⟩
    · exact ⟨true, by decide⟩
  · rintro ⟨v, rfl⟩
    cases v <;> decide

/-! Text bytes include all the others, and text bytes are never a part of a
line end. -/

theorem TokenByte.text (h : TokenByte c) : TextByte c := by
  refine .inr ⟨le_trans (b := 0x21) (by decide) h.1, ?_⟩
  rintro rfl
  exact absurd h.2.1 (by decide)

theorem VisibleByte.text (h : VisibleByte c) : TextByte c := by
  refine .inr ⟨le_trans (b := 0x21) (by decide) h.1, ?_⟩
  rintro rfl
  exact absurd h.2 (by decide)

theorem UpperByte.visible (h : UpperByte c) : VisibleByte c :=
  ⟨le_trans (b := 65) (by decide) h.1, le_trans (b := 90) h.2 (by decide)⟩

theorem isBlank_iff : isBlank c = true ↔ c = SP ∨ c = HT := by
  simp [isBlank]

theorem text_of_isBlank (h : isBlank c = true) : TextByte c := by
  rcases isBlank_iff.mp h with rfl | rfl
  · exact .inr ⟨by decide, by decide⟩
  · exact .inl rfl

theorem cr_notMem_of_text (h : ∀ c ∈ b, TextByte c) : CR ∉ b :=
  fun hc => absurd (h CR hc) (by unfold TextByte; decide)

theorem lf_notMem_of_text (h : ∀ c ∈ b, TextByte c) : LF ∉ b :=
  fun hc => absurd (h LF hc) (by unfold TextByte; decide)

/-! ## Running a check

A parse is a chain of checks, and a chain that succeeds is one in which every
check did. -/

theorem bind_eq_ok {α β : Type} {x : Except ParseErr α} {f : α → Except ParseErr β}
    {r : β} : (x >>= f) = .ok r ↔ ∃ a, x = .ok a ∧ f a = .ok r := by
  cases x with
  | error e => simp [bind, Except.bind]
  | ok a => simp [bind, Except.bind]

theorem ok_bind {α β : Type} (a : α) (f : α → Except ParseErr β) :
    ((Except.ok a : Except ParseErr α) >>= f) = f a := rfl

theorem require_eq_ok {c : Bool} {e : ParseErr} {u : Unit} :
    require c e = .ok u ↔ c = true := by
  unfold require
  split <;> simp [*]

theorem positive_eq_ok {o : Option ℕ} {i : ℕ} :
    positive o = .ok i ↔ o = some i ∧ i ≠ 0 := by
  unfold positive
  split
  · next j => simp; omega
  · next h =>
    simp only [reduceCtorEq, false_iff, not_and, Decidable.not_not]
    rintro rfl
    cases i with
    | zero => rfl
    | succ i => exact absurd rfl (h i)

/-! ## Header lines -/

structure Field where
  name : Bytes
  lead : Bytes
  value : Bytes
  trail : Bytes
  name_ne : name ≠ []
  name_token : ∀ c ∈ name, TokenByte c
  lead_blank : ∀ c ∈ lead, isBlank c = true
  trail_blank : ∀ c ∈ trail, isBlank c = true
  value_text : ∀ c ∈ value, TextByte c
  value_trimmed : Trimmed value
  trail_nil : value = [] → trail = []

namespace Field

def render (f : Field) : Bytes :=
  f.name ++ COLON :: (f.lead ++ (f.value ++ f.trail))

def valueOff (f : Field) : ℕ := f.name.length + 1 + f.lead.length

def window (f : Field) (off : ℕ) : Slice := ⟨off + f.valueOff, f.value⟩

theorem colon_notMem_name (f : Field) : COLON ∉ f.name :=
  fun h => absurd (f.name_token COLON h).2.2 (by decide)

theorem render_ne_nil (f : Field) : f.render ≠ [] := by
  simp [render]

theorem render_text (f : Field) : ∀ c ∈ f.render, TextByte c := by
  intro c hc
  simp only [render, List.mem_append, List.mem_cons] at hc
  rcases hc with hc | rfl | hc | hc | hc
  · exact (f.name_token c hc).text
  · exact .inr ⟨by decide, by decide⟩
  · exact text_of_isBlank (f.lead_blank c hc)
  · exact f.value_text c hc
  · exact text_of_isBlank (f.trail_blank c hc)

theorem head_render_not_blank (f : Field) : f.render.head?.any isBlank = false := by
  obtain ⟨c, t, hn⟩ := List.exists_cons_of_ne_nil f.name_ne
  have hc : TokenByte c := f.name_token c (by simp [hn])
  rw [render, hn, List.cons_append, List.head?_cons, Option.any_some]
  by_contra hb
  rcases isBlank_iff.mp (by simpa using hb) with rfl | rfl
  · exact absurd hc.1 (by decide)
  · exact absurd hc.1 (by decide)

end Field

theorem dropWhile_lead {l : Bytes} (hl : ∀ c ∈ l, isBlank c = true)
    (hb : ∀ c, b.head? = some c → isBlank c = false) :
    (l ++ b).dropWhile isBlank = b ∧ (l ++ b).takeWhile isBlank = l := by
  have hd : b.dropWhile isBlank = b ∧ b.takeWhile isBlank = [] := by
    cases b with
    | nil => simp
    | cons a b => simp [hb a rfl]
  rw [List.dropWhile_append_of_pos hl, List.takeWhile_append_of_pos hl, hd.1, hd.2,
    List.append_nil]
  exact ⟨rfl, rfl⟩

theorem rdropWhile_trail {t : Bytes} (ht : ∀ c ∈ t, isBlank c = true)
    (hb : ∀ c, b.getLast? = some c → isBlank c = false) : (b ++ t).rdropWhile isBlank = b := by
  rw [List.rdropWhile, List.reverse_append]
  have h := dropWhile_lead (l := t.reverse) (b := b.reverse)
    (fun c hc => ht c (List.mem_reverse.mp hc))
    (fun c hc => hb c (by rwa [List.head?_reverse] at hc))
  rw [h.1, List.reverse_reverse]

theorem trimSpace_field (f : Field) (off : ℕ) :
    trimSpace ⟨off, f.lead ++ (f.value ++ f.trail)⟩ = ⟨off + f.lead.length, f.value⟩ := by
  have hhead : ∀ c, (f.value ++ f.trail).head? = some c → isBlank c = false := by
    intro c hc
    cases hv : f.value with
    | nil => simp [hv, f.trail_nil hv] at hc
    | cons a v =>
      rw [hv, List.cons_append, List.head?_cons] at hc
      exact f.value_trimmed.1 c (by rw [hv, List.head?_cons, hc])
  obtain ⟨h1, h2⟩ := dropWhile_lead f.lead_blank hhead
  simp only [trimSpace, h1, h2, rdropWhile_trail f.trail_blank f.value_trimmed.2]

theorem Field.render_injective {f f' : Field} (h : f.render = f'.render) : f = f' := by
  obtain ⟨hname, hrest⟩ := cut_unique f.colon_notMem_name f'.colon_notMem_name h
  have htrim := trimSpace_field f 0
  rw [hrest, trimSpace_field f' 0, Slice.mk.injEq] at htrim
  have hlead : f.lead.length = f'.lead.length := by omega
  obtain ⟨hl, hvt⟩ := List.append_inj hrest hlead
  have htrail : f.trail = f'.trail := by
    rw [htrim.2] at hvt
    exact List.append_cancel_left hvt
  cases f
  cases f'
  simp only at hname hl htrail htrim
  simp [hname, hl, htrail, htrim.2]

theorem exists_trimmed (b : Bytes) :
    ∃ lead value trail, b = lead ++ (value ++ trail)
      ∧ (∀ c ∈ lead, isBlank c = true) ∧ (∀ c ∈ trail, isBlank c = true)
      ∧ Trimmed value ∧ (value = [] → trail = [])
      ∧ ∀ off, (trimSpace ⟨off, b⟩).data = value := by
  set r := b.dropWhile isBlank with hr
  refine ⟨b.takeWhile isBlank, r.rdropWhile isBlank, r.rtakeWhile isBlank, ?_, ?_, ?_,
    ⟨?_, ?_⟩, ?_, fun _ => rfl⟩
  · rw [List.rdropWhile_append_rtakeWhile, hr, List.takeWhile_append_dropWhile]
  · exact fun c hc => List.mem_takeWhile_imp hc
  · exact fun c hc => List.mem_rtakeWhile_imp hc
  · intro c hc
    have hpre : r.rdropWhile isBlank <+: r := List.rdropWhile_prefix _ _
    obtain ⟨t, ht⟩ := hpre
    have hrc : r.head? = some c := by
      rw [← ht, List.head?_append, hc]
      rfl
    have := List.head?_dropWhile_not isBlank b
    rw [← hr, hrc] at this
    simpa using this
  · intro c hc
    have hne : r.rdropWhile isBlank ≠ [] := by
      intro h0
      simp [h0] at hc
    have hlast := List.rdropWhile_last_not isBlank r hne
    rw [List.getLast?_eq_some_getLast hne, Option.some.injEq] at hc
    rw [hc] at hlast
    simpa using hlast
  · intro h0
    -- a text of blanks alone has nothing left when its front is trimmed
    have hall := List.rdropWhile_eq_nil_iff.mp h0
    have hnil : r = [] := by
      cases hrc : r with
      | nil => rfl
      | cons a t =>
        have := List.head?_dropWhile_not isBlank b
        rw [← hr, hrc] at this
        have ha : isBlank a = true := hall a (by simp [hrc])
        simp [ha] at this
    simp [hnil]

theorem headerLine_render (f : Field) (off : ℕ) (st : Scan) :
    headerLine ⟨off, f.render⟩ st
      = setHeader f.name (f.window off) st := by
  have hcolon : indexByte f.render COLON = some f.name.length :=
    indexByte_append f.colon_notMem_name _
  have hpos : positive (some f.name.length) = .ok f.name.length :=
    positive_eq_ok.mpr ⟨rfl, fun h => f.name_ne (List.length_eq_zero_iff.mp h)⟩
  have hname : (Slice.upTo ⟨off, f.render⟩ f.name.length).data = f.name := by
    simp [Slice.upTo, Field.render]
  have hval : trimSpace (Slice.after ⟨off, f.render⟩ (f.name.length + 1))
      = f.window off := by
    have : (Slice.after ⟨off, f.render⟩ (f.name.length + 1))
        = ⟨off + (f.name.length + 1), f.lead ++ (f.value ++ f.trail)⟩ := by
      simp [Slice.after, Field.render, List.drop_append]
    rw [this, trimSpace_field, Field.window, Field.valueOff]
    congr 1
    omega
  have hok : validHeaderName f.name = true :=
    validHeaderName_iff.mpr ⟨f.name_ne, f.name_token⟩
  have hvok : validHeaderValue (f.window off).data = true :=
    validHeaderValue_iff.mpr f.value_text
  simp only [headerLine, f.head_render_not_blank, hcolon, hpos, hname, hval, hok, hvok,
    require, Bool.not_false, if_true, ok_bind]

theorem exists_field_of_headerLine {line : Slice} (h : headerLine line st = .ok st') :
    ∃ f : Field, line.data = f.render := by
  unfold headerLine at h
  obtain ⟨_, -, h⟩ := bind_eq_ok.mp h
  obtain ⟨colon, hcolon, h⟩ := bind_eq_ok.mp h
  obtain ⟨_, hname, h⟩ := bind_eq_ok.mp h
  obtain ⟨_, hval, -⟩ := bind_eq_ok.mp h
  obtain ⟨hidx, hpos⟩ := positive_eq_ok.mp hcolon
  obtain ⟨name, r, hline, -, rfl⟩ := exists_of_indexByte hidx
  obtain ⟨lead, value, trail, hr, hlead, htrail, htrim, hnil, htv⟩ := exists_trimmed r
  have hup : (line.upTo name.length).data = name := by simp [hline]
  have hafter : line.after (name.length + 1) = ⟨line.off + (name.length + 1), r⟩ := by
    simp [Slice.after, hline, List.drop_append]
  rw [require_eq_ok, hup] at hname
  obtain ⟨hne, htok⟩ := validHeaderName_iff.mp hname
  rw [require_eq_ok, hafter, htv] at hval
  exact ⟨⟨name, lead, value, trail, hne, htok, hlead, htrail,
    validHeaderValue_iff.mp hval, htrim, hnil⟩, by rw [hline, hr, Field.render]⟩

/-! ## The table of known headers -/

inductive HeaderName
  | host | range | authorization | contentLength | transferEncoding | connection
  | other
  deriving DecidableEq, Repr

def headerName (name : Bytes) : HeaderName :=
  if name.map asciiLower = hostHdr then .host
  else if name.map asciiLower = rangeHdr then .range
  else if name.map asciiLower = authHdr then .authorization
  else if name.map asciiLower = clenHdr then .contentLength
  else if name.map asciiLower = teHdr then .transferEncoding
  else if name.map asciiLower = connHdr then .connection
  else .other

def Field.kind (f : Field) : HeaderName := headerName f.name

def named (k : HeaderName) (fs : List Field) : List Field :=
  fs.filter (·.kind = k)

def Field.closes (f : Field) : Bool := asciiContainsTokenFold f.value (ascii "close")

namespace Scan

def Admits (st : Scan) (f : Field) : Prop :=
  match f.kind with
  | .host => st.seenHost = false
  | .contentLength => st.seenCL = false ∧ (parseDecimalInt64 f.value).isSome
  | .transferEncoding => asciiEqualFold f.value (ascii "identity") = true
  | _ => True

def push (off : ℕ) (st : Scan) (f : Field) : Scan :=
  match f.kind with
  | .host => { st with
      seenHost := true, req := { st.req with host := f.window off } }
  | .range => { st with req := { st.req with range := f.window off } }
  | .authorization =>
    { st with req := { st.req with auth := f.window off } }
  | .contentLength => { st with
      seenCL := true
      req := { st.req with contentLen := (parseDecimalInt64 f.value).getD 0 } }
  | .transferEncoding => { st with seenTE := true }
  | .connection => { st with req := { st.req with
      keepAlive := connectionKeepAlive st.req.http11 st.req.keepAlive f.value } }
  | .other => st

end Scan

theorem setHeader_eq_ok {f : Field} {off : ℕ} :
    setHeader f.name (f.window off) st = .ok st' ↔ st.Admits f ∧ st' = st.push off f := by
  unfold Scan.Admits Scan.push Field.kind headerName setHeader Field.window
  simp only [asciiEqualFold, beq_iff_eq]
  split
  · cases st.seenHost <;> simp [eq_comm]
  split
  · simp [eq_comm]
  split
  · simp [eq_comm]
  split
  · cases st.seenCL with
    | true => simp
    | false => cases hcl : parseDecimalInt64 f.value <;> simp [eq_comm]
  split
  · by_cases hid : f.value.map asciiLower = ascii "identity" <;> simp [hid, eq_comm]
  split
  · simp [eq_comm]
  · simp [eq_comm]

/-! ## The loop over the lines -/

def renderLines : List Field → Bytes
  | [] => []
  | f :: fs => f.render ++ crlf ++ renderLines fs

theorem renderLines_injective {fs fs' : List Field} {t t' : Bytes}
    (h : renderLines fs ++ (crlf ++ t) = renderLines fs' ++ (crlf ++ t')) :
    fs = fs' ∧ t = t' := by
  induction fs generalizing fs' with
  | nil =>
    cases fs' with
    | nil => exact ⟨rfl, by simpa [renderLines] using h⟩
    | cons f' fs' =>
      have hcut : [] ++ CR :: (LF :: t)
          = f'.render ++ CR :: (LF :: (renderLines fs' ++ (crlf ++ t'))) := by
        simpa [renderLines] using h
      exact absurd (cut_unique (by simp) (cr_notMem_of_text f'.render_text) hcut).1.symm
        f'.render_ne_nil
  | cons f fs ih =>
    cases fs' with
    | nil =>
      have hcut : f.render ++ CR :: (LF :: (renderLines fs ++ (crlf ++ t)))
          = [] ++ CR :: (LF :: t') := by
        simpa [renderLines] using h
      exact absurd (cut_unique (cr_notMem_of_text f.render_text) (by simp) hcut).1
        f.render_ne_nil
    | cons f' fs' =>
      have hcut : f.render ++ CR :: (LF :: (renderLines fs ++ (crlf ++ t)))
          = f'.render ++ CR :: (LF :: (renderLines fs' ++ (crlf ++ t'))) := by
        simpa [renderLines] using h
      obtain ⟨hline, hrest⟩ := cut_unique (cr_notMem_of_text f.render_text)
        (cr_notMem_of_text f'.render_text) hcut
      obtain ⟨hfs, ht⟩ := ih (List.cons.inj hrest).2
      exact ⟨by rw [Field.render_injective hline, hfs], ht⟩

def Scan.pushAll : ℕ → Scan → List Field → Scan
  | _, st, [] => st
  | off, st, f :: fs => pushAll (off + f.render.length + 2) (st.push off f) fs

def Scan.AdmitsAll : ℕ → Scan → List Field → Prop
  | _, _, [] => True
  | off, st, f :: fs =>
    st.Admits f ∧ AdmitsAll (off + f.render.length + 2) (st.push off f) fs

def AtEnd (tail : Bytes) : Prop := tail = [] ∨ crlf <+: tail

theorem headerLoop_cons (f : Field) (n off : ℕ) (b : Bytes) (st : Scan) :
    headerLoop (n + 1) ⟨off, f.render ++ crlf ++ b⟩ st
      = match setHeader f.name (f.window off) st with
        | .error err => (.error err, st)
        | .ok st' => headerLoop n ⟨off + f.render.length + 2, b⟩ st' := by
  have hidx := index_crlf_append (cr_notMem_of_text f.render_text) b
  obtain ⟨k, hk⟩ : ∃ k, f.render.length = k + 1 :=
    Nat.exists_eq_succ_of_ne_zero (fun h => f.render_ne_nil (List.length_eq_zero_iff.mp h))
  have hup : Slice.upTo ⟨off, f.render ++ crlf ++ b⟩ (k + 1) = ⟨off, f.render⟩ := by
    simp [Slice.upTo, ← hk]
  have hafter : Slice.after ⟨off, f.render ++ crlf ++ b⟩ (k + 3)
      = ⟨off + f.render.length + 2, b⟩ := by
    rw [Slice.after, hk, List.drop_append, List.drop_eq_nil_of_le (by simp [hk])]
    simp [hk]
    omega
  rw [hk] at hidx
  rw [headerLoop, if_neg (by simp [f.render_ne_nil]), hidx]
  simp only [hup, hafter, headerLine_render]
  -- what is left, if anything, is the statement's own case distinction
  all_goals rfl

theorem headerLoop_renderLines {fs : List Field} {n off : ℕ} {tail : Bytes}
    (hadm : st.AdmitsAll off fs) (htail : AtEnd tail) (hn : (renderLines fs ++ tail).length ≤ n) :
    headerLoop n ⟨off, renderLines fs ++ tail⟩ st = (.ok (), st.pushAll off fs) := by
  induction fs generalizing n off st with
  | nil =>
    rcases htail with rfl | hp
    · cases n <;> simp [headerLoop, renderLines, Scan.pushAll, require]
    · have hne : tail ≠ [] := by
        rintro rfl
        simp at hp
      cases n with
      | zero =>
        have := List.length_pos_of_ne_nil hne
        simp [renderLines] at hn
        contradiction
      | succ n =>
        simp [headerLoop, renderLines, Scan.pushAll, hne, index_eq_zero hp]
  | cons f fs ih =>
    cases n with
    | zero => simp [renderLines, f.render_ne_nil] at hn
    | succ n =>
      have hset : setHeader f.name (f.window off) st = .ok (st.push off f) :=
        setHeader_eq_ok.mpr ⟨hadm.1, rfl⟩
      rw [renderLines, List.append_assoc, headerLoop_cons, hset, Scan.pushAll]
      refine ih hadm.2 ?_
      simp only [renderLines, List.length_append] at hn ⊢
      have : crlf.length = 2 := rfl
      omega

theorem exists_of_headerLoop {n : ℕ} {hdr : Slice} (h : headerLoop n hdr st = (.ok (), st')) :
    ∃ fs tail, hdr.data = renderLines fs ++ tail ∧ AtEnd tail
      ∧ st.AdmitsAll hdr.off fs ∧ st' = st.pushAll hdr.off fs := by
  induction n generalizing hdr st with
  | zero =>
    simp only [headerLoop, Prod.mk.injEq, require_eq_ok, List.isEmpty_iff] at h
    exact ⟨[], [], by simp [h.1, renderLines], .inl rfl, trivial, h.2.symm⟩
  | succ n ih =>
    rw [headerLoop] at h
    split at h
    · next hnil =>
      exact ⟨[], [], by simp [hnil, renderLines], .inl rfl, trivial,
        (Prod.mk.inj h).2.symm⟩
    split at h
    · simp at h
    · next hidx =>
      obtain ⟨l, r, hb, hl, -⟩ := exists_of_index hidx
      obtain rfl := List.length_eq_zero_iff.mp hl
      exact ⟨[], hdr.data, by simp [renderLines], .inr ⟨r, by simp [hb]⟩, trivial,
        (Prod.mk.inj h).2.symm⟩
    · next e hidx =>
      split at h
      · simp at h
      · next st₁ hline =>
        obtain ⟨f, hf⟩ := exists_field_of_headerLine hline
        obtain ⟨l, r, hb, hl, -⟩ := exists_of_index hidx
        rw [Nat.succ_eq_add_one] at hl
        have hup : hdr.upTo (e + 1) = ⟨hdr.off, f.render⟩ := by
          rw [← hf]
          rfl
        have hlf : l = f.render := by
          rw [← hf, Slice.data_upTo, hb, ← hl]
          simp
        have hafter : hdr.after (e + 3) = ⟨hdr.off + f.render.length + 2, r⟩ := by
          rw [Slice.after, hb, ← hlf, hl]
          congr 1
          rw [List.drop_append, List.drop_eq_nil_of_le (by simp [hl])]
          simp [hl]
        rw [hup, headerLine_render] at hline
        obtain ⟨hadm, rfl⟩ := setHeader_eq_ok.mp hline
        rw [hafter] at h
        obtain ⟨fs, tail, hr, htail, hall, rfl⟩ := ih h
        simp only at hr
        exact ⟨f :: fs, tail, by rw [hb, hlf, hr, renderLines]; simp, htail,
          ⟨hadm, hall⟩, rfl⟩

end Coreserver
