import Pulsys.Coreserver.WarmHead

/-!
# The two renderers of a warm head

The head is rendered for the connection's writer and for a scratch buffer of 512 bytes,
which drops what does not fit. The code is taken over once (`HeadSink`) and compared with
the text (`warmHead200`, `warmHead206`): the two agree exactly if it fits.
-/

namespace Coreserver

open Bytes Bufio

structure HeadSink (σ : Type) where
  writeString : σ → Bytes → σ
  writeByte : σ → UInt8 → σ

namespace HeadSink

variable {σ : Type} (k : HeadSink σ)

def writeUint (w : σ) (v : UInt64) : σ :=
  k.writeByte (if 10 ≤ v then writeUint w (v / 10) else w) (48 + v % 10).toUInt8
termination_by v.toNat
decreasing_by
  next hv =>
  have hle : 10 ≤ v.toNat := UInt64.le_iff_toNat_le.mp hv
  rw [UInt64.toNat_div]
  exact Nat.div_lt_self (by omega) (by decide)

def writeInt (w : σ) (v : Int64) : σ :=
  if v < 0 then k.writeUint (k.writeByte w 45) (-v).toUInt64 else k.writeUint w v.toUInt64

def writeLine (w : σ) (name value : Bytes) : σ :=
  if value ≠ [] then
    let w := k.writeString w name
    let w := k.writeString w value
    k.writeString w (ascii "\r\n")
  else w

def writeContentMeta (w : σ) (m : Cache.Meta) : σ :=
  let w := k.writeLine w (ascii "Content-Type: ") m.contentType
  k.writeLine w (ascii "ETag: ") m.eTag

def writeContentLength (w : σ) (n : Int64) : σ :=
  let w := k.writeString w (ascii "Content-Length: ")
  let w := k.writeInt w n
  k.writeString w (ascii "\r\n")

def writeConnection (w : σ) (keepAlive : Bool) : σ :=
  if keepAlive then k.writeString w (ascii "Connection: keep-alive\r\n")
  else k.writeString w (ascii "Connection: close\r\n")

def writeWarmHead200 (w : σ) (n : Int64) (m : Cache.Meta) (keepAlive : Bool) : σ :=
  let w := k.writeString w (ascii "HTTP/1.1 200 OK\r\n")
  let w := k.writeContentMeta w m
  let w := k.writeContentLength w n
  let w := k.writeConnection w keepAlive
  k.writeString w (ascii "\r\n")

def writeWarmHead206 (w : σ) (start stop total n : Int64) (m : Cache.Meta) (keepAlive : Bool) :
    σ :=
  let w := k.writeString w (ascii "HTTP/1.1 206 Partial Content\r\n")
  let w := k.writeContentMeta w m
  let w := k.writeString w (ascii "Content-Range: bytes ")
  let w := k.writeInt w start
  let w := k.writeByte w 45
  let w := k.writeInt w (stop - 1)
  let w := k.writeByte w SLASH
  let w := if 0 ≤ total then k.writeInt w total else k.writeByte w 42
  let w := k.writeString w (ascii "\r\n")
  let w := k.writeContentLength w n
  let w := k.writeConnection w keepAlive
  k.writeString w (ascii "\r\n")

end HeadSink

/-! ## The two renderers -/

structure HeaderBuf where
  bytes : Bytes
  fits : bytes.length ≤ headerBufSize

namespace HeaderBuf

def reset : HeaderBuf := ⟨[], Nat.zero_le _⟩

def writeString (h : HeaderBuf) (s : Bytes) : HeaderBuf where
  bytes := h.bytes ++ s.take (headerBufSize - h.bytes.length)
  fits := by
    have hfits := h.fits
    rw [List.length_append, List.length_take]
    omega

def writeByte (h : HeaderBuf) (c : UInt8) : HeaderBuf :=
  if hroom : h.bytes.length < headerBufSize then ⟨h.bytes ++ [c], by simpa using hroom⟩ else h

def sink : HeadSink HeaderBuf := ⟨writeString, writeByte⟩

end HeaderBuf

def writeWarmHead200Buf : HeaderBuf → Int64 → Cache.Meta → Bool → HeaderBuf :=
  HeaderBuf.sink.writeWarmHead200

def writeWarmHead206Buf :
    HeaderBuf → Int64 → Int64 → Int64 → Int64 → Cache.Meta → Bool → HeaderBuf :=
  HeaderBuf.sink.writeWarmHead206

def bufioSink : HeadSink Writer := ⟨Writer.write, Writer.writeByte⟩

def writeWarmHead200 : Writer → Int64 → Cache.Meta → Bool → Writer :=
  bufioSink.writeWarmHead200

def writeWarmHead206 : Writer → Int64 → Int64 → Int64 → Int64 → Cache.Meta → Bool → Writer :=
  bufioSink.writeWarmHead206

def flushed (size : ℕ) (use : Writer → Writer) : Bytes :=
  (use (Writer.new size none)).flush.sink.sent

/-! ## Numbers -/

theorem toUInt8_digit (v : UInt64) : (48 + v % 10).toUInt8 = Numeral.digit (v.toNat % 10) := by
  have hlt : v.toNat % 10 < 10 := Nat.mod_lt _ (by omega)
  rw [Numeral.digit, if_pos hlt]
  apply UInt8.toNat_inj.mp
  simp [UInt64.toNat_mod]

theorem toInt_eq_toNat (v : Int64) :
    v.toInt = if 2 * v.toUInt64.toNat < 2 ^ 64 then (v.toUInt64.toNat : ℤ)
      else v.toUInt64.toNat - 2 ^ 64 :=
  v.toBitVec.toInt_eq_toNat_cond

theorem itoa_toInt (v : Int64) :
    itoa v.toInt = if v < 0 then 45 :: Numeral.format 10 (-v).toUInt64.toNat
      else Numeral.format 10 v.toUInt64.toNat := by
  have hneg : v < 0 ↔ v.toInt < 0 := by simp [Int64.lt_iff_toInt_lt]
  have hle := v.le_toInt
  rw [itoa]
  by_cases hv : v.toInt < 0
  · rw [if_pos hv, if_pos (hneg.mpr hv)]
    have hbits := toInt_eq_toNat (-v)
    have hlt := (-v).toUInt64.toNat_lt
    have hmod : (-v.toInt).bmod (2 ^ 64) = if v.toInt = -2 ^ 63 then -2 ^ 63 else -v.toInt := by
      split
      · next hmin =>
        rw [hmin]
        decide
      · rw [Int.bmod_eq_of_le] <;> omega
    rw [Int64.toInt_neg, hmod] at hbits
    have habs : (-v).toUInt64.toNat = v.toInt.natAbs := by
      split at hbits <;> split at hbits <;> omega
    rw [habs]
  · rw [if_neg hv, if_neg (fun h => hv (hneg.mp h))]
    have hbits := toInt_eq_toNat v
    have hlt := v.toUInt64.toNat_lt
    have habs : v.toUInt64.toNat = v.toInt.natAbs := by
      split at hbits <;> omega
    rw [habs]

theorem format_toNat (v : UInt64) :
    Numeral.format 10 v.toNat
      = (if 10 ≤ v then Numeral.format 10 (v / 10).toNat else []) ++ [(48 + v % 10).toUInt8] := by
  have hle : 10 ≤ v ↔ 10 ≤ v.toNat := UInt64.le_iff_toNat_le
  rw [Numeral.format_eq_append (by omega), toUInt8_digit, UInt64.toNat_div]
  simp only [hle]
  rfl

/-! ## What is rendered -/

structure HeadSink.Keeps {σ : Type} (k : HeadSink σ) (has : σ → Bytes → Prop) : Prop where
  writeString : ∀ {w t}, has w t → ∀ s, has (k.writeString w s) (t ++ s)
  writeByte : ∀ {w t}, has w t → ∀ c, has (k.writeByte w c) (t ++ [c])

namespace HeadSink.Keeps

variable {σ : Type} {k : HeadSink σ} {has : σ → Bytes → Prop} (hk : k.Keeps has) {w : σ} {t : Bytes}

include hk

theorem writeUint (hw : has w t) (v : UInt64) :
    has (k.writeUint w v) (t ++ Numeral.format 10 v.toNat) := by
  -- along the digits, the last one outermost
  fun_induction HeadSink.writeUint k w v with
  | case1 v ih =>
    rw [format_toNat, ← List.append_assoc]
    refine hk.writeByte ?_ _
    split
    · next hv => exact ih hv
    · rwa [List.append_nil]

theorem writeInt (hw : has w t) (v : Int64) : has (k.writeInt w v) (t ++ itoa v.toInt) := by
  rw [HeadSink.writeInt, itoa_toInt]
  split
  · have hdash := hk.writeUint (hk.writeByte hw 45) (-v).toUInt64
    rwa [List.append_assoc] at hdash
  · exact hk.writeUint hw _

theorem writeLine (hw : has w t) (name value : Bytes) :
    has (k.writeLine w name value) (t ++ optionalLine name value) := by
  rw [HeadSink.writeLine, optionalLine]
  by_cases hv : value = []
  · rwa [if_neg (not_not.mpr hv), if_pos hv, List.append_nil]
  · have hline := hk.writeString (hk.writeString (hk.writeString hw name) value) (ascii "\r\n")
    rw [List.append_assoc, List.append_assoc, ← List.append_assoc name] at hline
    rwa [if_pos hv, if_neg hv]

theorem writeContentMeta (hw : has w t) (m : Cache.Meta) :
    has (k.writeContentMeta w m) (t ++ contentMeta m) := by
  have hlines := hk.writeLine (hk.writeLine hw (ascii "Content-Type: ") m.contentType)
    (ascii "ETag: ") m.eTag
  rwa [List.append_assoc] at hlines

theorem writeContentLength (hw : has w t) (n : Int64) :
    has (k.writeContentLength w n) (t ++ contentLengthLine n.toInt) := by
  have hline := hk.writeString (hk.writeInt (hk.writeString hw (ascii "Content-Length: ")) n)
    (ascii "\r\n")
  rwa [List.append_assoc, List.append_assoc, ← List.append_assoc (ascii _)] at hline

theorem writeConnection (hw : has w t) (keepAlive : Bool) :
    has (k.writeConnection w keepAlive) (t ++ connectionLine keepAlive) := by
  cases keepAlive with
  | false => exact hk.writeString hw _
  | true => exact hk.writeString hw _

theorem writeWarmHead200 (hw : has w []) (n : Int64) (m : Cache.Meta) (keepAlive : Bool) :
    has (k.writeWarmHead200 w n m keepAlive) (warmHead200 n.toInt m keepAlive) := by
  have hmeta := hk.writeContentMeta (hk.writeString hw (ascii "HTTP/1.1 200 OK\r\n")) m
  exact hk.writeString (hk.writeConnection (hk.writeContentLength hmeta n) keepAlive)
    (ascii "\r\n")

theorem writeTotal (hw : has w t) (total : Int64) :
    has (if 0 ≤ total then k.writeInt w total else k.writeByte w 42)
      (t ++ if 0 ≤ total.toInt then itoa total.toInt else ascii "*") := by
  have hsign : 0 ≤ total ↔ 0 ≤ total.toInt := by simp [Int64.le_iff_toInt_le]
  simp only [hsign]
  split
  · exact hk.writeInt hw total
  · exact hk.writeByte hw 42

theorem writeWarmHead206 (hw : has w []) (start stop total n : Int64) (m : Cache.Meta)
    (keepAlive : Bool) :
    has (k.writeWarmHead206 w start stop total n m keepAlive)
      (warmHead206 start.toInt ((stop - 1).toInt + 1) total.toInt n.toInt m keepAlive) := by
  have hmeta := hk.writeContentMeta
    (hk.writeString hw (ascii "HTTP/1.1 206 Partial Content\r\n")) m
  have hfirst := hk.writeInt (hk.writeString hmeta (ascii "Content-Range: bytes ")) start
  have hlast := hk.writeInt (hk.writeByte hfirst 45) (stop - 1)
  have hrange := hk.writeString (hk.writeTotal (hk.writeByte hlast SLASH) total) (ascii "\r\n")
  have hhead := hk.writeString
    (hk.writeConnection (hk.writeContentLength hrange n) keepAlive) (ascii "\r\n")
  have htext : ascii "Content-Range: bytes " = ascii "Content-Range: " ++ ascii "bytes " := by
    decide +kernel
  rw [htext] at hhead
  have heq : [] ++ ascii "HTTP/1.1 206 Partial Content\r\n" ++ contentMeta m
        ++ (ascii "Content-Range: " ++ ascii "bytes ") ++ itoa start.toInt ++ [45]
        ++ itoa (stop - 1).toInt ++ [SLASH]
        ++ (if 0 ≤ total.toInt then itoa total.toInt else ascii "*") ++ ascii "\r\n"
        ++ contentLengthLine n.toInt ++ connectionLine keepAlive ++ ascii "\r\n"
      = warmHead206 start.toInt ((stop - 1).toInt + 1) total.toInt n.toInt m keepAlive := by
    have hcrlf : ascii "\r\n" = crlf := rfl
    simp only [warmHead206, formatContentRange, hcrlf, add_sub_cancel_right, List.append_assoc,
      List.nil_append, List.cons_append]
  rwa [heq] at hhead

end HeadSink.Keeps

theorem HeaderBuf.keeps : HeaderBuf.sink.Keeps (fun h t => h.bytes = t.take headerBufSize) := by
  constructor
  · intro h t hh s
    show h.bytes ++ s.take (headerBufSize - h.bytes.length) = (t ++ s).take headerBufSize
    rw [hh, List.take_append, List.length_take]
    congr 2
    omega
  · intro h t hh c
    have hlen : h.bytes.length = min headerBufSize t.length := by
      rw [hh, List.length_take]
    show (h.writeByte c).bytes = _
    rw [HeaderBuf.writeByte]
    split
    · next hroom =>
      have hshort : t.length < headerBufSize := by omega
      show h.bytes ++ [c] = _
      rw [hh, List.take_of_length_le hshort.le, List.take_of_length_le (by simpa using hshort)]
    · next hfull =>
      rw [List.take_append_of_le_length (by omega)]
      exact hh

theorem bufioSink_keeps : bufioSink.Keeps (fun w t => w.Given t ∧ w.sink.limit = none) :=
  ⟨fun hw s => ⟨hw.1.write s, (Writer.limit_write _ s).trans hw.2⟩,
    fun hw c => ⟨hw.1.writeByte c, (Writer.limit_writeByte _ c).trans hw.2⟩⟩

theorem flushed_eq {size : ℕ} {use : Writer → Writer} {t : Bytes}
    (h : (use (Writer.new size none)).Given t ∧ (use (Writer.new size none)).sink.limit = none) :
    flushed size use = t := by
  rw [flushed, h.1.sent_flush, Writer.limit_flush, h.2]
  rfl

theorem new_given (size : ℕ) :
    (Writer.new size none).Given [] ∧ (Writer.new size none).sink.limit = none :=
  ⟨Writer.given_new size none, rfl⟩

section

variable (start stop total n : Int64) (m : Cache.Meta) (keepAlive : Bool)

theorem bytes_writeWarmHead200Buf :
    (writeWarmHead200Buf .reset n m keepAlive).bytes
      = (warmHead200 n.toInt m keepAlive).take headerBufSize :=
  HeaderBuf.keeps.writeWarmHead200 (show HeaderBuf.reset.bytes = _ from rfl) n m keepAlive

theorem bytes_writeWarmHead206Buf :
    (writeWarmHead206Buf .reset start stop total n m keepAlive).bytes
      = (warmHead206 start.toInt ((stop - 1).toInt + 1) total.toInt n.toInt m keepAlive).take
        headerBufSize :=
  HeaderBuf.keeps.writeWarmHead206 (show HeaderBuf.reset.bytes = _ from rfl) start stop total n m
    keepAlive

theorem flushed_writeWarmHead200 (size : ℕ) :
    flushed size (fun bw => writeWarmHead200 bw n m keepAlive)
      = warmHead200 n.toInt m keepAlive :=
  flushed_eq (bufioSink_keeps.writeWarmHead200 (new_given size) n m keepAlive)

theorem flushed_writeWarmHead206 (size : ℕ) :
    flushed size (fun bw => writeWarmHead206 bw start stop total n m keepAlive)
      = warmHead206 start.toInt ((stop - 1).toInt + 1) total.toInt n.toInt m keepAlive :=
  flushed_eq (bufioSink_keeps.writeWarmHead206 (new_given size) start stop total n m keepAlive)

end

/-! ## How long a head is -/

def numeralSize (v : ℤ) : ℕ :=
  (if v < 0 then 1 else 0) + if v = 0 then 1 else (Nat.digits 10 v.natAbs).length

def lineSize (name : ℕ) (value : Bytes) : ℕ := if value = [] then 0 else name + value.length + 2

def headSize200 (n : Int64) (m : Cache.Meta) (keepAlive : Bool) : ℕ :=
  17 + lineSize 14 m.contentType + lineSize 6 m.eTag + (18 + numeralSize n.toInt)
    + (if keepAlive then 24 else 19) + 2

def headSize206 (start stop total n : Int64) (m : Cache.Meta) (keepAlive : Bool) : ℕ :=
  30 + lineSize 14 m.contentType + lineSize 6 m.eTag
    + (25 + numeralSize start.toInt + numeralSize (stop - 1).toInt
      + if 0 ≤ total.toInt then numeralSize total.toInt else 1)
    + (18 + numeralSize n.toInt) + (if keepAlive then 24 else 19) + 2

theorem length_itoa (v : ℤ) : (itoa v).length = numeralSize v := by
  have hformat : (Numeral.format 10 v.natAbs).length
      = if v = 0 then 1 else (Nat.digits 10 v.natAbs).length := by
    simp only [Numeral.format, Int.natAbs_eq_zero]
    split
    · rfl
    · rw [List.length_map, List.length_reverse]
  rw [itoa, numeralSize, ← hformat]
  split
  · rw [List.length_cons, Nat.add_comm]
  · rw [Nat.zero_add]

theorem length_optionalLine (name value : Bytes) :
    (optionalLine name value).length = lineSize name.length value := by
  rw [optionalLine, lineSize]
  split
  · rfl
  · rw [List.length_append, List.length_append]
    rfl

theorem length_contentMeta (m : Cache.Meta) :
    (contentMeta m).length = lineSize 14 m.contentType + lineSize 6 m.eTag := by
  rw [contentMeta, List.length_append, length_optionalLine, length_optionalLine]
  rfl

theorem length_contentLengthLine (n : ℤ) : (contentLengthLine n).length = 18 + numeralSize n := by
  rw [contentLengthLine, List.length_append, List.length_append, length_itoa, Nat.add_right_comm]
  rfl

theorem length_connectionLine (keepAlive : Bool) :
    (connectionLine keepAlive).length = if keepAlive then 24 else 19 := by
  cases keepAlive <;> rfl

theorem length_warmHead200 (n : Int64) (m : Cache.Meta) (keepAlive : Bool) :
    (warmHead200 n.toInt m keepAlive).length = headSize200 n m keepAlive := by
  have hstatus : (ascii "HTTP/1.1 200 OK\r\n").length = 17 := rfl
  have hcrlf : crlf.length = 2 := rfl
  simp only [warmHead200, headSize200, List.length_append, hstatus, hcrlf, length_contentMeta,
    length_contentLengthLine, length_connectionLine, Nat.add_assoc]

theorem length_warmHead206 (start stop total n : Int64) (m : Cache.Meta) (keepAlive : Bool) :
    (warmHead206 start.toInt ((stop - 1).toInt + 1) total.toInt n.toInt m keepAlive).length
      = headSize206 start stop total n m keepAlive := by
  have hstatus : (ascii "HTTP/1.1 206 Partial Content\r\n").length = 30 := rfl
  have hname : (ascii "Content-Range: ").length = 15 := rfl
  have hunit : (ascii "bytes ").length = 6 := rfl
  have hcrlf : crlf.length = 2 := rfl
  have htotal : (if 0 ≤ total.toInt then itoa total.toInt else ascii "*").length
      = if 0 ≤ total.toInt then numeralSize total.toInt else 1 := by
    split
    · exact length_itoa _
    · rfl
  simp only [warmHead206, headSize206, formatContentRange, List.length_append, List.length_cons,
    hstatus, hname, hunit, hcrlf, htotal, length_itoa, length_contentMeta,
    length_contentLengthLine, length_connectionLine, add_sub_cancel_right]
  omega

/-! ## When the two agree -/

structure Agree (buf text : Bytes) : Prop where
  same : buf = text
  bufEnds : crlf ++ crlf <:+ buf
  textEnds : crlf ++ crlf <:+ text

theorem blank_suffix_head (front : Bytes) (keepAlive : Bool) :
    crlf ++ crlf <:+ front ++ connectionLine keepAlive ++ crlf := by
  have hconnection : crlf <:+ connectionLine keepAlive := by
    cases keepAlive with
    | false => exact ⟨ascii "Connection: close", by decide +kernel⟩
    | true => exact ⟨ascii "Connection: keep-alive", by decide +kernel⟩
  obtain ⟨line, hline⟩ := hconnection
  exact ⟨front ++ line, by rw [← hline]; simp only [List.append_assoc]⟩

theorem agree_take_iff {text : Bytes} (hblank : crlf ++ crlf <:+ text) :
    Agree (text.take headerBufSize) text ↔ text.length ≤ headerBufSize := by
  constructor
  · intro h
    rw [← h.same, List.length_take]
    exact Nat.min_le_left _ _
  · intro hle
    rw [List.take_of_length_le hle]
    exact ⟨rfl, hblank, hblank⟩

/-- **The two renderers agree exactly if the head fits**, for all numbers of 64 bits and every
entry. -/
theorem renderers_agree_iff_fits (size : ℕ) (start stop total n : Int64) (m : Cache.Meta)
    (keepAlive : Bool) :
    (Agree (writeWarmHead200Buf .reset n m keepAlive).bytes
        (flushed size (fun bw => writeWarmHead200 bw n m keepAlive))
      ↔ headSize200 n m keepAlive ≤ 512)
    ∧ (Agree (writeWarmHead206Buf .reset start stop total n m keepAlive).bytes
        (flushed size (fun bw => writeWarmHead206 bw start stop total n m keepAlive))
      ↔ headSize206 start stop total n m keepAlive ≤ 512) := by
  constructor
  · rw [bytes_writeWarmHead200Buf, flushed_writeWarmHead200, ← length_warmHead200]
    exact agree_take_iff (blank_suffix_head _ keepAlive)
  · rw [bytes_writeWarmHead206Buf, flushed_writeWarmHead206, ← length_warmHead206]
    exact agree_take_iff (blank_suffix_head _ keepAlive)

/-- An entry with a `Content-Type` of 500 bytes: the head in the scratch buffer is
cut in the middle of it, and no blank line follows. -/
theorem long_contentType_cuts_head :
    (writeWarmHead200Buf .reset 4 { contentType := List.replicate 500 97 } true).bytes
        ≠ flushed 4096
          (fun bw => writeWarmHead200 bw 4 { contentType := List.replicate 500 97 } true)
      ∧ ¬ crlf ++ crlf
        <:+ (writeWarmHead200Buf .reset 4 { contentType := List.replicate 500 97 } true).bytes := by
  rw [bytes_writeWarmHead200Buf, flushed_writeWarmHead200]
  decide +kernel

end Coreserver
