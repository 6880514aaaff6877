import Pulsys.Base.Numeral
import Pulsys.Coreserver.Field

/-!
# Response messages

A status line, header lines, an empty line, and a body that is delimited by a chunked
coding or by one content length, not both; a response whose status forbids a body ends with
the empty line. One that ends with the connection is no message here.
-/

namespace Coreserver

open Bytes

def bodyless (code : ℕ) : Prop := code / 100 = 1 ∨ code = 204 ∨ code = 304

instance (code : ℕ) : Decidable (bodyless code) :=
  inferInstanceAs (Decidable (code / 100 = 1 ∨ code = 204 ∨ code = 304))

structure ResponseHead where
  digits : Bytes
  reason : Bytes
  fields : List Field
  digits_length : digits.length = 3
  digits_digit : ∀ c ∈ digits, Text.isDigit c = true
  reason_text : ∀ c ∈ reason, TextByte c

def httpVersion : Bytes := ascii "HTTP/1.1 "

namespace ResponseHead

def render (hd : ResponseHead) : Bytes :=
  httpVersion ++ hd.digits ++ SP :: hd.reason ++ crlf ++ renderLines hd.fields ++ crlf

def code (hd : ResponseHead) : ℕ := Text.decimal hd.digits

end ResponseHead

inductive Chunked : Bytes → Bytes → Prop
  | last : Chunked (ascii "0\r\n\r\n") []
  | chunk {size data payload body : Bytes} (hsize : size ≠ [])
      (hhex : ∀ c ∈ size, Numeral.isHexDigit c = true)
      (hlen : Numeral.value 16 size = data.length) (hne : data ≠ [])
      (hrest : Chunked payload body) :
      Chunked (size ++ crlf ++ data ++ crlf ++ payload) (data ++ body)

namespace Chunked

theorem cr_notMem_of_hex {size : Bytes} (h : ∀ c ∈ size, Numeral.isHexDigit c = true) :
    CR ∉ size :=
  fun hc => absurd (h CR hc) (by decide)

theorem last_ne_chunk {size data rest t : Bytes} (hhex : ∀ c ∈ size, Numeral.isHexDigit c = true)
    (hlen : Numeral.value 16 size = data.length) (hne : data ≠ []) :
    ascii "0\r\n\r\n" ++ t ≠ size ++ crlf ++ rest := by
  intro h
  have hlast : ascii "0\r\n\r\n" = [48, CR, LF, CR, LF] := by decide
  have hcut : [48] ++ CR :: (LF :: CR :: LF :: t) = size ++ CR :: (LF :: rest) := by
    simpa [hlast] using h
  obtain ⟨rfl, -⟩ := cut_unique (by decide) (cr_notMem_of_hex hhex) hcut
  exact hne (List.length_eq_zero_iff.mp hlen.symm)

theorem nothing_behind {payload body t body' : Bytes} (h : Chunked payload body)
    (h' : Chunked (payload ++ t) body') : t = [] := by
  induction h generalizing t body' with
  | last =>
    generalize hx : ascii "0\r\n\r\n" ++ t = x at h'
    cases h' with
    | last => exact List.append_right_eq_self.mp hx
    | chunk hsize hhex hlen hne hrest =>
      rw [List.append_assoc, List.append_assoc] at hx
      exact absurd hx (last_ne_chunk hhex hlen hne)
  | @chunk size data payload body hsize hhex hlen hne hrest ih =>
    generalize hx : size ++ crlf ++ data ++ crlf ++ payload ++ t = x at h'
    cases h' with
    | last =>
      have hx' : ascii "0\r\n\r\n" ++ [] = size ++ crlf ++ (data ++ crlf ++ payload ++ t) := by
        rw [List.append_nil, ← hx]
        simp
      exact absurd hx' (last_ne_chunk hhex hlen hne)
    | @chunk size' data' payload' body'' hsize' hhex' hlen' hne' hrest' =>
      -- the sizes end at the same place, and so do the data
      have hcut : size ++ CR :: (LF :: (data ++ (crlf ++ payload ++ t)))
          = size' ++ CR :: (LF :: (data' ++ (crlf ++ payload'))) := by simpa using hx
      obtain ⟨rfl, hdata⟩ := cut_unique (cr_notMem_of_hex hhex) (cr_notMem_of_hex hhex') hcut
      obtain ⟨rfl, hpayload⟩ := List.append_inj (List.cons.inj hdata).2 (hlen.symm.trans hlen')
      have hrest'' : payload ++ t = payload' := by simpa using hpayload
      exact ih (hrest'' ▸ hrest')

end Chunked

def IsLength (n : ℕ) (value : Bytes) : Prop :=
  value ≠ [] ∧ (∀ c ∈ value, Text.isDigit c = true) ∧ Text.decimal value = n

instance (n : ℕ) (value : Bytes) : Decidable (IsLength n value) :=
  inferInstanceAs (Decidable (_ ∧ _ ∧ _))

def ResponseHead.Announces (hd : ResponseHead) (payload body : Bytes) : Prop :=
  if bodyless hd.code then payload = [] ∧ body = []
  else if named .transferEncoding hd.fields = [] then
    named .contentLength hd.fields ≠ []
      ∧ (∀ f ∈ named .contentLength hd.fields, IsLength payload.length f.value)
      ∧ body = payload
  else
    (∃ f, named .transferEncoding hd.fields = [f]
        ∧ asciiEqualFold f.value (ascii "chunked") = true)
      ∧ named .contentLength hd.fields = [] ∧ Chunked payload body

def IsMessage (b body : Bytes) : Prop :=
  ∃ (hd : ResponseHead) (payload : Bytes),
    b = hd.render ++ payload ∧ hd.Announces payload body

end Coreserver
