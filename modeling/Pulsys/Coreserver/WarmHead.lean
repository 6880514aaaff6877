import Pulsys.Coreserver.Response
import Pulsys.Coreserver.Warm

/-!
# What a warm hit sends

A warm hit is sent as a short head and a part of the body. The head goes through the
connection's buffered writer, or into a scratch buffer that takes what fits and drops the
rest.
-/

namespace Coreserver

open Bytes

structure CacheAnswer where
  status : ℤ
  contentType : Bytes
  eTag : Bytes
  contentRange : Bytes
  length : ℤ
  body : Bytes
  deriving DecidableEq, Repr

def optionalLine (name value : Bytes) : Bytes :=
  if value = [] then [] else name ++ value ++ crlf

def connectionLine (keepAlive : Bool) : Bytes :=
  if keepAlive then ascii "Connection: keep-alive\r\n" else ascii "Connection: close\r\n"

def CacheAnswer.text (a : CacheAnswer) (keepAlive : Bool) : Bytes :=
  ascii "HTTP/1.1 " ++ itoa a.status ++ SP :: statusText a.status ++ crlf
    ++ optionalLine (ascii "Content-Type: ") a.contentType
    ++ optionalLine (ascii "ETag: ") a.eTag
    ++ optionalLine (ascii "Content-Range: ") a.contentRange
    ++ (ascii "Content-Length: " ++ itoa a.length ++ crlf)
    ++ connectionLine keepAlive ++ crlf ++ a.body

def contentMeta (m : Cache.Meta) : Bytes :=
  optionalLine (ascii "Content-Type: ") m.contentType ++ optionalLine (ascii "ETag: ") m.eTag

def contentLengthLine (n : ℤ) : Bytes := ascii "Content-Length: " ++ itoa n ++ crlf

def warmHead200 (n : ℤ) (m : Cache.Meta) (keepAlive : Bool) : Bytes :=
  ascii "HTTP/1.1 200 OK\r\n" ++ contentMeta m ++ contentLengthLine n
    ++ connectionLine keepAlive ++ crlf

def formatContentRange (start stop total : ℤ) : Bytes :=
  ascii "bytes " ++ itoa start ++ 45 :: (itoa (stop - 1) ++ SLASH
    :: (if 0 ≤ total then itoa total else ascii "*"))

def warmHead206 (start stop total n : ℤ) (m : Cache.Meta) (keepAlive : Bool) : Bytes :=
  ascii "HTTP/1.1 206 Partial Content\r\n" ++ contentMeta m
    ++ (ascii "Content-Range: " ++ formatContentRange start stop total ++ crlf)
    ++ contentLengthLine n ++ connectionLine keepAlive ++ crlf

theorem dash_notMem_itoa {n : ℤ} (h : 0 ≤ n) : 45 ∉ itoa n := by
  unfold itoa
  rw [if_neg (by omega)]
  exact Numeral.notMem_format (by decide) _

theorem itoa_injective : Function.Injective itoa := by
  have hformat : ∀ {m n : ℕ}, Numeral.format 10 m = Numeral.format 10 n → m = n := by
    intro m n h
    have := congrArg (Numeral.value 10) h
    rwa [Numeral.value_format (by decide) (by decide),
      Numeral.value_format (by decide) (by decide)] at this
  have hdash : ∀ {m n : ℕ}, 45 :: Numeral.format 10 m ≠ Numeral.format 10 n := by
    intro m n h
    exact absurd (Numeral.isDigit_of_mem_format (h ▸ List.mem_cons_self)) (by decide)
  intro m n h
  unfold itoa at h
  by_cases hm : m < 0 <;> by_cases hn : n < 0
  · rw [if_pos hm, if_pos hn] at h
    have := hformat (List.cons.inj h).2
    omega
  · rw [if_pos hm, if_neg hn] at h
    exact absurd h hdash
  · rw [if_neg hm, if_pos hn] at h
    exact absurd h.symm hdash
  · rw [if_neg hm, if_neg hn] at h
    have := hformat h
    omega

theorem formatContentRange_inj {a b a' b' t : ℤ} (ha : 0 ≤ a) (ha' : 0 ≤ a')
    (h : formatContentRange a b t = formatContentRange a' b' t) : a = a' ∧ b = b' := by
  unfold formatContentRange at h
  rw [List.append_assoc, List.append_assoc] at h
  obtain ⟨hstart, hrest⟩ := cut_unique (dash_notMem_itoa ha) (dash_notMem_itoa ha')
    (List.append_cancel_left h)
  obtain ⟨hstop, -⟩ := cut_unique (notMem_itoa (by decide) (by decide) _)
    (notMem_itoa (by decide) (by decide) _) hrest
  have hb := itoa_injective hstop
  exact ⟨itoa_injective hstart, by omega⟩

def headerBufSize : ℕ := 512

namespace WarmPlan

def head (p : WarmPlan) (range : Bytes) (keepAlive : Bool) : Bytes :=
  if range = [] then warmHead200 (p.wantEnd - p.wantStart) p.entry keepAlive
  else warmHead206 p.wantStart p.wantEnd (p.entry.total.getD (-1)) (p.wantEnd - p.wantStart)
    p.entry keepAlive

def wire (p : WarmPlan) (range : Bytes) (keepAlive fused : Bool) (body : Bytes) : Bytes :=
  (if fused then (p.head range keepAlive).take headerBufSize else p.head range keepAlive) ++ body

def answer (p : WarmPlan) (range : Bytes) (body : Bytes) : CacheAnswer where
  status := if range = [] then 200 else 206
  contentType := p.entry.contentType
  eTag := p.entry.eTag
  contentRange := if range = [] then []
    else formatContentRange p.wantStart p.wantEnd (p.entry.total.getD (-1))
  length := p.wantEnd - p.wantStart
  body := body

theorem formatContentRange_ne_nil (start stop total : ℤ) :
    formatContentRange start stop total ≠ [] := by
  simp [formatContentRange, ascii]

theorem head_append (p : WarmPlan) (range : Bytes) (keepAlive : Bool) (body : Bytes) :
    p.head range keepAlive ++ body = (p.answer range body).text keepAlive := by
  have h200 : ascii "HTTP/1.1 200 OK\r\n"
      = ascii "HTTP/1.1 " ++ itoa 200 ++ SP :: statusText 200 ++ crlf := by decide +kernel
  have h206 : ascii "HTTP/1.1 206 Partial Content\r\n"
      = ascii "HTTP/1.1 " ++ itoa 206 ++ SP :: statusText 206 ++ crlf := by decide +kernel
  have hnil : ∀ name : Bytes, optionalLine name [] = [] := fun _ => if_pos rfl
  unfold head answer CacheAnswer.text
  by_cases hr : range = []
  · simp only [hr, if_true, warmHead200, contentMeta, contentLengthLine, h200, hnil,
      List.append_assoc, List.nil_append]
  · have hline : optionalLine (ascii "Content-Range: ")
          (formatContentRange p.wantStart p.wantEnd (p.entry.total.getD (-1)))
        = ascii "Content-Range: "
          ++ formatContentRange p.wantStart p.wantEnd (p.entry.total.getD (-1)) ++ crlf :=
      if_neg (formatContentRange_ne_nil _ _ _)
    simp only [hr, if_false, warmHead206, contentMeta, contentLengthLine, h206, hline,
      List.append_assoc]

theorem wire_eq_text_iff (p : WarmPlan) (range : Bytes) (keepAlive fused : Bool) (body : Bytes) :
    p.wire range keepAlive fused body = (p.answer range body).text keepAlive
      ↔ (fused = true → (p.head range keepAlive).length ≤ headerBufSize) := by
  rw [← head_append, wire]
  cases fused with
  | false => simp
  | true =>
    simp only [if_true, forall_const]
    constructor
    · intro h
      have htake := List.append_cancel_right h
      rw [← htake, List.length_take]
      exact Nat.min_le_left _ _
    · intro h
      rw [List.take_of_length_le h]

end WarmPlan

end Coreserver
