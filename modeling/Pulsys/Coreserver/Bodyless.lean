import Pulsys.Coreserver.ResponseText

/-!
# Responses that must not have a body

The answer to a HEAD request, and one with an informational status, 204 or 304, ends with
its head. The response writer does not know: its output ends there exactly if a content
length was announced and nothing was written (`endsAtHead_iff`).
-/

namespace Coreserver

open Bytes

def NoBodyAllowed (method : Bytes) (code : ℤ) : Prop :=
  method = ascii "HEAD" ∨ (100 ≤ code ∧ code ≤ 199) ∨ code = 204 ∨ code = 304

namespace Exchange

def EndsAtHead (x : Exchange) : Prop := x.sent = x.limit.elim x.headText x.headText.take

def Silent (x : Exchange) : Prop := (announced x.header).isSome = true ∧ x.written = []

def BreaksOff (x : Exchange) : Prop := ∃ l, x.limit = some l ∧ l ≤ x.headText.length

theorem payload_eq_nil_iff (x : Exchange) : x.payload = [] ↔ x.Silent := by
  unfold payload Silent
  split
  · next hlen => exact (and_iff_right hlen).symm
  · next hlen =>
    refine iff_of_false (fun h => ?_) (fun h => hlen h.1)
    have hlast : ascii "0\r\n\r\n" = [] := (List.append_eq_nil_iff.mp h).2
    exact absurd hlast (by decide)

theorem endsAtHead_iff (x : Exchange) : x.EndsAtHead ↔ x.Silent ∨ x.BreaksOff := by
  rw [EndsAtHead, sent_eq, text, ← payload_eq_nil_iff, BreaksOff]
  cases x.limit with
  | none =>
    show x.headText ++ x.payload = x.headText ↔ _
    rw [List.append_right_eq_self]
    simp
  | some l =>
    show (x.headText ++ x.payload).take l = x.headText.take l ↔ _
    rw [List.take_append, List.append_right_eq_self, List.take_eq_nil_iff, Nat.sub_eq_zero_iff_le,
      or_comm]
    simp

/-- **Where no body is allowed none is sent exactly if** the handler announces a content
length and writes nothing, or the connection breaks off. -/
theorem bodyless_iff (x : Exchange) (method : Bytes) :
    (NoBodyAllowed method x.code → x.EndsAtHead)
      ↔ (NoBodyAllowed method x.code → x.Silent ∨ x.BreaksOff) := by
  rw [endsAtHead_iff]

def headUnsized : Exchange where
  keepAlive := true
  calls := [.writeHeader 200]
  order := .backwards
  bufSize := 4096
  limit := none

/-- **A HEAD request gets a last chunk.** -/
theorem head_gets_last_chunk :
    NoBodyAllowed (ascii "HEAD") headUnsized.code
      ∧ headUnsized.sent = headUnsized.headText ++ ascii "0\r\n\r\n"
      ∧ ¬ headUnsized.EndsAtHead := by
  refine ⟨.inl rfl, headUnsized.sent_eq, fun h => ?_⟩
  rcases headUnsized.endsAtHead_iff.mp h with ⟨hlen, -⟩ | ⟨l, hl, -⟩
  · exact absurd hlen (by decide)
  · cases hl

end Exchange

end Coreserver
