import Pulsys.Base.Bytes

/-!
# Texts in JSON

A text of JSON is in UTF-8. An encoder that is given other bytes does not refuse them: it
writes the replacement character `U+FFFD` for each byte at which no character begins, and goes
on behind that byte. What is decoded later is then not what was encoded.

`coerce` is what becomes of a text on the way through JSON, and `Valid` says that nothing
does. The recursion is over the bytes, with the number of bytes that are left of a character
that was found.
-/

namespace JSONText

open Bytes

def size (a : UInt8) : ℕ :=
  if a < 0x80 then 1
  else if a < 0xC2 then 0
  else if a < 0xE0 then 2
  else if a < 0xF0 then 3
  else if a < 0xF5 then 4
  else 0

def follows (a b : UInt8) : Bool :=
  (if a = 0xE0 then 0xA0 else if a = 0xF0 then 0x90 else 0x80) ≤ b
    && b ≤ (if a = 0xED then 0x9F else if a = 0xF4 then 0x8F else 0xBF)

def runeLen : Bytes → ℕ
  | [] => 0
  | a :: rest =>
    let tail := rest.take (size a - 1)
    if tail.length + 1 = size a ∧ tail.all (fun c => 0x80 ≤ c && c ≤ 0xBF)
      ∧ tail.head?.all (follows a) then size a else 0

def coerceFrom : ℕ → Bytes → Bytes
  | _, [] => []
  | k + 1, c :: rest => c :: coerceFrom k rest
  | 0, c :: rest =>
    match runeLen (c :: rest) with
    | 0 => 0xEF :: 0xBF :: 0xBD :: coerceFrom 0 rest
    | k + 1 => c :: coerceFrom k rest

def coerce (b : Bytes) : Bytes := coerceFrom 0 b

def Valid (b : Bytes) : Prop := coerce b = b

instance (b : Bytes) : Decidable (Valid b) := inferInstanceAs (Decidable (_ = _))

theorem valid_nil : Valid [] := rfl

end JSONText
