import Pulsys.Base.Bytes

/-!
# Buffered readers over a connection

A connection delivers its bytes in pieces. `Reader.stream` is what remains to be read, and
every operation is described by what it takes off the front of it – so the cuts do not
show, except that a line longer than the buffer is refused.
-/

namespace Bufio

open Bytes

structure Conn where
  pieces : List Bytes
  ne : ∀ p ∈ pieces, p ≠ []

namespace Conn

def stream (c : Conn) : Bytes := c.pieces.flatten

def rest (n : ℕ) : List Bytes → List Bytes
  | [] => []
  | p :: ps => if p.drop n = [] then ps else p.drop n :: ps

variable {n : ℕ}

theorem rest_ne {ps : List Bytes} (h : ∀ p ∈ ps, p ≠ []) : ∀ p ∈ rest n ps, p ≠ [] := by
  cases ps with
  | nil => simp [rest]
  | cons p ps =>
    rw [rest]
    split
    · exact fun q hq => h q (List.mem_cons_of_mem _ hq)
    · next hp =>
      intro q hq
      rcases List.mem_cons.mp hq with rfl | hq
      · exact hp
      · exact h q (List.mem_cons_of_mem _ hq)

def read (c : Conn) (n : ℕ) : Option (Bytes × Conn) :=
  match c.pieces with
  | [] => none
  | p :: _ => some (p.take n, ⟨rest n c.pieces, rest_ne c.ne⟩)

theorem read_none {c : Conn} (h : c.read n = none) : c.stream = [] := by
  unfold read at h
  unfold stream
  split at h
  · next hp => simp [hp]
  · cases h

theorem read_some {c c' : Conn} {d : Bytes} (hn : 0 < n) (h : c.read n = some (d, c')) :
    c.stream = d ++ c'.stream ∧ d ≠ [] ∧ d.length ≤ n := by
  unfold read at h
  split at h
  · cases h
  · next p ps hp =>
    obtain ⟨rfl, rfl⟩ := Prod.mk.inj (Option.some.inj h)
    have hne : p ≠ [] := c.ne p (by simp [hp])
    refine ⟨?_, ?_, List.length_take_le n p⟩
    · simp only [stream, hp, rest, List.flatten_cons]
      conv_lhs => rw [← List.take_append_drop n p]
      split
      · next hd => rw [hd, List.append_nil]
      · rw [List.flatten_cons, List.append_assoc]
    · rw [Ne, List.take_eq_nil_iff, not_or]
      exact ⟨by omega, hne⟩

def ofBytes (b : Bytes) : Conn :=
  ⟨if b = [] then [] else [b], by
    intro p hp
    split at hp
    · simp at hp
    · next hb =>
      rw [List.mem_singleton.mp hp]
      exact hb⟩

@[simp] theorem stream_ofBytes (b : Bytes) : (ofBytes b).stream = b := by
  unfold stream ofBytes
  by_cases h : b = [] <;> simp [h]

end Conn

inductive ReadErr
  | bufferFull
  | eof
  deriving DecidableEq, Repr

structure Reader where
  size : ℕ
  buf : Bytes
  conn : Conn
  fits : buf.length ≤ size

namespace Reader

def stream (r : Reader) : Bytes := r.buf ++ r.conn.stream

def discard (r : Reader) (n : ℕ) : Reader :=
  ⟨r.size, r.buf.drop n, r.conn, by
    rw [List.length_drop]
    exact le_trans (Nat.sub_le _ _) r.fits⟩

def fill (r : Reader) : Option Reader :=
  match r.conn.read (r.size - r.buf.length) with
  | none => none
  | some (d, c) =>
    some ⟨r.size, r.buf ++ d.take (r.size - r.buf.length), c, by
      have := r.fits
      rw [List.length_append, List.length_take]
      omega⟩

variable {r r' : Reader} {n : ℕ}

@[simp] theorem size_discard (r : Reader) (n : ℕ) :
    (r.discard n).size = r.size := rfl

theorem stream_discard (h : n ≤ r.buf.length) : (r.discard n).stream = r.stream.drop n := by
  unfold stream discard
  rw [List.drop_append_of_le_length h]

theorem fill_none (h : r.fill = none) : r.stream = r.buf := by
  unfold fill at h
  split at h
  · next hr =>
    rw [stream, Conn.read_none hr, List.append_nil]
  · cases h

theorem fill_some (hroom : r.buf.length < r.size) (h : r.fill = some r') :
    r'.stream = r.stream ∧ r'.size = r.size ∧ r.buf.length < r'.buf.length ∧ r.buf <+: r'.buf := by
  unfold fill at h
  split at h
  · cases h
  · next d c hr =>
    cases h
    obtain ⟨hs, hne, hlen⟩ := Conn.read_some (by omega) hr
    have htake := List.take_of_length_le hlen
    refine ⟨?_, rfl, ?_, List.prefix_append _ _⟩
    · simp only [stream, htake, hs, List.append_assoc]
    · have := List.length_pos_of_ne_nil hne
      simp only [htake, List.length_append]
      omega

def readSliceAux (delim : UInt8) : ℕ → Reader → Except ReadErr Bytes × Reader
  | 0, r => (.error .bufferFull, r)
  | n + 1, r =>
    match indexByte r.buf delim with
    | some i => (.ok (r.buf.take (i + 1)), r.discard (i + 1))
    | none =>
      if r.size ≤ r.buf.length then
        (.error .bufferFull, r.discard r.buf.length)
      else
        match r.fill with
        | none => (.error .eof, r.discard r.buf.length)
        | some r' => readSliceAux delim n r'

def readSlice (r : Reader) (delim : UInt8) : Except ReadErr Bytes × Reader :=
  readSliceAux delim (r.size + 1) r

def peek (r : Reader) : Option Reader := if r.buf ≠ [] then some r else r.fill

def read (r : Reader) (n : ℕ) : Option (Bytes × Reader) :=
  if n = 0 ∨ r.buf ≠ [] then some (r.buf.take n, r.discard n)
  else if r.size ≤ n then
    (r.conn.read n).map (fun dc => (dc.1, { r with conn := dc.2 }))
  else
    r.fill.map (fun r' => (r'.buf.take n, r'.discard n))

def new (size : ℕ) (c : Conn) : Reader := ⟨size, [], c, by simp⟩

@[simp] theorem stream_new (size : ℕ) (c : Conn) :
    (new size c).stream = c.stream := rfl

theorem peek_some (hsize : 0 < r.size) (h : r.peek = some r') :
    r'.stream = r.stream ∧ r'.size = r.size := by
  unfold peek at h
  split at h
  · cases h
    exact ⟨rfl, rfl⟩
  · next hb =>
    have hbuf : r.buf = [] := by simpa using hb
    obtain ⟨hs, hsz, -, -⟩ := fill_some (by rwa [hbuf, List.length_nil]) h
    exact ⟨hs, hsz⟩

theorem read_some {d : Bytes} (h : r.read n = some (d, r')) :
    r.stream = d ++ r'.stream ∧ d.length ≤ n ∧ r'.size = r.size := by
  have htake : ∀ r₁ : Reader, r₁.stream = r₁.buf.take n ++ (r₁.discard n).stream := by
    intro r₁
    rw [stream, stream, discard, ← List.append_assoc, List.take_append_drop]
  unfold read at h
  split at h
  · obtain ⟨rfl, rfl⟩ := Prod.mk.inj (Option.some.inj h)
    exact ⟨htake r, List.length_take_le _ _, rfl⟩
  next hn =>
  obtain ⟨hpos, hbuf⟩ : n ≠ 0 ∧ r.buf = [] := by simpa using hn
  split at h
  · obtain ⟨⟨d', c⟩, hr, heq⟩ := Option.map_eq_some_iff.mp h
    obtain ⟨rfl, rfl⟩ := Prod.mk.inj heq
    obtain ⟨hs, -, hlen⟩ := Conn.read_some (by omega) hr
    refine ⟨?_, hlen, rfl⟩
    show r.buf ++ r.conn.stream = d' ++ (r.buf ++ c.stream)
    rw [hbuf, List.nil_append, List.nil_append, hs]
  · next hsize =>
    obtain ⟨r₁, hf, heq⟩ := Option.map_eq_some_iff.mp h
    obtain ⟨rfl, rfl⟩ := Prod.mk.inj heq
    obtain ⟨hs, hsz, -, -⟩ := fill_some (by rw [hbuf, List.length_nil]; omega) hf
    exact ⟨hs ▸ htake r₁, List.length_take_le _ _, hsz⟩

theorem readSliceAux_ok {delim : UInt8} {line : Bytes}
    (h : readSliceAux delim n r = (.ok line, r')) :
    r.stream = line ++ r'.stream ∧ r'.size = r.size ∧ ∃ l, line = l ++ [delim] ∧ delim ∉ l := by
  induction n generalizing r with
  | zero => simp [readSliceAux] at h
  | succ n ih =>
    rw [readSliceAux] at h
    split at h
    · next i hi =>
      obtain ⟨hl, rfl⟩ := Prod.mk.inj h
      obtain ⟨l, t, hb, hnot, rfl⟩ := exists_of_indexByte hi
      have hline : line = l ++ [delim] := by
        rw [← Except.ok.inj hl, hb]
        simp [List.take_append]
      refine ⟨?_, rfl, l, hline, hnot⟩
      rw [stream_discard (by simp [hb]), hline, stream, hb]
      simp [List.drop_append]
    · split at h
      · cases h
      · next hroom =>
        split at h
        · cases h
        · next r₁ hf =>
          obtain ⟨hs, hsz, -, -⟩ := fill_some (by omega) hf
          obtain ⟨h1, h2, h3⟩ := ih h
          exact ⟨hs ▸ h1, hsz ▸ h2, h3⟩

theorem readSliceAux_complete {delim : UInt8} {l t : Bytes} (hn : r.size < n + r.buf.length)
    (hs : r.stream = l ++ delim :: t) (hl : delim ∉ l) (hfit : l.length < r.size) :
    ∃ r', readSliceAux delim n r = (.ok (l ++ [delim]), r') ∧ r'.stream = t ∧ r'.size = r.size := by
  induction n generalizing r with
  | zero =>
    have := r.fits
    omega
  | succ n ih =>
    rw [readSliceAux]
    split
    · next i hi =>
      obtain ⟨l', t', hb, hnot, rfl⟩ := exists_of_indexByte hi
      have hcut : l' ++ delim :: (t' ++ r.conn.stream) = l ++ delim :: t := by
        rw [← hs, stream, hb, List.append_assoc, List.cons_append]
      obtain ⟨rfl, rfl⟩ := cut_unique hnot hl hcut
      refine ⟨r.discard (l'.length + 1), ?_, ?_, rfl⟩
      · rw [hb]
        simp [List.take_append]
      · rw [stream_discard (by simp [hb]), stream, hb]
        simp [List.drop_append]
    · next hi =>
      have hbuf : delim ∉ r.buf := indexByte_eq_none.mp hi
      -- the delimiter is not buffered yet, so the buffer is a part of `l`
      have hle : r.buf.length ≤ l.length := by
        by_contra hlt
        apply hbuf
        have hpre : r.buf = (l ++ delim :: t).take r.buf.length := by
          rw [← hs, stream, List.take_left]
        rw [hpre, List.take_append]
        obtain ⟨k, hk⟩ : ∃ k, r.buf.length - l.length = k + 1 :=
          ⟨r.buf.length - l.length - 1, by omega⟩
        simp [hk]
      rw [if_neg (by omega)]
      split
      · next hf =>
        exact absurd (by rw [← fill_none hf, hs]; simp) hbuf
      · next r₁ hf =>
        obtain ⟨hs₁, hsz, hlt, -⟩ := fill_some (by omega) hf
        obtain ⟨r', h1, h2, h3⟩ :=
          ih (r := r₁) (by omega) (hs₁ ▸ hs) (by omega)
        exact ⟨r', h1, h2, h3.trans hsz⟩

end Reader

end Bufio
