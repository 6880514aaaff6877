import Pulsys.Coreserver.ParserAgreement

/-!
# Keeping a connection

`asciiContainsTokenFold` finds a token exactly if it is one of the pieces of a `Connection`
line. But under HTTP/1.0 a line without `close` turns the flag on, whatever it says and
whatever was said before (`keepAlive_exact_iff`).
-/

namespace Coreserver

open Bytes Bufio

/-! ## Tokens -/

def Lists (value token : Bytes) : Prop :=
  ∃ piece ∈ value.splitOnP isSeparator, piece.map asciiLower = token.map asciiLower

section
variable {token : Bytes}

theorem not_lists_nil (hne : token ≠ []) : ¬ Lists [] token := by
  rintro ⟨piece, hpiece, h⟩
  obtain rfl := List.mem_singleton.mp hpiece
  exact hne (List.map_eq_nil_iff.mp h.symm)

theorem lists_cons (hne : token ≠ []) {c : UInt8} (hc : isSeparator c = true) (value : Bytes) :
    Lists (c :: value) token ↔ Lists value token := by
  have hcut : (c :: value).splitOnP isSeparator = [] :: value.splitOnP isSeparator := by
    rw [List.splitOnP_cons_eq_if_modifyHead, if_pos hc]
  have hnil : [] ≠ token.map asciiLower := fun h => hne (List.map_eq_nil_iff.mp h.symm)
  unfold Lists
  rw [hcut, List.exists_mem_cons_iff, List.map_nil, or_iff_right hnil]

theorem lists_dropWhile (hne : token ≠ []) (value : Bytes) :
    Lists (value.dropWhile isSeparator) token ↔ Lists value token := by
  induction value with
  | nil => rfl
  | cons c value ih =>
    by_cases hc : isSeparator c = true
    · rw [List.dropWhile_cons_of_pos hc, ih, lists_cons hne hc]
    · rw [List.dropWhile_cons_of_neg hc]

theorem lists_cut (hne : token ≠ []) (value : Bytes) :
    Lists value token
      ↔ (value.takeWhile (!isSeparator ·)).map asciiLower = token.map asciiLower
        ∨ Lists (value.dropWhile (!isSeparator ·)) token := by
  have hword : ∀ c ∈ value.takeWhile (!isSeparator ·), isSeparator c = false := by
    intro c hc
    simpa using List.mem_takeWhile_imp hc
  have hcut : value.takeWhile (!isSeparator ·) ++ value.dropWhile (!isSeparator ·) = value :=
    List.takeWhile_append_dropWhile
  cases hrest : value.dropWhile (!isSeparator ·) with
  | nil =>
    rw [hrest, List.append_nil] at hcut
    rw [hcut] at hword ⊢
    unfold Lists
    rw [List.splitOnP_eq_singleton hword]
    simp [hne]
  | cons c tail =>
    have hc : isSeparator c = true := by
      have hhead := List.head?_dropWhile_not (!isSeparator ·) value
      rw [hrest] at hhead
      simpa using hhead
    rw [lists_cons hne hc]
    unfold Lists
    rw [hrest] at hcut
    conv_lhs => rw [← hcut, List.splitOnP_append_cons_of_forall_mem hword c hc]
    exact List.exists_mem_cons_iff ..

theorem length_rest_lt {value : Bytes} (h : value ≠ []) :
    ((value.dropWhile isSeparator).dropWhile (!isSeparator ·)).length < value.length := by
  obtain ⟨c, value, rfl⟩ := List.exists_cons_of_ne_nil h
  by_cases hc : isSeparator c = true
  · rw [List.dropWhile_cons_of_pos hc]
    exact Nat.lt_succ_of_le ((List.length_dropWhile_le _ _).trans (List.length_dropWhile_le _ _))
  · rw [List.dropWhile_cons_of_neg hc, List.dropWhile_cons_of_pos (by simpa using hc)]
    exact Nat.lt_succ_of_le (List.length_dropWhile_le _ _)

theorem containsTokenFoldAux_iff (hne : token ≠ []) (hlower : token.map asciiLower = token)
    {n : ℕ} {value : Bytes} (hn : value.length ≤ n) :
    asciiContainsTokenFoldAux token n value = true ↔ Lists value token := by
  induction n generalizing value with
  | zero =>
    obtain rfl := List.length_eq_zero_iff.mp (Nat.le_zero.mp hn)
    exact iff_of_false Bool.false_ne_true (not_lists_nil hne)
  | succ n ih =>
    unfold asciiContainsTokenFoldAux
    split
    · next hnil =>
      rw [hnil]
      exact iff_of_false Bool.false_ne_true (not_lists_nil hne)
    · next hvalue =>
      have hrest := ih (Nat.le_of_lt_succ ((length_rest_lt hvalue).trans_le hn))
      rw [← lists_dropWhile hne, lists_cut hne, ← hrest, hlower]
      simp only [asciiEqualFold, beq_iff_eq]
      split
      · next hpiece => simp [hpiece]
      · next hpiece => simp [hpiece]

theorem lists_iff (hne : token ≠ []) (hlower : token.map asciiLower = token) (value : Bytes) :
    asciiContainsTokenFold value token = true ↔ Lists value token :=
  containsTokenFoldAux_iff hne hlower le_rfl

/-- **The search for a token is exact**: every round leaves less than there was, and the token
is found exactly if it is one of the pieces. -/
theorem asciiContainsTokenFold_exact (value token : Bytes) (hne : token ≠ [])
    (hlower : token.map asciiLower = token) :
    (∀ rest : Bytes, rest ≠ [] →
        ((rest.dropWhile isSeparator).dropWhile (!isSeparator ·)).length < rest.length)
      ∧ (∀ n, value.length ≤ n →
        asciiContainsTokenFoldAux token n value = asciiContainsTokenFold value token)
      ∧ (asciiContainsTokenFold value token = true
        ↔ ∃ piece ∈ value.splitOnP isSeparator, piece.map asciiLower = token.map asciiLower) := by
  refine ⟨fun _ => length_rest_lt, fun n hn => ?_, lists_iff hne hlower value⟩
  rw [Bool.eq_iff_iff, containsTokenFoldAux_iff hne hlower hn, lists_iff hne hlower]

theorem asciiContainsTokenFold_exact_close :
    asciiContainsTokenFold (ascii ", Upgrade,\tCLOSE") (ascii "close") = true
      ∧ ∃ piece ∈ (ascii ", Upgrade,\tCLOSE").splitOnP isSeparator,
        piece.map asciiLower = (ascii "close").map asciiLower :=
  have h := asciiContainsTokenFold_exact (ascii ", Upgrade,\tCLOSE") (ascii "close")
    (by decide) (by decide)
  ⟨by decide, h.2.2.mp (by decide)⟩

end

/-! ## The flag -/

def Accepts (text : Bytes) (req req' : Request) : Prop :=
  (∃ br scratch br', readRequest br scratch req = ((.ok (), req'), br')
    ∧ br.stream = text ++ br'.stream)
  ∨ ∃ rest, parseRequestFromBuf (text ++ rest) req = (.ok text.length, req')

namespace Block

def connections (blk : Block) : List Bytes := (named .connection blk.fields).map Field.value

def Persists (blk : Block) : Prop :=
  (∀ v ∈ blk.connections, ¬ Lists v (ascii "close"))
    ∧ (blk.http11 = true ∨ ∃ v ∈ blk.connections, Lists v (ascii "keep-alive"))

theorem exists_of_accepts {text : Bytes} {req req' : Request} (h : Accepts text req req') :
    ∃ blk : Block, blk.render = text ∧ req' = blk.request { req with raw := ⟨0, blk.render⟩ } := by
  rcases h with ⟨br, scratch, br', h, hs⟩ | ⟨rest, h⟩
  · obtain ⟨blk, hblk, -, hreq, -⟩ := exists_of_readRequest h
    exact ⟨blk, List.append_cancel_right (hblk.symm.trans hs), hreq⟩
  · obtain ⟨blk, rest', htext, hlen, hreq⟩ := exists_of_parseRequestFromBuf h
    exact ⟨blk, (List.append_inj htext hlen).1.symm, hreq⟩

theorem keepAlive_of_render_eq {blk blk' : Block} (h : blk.render = blk'.render) :
    blk.keepAlive = blk'.keepAlive := by
  have hparse := parseRequestFromBuf_render blk [] {}
  rw [h, parseRequestFromBuf_render blk' [] {}] at hparse
  rw [← blk.keepAlive_request { raw := ⟨0, blk.render⟩ }, h,
    ← blk'.keepAlive_request { raw := ⟨0, blk'.render⟩ }]
  exact congrArg Request.keepAlive (Prod.mk.inj hparse).2.symm

theorem closes_iff (f : Field) : f.closes = true ↔ Lists f.value (ascii "close") :=
  lists_iff (by decide) (by decide) f.value

theorem keepAlive_iff (blk : Block) : blk.keepAlive = true ↔ if blk.http11 = true
    then ∀ v ∈ blk.connections, ¬ Lists v (ascii "close")
    else ∃ v ∈ blk.connections.getLast?, ¬ Lists v (ascii "close") := by
  unfold keepAlive connections
  split
  · simp [← closes_iff]
  · rw [List.getLast?_map]
    simp [← closes_iff, Option.any_eq_true]

/-- **When the flag is right**: under HTTP/1.1 always. Under HTTP/1.0 exactly if there is no
`Connection` line, or the last one has `close`, or none has it and some has `keep-alive`. -/
theorem keepAlive_exact_iff {text : Bytes} {req req' : Request} (h : Accepts text req req') :
    (∃ blk : Block, blk.render = text)
      ∧ ∀ blk : Block, blk.render = text →
        ((req'.keepAlive = true ↔ blk.Persists)
          ↔ blk.http11 = true
            ∨ (∀ v ∈ blk.connections.getLast?, Lists v (ascii "close"))
            ∨ (∀ v ∈ blk.connections, ¬ Lists v (ascii "close"))
              ∧ ∃ v ∈ blk.connections, Lists v (ascii "keep-alive")) := by
  obtain ⟨blk', htext, rfl⟩ := exists_of_accepts h
  refine ⟨⟨blk', htext⟩, fun blk hblk => ?_⟩
  rw [keepAlive_request, ← keepAlive_of_render_eq (hblk.trans htext.symm), keepAlive_iff, Persists]
  cases blk.http11 with
  | true => simp
  | false =>
    simp only [Bool.false_eq_true, if_false, false_or]
    -- what asks for the connection to be kept leaves it on
    have hkept : (∀ v ∈ blk.connections, ¬ Lists v (ascii "close"))
        ∧ (∃ v ∈ blk.connections, Lists v (ascii "keep-alive")) →
          ∃ v ∈ blk.connections.getLast?, ¬ Lists v (ascii "close") := by
      rintro ⟨hclose, v, hv, -⟩
      have hlast := List.getLast?_eq_some_getLast (List.ne_nil_of_mem hv)
      exact ⟨_, hlast, hclose _ (List.mem_of_getLast? hlast)⟩
    constructor
    · intro hiff
      by_cases hlast : ∃ v ∈ blk.connections.getLast?, ¬ Lists v (ascii "close")
      · exact .inr (hiff.mp hlast)
      · exact .inl (fun v hv => not_not.mp (fun hno => hlast ⟨v, hv, hno⟩))
    · rintro (hlast | hasked)
      · exact ⟨fun ⟨v, hv, hno⟩ => absurd (hlast v hv) hno, hkept⟩
      · exact iff_of_true (hkept hasked) hasked

private theorem no_trail (value : Bytes) : value = [] → ([] : Bytes) = [] := fun _ => rfl

private def lineOf (name value : Bytes) (hne : name ≠ [])
    (hname : name.all (fun c => decide (TokenByte c)) = true)
    (hvalue : value.all (fun c => decide (TextByte c)) = true) (htrim : Trimmed value) : Field :=
  ⟨name, [], value, [], hne, forall_mem_of_all hname, nil_blank, nil_blank,
    forall_mem_of_all hvalue, htrim, no_trail value⟩

private def twoMinds : Block where
  method := ascii "PUT"
  target := ascii "/"
  http11 := false
  method_ne := by decide
  method_upper := forall_mem_of_all (by decide)
  target_slash := by decide
  target_visible := forall_mem_of_all (by decide)
  fields :=
    [lineOf (ascii "host") (ascii "x") (by decide) (by decide) (by decide)
      (trimmed_of_ends (by decide) (by decide)),
    lineOf (ascii "Connection") (ascii "close") (by decide) (by decide) (by decide)
      (trimmed_of_ends (by decide) (by decide)),
    lineOf (ascii "Connection") (ascii "keep-alive") (by decide) (by decide) (by decide)
      (trimmed_of_ends (by decide) (by decide))]
  one_host := by decide
  clen_le := by decide
  clen_ok := by decide
  te_ok := by decide
  te_clen := by decide

theorem keepAlive_exact_two_minds :
    ((twoMinds.request { raw := ⟨0, twoMinds.render⟩ }).keepAlive = true ↔ twoMinds.Persists)
      ↔ twoMinds.http11 = true
        ∨ (∀ v ∈ twoMinds.connections.getLast?, Lists v (ascii "close"))
        ∨ (∀ v ∈ twoMinds.connections, ¬ Lists v (ascii "close"))
          ∧ ∃ v ∈ twoMinds.connections, Lists v (ascii "keep-alive") :=
  (keepAlive_exact_iff (.inr ⟨[], parseRequestFromBuf_render twoMinds [] {}⟩)).2 twoMinds rfl

/-- **`close` is overruled by a later line.** -/
theorem close_overruled :
    parseRequestFromBuf (twoMinds.render ++ []) {}
        = (.ok twoMinds.render.length, twoMinds.request { raw := ⟨0, twoMinds.render⟩ })
      ∧ (twoMinds.request { raw := ⟨0, twoMinds.render⟩ }).keepAlive = true
      ∧ ¬ twoMinds.Persists := by
  refine ⟨parseRequestFromBuf_render twoMinds [] {}, ?_, fun h => ?_⟩
  · rw [keepAlive_request]
    decide
  · refine h.1 _ List.mem_cons_self ⟨ascii "close", ?_, rfl⟩
    decide

end Block

end Coreserver
