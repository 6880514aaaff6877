import Pulsys.Base.NetIP
import Pulsys.Proxy.Outbound

/-!
# Which hosts may be asked

What follows the last colon is taken for a port, so an address without brackets loses its
last number; `rejects_iff_cut` says that this is the only way past the gate. Host and bare
host agree for a name with an optional port, and nothing else (`sound_iff_wellFormed`).
-/

namespace Proxy

open Bytes Text NetIP

/-! ## The matcher -/

def ipIsPrivate (ip : Bytes) : Bool :=
  isLoopback ip || isLinkLocalUnicast ip || isLinkLocalMulticast ip || NetIP.isPrivate ip
    || isUnspecified ip

def parseHostIP (bare : Bytes) : Option Bytes := parseIP (trimBrackets bare)

def newMatcher (lower : Bytes → Bytes) (allowed : List Bytes) (host : Bytes) : Bool :=
  let h := lower (Text.trimSpace host)
  let bare := bareHost h
  if h = [] then false
  else if denyHostnames.contains bare then false
  else if (parseHostIP bare).any ipIsPrivate then false
  else allowed.any (fun a =>
    h == a || (DOT :: a).isSuffixOf h || bare == a || (DOT :: a).isSuffixOf bare)

def privateLiteral (s : Bytes) : Bool := (parseIP s).any ipIsPrivate

theorem newMatcher_toLower (allowed : List Bytes) (host : Bytes) :
    newMatcher toLower allowed host = hostAllowed privateLiteral allowed host := rfl

def denies (bare : Bytes) : Bool :=
  denyHostnames.contains bare || privateLiteral (trimBrackets bare)

def Lists (a h : Bytes) : Prop :=
  (h = a ∨ (DOT :: a) <:+ h) ∨ bareHost h = a ∨ (DOT :: a) <:+ bareHost h

theorem newMatcher_eq_true_iff {lower : Bytes → Bytes} {allowed : List Bytes} {host : Bytes} :
    newMatcher lower allowed host = true
      ↔ lower (Text.trimSpace host) ≠ [] ∧ denies (bareHost (lower (Text.trimSpace host))) = false
        ∧ ∃ a ∈ allowed, Lists a (lower (Text.trimSpace host)) := by
  unfold newMatcher denies parseHostIP privateLiteral Lists
  generalize lower (Text.trimSpace host) = h
  dsimp only
  by_cases hempty : h = []
  · rw [if_pos hempty]
    exact iff_of_false (by decide) (fun hand => hand.1 hempty)
  rw [if_neg hempty]
  cases denyHostnames.contains (bareHost h) with
  | true =>
    rw [if_pos rfl]
    exact iff_of_false (by decide) (fun hand => by cases hand.2.1)
  | false =>
    rw [if_neg (by decide)]
    cases (parseIP (trimBrackets (bareHost h))).any ipIsPrivate with
    | true =>
      rw [if_pos rfl]
      exact iff_of_false (by decide) (fun hand => by cases hand.2.1)
    | false =>
      simp only [Bool.false_eq_true, if_false, List.any_eq_true, Bool.or_eq_true, beq_iff_eq,
        List.isSuffixOf_iff_suffix, Bool.or_self, or_assoc]
      exact ⟨fun hany => ⟨hempty, trivial, hany⟩, fun hand => hand.2.2⟩

theorem rejects_iff_denies {lower : Bytes → Bytes} {host : Bytes} :
    (∀ allowed, newMatcher lower allowed host = false)
      ↔ lower (Text.trimSpace host) = []
        ∨ denies (bareHost (lower (Text.trimSpace host))) = true := by
  constructor
  · intro hall
    by_contra hneither
    obtain ⟨hne, hopen⟩ := not_or.mp hneither
    have haccepts : newMatcher lower [lower (Text.trimSpace host)] host = true :=
      newMatcher_eq_true_iff.mpr ⟨hne, Bool.eq_false_iff.mpr hopen, _, List.mem_singleton.mpr rfl,
        .inl (.inl rfl)⟩
    rw [hall] at haccepts
    cases haccepts
  · intro hor allowed
    refine Bool.eq_false_iff.mpr (fun haccepts => ?_)
    obtain ⟨hne, hopen, -⟩ := newMatcher_eq_true_iff.mp haccepts
    rcases hor with hempty | hdenied
    · exact hne hempty
    · rw [hopen] at hdenied
      cases hdenied

/-! ## The cut -/

variable {c : UInt8} {a back core digits name port s : Bytes}

theorem lastIndexByte_append (front : Bytes) (h : c ∉ back) :
    lastIndexByte (front ++ c :: back) c = some front.length := by
  have hreverse : (front ++ c :: back).reverse = back.reverse ++ c :: front.reverse := by
    rw [List.reverse_append, List.reverse_cons, List.append_assoc]
    rfl
  rw [lastIndexByte, hreverse, indexByte_append (fun hmem => h (List.mem_reverse.mp hmem))]
  show some ((front ++ c :: back).length - 1 - back.reverse.length) = some front.length
  rw [List.length_append, List.length_cons, List.length_reverse]
  congr 1
  omega

theorem lastIndexByte_eq_none (h : c ∉ s) : lastIndexByte s c = none := by
  rw [lastIndexByte, indexByte_eq_none.mpr (fun hmem => h (List.mem_reverse.mp hmem))]
  rfl

theorem exists_last_split (h : c ∈ s) : ∃ front back, s = front ++ c :: back ∧ c ∉ back := by
  obtain ⟨back, front, heq, hnot⟩ := List.eq_append_cons_of_mem (List.mem_reverse.mpr h)
  refine ⟨front.reverse, back.reverse, ?_, fun hmem => hnot (List.mem_reverse.mp hmem)⟩
  have hsplit := congrArg List.reverse heq
  rw [List.reverse_reverse, List.reverse_append, List.reverse_cons, List.append_assoc] at hsplit
  exact hsplit

theorem bareHost_port {front : Bytes} (hfront : 91 ∉ front) (hback : COLON ∉ back) :
    bareHost (front ++ COLON :: back) = front := by
  have hhead : (front ++ COLON :: back).head? ≠ some 91 := by
    cases front with
    | nil => exact fun h => absurd (Option.some.inj h) (by decide)
    | cons c front =>
      intro h
      obtain rfl : c = 91 := Option.some.inj h
      exact hfront List.mem_cons_self
  rw [bareHost, lastIndexByte_append front hback]
  dsimp only
  rw [if_neg hhead, List.take_left]

theorem bareHost_plain {h : Bytes} (hbracket : 91 ∉ h) (hcolon : COLON ∉ h) : bareHost h = h := by
  have hhead : h.head? ≠ some 91 := fun hsome => hbracket (List.mem_of_head? hsome)
  rw [bareHost, lastIndexByte_eq_none hcolon]
  exact if_neg hhead

def isBracket (c : UInt8) : Bool := c == 91 || c == 93

theorem isBracket_eq_false (h91 : 91 ∉ s) (h93 : 93 ∉ s) (hc : c ∈ s) : ¬ isBracket c = true := by
  intro hbracket
  rcases Bool.or_eq_true_iff.mp hbracket with h | h
  · exact h91 (beq_iff_eq.mp h ▸ hc)
  · exact h93 (beq_iff_eq.mp h ▸ hc)

theorem rdropWhile_isBracket (h91 : 91 ∉ s) (h93 : 93 ∉ s) : s.rdropWhile isBracket = s :=
  List.rdropWhile_eq_self_iff.mpr (fun hne => isBracket_eq_false h91 h93 (List.getLast_mem hne))

theorem trimBrackets_eq_self (h91 : 91 ∉ s) (h93 : 93 ∉ s) : trimBrackets s = s := by
  have hfront : s.dropWhile isBracket = s :=
    List.dropWhile_eq_self_iff.mpr (fun hlt => isBracket_eq_false h91 h93 (List.getElem_mem hlt))
  show (s.dropWhile isBracket).rdropWhile isBracket = s
  rw [hfront, rdropWhile_isBracket h91 h93]

theorem trimBrackets_bracketed (h91 : 91 ∉ s) (h93 : 93 ∉ s) :
    trimBrackets (91 :: (s ++ [93])) = s := by
  cases s with
  | nil => decide
  | cons c s =>
    have hc : ¬ isBracket c = true := isBracket_eq_false h91 h93 List.mem_cons_self
    show ((91 :: (c :: s ++ [93])).dropWhile isBracket).rdropWhile isBracket = c :: s
    rw [List.dropWhile_cons_of_pos (by decide), List.cons_append, List.dropWhile_cons_of_neg hc,
      ← List.cons_append, List.rdropWhile_concat_pos _ _ _ (by decide),
      rdropWhile_isBracket h91 h93]

theorem bareHost_bracketed (h91 : 91 ∉ s) (h93 : 93 ∉ s) {tail : Bytes}
    (htail : tail = [] ∨ COLON ∈ tail) : bareHost (91 :: (s ++ 93 :: tail)) = s := by
  by_cases hcolon : COLON ∈ 91 :: (s ++ 93 :: tail)
  · have hclose : indexByte (91 :: (s ++ 93 :: tail)) 93 = some (s.length + 1) := by
      refine @indexByte_append (91 :: s) 93 (fun hmem => ?_) tail
      rcases List.mem_cons.mp hmem with h | h
      · exact absurd h (by decide)
      · exact h93 h
    have htake : (91 :: (s ++ 93 :: tail)).take (s.length + 1 + 1) = 91 :: (s ++ [93]) := by
      rw [List.take_succ_cons, List.take_append, List.take_of_length_le (Nat.le_succ _)]
      simp
    obtain ⟨front, back, heq, hnot⟩ := exists_last_split hcolon
    have hlast : lastIndexByte (91 :: (s ++ 93 :: tail)) COLON = some front.length := by
      rw [heq, lastIndexByte_append front hnot]
    rw [bareHost, hlast]
    dsimp only
    rw [if_pos (List.head?_cons), hclose]
    dsimp only
    rw [htake, trimBrackets_bracketed h91 h93]
  · have hempty : tail = [] := htail.resolve_right (fun hmem => hcolon
      (List.mem_cons_of_mem _ (List.mem_append_right _ (List.mem_cons_of_mem _ hmem))))
    rw [bareHost, lastIndexByte_eq_none hcolon]
    dsimp only
    rw [if_pos (List.head?_cons), hempty, trimBrackets_bracketed h91 h93]

/-! ## The gate -/

structure CaseMap where
  lower : Bytes → Bytes
  ascii : ∀ s : Bytes, (∀ c ∈ s, c < 128) → lower s = toLower s

def internalNames : List Bytes :=
  [ascii "localhost", ascii "metadata.google.internal", ascii "metadata.aws.internal"]

def Internal (core : Bytes) : Prop :=
  toLower core ∈ internalNames ∨ privateLiteral core = true

inductive Spells (core : Bytes) : Bytes → Prop
  | bare : Spells core core
  | port (digits : Bytes) : digits.all isDigit = true → Spells core (core ++ COLON :: digits)
  | bracketed : Spells core (91 :: (core ++ [93]))
  | bracketedPort (digits : Bytes) : digits.all isDigit = true →
    Spells core (91 :: (core ++ 93 :: COLON :: digits))

def Denotes (host : Bytes) : Prop :=
  ∃ core, Internal core ∧ Spells core (Text.trimSpace host)

theorem lt_of_lowerByte_lt (h : lowerByte c < 128) : c < 128 := by
  have hall : ∀ n : Fin 256, lowerByte (UInt8.ofFin n) < 128 → UInt8.ofFin n < 128 := by
    decide +kernel
  exact hall c.toFin h

theorem isAddrByte_facts (h : isAddrByte c = true) : c < 128 ∧ c ≠ 91 ∧ c ≠ 93 := by
  have hall : ∀ n : Fin 256, isAddrByte (UInt8.ofFin n) = true →
      UInt8.ofFin n < 128 ∧ UInt8.ofFin n ≠ 91 ∧ UInt8.ofFin n ≠ 93 := by
    decide +kernel
  exact hall c.toFin h

theorem isAddrByte_of_privateLiteral (h : privateLiteral s = true) :
    ∀ c ∈ s, isAddrByte c = true := by
  unfold privateLiteral at h
  cases hip : parseIP s with
  | none =>
    rw [hip] at h
    cases h
  | some ip => exact isAddrByte_of_parseIP hip

theorem privateLiteral_toLower (s : Bytes) : privateLiteral (toLower s) = privateLiteral s := by
  rw [privateLiteral, parseIP_toLower, privateLiteral]

theorem denies_of_privateLiteral (h : privateLiteral s = true) : denies s = true := by
  have hbytes := isAddrByte_of_privateLiteral h
  have htrim : trimBrackets s = s := trimBrackets_eq_self
    (fun hmem => (isAddrByte_facts (hbytes _ hmem)).2.1 rfl)
    (fun hmem => (isAddrByte_facts (hbytes _ hmem)).2.2 rfl)
  rw [denies, htrim, h, Bool.or_true]

theorem Internal.facts (h : Internal core) :
    (∀ c ∈ core, c < 128) ∧ 91 ∉ toLower core ∧ 93 ∉ toLower core
      ∧ denies (toLower core) = true ∧ (COLON ∈ core → privateLiteral core = true) := by
  rcases h with hname | hliteral
  · have hnames : ∀ name ∈ internalNames, (∀ c ∈ name, c < 128) ∧ 91 ∉ name ∧ 93 ∉ name
        ∧ denies name = true ∧ COLON ∉ name := by decide +kernel
    obtain ⟨hascii, h91, h93, hdenied, hcolon⟩ := hnames _ hname
    refine ⟨fun c hc => ?_, h91, h93, hdenied, fun hmem => absurd ?_ hcolon⟩
    · exact lt_of_lowerByte_lt (hascii _ (List.mem_map_of_mem hc))
    · exact List.mem_map_of_mem hmem
  · have hlower : privateLiteral (toLower core) = true :=
      (privateLiteral_toLower core).trans hliteral
    have hbytes := isAddrByte_of_privateLiteral hlower
    refine ⟨fun c hc => ?_, fun hmem => ?_, fun hmem => ?_, denies_of_privateLiteral hlower,
      fun _ => hliteral⟩
    · exact (isAddrByte_facts (isAddrByte_of_privateLiteral hliteral c hc)).1
    · exact (isAddrByte_facts (hbytes _ hmem)).2.1 rfl
    · exact (isAddrByte_facts (hbytes _ hmem)).2.2 rfl

theorem ascii_of_digits (h : digits.all isDigit = true) : ∀ c ∈ digits, c < 128 := fun c hc =>
  (isAddrByte_facts (isAddrByte_of_isDigit (List.all_eq_true.mp h c hc))).1

theorem colon_notMem_digits (h : digits.all isDigit = true) : COLON ∉ digits :=
  fun hmem => absurd (List.all_eq_true.mp h COLON hmem) (by decide)

theorem Spells.ascii (h : Spells core s) (hcore : ∀ c ∈ core, c < 128) : ∀ c ∈ s, c < 128 := by
  cases h with
  | bare => exact hcore
  | port digits hdigits =>
    exact List.forall_mem_append.mpr ⟨hcore, List.forall_mem_cons.mpr
      ⟨by decide, ascii_of_digits hdigits⟩⟩
  | bracketed =>
    exact List.forall_mem_cons.mpr ⟨by decide, List.forall_mem_append.mpr
      ⟨hcore, List.forall_mem_singleton.mpr (by decide)⟩⟩
  | bracketedPort digits hdigits =>
    exact List.forall_mem_cons.mpr ⟨by decide, List.forall_mem_append.mpr ⟨hcore,
      List.forall_mem_cons.mpr ⟨by decide, List.forall_mem_cons.mpr
        ⟨by decide, ascii_of_digits hdigits⟩⟩⟩⟩

theorem toLower_port (core : Bytes) (h : digits.all isDigit = true) :
    toLower (core ++ COLON :: digits) = toLower core ++ COLON :: digits := by
  rw [toLower_eq_map, List.map_append, ← toLower_eq_map]
  exact congrArg (toLower core ++ COLON :: ·) (toLower_of_digits (List.all_eq_true.mp h))

theorem Spells.bareHost_eq (h : Spells core s) (h91 : 91 ∉ toLower core) (h93 : 93 ∉ toLower core)
    (hne : s ≠ core ∨ COLON ∉ core) : bareHost (toLower s) = toLower core := by
  cases h with
  | bare =>
    have hcolon : COLON ∉ toLower core :=
      fun hmem => hne.resolve_left (fun hself => hself rfl) (mem_toLower (by decide) hmem)
    exact bareHost_plain h91 hcolon
  | port digits hdigits =>
    rw [toLower_port core hdigits]
    exact bareHost_port h91 (colon_notMem_digits hdigits)
  | bracketed =>
    have hlower : toLower (91 :: (core ++ [93])) = 91 :: (toLower core ++ 93 :: []) := by
      rw [toLower_eq_map, List.map_cons, List.map_append]
      rfl
    rw [hlower]
    exact bareHost_bracketed h91 h93 (.inl rfl)
  | bracketedPort digits hdigits =>
    have hlower : toLower (91 :: (core ++ 93 :: COLON :: digits))
        = 91 :: (toLower core ++ 93 :: COLON :: toLower digits) := by
      rw [toLower_eq_map, List.map_cons, List.map_append]
      rfl
    rw [hlower]
    exact bareHost_bracketed h91 h93 (.inr List.mem_cons_self)

theorem bareHost_literal {front : Bytes}
    (hliteral : privateLiteral (front ++ COLON :: back) = true) (hback : COLON ∉ back) :
    bareHost (toLower (front ++ COLON :: back)) = toLower front := by
  have hbytes := isAddrByte_of_privateLiteral ((privateLiteral_toLower _).trans hliteral)
  have hlower : toLower (front ++ COLON :: back) = toLower front ++ COLON :: toLower back := by
    rw [toLower_eq_map, List.map_append]
    rfl
  rw [hlower] at hbytes ⊢
  exact bareHost_port
    (fun hmem => (isAddrByte_facts (hbytes 91 (List.mem_append_left _ hmem))).2.1 rfl)
    (fun hmem => hback (mem_toLower (by decide) hmem))

theorem privateLiteral_of_denies (hbytes : ∀ c ∈ s, isAddrByte c = true) (h : denies s = true) :
    privateLiteral s = true := by
  have hnames : ∀ name ∈ denyHostnames, (∀ c ∈ name, isAddrByte c = true) →
      privateLiteral name = true := by decide +kernel
  rw [denies, trimBrackets_eq_self (fun hmem => (isAddrByte_facts (hbytes _ hmem)).2.1 rfl)
    (fun hmem => (isAddrByte_facts (hbytes _ hmem)).2.2 rfl)] at h
  rcases Bool.or_eq_true_iff.mp h with hname | hliteral
  · exact hnames s (List.contains_iff_mem.mp hname) hbytes
  · exact hliteral

/-- **The gate, exactly**: a private host is rejected unless it is an address without brackets
and port, and what stands before its last colon is none. -/
theorem rejects_iff_cut (m : CaseMap) (host : Bytes) :
    (Denotes host → ∀ allowed, newMatcher m.lower allowed host = false)
      ↔ (privateLiteral (Text.trimSpace host) = true → ∀ front back,
        Text.trimSpace host = front ++ COLON :: back → COLON ∉ back →
          privateLiteral front = true) := by
  constructor
  · intro hall hliteral front back hsplit hback
    have hbytes := isAddrByte_of_privateLiteral hliteral
    have hlower := m.ascii (Text.trimSpace host) (fun c hc => (isAddrByte_facts (hbytes c hc)).1)
    have hrejects := rejects_iff_denies.mp (hall ⟨_, .inr hliteral, .bare⟩)
    have hfront := isAddrByte_of_privateLiteral ((privateLiteral_toLower _).trans hliteral)
    rw [hlower, hsplit] at hrejects
    rw [hsplit] at hliteral hfront
    rw [bareHost_literal hliteral hback] at hrejects
    rcases hrejects with hempty | hdenied
    · rw [toLower_eq_nil_iff] at hempty
      exact absurd hempty (List.append_ne_nil_of_right_ne_nil _ (List.cons_ne_nil _ _))
    · rw [← privateLiteral_toLower]
      refine privateLiteral_of_denies (fun c hc => hfront c ?_) hdenied
      rw [toLower_eq_map, List.map_append]
      exact List.mem_append_left _ hc
  · rintro hcut ⟨core, hinternal, hspells⟩
    obtain ⟨hascii, h91, h93, hdenied, hcolon⟩ := hinternal.facts
    refine rejects_iff_denies.mpr (.inr ?_)
    rw [m.ascii _ (hspells.ascii hascii)]
    by_cases halone : Text.trimSpace host = core ∧ COLON ∈ core
    · -- an address alone, with a colon: what stands before the last one is denied
      obtain ⟨rfl, hmem⟩ := halone
      obtain ⟨front, back, hsplit, hback⟩ := exists_last_split hmem
      have hliteral := hcolon hmem
      have hfront := hcut hliteral front back hsplit hback
      rw [hsplit] at hliteral ⊢
      rw [bareHost_literal hliteral hback]
      exact denies_of_privateLiteral ((privateLiteral_toLower front).trans hfront)
    · rw [hspells.bareHost_eq h91 h93 (not_and_or.mp halone)]
      exact hdenied

/-- **The loopback address alone is let through**, if it is listed, and so is an address
of a private network. -/
theorem unbracketed_loopback_accepted :
    Denotes (ascii "::1") ∧ newMatcher toLower [ascii "::1"] (ascii "::1") = true
      ∧ Denotes (ascii "fd00::1") ∧ newMatcher toLower [ascii "fd00::1"] (ascii "fd00::1") = true
      ∧ newMatcher toLower [ascii "::1"] (ascii "[::1]") = false := by
  refine ⟨⟨ascii "::1", .inr (by decide +kernel), ?_⟩, by decide +kernel,
    ⟨ascii "fd00::1", .inr (by decide +kernel), ?_⟩, by decide +kernel, by decide +kernel⟩
  · exact (by decide +kernel : Text.trimSpace (ascii "::1") = ascii "::1") ▸ .bare
  · exact (by decide +kernel : Text.trimSpace (ascii "fd00::1") = ascii "fd00::1") ▸ .bare

/-! ## Names -/

def isLabelByte (c : UInt8) : Bool :=
  isDigit c || (65 ≤ c && c ≤ 90) || (97 ≤ c && c ≤ 122) || c == 45 || c == 95

def isLabel (l : Bytes) : Bool := !l.isEmpty && l.all isLabelByte

inductive DNSName : Bytes → Prop
  | label (l : Bytes) : isLabel l = true → DNSName l
  | dotted (l s : Bytes) : isLabel l = true → DNSName s → DNSName (l ++ DOT :: s)

def EndsInLabel (x : Bytes) : Prop := ∃ l, isLabel l = true ∧ (x = l ∨ (DOT :: l) <:+ x)

theorem EndsInLabel.of_suffix {x : Bytes} (ha : EndsInLabel a) (h : x = a ∨ (DOT :: a) <:+ x) :
    EndsInLabel x := by
  obtain ⟨l, hl, hend⟩ := ha
  rcases h with rfl | hsuffix
  · exact ⟨l, hl, hend⟩
  · refine ⟨l, hl, .inr ?_⟩
    rcases hend with rfl | hend
    · exact hsuffix
    · exact hend.trans ((List.suffix_cons DOT a).trans hsuffix)

theorem DNSName.endsInLabel (h : DNSName a) : EndsInLabel a := by
  induction h with
  | label l hl => exact ⟨l, hl, .inl rfl⟩
  | dotted l s _ _ ih => exact ih.of_suffix (.inr (List.suffix_append l (DOT :: s)))

theorem DNSName.ne_nil (h : DNSName a) : a ≠ [] := by
  cases h with
  | label l hl =>
    rintro rfl
    cases hl
  | dotted l s _ _ => exact List.append_ne_nil_of_right_ne_nil _ (List.cons_ne_nil _ _)

theorem DNSName.bytes (h : DNSName a) : ∀ c ∈ a, isLabelByte c = true ∨ c = DOT := by
  have hlabel : ∀ l, isLabel l = true → ∀ c ∈ l, isLabelByte c = true ∨ c = DOT :=
    fun l hl c hc => .inl (List.all_eq_true.mp (Bool.and_eq_true_iff.mp hl).2 c hc)
  induction h with
  | label l hl => exact hlabel l hl
  | dotted l s hl _ ih =>
    exact List.forall_mem_append.mpr ⟨hlabel l hl, List.forall_mem_cons.mpr ⟨.inr rfl, ih⟩⟩

theorem DNSName.facts (h : DNSName a) : (∀ c ∈ a, c < 128) ∧ COLON ∉ a ∧ 91 ∉ a := by
  have hall : ∀ n : Fin 256, isLabelByte (UInt8.ofFin n) = true ∨ UInt8.ofFin n = DOT →
      UInt8.ofFin n < 128 ∧ UInt8.ofFin n ≠ COLON ∧ UInt8.ofFin n ≠ 91 := by
    decide +kernel
  exact ⟨fun c hc => (hall c.toFin (h.bytes c hc)).1,
    fun hmem => (hall COLON.toFin (h.bytes _ hmem)).2.1 rfl,
    fun hmem => (hall (91 : UInt8).toFin (h.bytes _ hmem)).2.2 rfl⟩

def WellFormed (h : Bytes) : Prop :=
  ∃ name port, h = name ++ port ∧ DNSName name ∧ validOptionalPort port = true

theorem validOptionalPort_cases (h : validOptionalPort port = true) :
    port = [] ∨ ∃ digits, digits.all isDigit = true ∧ port = COLON :: digits := by
  cases port with
  | nil => exact .inl rfl
  | cons c digits =>
    obtain ⟨hc, hdigits⟩ := Bool.and_eq_true_iff.mp h
    exact .inr ⟨digits, hdigits, by rw [beq_iff_eq.mp hc]⟩

theorem bareHost_wellFormed (hname : DNSName name) (hport : validOptionalPort port = true) :
    bareHost (name ++ port) = name := by
  obtain ⟨-, hcolon, h91⟩ := hname.facts
  rcases validOptionalPort_cases hport with rfl | ⟨digits, hdigits, rfl⟩
  · rw [List.append_nil]
    exact bareHost_plain h91 hcolon
  · exact bareHost_port h91 (colon_notMem_digits hdigits)

theorem contacted_wellFormed (net : NetHTTP) (hname : DNSName name)
    (hport : validOptionalPort port = true) : net.contacted (name ++ port) = some name := by
  obtain ⟨hascii, hcolon, h91⟩ := hname.facts
  have hhead : name.head? ≠ some 91 := fun hsome => h91 (List.mem_of_head? hsome)
  have hhostname : hostname (name ++ port) = name := by
    rcases validOptionalPort_cases hport with rfl | ⟨digits, hdigits, rfl⟩
    · rw [List.append_nil, hostname, lastIndexByte_eq_none hcolon]
      exact if_neg (fun hand => hhead hand.1)
    · rw [hostname, lastIndexByte_append name (colon_notMem_digits hdigits)]
      simp only [List.drop_left, hport, if_true, List.take_left]
      exact if_neg (fun hand => hhead hand.1)
  have hall : name.all (· < 128) = true :=
    List.all_eq_true.mpr (fun c hc => decide_eq_true (hascii c hc))
  rw [NetHTTP.contacted, hhostname, if_pos hall]

theorem lists_wellFormed (ha : DNSName a) (hname : DNSName name)
    (hport : validOptionalPort port = true) (h : Lists a (name ++ port)) :
    name = a ∨ (DOT :: a) <:+ name := by
  obtain ⟨-, hcolon, -⟩ := ha.facts
  rw [Lists, bareHost_wellFormed hname hport] at h
  rcases h with hwhole | hbare
  · rcases validOptionalPort_cases hport with rfl | ⟨digits, hdigits, rfl⟩
    · rwa [List.append_nil] at hwhole
    · -- with a port, no name is the whole and none is its end
      rcases hwhole with heq | hsuffix
      · refine absurd ?_ hcolon
        rw [← heq]
        exact List.mem_append_right _ List.mem_cons_self
      · rcases List.suffix_or_suffix_of_suffix hsuffix (List.suffix_append name (COLON :: digits))
          with hin | hin
        · rcases List.mem_cons.mp (hin.subset List.mem_cons_self) with hdot | hdot
          · exact absurd hdot (by decide)
          · exact absurd (List.all_eq_true.mp hdigits DOT hdot) (by decide)
        · rcases List.mem_cons.mp (hin.subset List.mem_cons_self) with hdot | hmem
          · exact absurd hdot (by decide)
          · exact absurd hmem hcolon
  · exact hbare

/-! ## The list -/

/-- **Soundness of the list, exactly**: for hosts that are empty or denied, end in no label,
or are a name with an optional port. -/
theorem sound_iff_wellFormed (lower : Bytes → Bytes) (net : NetHTTP) (host : Bytes) :
    (∀ allowed, (∀ a ∈ allowed, DNSName a) → newMatcher lower allowed host = true →
        ∃ name port, lower (Text.trimSpace host) = name ++ port ∧ DNSName name
          ∧ validOptionalPort port = true ∧ (∃ a ∈ allowed, name = a ∨ (DOT :: a) <:+ name)
          ∧ net.contacted (lower (Text.trimSpace host)) = some name)
      ↔ lower (Text.trimSpace host) = []
        ∨ denies (bareHost (lower (Text.trimSpace host))) = true
        ∨ (¬ EndsInLabel (lower (Text.trimSpace host))
          ∧ ¬ EndsInLabel (bareHost (lower (Text.trimSpace host))))
        ∨ WellFormed (lower (Text.trimSpace host)) := by
  constructor
  · intro hsound
    by_contra hnone
    obtain ⟨hne, hnone⟩ := not_or.mp hnone
    obtain ⟨hopen, hnone⟩ := not_or.mp hnone
    obtain ⟨hends, hbad⟩ := not_or.mp hnone
    -- the label at the end, as the only entry, lets the host through
    obtain ⟨l, hl, hlists⟩ : ∃ l, isLabel l = true ∧ Lists l (lower (Text.trimSpace host)) := by
      rcases Classical.not_and_iff_not_or_not.mp hends with hwhole | hbare
      · obtain ⟨l, hl, hend⟩ := not_not.mp hwhole
        exact ⟨l, hl, .inl hend⟩
      · obtain ⟨l, hl, hend⟩ := not_not.mp hbare
        exact ⟨l, hl, .inr hend⟩
    obtain ⟨name, port, heq, hname, hport, -⟩ := hsound [l]
      (List.forall_mem_singleton.mpr (.label l hl))
      (newMatcher_eq_true_iff.mpr ⟨hne, Bool.eq_false_iff.mpr hopen, l,
        List.mem_singleton.mpr rfl, hlists⟩)
    exact hbad ⟨name, port, heq, hname, hport⟩
  · intro hcond allowed hnames haccepts
    obtain ⟨hne, hopen, a, ha, hlists⟩ := newMatcher_eq_true_iff.mp haccepts
    rcases hcond with hempty | hdenied | ⟨hwhole, hbare⟩ | ⟨name, port, heq, hname, hport⟩
    · exact absurd hempty hne
    · rw [hopen] at hdenied
      cases hdenied
    · rcases hlists with hend | hend
      · exact absurd ((hnames a ha).endsInLabel.of_suffix hend) hwhole
      · exact absurd ((hnames a ha).endsInLabel.of_suffix hend) hbare
    · rw [heq] at hlists ⊢
      exact ⟨name, port, rfl, hname, hport,
        ⟨a, ha, lists_wellFormed (hnames a ha) hname hport hlists⟩,
        contacted_wellFormed net hname hport⟩

/-- A host that ends in a name of the list: an address of the machine, in brackets, whose zone
ends in the name. -/
theorem zone_reaches_loopback :
    DNSName (ascii "huggingface.co")
      ∧ newMatcher toLower [ascii "huggingface.co"] (ascii "[::1%.huggingface.co]") = true
      ∧ ¬ WellFormed (toLower (Text.trimSpace (ascii "[::1%.huggingface.co]")))
      ∧ ∃ name, NetHTTP.contacted ⟨fun _ => true, fun _ => none⟩ (ascii "[::1%.huggingface.co]")
          = some name
        ∧ parseAddr name = some ⟨ipv6Loopback, ascii ".huggingface.co"⟩
        ∧ newMatcher toLower [ascii "huggingface.co"] (ascii "huggingface.co:80@evil.com")
          = true := by
  have hname : DNSName (ascii "huggingface.co") :=
    .dotted (ascii "huggingface") (ascii "co") (by decide) (.label _ (by decide))
  refine ⟨hname, by decide +kernel, ?_, _, rfl, by decide +kernel, by decide +kernel⟩
  rintro ⟨name, port, heq, hdns, -⟩
  have htext : toLower (Text.trimSpace (ascii "[::1%.huggingface.co]"))
      = 91 :: ascii "::1%.huggingface.co]" := by decide +kernel
  rw [htext] at heq
  cases name with
  | nil => exact hdns.ne_nil rfl
  | cons c name =>
    obtain rfl : 91 = c := (List.cons.inj heq).1
    exact hdns.facts.2.2 List.mem_cons_self

end Proxy
