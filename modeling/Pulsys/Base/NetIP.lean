import Mathlib.Data.List.TakeWhile
import Pulsys.Base.Numeral

/-!
# Addresses

Addresses have sixteen bytes and are written as four decimal or up to eight hexadecimal
numbers. Only hexadecimal digits, dots and colons occur in the spelling
(`isAddrByte_of_parseIP`), in either case (`parseIP_toLower`).
-/

namespace NetIP

open Bytes Numeral

abbrev DOT : UInt8 := 46

abbrev ZONE : UInt8 := 37

def octet (s : Bytes) : Option UInt8 :=
  if s ≠ [] ∧ s.all Text.isDigit ∧ (s.length = 1 ∨ s.head? ≠ some 48) ∧ value 10 s ≤ 255 then
    some (value 10 s).toUInt8
  else none

def octets : ℕ → Bytes → Option Bytes
  | 0, _ => none
  | 1, s => (octet s).map ([·])
  | n + 2, s =>
    let rest := s.dropWhile Text.isDigit
    if rest.head? = some DOT then
      (octet (s.takeWhile Text.isDigit)).bind fun v => (octets (n + 1) rest.tail).map (v :: ·)
    else none

def twoBytes (v : ℕ) : Bytes := [(v / 256).toUInt8, v.toUInt8]

def fields : ℕ → Bytes → Option ℕ → Bytes → Option (Bytes × Option ℕ)
  | 0, ip, ellipsis, s => if s = [] then some (ip, ellipsis) else none
  | n + 1, ip, ellipsis, s =>
    let group := s.takeWhile isHexDigit
    let ip' := ip ++ twoBytes (value 16 group)
    if group = [] ∨ 4 < group.length then none
    else
      match s.dropWhile isHexDigit with
      | [] => some (ip', ellipsis)
      | c :: t =>
        if c = DOT then
          if ellipsis = none ∧ ip.length ≠ 12 ∨ 12 < ip.length then none
          else (octets 4 s).map (fun v4 => (ip ++ v4, ellipsis))
        else if c ≠ COLON ∨ t = [] then none
        else if t.head? = some COLON then
          if ellipsis.isSome then none
          else if t.tail = [] then some (ip', some ip'.length)
          else fields n ip' (some ip'.length) t.tail
        else fields n ip' ellipsis t

def expand (ip : Bytes) (ellipsis : Option ℕ) : Option Bytes :=
  match ellipsis with
  | none => if ip.length < 16 then none else some ip
  | some k =>
    if ip.length < 16 then some (ip.take k ++ List.replicate (16 - ip.length) 0 ++ ip.drop k)
    else none

def parseIPv6 (s : Bytes) : Option Bytes :=
  if s.take 2 = [COLON, COLON] then
    if s.drop 2 = [] then some (List.replicate 16 0)
    else (fields 8 [] (some 0) (s.drop 2)).bind (fun r => expand r.1 r.2)
  else (fields 8 [] none s).bind (fun r => expand r.1 r.2)

def v4InV6Prefix : Bytes := [0, 0, 0, 0, 0, 0, 0, 0, 0, 0, 255, 255]

structure Addr where
  ip : Bytes
  zone : Bytes
  deriving DecidableEq, Repr

def isMark (c : UInt8) : Bool := c == DOT || c == COLON || c == ZONE

def parseAddr (s : Bytes) : Option Addr :=
  match s.find? isMark with
  | none => none
  | some c =>
    if c = DOT then (octets 4 s).map (fun v4 => ⟨v4InV6Prefix ++ v4, []⟩)
    else if c = COLON then
      match indexByte s ZONE with
      | none => (parseIPv6 s).map (⟨·, []⟩)
      | some i =>
        if s.drop (i + 1) = [] then none else (parseIPv6 (s.take i)).map (⟨·, s.drop (i + 1)⟩)
    else none

def parseIP (s : Bytes) : Option Bytes :=
  (parseAddr s).bind (fun a => if a.zone = [] then some a.ip else none)

def to4 (ip : Bytes) : Option Bytes :=
  if ip.take 12 = v4InV6Prefix then some (ip.drop 12) else none

def ipv6Loopback : Bytes := List.replicate 15 0 ++ [1]

def isUnspecified (ip : Bytes) : Bool :=
  ip == v4InV6Prefix ++ List.replicate 4 0 || ip == List.replicate 16 0

def isLoopback (ip : Bytes) : Bool :=
  match to4 ip with
  | some ip4 => ip4.getD 0 0 == 127
  | none => ip == ipv6Loopback

def isPrivate (ip : Bytes) : Bool :=
  match to4 ip with
  | some ip4 =>
    ip4.getD 0 0 == 10 || (ip4.getD 0 0 == 172 && ip4.getD 1 0 &&& 240 == 16)
      || (ip4.getD 0 0 == 192 && ip4.getD 1 0 == 168)
  | none => ip.getD 0 0 &&& 254 == 252

def isLinkLocalMulticast (ip : Bytes) : Bool :=
  match to4 ip with
  | some ip4 => ip4.getD 0 0 == 224 && ip4.getD 1 0 == 0 && ip4.getD 2 0 == 0
  | none => ip.getD 0 0 == 255 && ip.getD 1 0 &&& 15 == 2

def isLinkLocalUnicast (ip : Bytes) : Bool :=
  match to4 ip with
  | some ip4 => ip4.getD 0 0 == 169 && ip4.getD 1 0 == 254
  | none => ip.getD 0 0 == 254 && ip.getD 1 0 &&& 192 == 128

def isAddrByte (c : UInt8) : Bool := isHexDigit c || c == DOT || c == COLON

theorem isAddrByte_of_isHexDigit {c : UInt8} (h : isHexDigit c = true) : isAddrByte c = true := by
  rw [isAddrByte, h]
  rfl

theorem isAddrByte_of_isDigit {c : UInt8} (h : Text.isDigit c = true) : isAddrByte c = true := by
  refine isAddrByte_of_isHexDigit ?_
  rw [Text.isDigit] at h
  rw [isHexDigit, h]
  rfl

theorem isAddrByte_of_octet {s : Bytes} {v : UInt8} (h : octet s = some v) :
    ∀ c ∈ s, isAddrByte c = true := by
  obtain ⟨⟨-, hdigits, -⟩, -⟩ := Option.ite_none_right_eq_some.mp h
  exact fun c hc => isAddrByte_of_isDigit (List.all_eq_true.mp hdigits c hc)

theorem mem_takeWhile_or_dropWhile {p : UInt8 → Bool} {s : Bytes} {c : UInt8} (h : c ∈ s) :
    p c = true ∨ c ∈ s.dropWhile p := by
  rw [← @List.takeWhile_append_dropWhile _ p s] at h
  exact (List.mem_append.mp h).imp List.mem_takeWhile_imp id

theorem isAddrByte_of_octets {n : ℕ} {s v : Bytes} (h : octets n s = some v) :
    ∀ c ∈ s, isAddrByte c = true := by
  induction n generalizing s v with
  | zero => cases h
  | succ n ih =>
    cases n with
    | zero =>
      obtain ⟨d, hd, -⟩ := Option.map_eq_some_iff.mp h
      exact isAddrByte_of_octet hd
    | succ n =>
      obtain ⟨hdot, h⟩ := Option.ite_none_right_eq_some.mp h
      obtain ⟨d, -, h⟩ := Option.bind_eq_some_iff.mp h
      obtain ⟨rest, hrest, -⟩ := Option.map_eq_some_iff.mp h
      intro c hc
      rcases @mem_takeWhile_or_dropWhile Text.isDigit s c hc with hdigit | hdrop
      · exact isAddrByte_of_isDigit hdigit
      · obtain ⟨t, ht⟩ := List.head?_eq_some_iff.mp hdot
        rw [ht] at hdrop
        rcases List.mem_cons.mp hdrop with rfl | hmem
        · rfl
        · refine ih hrest c ?_
          rw [ht]
          exact hmem

theorem isAddrByte_of_fields {n : ℕ} {ip s : Bytes} {ellipsis : Option ℕ}
    {r : Bytes × Option ℕ} (h : fields n ip ellipsis s = some r) :
    ∀ c ∈ s, isAddrByte c = true := by
  induction n generalizing ip ellipsis s with
  | zero =>
    obtain ⟨rfl, -⟩ := Option.ite_none_right_eq_some.mp h
    exact fun c hc => (by cases hc)
  | succ n ih =>
    unfold fields at h
    dsimp only at h
    obtain ⟨-, h⟩ := Option.ite_none_left_eq_some.mp h
    -- the group, and what follows it
    have hrest : ∀ t, s.dropWhile isHexDigit = t →
        (∀ c ∈ t, isAddrByte c = true) → ∀ c ∈ s, isAddrByte c = true := by
      intro t ht hall c hc
      rcases @mem_takeWhile_or_dropWhile isHexDigit s c hc with hhex | hdrop
      · exact isAddrByte_of_isHexDigit hhex
      · rw [ht] at hdrop
        exact hall c hdrop
    split at h
    · next ht => exact hrest [] ht (fun c hc => (by cases hc))
    · next c t ht =>
      split at h
      · obtain ⟨-, h⟩ := Option.ite_none_left_eq_some.mp h
        obtain ⟨v4, hv4, -⟩ := Option.map_eq_some_iff.mp h
        exact isAddrByte_of_octets hv4
      · obtain ⟨hcolon, hmore⟩ := Option.ite_none_left_eq_some.mp h
        have hc : c = COLON := not_not.mp (not_or.mp hcolon).1
        refine hrest _ ht (List.forall_mem_cons.mpr ⟨by rw [hc]; rfl, ?_⟩)
        by_cases hhead : t.head? = some COLON
        · rw [if_pos hhead] at hmore
          obtain ⟨-, hmore⟩ := Option.ite_none_left_eq_some.mp hmore
          obtain ⟨t', ht'⟩ := List.head?_eq_some_iff.mp hhead
          rw [ht', List.tail_cons] at hmore
          rw [ht']
          refine List.forall_mem_cons.mpr ⟨rfl, ?_⟩
          by_cases hend : t' = []
          · rw [hend]
            exact fun c hc => (by cases hc)
          · rw [if_neg hend] at hmore
            exact ih hmore
        · rw [if_neg hhead] at hmore
          exact ih hmore

theorem isAddrByte_of_parseIPv6 {s ip : Bytes} (h : parseIPv6 s = some ip) :
    ∀ c ∈ s, isAddrByte c = true := by
  unfold parseIPv6 at h
  split at h
  · next hcolons =>
    have hsplit : s = [COLON, COLON] ++ s.drop 2 := by
      rw [← hcolons, List.take_append_drop]
    have hrest : ∀ c ∈ s.drop 2, isAddrByte c = true := by
      split at h
      · next hend =>
        rw [hend]
        exact fun c hc => (by cases hc)
      · obtain ⟨r, hr, -⟩ := Option.bind_eq_some_iff.mp h
        exact isAddrByte_of_fields hr
    rw [hsplit]
    exact List.forall_mem_cons.mpr ⟨rfl, List.forall_mem_cons.mpr ⟨rfl, hrest⟩⟩
  · obtain ⟨r, hr, -⟩ := Option.bind_eq_some_iff.mp h
    exact isAddrByte_of_fields hr

theorem parseIP_eq (s : Bytes) :
    parseIP s = (s.find? isMark).bind (fun c =>
      if c = DOT then (octets 4 s).map (v4InV6Prefix ++ ·)
      else if c = COLON ∧ indexByte s ZONE = none then parseIPv6 s else none) := by
  have hplain : ∀ o : Option Bytes, ((o.map (⟨·, []⟩ : Bytes → Addr)).bind fun a =>
      if a.zone = [] then some a.ip else none) = o := by
    intro o
    cases o with
    | none => rfl
    | some ip => rfl
  unfold parseIP parseAddr
  cases s.find? isMark with
  | none => rfl
  | some c =>
    rw [Option.bind_some]
    dsimp only
    by_cases hdot : c = DOT
    · rw [if_pos hdot, if_pos hdot]
      cases octets 4 s with
      | none => rfl
      | some v4 => rfl
    rw [if_neg hdot, if_neg hdot]
    by_cases hcolon : c = COLON
    · rw [if_pos hcolon]
      cases hzone : indexByte s ZONE with
      | none => exact (hplain _).trans (if_pos ⟨hcolon, rfl⟩).symm
      | some i =>
        rw [if_neg (fun hand => by cases hand.2)]
        dsimp only
        by_cases hempty : s.drop (i + 1) = []
        · rw [if_pos hempty]
          rfl
        · rw [if_neg hempty, Option.bind_map]
          exact Option.bind_eq_none_iff.mpr (fun _ _ => if_neg hempty)
    · rw [if_neg hcolon, if_neg (fun hand => hcolon hand.1)]
      rfl

theorem isAddrByte_of_parseIP {s ip : Bytes} (h : parseIP s = some ip) :
    ∀ c ∈ s, isAddrByte c = true := by
  rw [parseIP_eq] at h
  obtain ⟨c, -, h⟩ := Option.bind_eq_some_iff.mp h
  split at h
  · obtain ⟨v4, hv4, -⟩ := Option.map_eq_some_iff.mp h
    exact isAddrByte_of_octets hv4
  · obtain ⟨-, h⟩ := Option.ite_none_right_eq_some.mp h
    exact isAddrByte_of_parseIPv6 h

open Text

theorem isHexDigit_lowerByte (c : UInt8) : isHexDigit (lowerByte c) = isHexDigit c := by
  have hall : ∀ n : Fin 256,
      isHexDigit (lowerByte (UInt8.ofFin n)) = isHexDigit (UInt8.ofFin n) := by
    decide +kernel
  exact hall c.toFin

theorem digitValue_lowerByte {c : UInt8} (h : isHexDigit c = true) :
    digitValue (lowerByte c) = digitValue c := by
  have hall : ∀ n : Fin 256, isHexDigit (UInt8.ofFin n) = true →
      digitValue (lowerByte (UInt8.ofFin n)) = digitValue (UInt8.ofFin n) := by
    decide +kernel
  exact hall c.toFin h

theorem isDigit_lowerByte (c : UInt8) : isDigit (lowerByte c) = isDigit c := by
  have hall : ∀ n : Fin 256, isDigit (lowerByte (UInt8.ofFin n)) = isDigit (UInt8.ofFin n) := by
    decide +kernel
  exact hall c.toFin

theorem lowerByte_of_isDigit {c : UInt8} (h : isDigit c = true) : lowerByte c = c := by
  have hall : ∀ n : Fin 256, isDigit (UInt8.ofFin n) = true →
      lowerByte (UInt8.ofFin n) = UInt8.ofFin n := by
    decide +kernel
  exact hall c.toFin h

theorem takeWhile_toLower {p : UInt8 → Bool} (hp : ∀ c, p (lowerByte c) = p c) (s : Bytes) :
    (toLower s).takeWhile p = toLower (s.takeWhile p) := by
  rw [toLower_eq_map, toLower_eq_map, List.takeWhile_map]
  exact congrArg (fun q => (s.takeWhile q).map lowerByte) (funext hp)

theorem dropWhile_toLower {p : UInt8 → Bool} (hp : ∀ c, p (lowerByte c) = p c) (s : Bytes) :
    (toLower s).dropWhile p = toLower (s.dropWhile p) := by
  rw [toLower_eq_map, toLower_eq_map, List.dropWhile_map]
  exact congrArg (fun q => (s.dropWhile q).map lowerByte) (funext hp)

theorem head?_toLower_eq_some_iff {c : UInt8} (hlt : c < 97) (hfix : lowerByte c = c) (s : Bytes) :
    (toLower s).head? = some c ↔ s.head? = some c := by
  cases s with
  | nil => exact Iff.rfl
  | cons d s =>
    show some (lowerByte d) = some c ↔ some d = some c
    rw [Option.some.injEq, Option.some.injEq]
    exact lowerByte_eq_iff hlt hfix

theorem toLower_eq_nil_iff (s : Bytes) : toLower s = [] ↔ s = [] := List.map_eq_nil_iff

theorem toLower_of_digits {s : Bytes} (h : ∀ c ∈ s, isDigit c = true) : toLower s = s := by
  rw [toLower_eq_map]
  exact (List.map_congr_left (fun c hc => lowerByte_of_isDigit (h c hc))).trans (List.map_id s)

theorem octet_toLower (s : Bytes) : octet (toLower s) = octet s := by
  by_cases h : s.all isDigit = true
  · rw [toLower_of_digits (List.all_eq_true.mp h)]
  · have hlower : ¬ (toLower s).all isDigit = true := by
      rw [toLower_eq_map, List.all_map]
      exact fun hall => h ((congrArg s.all (funext isDigit_lowerByte)).symm.trans hall)
    rw [octet, octet, if_neg (fun hand => hlower hand.2.1), if_neg (fun hand => h hand.2.1)]

theorem octets_toLower (n : ℕ) (s : Bytes) : octets n (toLower s) = octets n s := by
  induction n generalizing s with
  | zero => rfl
  | succ n ih =>
    cases n with
    | zero => exact congrArg (Option.map ([·])) (octet_toLower s)
    | succ n =>
      unfold octets
      dsimp only
      rw [takeWhile_toLower isDigit_lowerByte, dropWhile_toLower isDigit_lowerByte, octet_toLower]
      have htail : (toLower (s.dropWhile isDigit)).tail = toLower (s.dropWhile isDigit).tail :=
        List.map_tail.symm
      rw [htail, ih]
      exact if_congr (head?_toLower_eq_some_iff (by decide) (by decide) _) rfl rfl

theorem value_toLower {s : Bytes} (h : ∀ c ∈ s, isHexDigit c = true) :
    value 16 (toLower s) = value 16 s := by
  rw [value, value, toLower_eq_map, List.foldl_map]
  exact List.foldl_ext _ _ _ (fun v c hc => by rw [digitValue_lowerByte (h c hc)])

theorem fields_toLower (n : ℕ) (ip : Bytes) (ellipsis : Option ℕ) (s : Bytes) :
    fields n ip ellipsis (toLower s) = fields n ip ellipsis s := by
  induction n generalizing ip ellipsis s with
  | zero => exact if_congr (toLower_eq_nil_iff s) rfl rfl
  | succ n ih =>
    have hgroup : value 16 (toLower (s.takeWhile isHexDigit)) = value 16 (s.takeWhile isHexDigit) :=
      value_toLower (fun c hc => List.mem_takeWhile_imp hc)
    have hlen : (toLower (s.takeWhile isHexDigit)).length = (s.takeWhile isHexDigit).length :=
      List.length_map _
    unfold fields
    dsimp only
    rw [takeWhile_toLower isHexDigit_lowerByte, dropWhile_toLower isHexDigit_lowerByte, hgroup,
      hlen, octets_toLower]
    refine if_congr (or_congr (toLower_eq_nil_iff _) Iff.rfl) rfl ?_
    cases s.dropWhile isHexDigit with
    | nil => rfl
    | cons c t =>
      have hdot : lowerByte c = DOT ↔ c = DOT := lowerByte_eq_iff (by decide) (by decide)
      have hcolon : lowerByte c = COLON ↔ c = COLON := lowerByte_eq_iff (by decide) (by decide)
      have htail : (toLower t).tail = toLower t.tail := List.map_tail.symm
      refine if_congr hdot rfl ?_
      refine if_congr (or_congr (not_congr hcolon) (toLower_eq_nil_iff t)) rfl ?_
      refine if_congr (head?_toLower_eq_some_iff (by decide) (by decide) t) ?_ (ih _ _ t)
      refine if_congr Iff.rfl rfl ?_
      exact if_congr (htail ▸ toLower_eq_nil_iff t.tail) rfl (htail ▸ ih _ _ t.tail)

theorem parseIPv6_toLower (s : Bytes) : parseIPv6 (toLower s) = parseIPv6 s := by
  have hcolon : ∀ c, lowerByte c = COLON ↔ c = COLON :=
    fun c => lowerByte_eq_iff (by decide) (by decide)
  have htake : (toLower s).take 2 = [COLON, COLON] ↔ s.take 2 = [COLON, COLON] := by
    rcases s with - | ⟨a, - | ⟨b, s⟩⟩
    · exact Iff.rfl
    · simp [toLower]
    · show [lowerByte a, lowerByte b] = _ ↔ [a, b] = _
      simp only [List.cons.injEq, hcolon]
  have hdrop : (toLower s).drop 2 = toLower (s.drop 2) := List.map_drop.symm
  unfold parseIPv6
  rw [hdrop, fields_toLower, fields_toLower]
  exact if_congr htake (if_congr (toLower_eq_nil_iff _) rfl rfl) rfl

theorem find?_toLower {p : UInt8 → Bool} (hp : ∀ c, p (lowerByte c) = p c)
    (hfix : ∀ c, p c = true → lowerByte c = c) (s : Bytes) : (toLower s).find? p = s.find? p := by
  rw [toLower_eq_map, List.find?_map]
  have hcomp : p ∘ lowerByte = p := funext hp
  rw [hcomp]
  cases hfind : s.find? p with
  | none => rfl
  | some c => exact congrArg some (hfix c (List.find?_some hfind))

theorem indexByte_toLower {c : UInt8} (hlt : c < 97) (hfix : lowerByte c = c) (s : Bytes) :
    indexByte (toLower s) c = indexByte s c := by
  induction s with
  | nil => rfl
  | cons d s ih =>
    show indexByte (lowerByte d :: toLower s) c = _
    rw [indexByte_cons, indexByte_cons, ih]
    exact if_congr (lowerByte_eq_iff hlt hfix) rfl rfl

theorem isMark_lowerByte (c : UInt8) : isMark (lowerByte c) = isMark c := by
  have hall : ∀ n : Fin 256, isMark (lowerByte (UInt8.ofFin n)) = isMark (UInt8.ofFin n) := by
    decide +kernel
  exact hall c.toFin

theorem lowerByte_of_isMark {c : UInt8} (h : isMark c = true) : lowerByte c = c := by
  have hall : ∀ n : Fin 256, isMark (UInt8.ofFin n) = true →
      lowerByte (UInt8.ofFin n) = UInt8.ofFin n := by
    decide +kernel
  exact hall c.toFin h

theorem parseIP_toLower (s : Bytes) : parseIP (toLower s) = parseIP s := by
  rw [parseIP_eq, parseIP_eq, find?_toLower isMark_lowerByte (fun _ => lowerByte_of_isMark),
    octets_toLower, parseIPv6_toLower, indexByte_toLower (by decide) (by decide)]

end NetIP
