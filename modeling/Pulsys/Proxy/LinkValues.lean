import Pulsys.Proxy.ResponseHeaders
import Pulsys.Coreserver.Field

/-!
# Links taken out of a header

An upstream announces another protocol by links whose relation type begins with `xet-`, and the
proxy takes these out of the `Link` fields. A field is a list of links; a link has a target in
angle brackets and parameters, each a name and perhaps a value, which is a token or a quoted
string. What is to go is said by the first `rel` parameter (`Link.isXet`).

The proxy does not parse this. It cuts a field at commas, counting brackets and toggling at every
quote, and takes a link out by what stands behind the first `rel=` of its text.

The cutting is right for every target and every parameter, but for a quote behind a backslash
(`Link.calm_of_plain`). What is read behind the first `rel=` is the `rel` parameter if nothing in
front of it has this text: not the target, not a quoted string, and not a name that ends in
`rel`; and if the parameter is written without blanks around the equals sign, with relation
types and no backslash in its value. A field of such links loses exactly the links it should
(`stripXetLinks_exact`), and without either condition it may lose others or keep them
(`other_rel_read`).
-/

namespace Proxy

open Bytes

/-! ## The grammar -/

abbrev Blanks : Type := {b : Bytes // ∀ c ∈ b, c = 32 ∨ c = 9}

def noBlanks : Blanks := ⟨[], fun _ hc => (by cases hc)⟩

def oneBlank : Blanks := ⟨[32], fun _ hc => .inl (List.mem_singleton.mp hc)⟩

abbrev Token : Type := {t : Bytes // t ≠ [] ∧ ∀ c ∈ t, Coreserver.TokenByte c}

abbrev TargetText : Type := {u : Bytes // ∀ c ∈ u, c ≠ 34 ∧ c ≠ 60 ∧ c ≠ 62}

inductive QuotedItem
  | text (c : {c : UInt8 // c ≠ 34 ∧ c ≠ 92})
  | pair (c : UInt8)

namespace QuotedItem

def render : QuotedItem → Bytes
  | text c => [c.val]
  | pair c => [92, c]

def byte : QuotedItem → UInt8
  | text c => c.val
  | pair c => c

end QuotedItem

inductive ParamValue
  | token (t : Token)
  | quoted (items : List QuotedItem)

namespace ParamValue

def text : ParamValue → Bytes
  | token t => t.val
  | quoted items => 34 :: (items.flatMap QuotedItem.render ++ [34])

def content : ParamValue → Bytes
  | token t => t.val
  | quoted items => items.map QuotedItem.byte

end ParamValue

inductive LinkParam
  | empty (lead : Blanks)
  | named (lead gap : Blanks) (name : Token) (value : Option (Blanks × Blanks × ParamValue))

namespace LinkParam

def text : LinkParam → Bytes
  | empty lead => lead.val ++ [59]
  | named lead gap name none => lead.val ++ 59 :: (gap.val ++ name.val)
  | named lead gap name (some (before, after, v)) =>
    lead.val ++ 59 :: (gap.val ++ (name.val ++ (before.val ++ 61 :: (after.val ++ v.text))))

def isRel : LinkParam → Bool
  | empty _ => false
  | named _ _ name _ => Text.toLower name.val == ascii "rel"

def content : LinkParam → Bytes
  | named _ _ _ (some (_, _, v)) => v.content
  | _ => []

end LinkParam

structure Link where
  target : TargetText
  params : List LinkParam

def isXetType (t : Bytes) : Bool := (ascii "xet-").isPrefixOf (Text.toLower t)

namespace Link

def text (l : Link) : Bytes :=
  60 :: (l.target.val ++ 62 :: l.params.flatMap LinkParam.text)

def isXet (l : Link) : Bool :=
  match l.params.find? LinkParam.isRel with
  | none => false
  | some p => (p.content.splitOn SP).any isXetType

end Link

def joined (ls : List Link) : Option Bytes :=
  if ls.map Link.text = [] then none else some ((ascii ", ").intercalate (ls.map Link.text))

def elementText (e : Blanks × Link × Blanks) : Bytes := e.1.val ++ (e.2.1.text ++ e.2.2.val)

structure LinkField where
  elements : List (Blanks × Link × Blanks)
  ne : elements ≠ []

namespace LinkField

def links (v : LinkField) : List Link := v.elements.map (·.2.1)

def text (v : LinkField) : Bytes := [44].intercalate (v.elements.map elementText)

def kept (v : LinkField) : Option Bytes := joined (v.links.filter (fun l => !l.isXet))

end LinkField

/-! ## Cutting at commas -/

def scan : ℕ → Bool → Bytes → Option (ℕ × Bool)
  | depth, inQuote, [] => some (depth, inQuote)
  | depth, inQuote, c :: v =>
    if c = 60 then scan (if inQuote then depth else depth + 1) inQuote v
    else if c = 62 then scan (if inQuote then depth else depth - 1) inQuote v
    else if c = 34 then scan depth (!inQuote) v
    else if c = 44 ∧ depth = 0 ∧ inQuote = false then none
    else scan depth inQuote v

variable {depth depth' : ℕ} {inQuote inQuote' : Bool}

theorem splitLinkValuesFrom_scan {a : Bytes}
    (h : scan depth inQuote a = some (depth', inQuote')) (part b : Bytes) :
    splitLinkValuesFrom depth inQuote part (a ++ b)
      = splitLinkValuesFrom depth' inQuote' (part ++ a) b := by
  induction a generalizing depth inQuote part with
  | nil =>
    obtain ⟨rfl, rfl⟩ : depth = depth' ∧ inQuote = inQuote' := by simpa [scan] using h
    rw [List.append_nil, List.nil_append]
  | cons c a ih =>
    have hpart : part ++ c :: a = part ++ [c] ++ a := by rw [List.append_assoc]; rfl
    rw [scan] at h
    rw [List.cons_append, splitLinkValuesFrom, hpart]
    split_ifs at h ⊢
    all_goals exact ih h _

theorem scan_append {a : Bytes} (h : scan depth inQuote a = some (depth', inQuote')) (b : Bytes) :
    scan depth inQuote (a ++ b) = scan depth' inQuote' b := by
  induction a generalizing depth inQuote with
  | nil =>
    obtain ⟨rfl, rfl⟩ : depth = depth' ∧ inQuote = inQuote' := by simpa [scan] using h
    rfl
  | cons c a ih =>
    rw [scan] at h
    rw [List.cons_append, scan]
    split_ifs at h ⊢
    all_goals exact ih h

theorem scan_steady {b : Bytes}
    (h : ∀ c ∈ b, c ≠ 34 ∧ (inQuote = true ∨ c ≠ 60 ∧ c ≠ 62 ∧ (c = 44 → depth ≠ 0))) :
    scan depth inQuote b = some (depth, inQuote) := by
  induction b with
  | nil => rfl
  | cons c b ih =>
    have hrest := ih (fun d hd => h d (List.mem_cons_of_mem c hd))
    obtain ⟨hquote, hc⟩ := h c List.mem_cons_self
    rw [scan, if_neg hquote]
    rcases hc with rfl | ⟨hopen, hclose, hcomma⟩
    · simpa using hrest
    · rw [if_neg hopen, if_neg hclose, if_neg (fun hcut => hcomma hcut.1 hcut.2.1)]
      exact hrest

theorem scan_blanks (b : Blanks) : scan depth inQuote b.val = some (depth, inQuote) := by
  refine scan_steady (fun c hc => ?_)
  rcases b.property c hc with rfl | rfl
  · exact ⟨by decide, .inr ⟨by decide, by decide, fun h => absurd h (by decide)⟩⟩
  · exact ⟨by decide, .inr ⟨by decide, by decide, fun h => absurd h (by decide)⟩⟩

theorem notMem_token (t : Token) {d : UInt8} (hd : d ∈ Coreserver.delimiters) : d ∉ t.val :=
  fun h => (t.property.2 d h).2.2 hd

theorem isGraph_token (t : Token) : ∀ c ∈ t.val, Text.isGraph c = true := by
  intro c hc
  obtain ⟨hlo, hhi, -⟩ := t.property.2 c hc
  simp only [Text.isGraph, hlo, hhi, decide_true, Bool.and_self]

theorem scan_token (t : Token) : scan depth inQuote t.val = some (depth, inQuote) := by
  have hne : ∀ d ∈ Coreserver.delimiters, ∀ c ∈ t.val, c ≠ d :=
    fun d hd c hc hcd => notMem_token t hd (hcd ▸ hc)
  exact scan_steady (fun c hc => ⟨hne 34 (by decide) c hc, .inr ⟨hne 60 (by decide) c hc,
    hne 62 (by decide) c hc, fun h => absurd h (hne 44 (by decide) c hc)⟩⟩)

/-! ## Links and fields that are cut as they are written -/

def Calm (t : Bytes) : Prop := scan 0 false t = some (0, false)

def ParamValue.Plain : ParamValue → Prop
  | token _ => True
  | quoted items => ∀ i ∈ items, i.byte ≠ 34

def LinkParam.Plain : LinkParam → Prop
  | named _ _ _ (some (_, _, v)) => v.Plain
  | _ => True

theorem ParamValue.Plain.scan_text {v : ParamValue} (h : v.Plain) : Calm v.text := by
  cases v with
  | token t => exact scan_token t
  | quoted items =>
    have hitems : scan 0 true (items.flatMap QuotedItem.render) = some (0, true) := by
      refine scan_steady (fun c hc => ⟨?_, .inl rfl⟩)
      obtain ⟨i, hi, hc⟩ := List.mem_flatMap.mp hc
      cases i with
      | text d =>
        rw [List.mem_singleton.mp hc]
        exact d.property.1
      | pair d =>
        rcases List.mem_pair.mp hc with rfl | rfl
        · decide
        · exact h _ hi
    exact scan_append hitems [34]

theorem LinkParam.Plain.scan_text {p : LinkParam} (h : p.Plain) : Calm p.text := by
  cases p with
  | empty lead => exact scan_append (scan_blanks lead) [59]
  | named lead gap name value =>
    have hsemi : ∀ b : Bytes, scan 0 false (lead.val ++ 59 :: (gap.val ++ (name.val ++ b)))
        = scan 0 false b := by
      intro b
      rw [scan_append (scan_blanks lead)]
      change scan 0 false (gap.val ++ (name.val ++ b)) = _
      rw [scan_append (scan_blanks gap), scan_append (scan_token name)]
    cases value with
    | none =>
      have hname := hsemi []
      rwa [List.append_nil] at hname
    | some v =>
      obtain ⟨before, after, v⟩ := v
      refine (hsemi _).trans ?_
      rw [scan_append (scan_blanks before)]
      change scan 0 false (after.val ++ v.text) = _
      rw [scan_append (scan_blanks after)]
      exact ParamValue.Plain.scan_text h

theorem Link.calm_of_plain (l : Link) (h : ∀ p ∈ l.params, p.Plain) : Calm l.text := by
  have htarget : scan 1 false l.target.val = some (1, false) :=
    scan_steady (fun c hc => ⟨(l.target.property c hc).1,
      .inr ⟨(l.target.property c hc).2.1, (l.target.property c hc).2.2, fun _ => by decide⟩⟩)
  have hparams : ∀ ps : List LinkParam, (∀ p ∈ ps, p.Plain) →
      scan 0 false (ps.flatMap LinkParam.text) = some (0, false) := by
    intro ps hps
    induction ps with
    | nil => rfl
    | cons p ps ih =>
      rw [List.flatMap_cons, scan_append (hps p List.mem_cons_self).scan_text]
      exact ih (fun q hq => hps q (List.mem_cons_of_mem p hq))
  exact (scan_append htarget _).trans (hparams l.params h)

def EndsGraph (b : Bytes) : Prop := ∃ a c, b = a ++ [c] ∧ Text.isGraph c = true

theorem EndsGraph.append {b : Bytes} (h : EndsGraph b) (a : Bytes) : EndsGraph (a ++ b) := by
  obtain ⟨b', c, rfl, hc⟩ := h
  exact ⟨a ++ b', c, (List.append_assoc a b' [c]).symm, hc⟩

theorem endsGraph_token (t : Token) : EndsGraph t.val := by
  obtain ⟨t, hne, hbytes⟩ := t
  exact ⟨t.dropLast, t.getLast hne, (List.dropLast_append_getLast hne).symm,
    isGraph_token ⟨t, hne, hbytes⟩ _ (List.getLast_mem hne)⟩

theorem LinkParam.endsGraph_text (p : LinkParam) : EndsGraph p.text := by
  cases p with
  | empty lead => exact ⟨lead.val, 59, rfl, rfl⟩
  | named lead gap name value =>
    have hsemi : ∀ {b : Bytes}, EndsGraph b → EndsGraph (lead.val ++ 59 :: (gap.val ++ b)) :=
      fun h => ((h.append gap.val).append [59]).append lead.val
    cases value with
    | none => exact hsemi (endsGraph_token name)
    | some v =>
      obtain ⟨before, after, v⟩ := v
      have hv : EndsGraph v.text := by
        cases v with
        | token t => exact endsGraph_token t
        | quoted items => exact ⟨34 :: items.flatMap QuotedItem.render, 34, rfl, rfl⟩
      exact hsemi ((((hv.append after.val).append [61]).append before.val).append name.val)

theorem Link.endsGraph_text (l : Link) : EndsGraph l.text := by
  have hparams : ∀ (ps : List LinkParam) (b : Bytes), EndsGraph b →
      EndsGraph (b ++ ps.flatMap LinkParam.text) := by
    intro ps
    induction ps with
    | nil => exact fun b hb => (List.append_nil b).symm ▸ hb
    | cons p ps ih =>
      intro b _
      rw [List.flatMap_cons, ← List.append_assoc]
      exact ih _ (p.endsGraph_text.append b)
  have hclose : EndsGraph (60 :: l.target.val ++ [62]) := ⟨_, 62, rfl, rfl⟩
  have htext : l.text = 60 :: l.target.val ++ [62] ++ l.params.flatMap LinkParam.text := by
    simp [Link.text]
  exact htext ▸ hparams l.params _ hclose

theorem trimSpace_elementText (e : Blanks × Link × Blanks) :
    Text.trimSpace (elementText e) = e.2.1.text := by
  obtain ⟨lead, l, trail⟩ := e
  have hfirst : ∀ c ∈ l.text.head?, Text.isGraph c = true := by
    rintro c ⟨⟩
    rfl
  have hlast : ∀ c ∈ l.text.getLast?, Text.isGraph c = true := by
    intro c hc
    obtain ⟨a, d, heq, hd⟩ := l.endsGraph_text
    rw [heq, List.getLast?_concat] at hc
    cases hc
    exact hd
  exact Text.trimSpace_blanks lead.property trail.property (List.cons_ne_nil _ _) hfirst hlast

theorem splitLinkValues_elements {es : List (Blanks × Link × Blanks)} (hne : es ≠ [])
    (h : ∀ e ∈ es, Calm e.2.1.text) :
    splitLinkValues ([44].intercalate (es.map elementText)) = es.map (·.2.1.text) := by
  have hscan : ∀ e ∈ es, scan 0 false (elementText e) = some (0, false) := by
    intro e he
    rw [elementText, scan_append (scan_blanks e.1), scan_append (h e he), scan_blanks]
  induction es with
  | nil => exact absurd rfl hne
  | cons e es ih =>
    have hfirst := hscan e List.mem_cons_self
    cases es with
    | nil =>
      have hsplit := splitLinkValuesFrom_scan hfirst [] []
      rw [List.append_nil, List.nil_append, splitLinkValuesFrom, trimSpace_elementText] at hsplit
      rw [List.map_singleton, List.intercalate_singleton]
      exact hsplit
    | cons e' es =>
      have hrest := ih (List.cons_ne_nil e' es) (fun e he => h e (List.mem_cons_of_mem _ he))
        (fun e he => hscan e (List.mem_cons_of_mem _ he))
      rw [List.map_cons, List.map_cons, List.intercalate_cons_cons, List.append_assoc,
        splitLinkValues, splitLinkValuesFrom_scan hfirst]
      rw [List.map_cons, ← hrest]
      exact congrArg (· :: _) (trimSpace_elementText e)

theorem LinkField.splitLinkValues_text (v : LinkField) (h : ∀ l ∈ v.links, Calm l.text) :
    splitLinkValues v.text = v.links.map Link.text := by
  have helements : ∀ e ∈ v.elements, Calm e.2.1.text := fun e he => h _ (List.mem_map_of_mem he)
  rw [LinkField.text, splitLinkValues_elements v.ne helements, LinkField.links, List.map_map]
  rfl

/-! ## What stands behind the first `rel=` -/

def relOf (t : Bytes) : Option Bytes := behind (ascii "rel=") (Text.toLower t)

def ReadsRel (t : Bytes) : Prop := ascii "rel=" <:+: Text.toLower t

instance : DecidablePred ReadsRel := fun t =>
  inferInstanceAs (Decidable (ascii "rel=" <:+: Text.toLower t))

def Parts (c : UInt8) : Prop := Text.lowerByte c ∉ ascii "rel="

theorem relOf_eq_none {t : Bytes} (h : ¬ ReadsRel t) : relOf t = none := behind_eq_none_iff.mpr h

theorem relOf_append_cons {c : UInt8} (hc : Parts c) {u : Bytes} (hu : relOf u = none) (w : Bytes) :
    relOf (u ++ c :: w) = relOf w := by
  have hlower : Text.toLower (u ++ c :: w)
      = Text.toLower u ++ Text.lowerByte c :: Text.toLower w := List.map_append
  rw [relOf, hlower, behind_append_cons (by decide) hc]
  rw [relOf] at hu
  rw [hu]
  rfl

theorem parts_blank {c : UInt8} (hc : c = 32 ∨ c = 9) : Parts c := by
  rcases hc with rfl | rfl
  · exact (by decide : (32 : UInt8) ∉ ascii "rel=")
  · exact (by decide : (9 : UInt8) ∉ ascii "rel=")

theorem relOf_blanks (b : Blanks) (w : Bytes) : relOf (b.val ++ w) = relOf w := by
  obtain ⟨b, hb⟩ := b
  induction b with
  | nil => rfl
  | cons c b ih =>
    exact (relOf_append_cons (parts_blank (hb c List.mem_cons_self)) (u := []) rfl _).trans
      (ih (fun d hd => hb d (List.mem_cons_of_mem c hd)))

theorem notMem_toLower_token (t : Token) {d : UInt8} (hd : d ∈ Coreserver.delimiters)
    (hlt : d < 97) : d ∉ Text.toLower t.val :=
  fun h => notMem_token t hd (Text.mem_toLower hlt h)

theorem equals_notMem_token (t : Token) : 61 ∉ Text.toLower t.val :=
  notMem_toLower_token t (by decide) (by decide)

theorem relOf_token (t : Token) : relOf t.val = none := by
  refine behind_eq_none_iff.mpr (fun h => equals_notMem_token t (h.subset ?_))
  decide

def Begins (w : Bytes) : Prop := ∀ c ∈ w.head?, Parts c

theorem relOf_append {u w : Bytes} (hu : relOf u = none) (hw : Begins w) :
    relOf (u ++ w) = relOf w := by
  cases w with
  | nil => rwa [List.append_nil]
  | cons c w =>
    rw [relOf_append_cons (hw c rfl) hu]
    exact (relOf_append_cons (hw c rfl) (u := []) rfl w).symm

theorem relOf_equals {u : Bytes} (hu : 61 ∉ Text.toLower u) (w : Bytes) :
    relOf (u ++ 61 :: w)
      = if ascii "rel" <:+ Text.toLower u then some (Text.toLower w) else relOf w := by
  have hlower : Text.toLower (u ++ 61 :: w) = Text.toLower u ++ 61 :: Text.toLower w :=
    List.map_append
  have hrel : 61 ∉ ascii "rel" := by decide
  rw [relOf, hlower]
  exact behind_concat hrel hu _

/-! ## Parameters -/

def LinkParam.Silent : LinkParam → Prop
  | .named _ _ name (some (before, _, v)) =>
    (before.val = [] → ¬ ascii "rel" <:+ Text.toLower name.val) ∧ ¬ ReadsRel v.text
  | _ => True

theorem LinkParam.begins_text (p : LinkParam) (w : Bytes) : Begins (p.text ++ w) := by
  have hlead : ∀ (lead : Blanks) (b : Bytes), Begins (lead.val ++ 59 :: b) := by
    rintro ⟨lead, hlead⟩ b c hc
    cases lead with
    | nil =>
      cases hc
      exact (by decide : (59 : UInt8) ∉ ascii "rel=")
    | cons d lead =>
      obtain rfl : d = c := Option.some.inj hc
      exact parts_blank (hlead d List.mem_cons_self)
  cases p with
  | empty lead => simpa [LinkParam.text] using hlead lead w
  | named lead gap name value =>
    cases value with
    | none => simpa [LinkParam.text] using hlead lead _
    | some v => simpa [LinkParam.text] using hlead lead _

theorem begins_params (ps : List LinkParam) : Begins (ps.flatMap LinkParam.text) := by
  cases ps with
  | nil => nofun
  | cons p ps => exact p.begins_text _

theorem parts_semicolon : Parts 59 := (by decide : (59 : UInt8) ∉ ascii "rel=")

theorem relOf_semicolon (lead : Blanks) (b : Bytes) : relOf (lead.val ++ 59 :: b) = relOf b :=
  (relOf_blanks lead _).trans (relOf_append_cons parts_semicolon (u := []) rfl b)

theorem relOf_silent {p : LinkParam} (h : p.Silent) {w : Bytes} (hw : Begins w) :
    relOf (p.text ++ w) = relOf w := by
  cases p with
  | empty lead =>
    rw [LinkParam.text, List.append_assoc]
    exact relOf_semicolon lead w
  | named lead gap name value =>
    cases value with
    | none =>
      rw [LinkParam.text, List.append_assoc, List.cons_append, relOf_semicolon, List.append_assoc,
        relOf_blanks, relOf_append (relOf_token name) hw]
    | some v =>
      obtain ⟨before, after, v⟩ := v
      obtain ⟨hname, hvalue⟩ := h
      have hrest : relOf (after.val ++ (v.text ++ w)) = relOf w :=
        (relOf_blanks after _).trans (relOf_append (relOf_eq_none hvalue) hw)
      have htext : (LinkParam.named lead gap name (some (before, after, v))).text ++ w
          = lead.val ++ 59 :: (gap.val ++ (name.val ++ (before.val
            ++ 61 :: (after.val ++ (v.text ++ w))))) := by
        simp [LinkParam.text]
      rw [htext, relOf_semicolon, relOf_blanks]
      obtain ⟨before, hbefore⟩ := before
      cases before with
      | nil =>
        show relOf (name.val ++ 61 :: (after.val ++ (v.text ++ w))) = _
        rw [relOf_equals (equals_notMem_token name), if_neg (hname rfl), hrest]
      | cons c before =>
        show relOf (name.val ++ c :: (before ++ 61 :: (after.val ++ (v.text ++ w)))) = _
        rw [relOf_append_cons (parts_blank (hbefore c List.mem_cons_self)) (relOf_token name),
          relOf_blanks ⟨before, fun d hd => hbefore d (List.mem_cons_of_mem c hd)⟩]
        have hequals := relOf_equals (u := []) (by decide) (after.val ++ (v.text ++ w))
        rw [if_neg (by decide), hrest] at hequals
        exact hequals

/-! ## Relation types -/

def QuotedItem.Typed : QuotedItem → Prop
  | text c => c.val = SP ∨ Text.isGraph c.val = true
  | pair _ => False

def ParamValue.Typed : ParamValue → Prop
  | token _ => True
  | quoted items => ∀ i ∈ items, i.Typed

def LinkParam.Told : LinkParam → Prop
  | .named _ _ _ (some (before, after, v)) => before.val = [] ∧ after.val = [] ∧ v.Typed
  | _ => False

def relTypes (rest : Bytes) : Bytes :=
  if rest.head? = some 34 then (rest.drop 1).takeWhile (· != 34)
  else rest.takeWhile (fun c => c != 59 && c != 44)

theorem linkValueIsXet_eq (t : Bytes) :
    linkValueIsXet t
      = (relOf t).elim false (fun rest => (fields (relTypes rest)).any isXetType) := by
  rw [linkValueIsXet, relOf, behind]
  cases index (ascii "rel=") (Text.toLower t) with
  | none => rfl
  | some i => rfl

theorem isXetType_toLower (t : Bytes) : isXetType (Text.toLower t) = isXetType t := by
  rw [isXetType, isXetType, Text.toLower_toLower]

theorem any_fieldsFrom {sep : UInt8 → Bool} {b field : Bytes}
    (hb : ∀ c ∈ b, (sep c = true ∧ (c = 32 ∨ c = 9)) ∨ (sep c = false ∧ Text.isGraph c = true))
    (hfield : ∀ c ∈ field, sep c = false) :
    (fieldsFrom b.length (Text.toLower field) (Text.toLower b)).any isXetType
      = ((field ++ b).splitOnP sep).any isXetType := by
  have hown : ∀ field : Bytes,
      (if Text.toLower field = [] then [] else [Text.toLower field]).any isXetType
        = isXetType field := by
    intro field
    cases field with
    | nil => rfl
    | cons c field => exact (Bool.or_false _).trans (isXetType_toLower (c :: field))
  induction b generalizing field with
  | nil =>
    rw [List.append_nil, List.splitOnP_eq_singleton hfield, List.any_cons, List.any_nil,
      Bool.or_false]
    exact hown field
  | cons c b ih =>
    have hrest := fun d hd => hb d (List.mem_cons_of_mem c hd)
    rcases hb c List.mem_cons_self with ⟨hsep, hblank⟩ | ⟨hsep, hgraph⟩
    · have hlower : Text.toLower (c :: b) = c :: Text.toLower b := by
        rcases hblank with rfl | rfl <;> rfl
      have hnext := @ih [] hrest nofun
      rw [List.splitOnP_append_cons _ _ hsep, List.splitOnP_eq_singleton hfield, List.any_append,
        List.any_cons, List.any_nil, Bool.or_false, hlower, List.length_cons, fieldsFrom,
        (Text.find?_blank hblank _).1]
      dsimp only
      rw [List.any_append, hown]
      exact congrArg _ hnext
    · have hlower : Text.isGraph (Text.lowerByte c) = true :=
        Text.isGraph_toLower (b := [c]) (fun d hd => List.mem_singleton.mp hd ▸ hgraph) _
          List.mem_cons_self
      have hnone : Text.spaces.find? (·.isPrefixOf (Text.lowerByte c :: Text.toLower b))
          = none := by
        refine List.find?_eq_none.mpr (fun p hp => ?_)
        have hhead : ∀ d ∈ (Text.lowerByte c :: Text.toLower b).head?, Text.isGraph d = true := by
          rintro d ⟨⟩
          exact hlower
        rw [Text.not_isPrefixOf_of_isGraph hhead (.inl hp)]
        exact Bool.false_ne_true
      have hnext := @ih (field ++ [c]) hrest (fun d hd => by
        rcases List.mem_append.mp hd with hd | hd
        · exact hfield d hd
        · exact List.mem_singleton.mp hd ▸ hsep)
      rw [List.append_assoc, List.singleton_append] at hnext
      rw [← hnext, List.length_cons, show Text.toLower (c :: b)
        = Text.lowerByte c :: Text.toLower b from rfl, fieldsFrom, hnone]
      dsimp only
      rw [Text.toLower_eq_map (field ++ [c]), List.map_append]
      rfl

theorem any_fields {sep : UInt8 → Bool} {b : Bytes}
    (hb : ∀ c ∈ b, (sep c = true ∧ (c = 32 ∨ c = 9)) ∨ (sep c = false ∧ Text.isGraph c = true)) :
    (fields (Text.toLower b)).any isXetType = (b.splitOnP sep).any isXetType := by
  have h := @any_fieldsFrom sep b [] hb nofun
  rwa [fields, Text.toLower_eq_map, List.length_map]

theorem any_splitOnP_blanks {sep : UInt8 → Bool} {bl : Bytes} (h : ∀ c ∈ bl, sep c = true) :
    (bl.splitOnP sep).any isXetType = false := by
  induction bl with
  | nil => rfl
  | cons c bl ih =>
    have hsplit := List.splitOnP_append_cons [] bl (h c List.mem_cons_self)
    rw [← List.nil_append (c :: bl), hsplit, List.any_append,
      ih (fun d hd => h d (List.mem_cons_of_mem c hd))]
    rfl

theorem exists_takeWhile_params (ps : List LinkParam) :
    ∃ bl : Bytes, (∀ c ∈ bl, c = 32 ∨ c = 9)
      ∧ (Text.toLower (ps.flatMap LinkParam.text)).takeWhile (fun c => c != 59 && c != 44)
        = Text.toLower bl := by
  have hlead : ∀ (lead : Blanks) (b : Bytes),
      (Text.toLower (lead.val ++ 59 :: b)).takeWhile (fun c => c != 59 && c != 44)
        = Text.toLower lead.val := by
    intro lead b
    have hlower : Text.toLower (lead.val ++ 59 :: b)
        = Text.toLower lead.val ++ 59 :: Text.toLower b := List.map_append
    rw [hlower, List.takeWhile_append_of_pos, List.takeWhile_cons_of_neg (by decide),
      List.append_nil]
    intro c hc
    obtain ⟨d, hd, rfl⟩ := List.mem_map.mp hc
    rcases lead.property d hd with rfl | rfl <;> decide
  cases ps with
  | nil => exact ⟨[], nofun, rfl⟩
  | cons p ps =>
    rw [List.flatMap_cons]
    cases p with
    | empty lead =>
      refine ⟨lead.val, lead.property, ?_⟩
      rw [LinkParam.text, List.append_assoc]
      exact hlead lead _
    | named lead gap name value =>
      refine ⟨lead.val, lead.property, ?_⟩
      cases value with
      | none =>
        rw [LinkParam.text, List.append_assoc]
        exact hlead lead _
      | some v =>
        rw [LinkParam.text, List.append_assoc]
        exact hlead lead _

def isBlank (c : UInt8) : Bool := c == 32 || c == 9

theorem any_relTypes_token (t : Token) (ps : List LinkParam) :
    (fields (relTypes (Text.toLower (t.val ++ ps.flatMap LinkParam.text)))).any isXetType
      = isXetType t.val := by
  obtain ⟨bl, hbl, htake⟩ := exists_takeWhile_params ps
  have hlower : Text.toLower (t.val ++ ps.flatMap LinkParam.text)
      = Text.toLower t.val ++ Text.toLower (ps.flatMap LinkParam.text) := List.map_append
  have hhead : (Text.toLower (t.val ++ ps.flatMap LinkParam.text)).head? ≠ some 34 := by
    intro h
    rw [hlower, List.head?_append_of_ne_nil _ (by simpa [Text.toLower] using t.property.1)] at h
    exact notMem_toLower_token t (d := 34) (by decide) (by decide) (List.mem_of_mem_head? h)
  have hpass : ∀ c ∈ Text.toLower t.val, (c != 59 && c != 44) = true := by
    intro c hc
    rw [Bool.and_eq_true, bne_iff_ne, bne_iff_ne]
    exact ⟨fun h => notMem_toLower_token t (d := 59) (by decide) (by decide) (h ▸ hc),
      fun h => notMem_toLower_token t (d := 44) (by decide) (by decide) (h ▸ hc)⟩
  have htypes : relTypes (Text.toLower (t.val ++ ps.flatMap LinkParam.text))
      = Text.toLower (t.val ++ bl) := by
    rw [relTypes, if_neg hhead, hlower, List.takeWhile_append_of_pos hpass, htake]
    exact List.map_append.symm
  have hsep : ∀ c ∈ t.val, isBlank c = false := by
    intro c hc
    rw [isBlank, Bool.or_eq_false_iff, beq_eq_false_iff_ne, beq_eq_false_iff_ne]
    refine ⟨?_, ?_⟩
    · rintro rfl
      exact absurd (isGraph_token t 32 hc) (by decide)
    · rintro rfl
      exact absurd (isGraph_token t 9 hc) (by decide)
  have hblank : ∀ c ∈ bl, isBlank c = true := by
    intro c hc
    rcases hbl c hc with rfl | rfl <;> rfl
  have hparts : ∀ c ∈ t.val ++ bl, (isBlank c = true ∧ (c = 32 ∨ c = 9))
      ∨ (isBlank c = false ∧ Text.isGraph c = true) := by
    intro c hc
    rcases List.mem_append.mp hc with hc | hc
    · exact .inr ⟨hsep c hc, isGraph_token t c hc⟩
    · exact .inl ⟨hblank c hc, hbl c hc⟩
  rw [htypes, any_fields hparts]
  cases bl with
  | nil =>
    rw [List.append_nil, List.splitOnP_eq_singleton hsep]
    exact Bool.or_false _
  | cons c bl =>
    rw [List.splitOnP_append_cons _ _ (hblank c List.mem_cons_self),
      List.splitOnP_eq_singleton hsep, List.any_append,
      any_splitOnP_blanks (fun d hd => hblank d (List.mem_cons_of_mem c hd)), Bool.or_false]
    exact Bool.or_false _

theorem any_relTypes_quoted {items : List QuotedItem} (h : ∀ i ∈ items, i.Typed) (w : Bytes) :
    (fields (relTypes (Text.toLower ((ParamValue.quoted items).text ++ w)))).any isXetType
      = ((items.map QuotedItem.byte).splitOn SP).any isXetType := by
  have hitem : ∀ i ∈ items, i.render = [i.byte] ∧ i.byte ≠ 34
      ∧ (i.byte = SP ∨ Text.isGraph i.byte = true) := by
    intro i hi
    cases i with
    | text c => exact ⟨rfl, c.property.1, h _ hi⟩
    | pair c => exact (h _ hi).elim
  have hrender : items.flatMap QuotedItem.render = items.map QuotedItem.byte :=
    (List.flatMap_congr (fun i hi => (hitem i hi).1)).trans List.map_eq_flatMap.symm
  have hpass : ∀ c ∈ Text.toLower (items.map QuotedItem.byte), (c != 34) = true := by
    intro c hc
    rw [bne_iff_ne]
    rintro rfl
    obtain ⟨i, hi, hbyte⟩ := List.mem_map.mp (Text.mem_toLower (by decide) hc)
    exact (hitem i hi).2.1 hbyte
  have hlower : Text.toLower ((ParamValue.quoted items).text ++ w)
      = 34 :: (Text.toLower (items.map QuotedItem.byte) ++ 34 :: Text.toLower w) := by
    rw [ParamValue.text, hrender]
    simp [Text.toLower]
  have htypes : relTypes (Text.toLower ((ParamValue.quoted items).text ++ w))
      = Text.toLower (items.map QuotedItem.byte) := by
    rw [hlower, relTypes, List.head?_cons, if_pos rfl, List.drop_succ_cons, List.drop_zero,
      List.takeWhile_append_of_pos hpass, List.takeWhile_cons_of_neg (by decide), List.append_nil]
  rw [htypes]
  refine any_fields (fun c hc => ?_)
  obtain ⟨i, hi, rfl⟩ := List.mem_map.mp hc
  rcases (hitem i hi).2.2 with hsp | hgraph
  · exact .inl ⟨beq_iff_eq.mpr hsp, .inl hsp⟩
  · refine .inr ⟨?_, hgraph⟩
    rw [beq_eq_false_iff_ne]
    intro hsp
    rw [hsp] at hgraph
    exact absurd hgraph (by decide)

theorem any_relTypes {v : ParamValue} (hv : v.Typed) (ps : List LinkParam) :
    (fields (relTypes (Text.toLower (v.text ++ ps.flatMap LinkParam.text)))).any isXetType
      = (v.content.splitOn SP).any isXetType := by
  cases v with
  | token t =>
    have hsp : SP ∉ t.val := fun h => absurd (t.property.2 SP h).1 (by decide)
    rw [ParamValue.content, List.splitOn_eq_singleton hsp]
    exact (any_relTypes_token t ps).trans (Bool.or_false _).symm
  | quoted items => exact any_relTypes_quoted hv _

/-! ## The links that are taken out -/

structure Link.Regular (l : Link) : Prop where
  target : ¬ ReadsRel l.target.val
  plain : ∀ p ∈ l.params, p.Plain
  silent : ∀ p ∈ l.params.takeWhile (fun p => !p.isRel), p.Silent
  told : ∀ p ∈ l.params.find? LinkParam.isRel, p.Told

theorem relOf_params {ps : List LinkParam}
    (hsilent : ∀ p ∈ ps.takeWhile (fun p => !p.isRel), p.Silent)
    (htold : ∀ p ∈ ps.find? LinkParam.isRel, p.Told) :
    ((relOf (ps.flatMap LinkParam.text)).elim false
        (fun rest => (fields (relTypes rest)).any isXetType))
      = (ps.find? LinkParam.isRel).elim false (fun p => (p.content.splitOn SP).any isXetType) := by
  induction ps with
  | nil => rfl
  | cons p ps ih =>
    rw [List.flatMap_cons]
    cases hrel : p.isRel with
    | false =>
      rw [List.takeWhile_cons_of_pos (by simp [hrel])] at hsilent
      rw [List.find?_cons_of_neg (by simp [hrel])] at htold ⊢
      rw [relOf_silent (hsilent p List.mem_cons_self) (begins_params ps)]
      exact ih (fun q hq => hsilent q (List.mem_cons_of_mem p hq)) htold
    | true =>
      rw [List.find?_cons_of_pos hrel] at htold ⊢
      match p, hrel, htold p rfl with
      | .named lead gap name (some (⟨_, _⟩, ⟨_, _⟩, v)), hrel, ⟨rfl, rfl, hv⟩ =>
        have hname : Text.toLower name.val = ascii "rel" := eq_of_beq hrel
        have htext : (LinkParam.named lead gap name (some (noBlanks, noBlanks, v))).text
            ++ ps.flatMap LinkParam.text
            = lead.val ++ 59 :: (gap.val ++ (name.val ++ 61 :: (v.text
              ++ ps.flatMap LinkParam.text))) := by
          simp [LinkParam.text, noBlanks]
        have hread : relOf (lead.val ++ 59 :: (gap.val ++ (name.val ++ 61 :: (v.text
            ++ ps.flatMap LinkParam.text)))) = some (Text.toLower (v.text
              ++ ps.flatMap LinkParam.text)) := by
          rw [relOf_semicolon, relOf_blanks, relOf_equals (equals_notMem_token name),
            if_pos (hname ▸ List.suffix_rfl)]
        change ((relOf ((LinkParam.named lead gap name (some (noBlanks, noBlanks, v))).text
          ++ ps.flatMap LinkParam.text)).elim false _) = _
        rw [htext, hread]
        exact any_relTypes hv ps

theorem Link.Regular.isXet {l : Link} (h : l.Regular) : linkValueIsXet l.text = l.isXet := by
  have htext : relOf l.text = relOf (l.params.flatMap LinkParam.text) := by
    have hopen : Parts 60 := (by decide : (60 : UInt8) ∉ ascii "rel=")
    have hclose : Parts 62 := (by decide : (62 : UInt8) ∉ ascii "rel=")
    exact (relOf_append_cons hopen (u := []) rfl _).trans
      (relOf_append_cons hclose (relOf_eq_none h.target) _)
  rw [linkValueIsXet_eq, htext, relOf_params h.silent h.told, Link.isXet]
  cases l.params.find? LinkParam.isRel <;> rfl

private def param (name : Bytes) (value : ParamValue)
    (h : name ≠ [] ∧ name.all (fun c => decide (Coreserver.TokenByte c)) = true) : LinkParam :=
  .named noBlanks oneBlank ⟨name, h.1, forall_mem_of_all h.2⟩ (some (noBlanks, noBlanks, value))

private def relation (t : Bytes)
    (h : t ≠ [] ∧ t.all (fun c => decide (Coreserver.TokenByte c)) = true) : LinkParam :=
  param (ascii "rel") (.token ⟨t, h.1, forall_mem_of_all h.2⟩) (by decide)

private def title (items : List QuotedItem) : LinkParam :=
  param (ascii "title") (.quoted items) (by decide)

private def fieldOf (first : Link) (others : List Link) : LinkField :=
  ⟨(noBlanks, first, noBlanks) :: others.map (fun l => (oneBlank, l, noBlanks)),
    List.cons_ne_nil _ _⟩

private def authLink : Link :=
  ⟨⟨ascii "/v", forall_mem_of_all (by decide)⟩, [relation (ascii "xet-auth") (by decide)]⟩

private def commaLink : Link :=
  ⟨⟨ascii "/a,b", forall_mem_of_all (by decide)⟩,
    [title [.text ⟨44, by decide⟩], relation (ascii "next") (by decide)]⟩

private def queryLink : Link :=
  ⟨⟨ascii "/u?rel=xet-a", forall_mem_of_all (by decide)⟩, [relation (ascii "next") (by decide)]⟩

private def quoteLink : Link :=
  ⟨⟨ascii "/u", forall_mem_of_all (by decide)⟩,
    [title [.pair 34], relation (ascii "next") (by decide)]⟩

end Proxy
