import Pulsys.Proxy.Program

/-!
# The handler's operations in their order

There are ten exits and no `defer`. They are looked at once: a `Ledger` has the notes of
what was done, `Conforms` says what may be done by them, and `does_serveTarget` goes through
the handler once the key of the request is there. What conforms on the whole way is
`conforms_of_path`.
-/

namespace Proxy

open Bytes Cache
open Coreserver (Header)
open Interaction (Path keeps_pure keeps_ask keeps_ask_bind admits_pure admits_ask admits_ask_bind)

abbrev Deed : Type := (op : Op) × op.Answer

structure Ledger where
  acquired : List RangeTicket := []
  released : List RangeTicket := []
  opened : ℕ := 0
  closed : ℕ := 0
  answered : List (Outbound × Response) := []

namespace Ledger

def note (l : Ledger) : (op : Op) → op.Answer → Ledger
  | .acquireRange x, _ => { l with acquired := l.acquired ++ [x] }
  -- who waits in vain has no ticket
  | .acquireRangeCtx x _, ok => if ok then { l with acquired := l.acquired ++ [x] } else l
  | .unlock x, _ => { l with released := l.released ++ [x] }
  | .beginSegment _ _, begun => if begun = .ok then { l with opened := l.opened + 1 } else l
  | .closeSegment _, _ => { l with closed := l.closed + 1 }
  | .send out, some resp => { l with answered := l.answered ++ [(out, resp)] }
  | _, _ => l

def Holds (l : Ledger) (ticket : Option RangeTicket) : Prop :=
  l.acquired = ticket.toList ∧ l.released = [] ∧ l.opened = l.closed

def Settled (l : Ledger) : Prop :=
  l.released = l.acquired ∧ l.acquired.length ≤ 1 ∧ l.opened = l.closed

theorem Holds.settled {l : Ledger} (h : l.Holds none) : l.Settled :=
  ⟨h.2.1.trans h.1.symm, by rw [h.1]; exact Nat.zero_le _, h.2.2⟩

end Ledger

def ledger (deeds : List Deed) : Ledger := Interaction.noted Ledger.note deeds {}

theorem mem_answered_noted {deeds : List Deed} {l : Ledger} {x : Outbound × Response}
    (h : x ∈ (Interaction.noted Ledger.note deeds l).answered) :
    x ∈ l.answered ∨ (⟨.send x.1, some x.2⟩ : Deed) ∈ deeds := by
  induction deeds generalizing l with
  | nil => exact .inl h
  | cons d deeds ih =>
    rcases ih h with hl | hmem
    · obtain ⟨op, ans⟩ := d
      have hnote : x ∈ l.answered ∨ (⟨.send x.1, some x.2⟩ : Deed) = ⟨op, ans⟩ := by
        cases op with
        | send out =>
          cases ans with
          | none => exact .inl hl
          | some resp =>
            rcases List.mem_append.mp hl with hl | hl
            · exact .inl hl
            · obtain rfl := List.mem_singleton.mp hl
              exact .inr rfl
        | acquireRangeCtx y budget => cases ans <;> exact .inl hl
        | beginSegment key p => cases ans <;> exact .inl hl
        | _ => exact .inl hl
      exact hnote.imp_right (fun heq => List.mem_cons.mpr (.inl heq))
    · exact .inr (List.mem_cons_of_mem _ hmem)

def rangeKey : Bytes := ascii "Range"

def Inbound.RangeTold (r : Inbound) : Prop := r.header.has rangeKey = true → r.range ≠ []

namespace Service

variable (s : Service) (live : Prop) (r : Inbound) (t : Target) (keyHex : Bytes)

def Asks (out : Outbound) : Prop :=
  ∃ hdr body, s.up.request out.method t.host t.path t.rawQuery hdr body = .ok out

def Vouched (l : Ledger) (location : Bytes) : Prop :=
  ∃ x ∈ l.answered, x.1.method = ascii "GET" ∧ s.Asks t x.1
    ∧ isCacheableRedirectStatus x.2.status = true
    ∧ x.2.header.get (ascii "Location") = location
    ∧ (r.RangeTold → x.1.header.has rangeKey = false)

def Conforms (l : Ledger) : Op → Prop
  | .acquireRange _ | .acquireRangeCtx _ _ => l.Holds none
  | .unlock x => l.Holds (some x)
  | .send out => s.Asks t out
  | .beginSegment _ p => p.rawQuery = t.rawQuery
  | .storeRedirect key red =>
    key = keyHex ∧ red.rawQuery = t.rawQuery ∧ s.Vouched r t l red.location
      ∧ live ∧ r.method = ascii "GET"
      ∧ ∃ out, s.up.request r.method t.host t.path t.rawQuery
        (forwardHeader s.upstreamHFToken t.host r.header) r.reqBody = .ok out
  | .storeAlias _ a => a.rawQuery = t.rawQuery
  | _ => True

abbrev Does {α : Type} (p : Prog α) (post : α → Ledger → Prop) (l : Ledger) : Prop :=
  p.Admits Ledger.note (s.Conforms live r t keyHex) post l

end Service

/-! ## Reading and answering -/

def Quiet : Op → Prop
  | .keyHex _ | .loadMeta _ | .acquireBody _ | .readBody _ _ _ | .releaseBody _ | .writeSegment _ _
  | .writeHeader _ _ | .write _ => True
  | _ => False

theorem quiet_httpError (hdr : Header) (text : Bytes) (code : ℤ) :
    (httpError hdr text code).Keeps anyAnswer Quiet :=
  keeps_ask_bind trivial (fun _ _ => keeps_ask_bind trivial (fun _ _ => keeps_pure _))

theorem quiet_streamMetadata (hdr : Header) (resp : Response) :
    (streamMetadata hdr resp).Keeps anyAnswer Quiet :=
  keeps_ask_bind trivial (fun _ _ => keeps_copy (fun _ => trivial) _)

theorem quiet_forwardRedirect (hdr : Header) (resp : Response) :
    (forwardRedirect hdr resp).Keeps anyAnswer Quiet :=
  keeps_ask trivial

namespace Service

variable (s : Service)

theorem quiet_serveEntry (rangeHdr : Bytes) (headOnly : Bool) (keyHex : Bytes) (m : Meta) :
    (s.serveEntry rangeHdr headOnly keyHex m).Keeps anyAnswer Quiet := by
  unfold serveEntry
  split
  · exact keeps_ask_bind trivial (fun _ _ => keeps_pure _)
  split
  · exact keeps_ask_bind trivial (fun _ _ => keeps_pure _)
  split
  · exact keeps_pure _
  split
  · exact keeps_pure _
  split
  · exact keeps_pure _
  refine keeps_ask_bind trivial (fun ok _ => ?_)
  cases ok with
  | false => exact keeps_pure _
  | true =>
    refine keeps_ask_bind trivial (fun _ _ => keeps_ask_bind trivial (fun blocks _ => ?_))
    exact (keeps_copy (fun _ => trivial) blocks).bind
      (fun _ => keeps_ask_bind trivial (fun _ _ => keeps_pure _))

theorem quiet_tryServeFromCache (rangeHdr keyHex : Bytes) (headOnly : Bool) :
    (s.tryServeFromCache rangeHdr keyHex headOnly).Keeps anyAnswer Quiet := by
  refine keeps_ask_bind trivial (fun entry _ => ?_)
  cases entry with
  | none => exact keeps_pure _
  | some m =>
    dsimp only
    split
    · refine keeps_ask_bind trivial (fun canonical _ => ?_)
      cases canonical with
      | none => exact keeps_pure _
      | some canonical => exact s.quiet_serveEntry _ _ _ _
    · exact s.quiet_serveEntry _ _ _ _

variable {s} {live : Prop} {r : Inbound} {t : Target} {keyHex : Bytes} {l : Ledger}

theorem does_of_quiet {α : Type} {p : Prog α} {post : α → Ledger → Prop}
    (hp : p.Keeps anyAnswer Quiet) (hpost : ∀ a, post a l) : s.Does live r t keyHex p post l := by
  refine hp.admits (fun op hop l => ?_) (fun op hop l ans => ?_) hpost
  · cases op <;> first | exact trivial | exact hop.elim
  · cases op <;> first | rfl | exact hop.elim

theorem does_quiet {α : Type} {p : Prog α} (hp : p.Keeps anyAnswer Quiet) :
    s.Does live r t keyHex p (fun _ l' => l' = l) l :=
  does_of_quiet hp (fun _ => rfl)

/-! ## Asking and filing -/

theorem does_unlock {ticket : Option RangeTicket} (h : l.Holds ticket) :
    s.Does live r t keyHex (unlock ticket) (fun _ l' => l'.Settled) l := by
  cases ticket with
  | none => exact admits_pure h.settled
  | some x =>
    have hacq : l.acquired = [x] := h.1
    have hrel : l.released = [] := h.2.1
    refine admits_ask h (fun _ => ⟨?_, ?_, h.2.2⟩)
    · show l.released ++ [x] = l.acquired
      rw [hacq, hrel]
      rfl
    · show l.acquired.length ≤ 1
      rw [hacq]
      exact Nat.le_refl 1

theorem does_upDo (method : Bytes) (hdr : Header) (body : Bytes) :
    s.Does live r t keyHex (s.upDo method t hdr body) (fun ans l' =>
      match ans with
      | none => l' = l
      | some resp => ∃ out, s.up.request method t.host t.path t.rawQuery hdr body = .ok out
        ∧ l' = { l with answered := l.answered ++ [(out, resp)] }) l := by
  unfold upDo
  split
  · exact admits_pure rfl
  · next out hout =>
    have hmethod : out.method = method := (NetClient.request_eq_ok hout).2.2.1
    refine admits_ask ⟨hdr, body, hmethod ▸ hout⟩ (fun ans => ?_)
    cases ans with
    | none => rfl
    | some resp => exact ⟨out, hout, rfl⟩

theorem does_maybeWriteRevAlias {f : Fetch} (hf : f.target = t) (auth canonicalKey : Bytes)
    {P : Unit → Ledger → Prop} (hP : P () l) :
    s.Does live r t keyHex (s.maybeWriteRevAlias f auth canonicalKey) P l := by
  unfold maybeWriteRevAlias
  split
  · exact admits_pure hP
  · next a ha =>
    refine admits_ask_bind trivial (fun aliasKey => ?_)
    split
    · exact admits_pure hP
    · exact admits_ask (hf ▸ (revAlias_some ha).2.2) (fun _ => hP)

theorem does_streamSegment (p : SegmentParams) (hp : p.rawQuery = t.rawQuery)
    (errHdr : Header) (code : ℤ) (hdr : Header) (f : Fetch)
    (hf : f.target = t) (body : List Bytes) (key auth : Bytes) {ticket : Option RangeTicket}
    (h : l.Holds ticket) :
    s.Does live r t keyHex (s.streamSegment p errHdr code hdr f body key auth ticket)
      (fun _ l' => l'.Settled) l := by
  refine admits_ask_bind hp (fun begun => ?_)
  cases begun with
  | quotaExceeded =>
    exact (does_unlock h).bind
      (fun _ _ hl' => does_of_quiet (quiet_httpError _ _ _) (fun _ => hl'))
  | failed =>
    exact (does_unlock h).bind
      (fun _ _ hl' => does_of_quiet (quiet_httpError _ _ _) (fun _ => hl'))
  | ok =>
    refine admits_ask_bind trivial (fun _ => ?_)
    have htee : s.Does live r t keyHex (teeCopy key body)
        (fun _ l' => l' = { l with opened := l.opened + 1 })
        { l with opened := l.opened + 1 } :=
      does_quiet (keeps_teeCopy (fun _ => trivial) (fun _ => trivial) body)
    refine htee.bind (fun _ l' hl' => admits_ask_bind trivial (fun _ => ?_))
    subst hl'
    -- the segment is closed before the ticket is given back
    have hclosed : (Ledger.note { l with opened := l.opened + 1 } (.closeSegment key) ()).Holds
        ticket := ⟨h.1, h.2.1, congrArg (· + 1) h.2.2⟩
    exact (does_unlock hclosed).bind (fun _ _ hl' => does_maybeWriteRevAlias hf _ _ hl')

theorem does_streamCacheable (hdr : Header) (resp : Response) (key auth : Bytes)
    {ticket : Option RangeTicket} (h : l.Holds ticket) (originPath : Bytes) :
    s.Does live r t keyHex (s.streamCacheable hdr resp key t auth ticket originPath)
      (fun _ l' => l'.Settled) l := by
  have hpass : s.Does live r t keyHex (do streamMetadata hdr resp; unlock ticket)
      (fun _ l' => l'.Settled) l :=
    (does_quiet (quiet_streamMetadata hdr resp)).bind (fun _ _ hl' => hl' ▸ does_unlock h)
  have hsegment : ∀ start length total code hdr', s.Does live r t keyHex
      (s.streamSegment (Fetch.paramsAt ⟨t, resp.toUpstream, originPath⟩ start length total) hdr
        code hdr' ⟨t, resp.toUpstream, originPath⟩ resp.body key auth ticket)
      (fun _ l' => l'.Settled) l :=
    fun _ _ _ _ _ => does_streamSegment _ rfl _ _ _ ⟨t, resp.toUpstream, originPath⟩ rfl _ _ _ h
  unfold streamCacheable
  split
  · exact hsegment _ _ _ _ _
  split
  · unfold streamCacheable206
    dsimp only
    split
    · exact hpass
    · exact hsegment _ _ _ _ _
  · exact hpass

/-! ## Redirects -/

theorem range_forwardHeader (token host : Bytes) (hdr : Header) :
    (forwardHeader token host hdr).get rangeKey = hdr.get rangeKey
      ∧ (forwardHeader token host hdr).has rangeKey = hdr.has rangeKey := by
  have hpass : passesOn rangeKey = true := by decide +kernel
  have hne : rangeKey ≠ authorizationKey := by decide
  unfold forwardHeader
  dsimp only
  split
  · rw [Header.get_set_of_ne _ hne, Header.has_set_of_ne _ hne,
      Header.get_keep hpass, Header.has_keep, hpass, Bool.and_true]
    exact ⟨rfl, rfl⟩
  · rw [Header.get_keep hpass, Header.has_keep, hpass, Bool.and_true]
    exact ⟨rfl, rfl⟩

variable {out : Outbound} {resp : Response}

theorem does_cacheableLocation {ticket : Option RangeTicket} (h : l.Holds ticket)
    (hget : r.method = ascii "GET")
    (hout : s.up.request r.method t.host t.path t.rawQuery
      (forwardHeader s.upstreamHFToken t.host r.header) r.reqBody = .ok out)
    (hans : (out, resp) ∈ l.answered) (hstatus : isCacheableRedirectStatus resp.status = true) :
    s.Does live r t keyHex
      (s.cacheableLocation resp t (forwardHeader s.upstreamHFToken t.host r.header))
      (fun cacheHdr l' => l'.Holds ticket
        ∧ ∀ hdr ∈ cacheHdr, s.Vouched r t l' (hdr.get (ascii "Location"))) l := by
  obtain ⟨-, hheader, hmethod, -⟩ := NetClient.request_eq_ok hout
  obtain ⟨hsame, hhas⟩ := range_forwardHeader s.upstreamHFToken t.host r.header
  unfold cacheableLocation
  split
  · next hrange =>
    refine admits_pure ⟨h, ?_⟩
    rintro hdr ⟨⟩
    refine ⟨(out, resp), hans, hmethod.trans hget, ⟨_, _, hmethod.symm ▸ hout⟩, hstatus, rfl,
      fun htold => ?_⟩
    -- a range that is told is not empty, so there is none
    have hnone : r.header.has rangeKey = false :=
      Bool.eq_false_iff.mpr (fun hyes => htold hyes (hsame.symm.trans hrange))
    rw [hheader, applyHeaders, Header.has_keep, hhas, hnone]
    rfl
  · refine (does_upDo _ _ _).bind (fun ans l' hl' => ?_)
    cases ans with
    | none =>
      obtain rfl : l' = l := hl'
      exact admits_pure ⟨h, fun hdr hmem => absurd hmem (Option.not_mem_none hdr)⟩
    | some fresh =>
      obtain ⟨out', hout', rfl⟩ := hl'
      obtain ⟨-, hheader', hmethod', -⟩ := NetClient.request_eq_ok hout'
      dsimp only
      split
      · next hfresh =>
        refine admits_pure ⟨h, ?_⟩
        rintro hdr ⟨⟩
        refine ⟨(out', fresh), List.mem_append_right _ (List.mem_singleton_self _), hmethod',
          ⟨_, [], hmethod'.symm ▸ hout'⟩, hfresh.1, rfl, fun _ => ?_⟩
        rw [hheader', applyHeaders, Header.has_keep]
        exact (Bool.and_eq_false_iff.mpr (.inl (Header.has_del _ _)))
      · exact admits_pure ⟨h, fun hdr hmem => absurd hmem (Option.not_mem_none hdr)⟩

theorem does_cacheRedirect (hlive : live) (hdr : Header) (auth : Bytes)
    {ticket : Option RangeTicket} (h : l.Holds ticket)
    (hget : r.method = ascii "GET")
    (hout : s.up.request r.method t.host t.path t.rawQuery
      (forwardHeader s.upstreamHFToken t.host r.header) r.reqBody = .ok out)
    (hans : (out, resp) ∈ l.answered) (hstatus : isCacheableRedirectStatus resp.status = true) :
    s.Does live r t keyHex (s.cacheRedirect hdr resp keyHex t auth
      (forwardHeader s.upstreamHFToken t.host r.header)) (fun _ l' => l'.Holds ticket) l := by
  unfold cacheRedirect
  split
  · exact does_of_quiet (quiet_streamMetadata hdr resp) (fun _ => h)
  · refine (does_cacheableLocation h hget hout hans hstatus).bind (fun cacheHdr l' hl' => ?_)
    cases cacheHdr with
    | none => exact does_of_quiet (quiet_forwardRedirect hdr resp) (fun _ => hl'.1)
    | some cacheHdr =>
      have halias : s.Does live r t keyHex (s.maybeWriteRevAlias
          ⟨t, { resp.toUpstream with header := cacheHdr }, []⟩ auth keyHex)
          (fun _ l'' => l''.Holds ticket) l' :=
        does_maybeWriteRevAlias (f := ⟨t, _, []⟩) rfl _ _ hl'.1
      refine admits_ask_bind ⟨rfl, rfl, hl'.2 cacheHdr rfl, hlive, hget, out, hout⟩ (fun _ => ?_)
      refine halias.bind (fun _ l'' hl'' => ?_)
      exact does_of_quiet (quiet_forwardRedirect hdr resp) (fun _ => hl'')

/-! ## The handler -/

theorem does_relay (hlive : live) (path originPath auth : Bytes) {passthrough : Bool}
    {ticket : Option RangeTicket} (hpass : passthrough = true → ticket = none)
    (h : l.Holds ticket)
    (hout : s.up.request r.method t.host t.path t.rawQuery
      (forwardHeader s.upstreamHFToken t.host r.header) r.reqBody = .ok out)
    (hans : (out, resp) ∈ l.answered) :
    s.Does live r t keyHex (s.relay r.method path t keyHex originPath auth
      (forwardHeader s.upstreamHFToken t.host r.header) passthrough ticket resp)
      (fun _ l' => l'.Settled) l := by
  unfold relay
  dsimp only
  split
  · next hyes =>
    obtain rfl := hpass hyes
    exact does_of_quiet (quiet_streamMetadata _ resp) (fun _ => h.settled)
  split
  · exact does_streamCacheable _ resp keyHex auth h originPath
  split
  · next hredirect =>
    exact (does_cacheRedirect hlive _ auth h hredirect.1 hout hans hredirect.2).bind
      (fun _ _ hl' => does_unlock hl')
  · exact (does_quiet (quiet_streamMetadata _ resp)).bind (fun _ _ hl' => hl' ▸ does_unlock h)

theorem does_fetch (hlive : live) (originPath : Bytes) {passthrough : Bool}
    {ticket : Option RangeTicket} (hpass : passthrough = true → ticket = none) (h : l.Holds ticket) :
    s.Does live r t keyHex (s.fetch r t keyHex originPath passthrough ticket)
      (fun _ l' => l'.Settled) l := by
  refine (does_upDo _ _ _).bind (fun ans l' hl' => ?_)
  cases ans with
  | none =>
    obtain rfl : l' = l := hl'
    exact (does_unlock h).bind
      (fun _ _ hl' => does_of_quiet (quiet_httpError _ _ _) (fun _ => hl'))
  | some resp =>
    obtain ⟨out, hout, rfl⟩ := hl'
    exact does_relay hlive _ originPath _ hpass h hout
      (List.mem_append_right _ (List.mem_singleton_self _))

theorem does_forward (hlive : live) (originPath : Bytes) (artifact : Bool) (h : l.Holds none) :
    s.Does live r t keyHex (s.forward r t keyHex originPath artifact)
      (fun _ l' => l'.Settled) l := by
  -- under a ticket the cache is looked into once more
  have hunder : ∀ (x : RangeTicket) (l : Ledger), l.Holds (some x) →
      s.Does live r t keyHex (do
        if ← s.tryServeFromCache r.range keyHex false then perform (.unlock x)
        else s.fetch r t keyHex originPath false (some x)) (fun _ l' => l'.Settled) l := by
    intro x l hl
    refine (does_quiet (s.quiet_tryServeFromCache _ _ _)).bind (fun served l' hl' => ?_)
    subst hl'
    cases served with
    | true => exact does_unlock hl
    | false => exact does_fetch hlive originPath (fun hf => absurd hf Bool.false_ne_true) hl
  have htaken : ∀ x, Ledger.Holds { l with acquired := l.acquired ++ [x] } (some x) := by
    intro x
    refine ⟨?_, h.2.1, h.2.2⟩
    show l.acquired ++ [x] = [x]
    rw [h.1]
    rfl
  unfold forward
  split
  · dsimp only
    split
    · refine admits_ask_bind h (fun ok => ?_)
      cases ok with
      | true => exact hunder _ _ (htaken _)
      | false =>
        refine (does_quiet (s.quiet_tryServeFromCache _ _ _)).bind (fun served l' hl' => ?_)
        subst hl'
        cases served with
        | true => exact admits_pure h.settled
        | false => exact does_fetch hlive originPath (fun _ => rfl) h
    · exact admits_ask_bind h (fun _ => hunder _ _ (htaken _))
  · exact does_fetch hlive originPath (fun hf => absurd hf Bool.false_ne_true) h

structure Reaches (s : Service) (r : Inbound) (t : Target) : Prop where
  healthz : r.url.path ≠ ascii "/healthz"
  target : s.target r.url = .ok t
  online : s.strictOffline = false

theorem does_serveTarget (hhealth : r.url.path ≠ ascii "/healthz")
    (ht : s.target r.url = .ok t) (h : l.Holds none) :
    s.Does (s.Reaches r t) r t keyHex (s.serveTarget r t keyHex) (fun _ l' => l'.Settled) l := by
  have hrest : ∀ served : Bool, s.Does (s.Reaches r t) r t keyHex
      (if served then pure ()
        else if s.strictOffline then
          respondOffline securityHeader t.host t.path r.range keyHex (s.artifact r.method t) r.method
        else s.forward r t keyHex (extractAndStripOrigin r.url.rawQuery).1 (s.artifact r.method t))
      (fun _ l' => l'.Settled) l := by
    intro served
    split
    · exact admits_pure h.settled
    split
    · exact admits_ask_bind trivial (fun _ => admits_ask_bind trivial
        (fun _ => admits_pure h.settled))
    · next hoffline =>
      exact does_forward ⟨hhealth, ht, Bool.eq_false_iff.mpr hoffline⟩ _ _ h
  have hcache : ∀ key isHead, s.Does (s.Reaches r t) r t keyHex
      (s.tryServeFromCache r.range key isHead) (fun _ l' => l' = l) l :=
    fun _ _ => does_quiet (s.quiet_tryServeFromCache _ _ _)
  unfold serveTarget
  dsimp only
  split
  · split
    · exact admits_ask_bind trivial
        (fun key => (hcache key _).bind (fun served _ hl' => hl' ▸ hrest served))
    · exact (hcache keyHex _).bind (fun served _ hl' => hl' ▸ hrest served)
  · exact hrest false

theorem conforms_of_path {before after : List Deed} {op : Op} {ans : op.Answer} {rest : Prog Unit}
    (ht : ∀ t', s.target r.url = .ok t' → t' = t)
    (hpath : Path (s.serveHTTP r) (before ++ ⟨op, ans⟩ :: after) rest) :
    Quiet op ∨ ∃ keyHex tail, before = ⟨.keyHex (t.lookup r.method), keyHex⟩ :: tail
      ∧ s.Conforms (s.Reaches r t) r t keyHex (ledger tail) op := by
  have hquiet : ∀ {p : Prog Unit}, p.Keeps anyAnswer Quiet →
      Path p (before ++ ⟨op, ans⟩ :: after) rest → Quiet op := by
    intro p hp hpath
    have hadmits : p.Admits (fun (x : Unit) _ _ => x) (fun _ => Quiet) (fun _ _ => True) () :=
      hp.admits (fun _ hop _ => hop) (fun _ _ _ _ => rfl) (fun _ => trivial)
    exact hadmits.may_of_path hpath
  unfold serveHTTP at hpath
  by_cases hhealth : r.url.path = ascii "/healthz"
  · rw [if_pos hhealth] at hpath
    refine .inl (hquiet ?_ hpath)
    exact ⟨trivial, fun _ _ => ⟨trivial, fun _ _ => keeps_pure _⟩⟩
  rw [if_neg hhealth] at hpath
  split at hpath
  · exact .inl (hquiet (quiet_httpError _ _ _) hpath)
  next t' ht' =>
  obtain rfl := ht t' ht'
  cases before with
  | nil =>
    cases hpath with
    | step hrest => exact .inl trivial
  | cons d tail =>
    cases hpath with
    | @step _ _ keyHex _ _ hrest =>
      exact .inr ⟨keyHex, tail, rfl,
        (does_serveTarget hhealth ht' ⟨rfl, rfl, rfl⟩).may_of_path hrest⟩

/-- **Tickets are given back once, and late enough**: whatever upstream, the store and the
client do, when no segment is open, and before the return. -/
theorem tickets_released_once (s : Service) (r : Inbound) (t : Target)
    (keyHex originPath : Bytes) (artifact : Bool) :
    (∀ before x after rest, Path (s.forward r t keyHex originPath artifact)
        (before ++ ⟨.unlock x, ()⟩ :: after) rest →
      (ledger before).acquired = [x] ∧ (ledger before).released = []
        ∧ (ledger before).opened = (ledger before).closed)
      ∧ ∀ deeds, Path (s.forward r t keyHex originPath artifact) deeds (.done ()) →
        (ledger deeds).released = (ledger deeds).acquired
          ∧ (ledger deeds).acquired.length ≤ 1
          ∧ (ledger deeds).opened = (ledger deeds).closed := by
  have hdoes : s.Does True r t keyHex (s.forward r t keyHex originPath artifact)
      (fun _ l' => l'.Settled) {} := does_forward trivial originPath artifact ⟨rfl, rfl, rfl⟩
  exact ⟨fun _ _ _ _ hpath => hdoes.may_of_path hpath, fun _ hpath => hdoes.of_path hpath⟩

end Service

end Proxy
