import Pulsys.Base.Runs
import Pulsys.Base.WrapRing

/-!
# The indices of the submission and the completion ring

The reactor and the kernel share two rings, with counters of 32 bits that wrap. Every load
and store of a counter is a step, and between two of them the kernel does what it likes
within its contract. A slot handed out by `prepSqe` is filled and then committed.
-/

namespace Coreserver.Rings

open Runs WrapRing

/-! ## The rings -/

structure IoUringRing where
  sqMask : UInt32
  cqMask : UInt32

def newIoUringRing (entries cqEntries : UInt32) : Option IoUringRing :=
  if entries = 0 ∨ entries &&& (entries - 1) ≠ 0 then none
  else some ⟨entries - 1, cqEntries - 1⟩

def sqArray (i : ℕ) : ℕ := i

/-! ## Submissions -/

inductive Asked
  | sqSpace
  | sqPending
  | prepSqe
  deriving DecidableEq

inductive SqCall
  | idle
  | counting (asked : Asked) (head : UInt32) (queued : ℕ)
  | slotting
  | committing (tail : UInt32)

inductive Report
  | sqSpace (value : UInt32) (queued : ℕ)
  | sqPending (value : UInt32) (queued : ℕ)
  | sqFull (queued : ℕ)

structure Sq (α : Type) where
  head : UInt32
  tail : UInt32
  kernelHead : UInt32
  sqes : ℕ → α
  call : SqCall := .idle
  held : Option ℕ := none
  committed : List α := []
  taken : List α := []
  released : ℕ := 0
  reports : List Report := []

inductive SqEvent (α : Type)
  | ask (asked : Asked)
  | loadTail
  | loadSlot
  | fill (a : α)
  | sqCommit
  | storeTail
  | take
  | release

def counted {α : Type} (sqMask : UInt32) (s : Sq α) (head : UInt32) (queued : ℕ) : Asked → Sq α
  | .sqSpace =>
    { s with
      call := .idle
      reports := s.reports ++ [.sqSpace (sqMask + 1 - (s.tail - head)) queued] }
  | .sqPending =>
    { s with call := .idle, reports := s.reports ++ [.sqPending (s.tail - head) queued] }
  | .prepSqe =>
    if sqMask + 1 - (s.tail - head) < 1 then
      { s with call := .idle, reports := s.reports ++ [.sqFull queued] }
    else { s with call := .slotting }

def sqStep {α : Type} [Inhabited α] (sqMask : UInt32) (s : Sq α) : SqEvent α → Option (Sq α)
  | .ask asked =>
    match s.call with
    | .idle => some { s with call := .counting asked s.head (s.committed.length - s.released) }
    | _ => none
  | .loadTail =>
    match s.call with
    | .counting asked head queued => some (counted sqMask s head queued asked)
    | _ => none
  | .loadSlot =>
    match s.call with
    | .slotting =>
      some { s with
        call := .idle
        held := some (slotOf sqMask s.tail)
        sqes := Function.update s.sqes (slotOf sqMask s.tail) default }
    | _ => none
  | .fill a =>
    match s.call, s.held with
    | .idle, some slot => some { s with sqes := Function.update s.sqes slot a }
    | _, _ => none
  | .sqCommit =>
    match s.call, s.held with
    | .idle, some _ => some { s with call := .committing (s.tail + 1) }
    | _, _ => none
  | .storeTail =>
    match s.call with
    | .committing tail =>
      some { s with
        call := .idle
        held := none
        tail := tail
        committed := s.committed ++ [s.sqes (slotOf sqMask s.tail)] }
    | _ => none
  | .take =>
    if s.kernelHead = s.tail then none
    else
      some { s with
        kernelHead := s.kernelHead + 1
        taken := s.taken ++ [s.sqes (sqArray (slotOf sqMask s.kernelHead))] }
  | .release => some { s with head := s.kernelHead, released := s.taken.length }

inductive SqSteps {α : Type} [Inhabited α] (sqMask : UInt32) (s : Sq α) : SqEvent α → Sq α → Prop
  | ask {asked : Asked} (h : s.call = .idle) :
    SqSteps sqMask s (.ask asked)
      { s with call := .counting asked s.head (s.committed.length - s.released) }
  | loadTail {asked : Asked} {head : UInt32} {queued : ℕ}
    (h : s.call = .counting asked head queued) :
    SqSteps sqMask s .loadTail (counted sqMask s head queued asked)
  | loadSlot (h : s.call = .slotting) :
    SqSteps sqMask s .loadSlot
      { s with
        call := .idle
        held := some (slotOf sqMask s.tail)
        sqes := Function.update s.sqes (slotOf sqMask s.tail) default }
  | fill {slot : ℕ} {a : α} (h : s.call = .idle) (hheld : s.held = some slot) :
    SqSteps sqMask s (.fill a) { s with sqes := Function.update s.sqes slot a }
  | sqCommit {slot : ℕ} (h : s.call = .idle) (hheld : s.held = some slot) :
    SqSteps sqMask s .sqCommit { s with call := .committing (s.tail + 1) }
  | storeTail {tail : UInt32} (h : s.call = .committing tail) :
    SqSteps sqMask s .storeTail
      { s with
        call := .idle
        held := none
        tail := tail
        committed := s.committed ++ [s.sqes (slotOf sqMask s.tail)] }
  | take (h : s.kernelHead ≠ s.tail) :
    SqSteps sqMask s .take
      { s with
        kernelHead := s.kernelHead + 1
        taken := s.taken ++ [s.sqes (sqArray (slotOf sqMask s.kernelHead))] }
  | release : SqSteps sqMask s .release { s with head := s.kernelHead, released := s.taken.length }

theorem sqSteps_of_sqStep {α : Type} [Inhabited α] {sqMask : UInt32} {s s' : Sq α}
    {e : SqEvent α} (h : sqStep sqMask s e = some s') : SqSteps sqMask s e s' := by
  obtain ⟨head, tail, kernelHead, sqes, call, held, committed, taken, released, reports⟩ := s
  cases e with
  | ask asked =>
    cases call with
    | idle =>
      cases h
      exact .ask rfl
    | _ => cases h
  | loadTail =>
    cases call with
    | counting asked head queued =>
      cases h
      exact .loadTail rfl
    | _ => cases h
  | loadSlot =>
    cases call with
    | slotting =>
      cases h
      exact .loadSlot rfl
    | _ => cases h
  | fill a =>
    cases call with
    | idle =>
      cases held with
      | some slot =>
        cases h
        exact .fill rfl rfl
      | none => cases h
    | _ => cases h
  | sqCommit =>
    cases call with
    | idle =>
      cases held with
      | some slot =>
        cases h
        exact .sqCommit rfl rfl
      | none => cases h
    | _ => cases h
  | storeTail =>
    cases call with
    | committing tail =>
      cases h
      exact .storeTail rfl
    | _ => cases h
  | take =>
    obtain ⟨hne, h⟩ := Option.ite_none_left_eq_some.mp h
    cases h
    exact .take hne
  | release =>
    cases h
    exact .release

/-! ## Completions -/

inductive CqCall
  | idle
  | looping (n first : ℕ)
  | loaded (n first : ℕ) (head : UInt32)
  | draining (n first : ℕ) (head tail : UInt32)

structure Drained where
  n : ℕ
  first : ℕ
  delivered : ℕ
  published : ℕ

structure Cq (β : Type) where
  head : UInt32
  tail : UInt32
  kernelTail : UInt32
  cqes : ℕ → β
  call : CqCall := .idle
  posted : List β := []
  published : ℕ := 0
  delivered : List β := []
  stored : ℕ := 0
  returns : List Drained := []

inductive CqEvent (β : Type)
  | drainCQ
  | loadHead
  | loadTail
  | deliver
  | storeHead
  | write (c : β)
  | publish

def CqEvent.kernel {β : Type} : CqEvent β → Bool
  | .write _ | .publish => true
  | _ => false

def cqStep {β : Type} (cqMask : UInt32) (s : Cq β) : CqEvent β → Option (Cq β)
  | .drainCQ =>
    match s.call with
    | .idle => some { s with call := .looping 0 s.delivered.length }
    | _ => none
  | .loadHead =>
    match s.call with
    | .looping n first => some { s with call := .loaded n first s.head }
    | _ => none
  | .loadTail =>
    match s.call with
    | .loaded n first head =>
      if head = s.tail then
        some { s with
          call := .idle
          returns := s.returns ++ [⟨n, first, s.delivered.length, s.published⟩] }
      else some { s with call := .draining n first head s.tail }
    | _ => none
  | .deliver =>
    match s.call with
    | .draining n first head tail =>
      if head = tail then none
      else
        some { s with
          call := .draining (n + 1) first (head + 1) tail
          delivered := s.delivered ++ [s.cqes (slotOf cqMask head)] }
    | _ => none
  | .storeHead =>
    match s.call with
    | .draining n first head tail =>
      if head = tail then
        some { s with call := .looping n first, head := head, stored := s.delivered.length }
      else none
    | _ => none
  | .write c =>
    if s.kernelTail - s.head < cqMask + 1 then
      some { s with
        kernelTail := s.kernelTail + 1
        cqes := Function.update s.cqes (slotOf cqMask s.kernelTail) c
        posted := s.posted ++ [c] }
    else none
  | .publish => some { s with tail := s.kernelTail, published := s.posted.length }

inductive CqSteps {β : Type} (cqMask : UInt32) (s : Cq β) : CqEvent β → Cq β → Prop
  | drainCQ (h : s.call = .idle) :
    CqSteps cqMask s .drainCQ { s with call := .looping 0 s.delivered.length }
  | loadHead {n first : ℕ} (h : s.call = .looping n first) :
    CqSteps cqMask s .loadHead { s with call := .loaded n first s.head }
  | returns {n first : ℕ} {head : UInt32} (h : s.call = .loaded n first head)
    (heq : head = s.tail) :
    CqSteps cqMask s .loadTail
      { s with
        call := .idle
        returns := s.returns ++ [⟨n, first, s.delivered.length, s.published⟩] }
  | drains {n first : ℕ} {head : UInt32} (h : s.call = .loaded n first head)
    (hne : head ≠ s.tail) :
    CqSteps cqMask s .loadTail { s with call := .draining n first head s.tail }
  | deliver {n first : ℕ} {head tail : UInt32} (h : s.call = .draining n first head tail)
    (hne : head ≠ tail) :
    CqSteps cqMask s .deliver
      { s with
        call := .draining (n + 1) first (head + 1) tail
        delivered := s.delivered ++ [s.cqes (slotOf cqMask head)] }
  | storeHead {n first : ℕ} {head tail : UInt32} (h : s.call = .draining n first head tail)
    (heq : head = tail) :
    CqSteps cqMask s .storeHead
      { s with call := .looping n first, head := head, stored := s.delivered.length }
  | write {c : β} (hroom : s.kernelTail - s.head < cqMask + 1) :
    CqSteps cqMask s (.write c)
      { s with
        kernelTail := s.kernelTail + 1
        cqes := Function.update s.cqes (slotOf cqMask s.kernelTail) c
        posted := s.posted ++ [c] }
  | publish : CqSteps cqMask s .publish { s with tail := s.kernelTail, published := s.posted.length }

theorem cqSteps_of_cqStep {β : Type} {cqMask : UInt32} {s s' : Cq β} {e : CqEvent β}
    (h : cqStep cqMask s e = some s') : CqSteps cqMask s e s' := by
  obtain ⟨head, tail, kernelTail, cqes, call, posted, published, delivered, stored, returns⟩ := s
  cases e with
  | drainCQ =>
    cases call with
    | idle =>
      cases h
      exact .drainCQ rfl
    | _ => cases h
  | loadHead =>
    cases call with
    | looping n first =>
      cases h
      exact .loadHead rfl
    | _ => cases h
  | loadTail =>
    cases call with
    | loaded n first head' =>
      simp only [cqStep] at h
      by_cases heq : head' = tail
      · rw [if_pos heq] at h
        cases h
        exact .returns rfl heq
      · rw [if_neg heq] at h
        cases h
        exact .drains rfl heq
    | _ => cases h
  | deliver =>
    cases call with
    | draining n first head' tail' =>
      obtain ⟨hne, h⟩ := Option.ite_none_left_eq_some.mp h
      cases h
      exact .deliver rfl hne
    | _ => cases h
  | storeHead =>
    cases call with
    | draining n first head' tail' =>
      obtain ⟨heq, h⟩ := Option.ite_none_right_eq_some.mp h
      cases h
      exact .storeHead rfl heq
    | _ => cases h
  | write c =>
    obtain ⟨hroom, h⟩ := Option.ite_none_right_eq_some.mp h
    cases h
    exact .write hroom
  | publish =>
    cases h
    exact .publish

structure State (α β : Type) where
  sq : Sq α
  cq : Cq β

inductive Event (α β : Type)
  | sq (e : SqEvent α)
  | cq (e : CqEvent β)

def step {α β : Type} [Inhabited α] (ring : IoUringRing) (s : State α β) :
    Event α β → Option (State α β)
  | .sq e => (sqStep ring.sqMask s.sq e).map (fun sq => { s with sq := sq })
  | .cq e => (cqStep ring.cqMask s.cq e).map (fun cq => { s with cq := cq })

def emptyRings {α β : Type} (sqAt cqAt : UInt32) (sqes : ℕ → α) (cqes : ℕ → β) : State α β where
  sq := { head := sqAt, tail := sqAt, kernelHead := sqAt, sqes := sqes }
  cq := { head := cqAt, tail := cqAt, kernelTail := cqAt, cqes := cqes }

end Coreserver.Rings
