import Mathlib.Data.Int.Notation
import Pulsys.Base.Runs
import Pulsys.Cache.Meta

/-!
# The local blob store

`Put` streams a body into a temporary file, checks size and hash, and renames it to its
canonical path. An event is one file operation of one call, or a deletion (`Acts`); one
that fails does nothing, except a write, which may leave a part of its bytes.
-/

namespace Blobstore

open Bytes Runs

structure PutOptions where
  expectedOID : Bytes := []
  expectedSize : ℤ := 0
  deriving DecidableEq

structure Stat where
  oid : Bytes
  size : ℤ
  storageURL : Bytes
  deriving DecidableEq

inductive CopyError
  | read
  | canceled
  | write
  deriving DecidableEq

inductive PutError
  | invalidOID (oid : Bytes)
  | createTemp
  | copy (cause : CopyError)
  | close
  | sizeMismatch (declared got : ℤ)
  | oidMismatch (declared got : Bytes)
  | mkdir
  | rename
  deriving DecidableEq

def validOID (s : Bytes) : Bool :=
  s.length = 64 && s.all (fun c => (48 ≤ c && c ≤ 57) || (97 ≤ c && c ≤ 102))

def path (blobDir oid : Bytes) : Bytes :=
  blobDir ++ ascii "/" ++ oid.take 2 ++ ascii "/" ++ oid

def storageURL (blobDir oid : Bytes) : Bytes := ascii "file://" ++ path blobDir oid

def firstByteHash (b : Bytes) : Bytes := List.replicate 32 (b.headD 0)

section
variable (sha256 : Bytes → Bytes) (blobDir : Bytes)

def oidOf (b : Bytes) : Bytes := Cache.hexEncode (sha256 b)

def statOf (b : Bytes) : Stat where
  oid := oidOf sha256 b
  size := b.length
  storageURL := storageURL blobDir (oidOf sha256 b)

def checked (opts : PutOptions) (hashed : Bytes) : Except PutError Stat :=
  if 0 < opts.expectedSize ∧ (hashed.length : ℤ) ≠ opts.expectedSize then
    .error (.sizeMismatch opts.expectedSize hashed.length)
  else if opts.expectedOID ≠ [] ∧ oidOf sha256 hashed ≠ opts.expectedOID then
    .error (.oidMismatch opts.expectedOID (oidOf sha256 hashed))
  else .ok (statOf sha256 blobDir hashed)

inductive Phase
  | creating
  | copying
  | closing (failure : Option CopyError)
  | statting
  | making
  | placing
  | restatting
  | removing (result : Except PutError Stat)
  | returning (result : Except PutError Stat)
  | done (result : Except PutError Stat)
  deriving DecidableEq

structure Put where
  opts : PutOptions
  phase : Phase
  temp : Option ℕ := none
  body : Bytes := []
  hashed : Bytes := []

structure Store where
  blobs : Bytes → Option Bytes
  tmp : ℕ → Option Bytes
  puts : ℕ → Option Put

inductive Action
  | createTemp (name : Option ℕ)
  | read (data : Bytes) (taken : Option ℕ)
  | readEnds (failure : Option CopyError)
  | close (failed : Bool)
  | stat (failed : Bool)
  | mkdir (failed : Bool)
  | rename (failed : Bool)
  | statAgain (failed : Bool)
  | remove (failed : Bool)
  | ret
  deriving DecidableEq

inductive Effect
  | nothing
  | write (name : ℕ) (content : Bytes)
  | unlink (name : ℕ)
  | publish (name : ℕ) (oid content : Bytes)

def Effect.apply (s : Store) : Effect → Store
  | .nothing => s
  | .write n content => { s with tmp := Function.update s.tmp n (some content) }
  | .unlink n => { s with tmp := Function.update s.tmp n none }
  | .publish n oid content =>
    { s with
      tmp := Function.update s.tmp n none
      blobs := Function.update s.blobs oid (some content) }

def act (s : Store) (p : Put) : Action → Option (Put × Effect)
  | .createTemp name =>
    match p.phase, name with
    | .creating, none => some ({ p with phase := .returning (.error .createTemp) }, .nothing)
    | .creating, some n =>
      if (s.tmp n).isNone then some ({ p with phase := .copying, temp := some n }, .write n [])
      else none
    | _, _ => none
  | .read data taken =>
    match p.phase, p.temp, taken with
    | .copying, some n, none => do
      let content ← s.tmp n
      if content.length + data.length < 2 ^ 63 then
        some ({ p with body := p.body ++ data, hashed := p.hashed ++ data },
          .write n (content ++ data))
      else none
    | .copying, some n, some k => do
      let content ← s.tmp n
      some ({ p with body := p.body ++ data, phase := .closing (some .write) },
        .write n (content ++ data.take k))
    | _, _, _ => none
  | .readEnds failure =>
    match p.phase with
    | .copying => some ({ p with phase := .closing failure }, .nothing)
    | _ => none
  | .close failed =>
    match p.phase with
    | .closing (some cause) =>
      some ({ p with phase := .removing (.error (.copy cause)) }, .nothing)
    | .closing none =>
      if failed then some ({ p with phase := .removing (.error .close) }, .nothing)
      else
        match checked sha256 blobDir p.opts p.hashed with
        | .error e => some ({ p with phase := .removing (.error e) }, .nothing)
        | .ok _ => some ({ p with phase := .statting }, .nothing)
    | _ => none
  | .stat failed =>
    match p.phase with
    | .statting =>
      if failed = false ∧ (s.blobs (oidOf sha256 p.hashed)).isSome then
        some ({ p with phase := .removing (.ok (statOf sha256 blobDir p.hashed)) }, .nothing)
      else some ({ p with phase := .making }, .nothing)
    | _ => none
  | .mkdir failed =>
    match p.phase with
    | .making =>
      if failed then some ({ p with phase := .removing (.error .mkdir) }, .nothing)
      else some ({ p with phase := .placing }, .nothing)
    | _ => none
  | .rename failed =>
    match p.phase, p.temp with
    | .placing, some n =>
      if failed then some ({ p with phase := .restatting }, .nothing)
      else do
        let content ← s.tmp n
        some ({ p with
            phase := .returning (.ok (statOf sha256 blobDir p.hashed))
            temp := none },
          .publish n (oidOf sha256 p.hashed) content)
    | _, _ => none
  | .statAgain failed =>
    match p.phase with
    | .restatting =>
      if failed = false ∧ (s.blobs (oidOf sha256 p.hashed)).isSome then
        some ({ p with phase := .removing (.ok (statOf sha256 blobDir p.hashed)) }, .nothing)
      else some ({ p with phase := .removing (.error .rename) }, .nothing)
    | _ => none
  | .remove failed =>
    match p.phase, p.temp with
    | .removing result, some n =>
      -- the error of `os.Remove` is ignored
      if failed then some ({ p with phase := .returning result }, .nothing)
      else some ({ p with phase := .returning result, temp := none }, .unlink n)
    | _, _ => none
  | .ret =>
    match p.phase with
    | .returning result => some ({ p with phase := .done result }, .nothing)
    | _ => none

inductive Event
  | start (i : ℕ) (opts : PutOptions)
  | act (i : ℕ) (a : Action)
  | delete (oid : Bytes) (failed : Bool)
  deriving DecidableEq

def begin (opts : PutOptions) : Put where
  opts := opts
  phase :=
    if opts.expectedOID ≠ [] ∧ !validOID opts.expectedOID then
      .returning (.error (.invalidOID opts.expectedOID))
    else .creating

def step (s : Store) : Event → Option Store
  | .start i opts =>
    match s.puts i with
    | none => some { s with puts := Function.update s.puts i (some (begin opts)) }
    | some _ => none
  | .act i a => do
    let p ← s.puts i
    let (p', effect) ← act sha256 blobDir s p a
    some { effect.apply s with puts := Function.update s.puts i (some p') }
  | .delete oid failed =>
    if validOID oid ∧ failed = false then
      some { s with blobs := Function.update s.blobs oid none }
    else some s

inductive Acts (s : Store) (p : Put) : Action → Put → Effect → Prop
  | createFails (h : p.phase = .creating) :
    Acts s p (.createTemp none) { p with phase := .returning (.error .createTemp) } .nothing
  | create {n : ℕ} (h : p.phase = .creating) (hfresh : s.tmp n = none) :
    Acts s p (.createTemp (some n)) { p with phase := .copying, temp := some n } (.write n [])
  | write {n : ℕ} {content data : Bytes} (h : p.phase = .copying) (htemp : p.temp = some n)
    (hfile : s.tmp n = some content) :
    Acts s p (.read data none)
      { p with body := p.body ++ data, hashed := p.hashed ++ data } (.write n (content ++ data))
  | writeFails {n k : ℕ} {content data : Bytes} (h : p.phase = .copying)
    (htemp : p.temp = some n) (hfile : s.tmp n = some content) :
    Acts s p (.read data (some k)) { p with body := p.body ++ data, phase := .closing (some .write) }
      (.write n (content ++ data.take k))
  | readEnds {failure : Option CopyError} (h : p.phase = .copying) :
    Acts s p (.readEnds failure) { p with phase := .closing failure } .nothing
  | closed {failed : Bool} {cause : CopyError} (h : p.phase = .closing (some cause)) :
    Acts s p (.close failed) { p with phase := .removing (.error (.copy cause)) } .nothing
  | closeFails {failed : Bool} {e : PutError} (h : p.phase = .closing none) :
    Acts s p (.close failed) { p with phase := .removing (.error e) } .nothing
  | checks {failed : Bool} (h : p.phase = .closing none) :
    Acts s p (.close failed) { p with phase := .statting } .nothing
  | present {failed : Bool} (h : p.phase = .statting)
    (hblob : (s.blobs (oidOf sha256 p.hashed)).isSome = true) :
    Acts s p (.stat failed) { p with phase := .removing (.ok (statOf sha256 blobDir p.hashed)) }
      .nothing
  | absent {failed : Bool} (h : p.phase = .statting) :
    Acts s p (.stat failed) { p with phase := .making } .nothing
  | mkdirFails {failed : Bool} (h : p.phase = .making) :
    Acts s p (.mkdir failed) { p with phase := .removing (.error .mkdir) } .nothing
  | mkdir {failed : Bool} (h : p.phase = .making) :
    Acts s p (.mkdir failed) { p with phase := .placing } .nothing
  | renameFails {failed : Bool} (h : p.phase = .placing) :
    Acts s p (.rename failed) { p with phase := .restatting } .nothing
  | rename {failed : Bool} {n : ℕ} {content : Bytes} (h : p.phase = .placing)
    (htemp : p.temp = some n) (hfile : s.tmp n = some content) :
    Acts s p (.rename failed)
      { p with phase := .returning (.ok (statOf sha256 blobDir p.hashed)), temp := none }
      (.publish n (oidOf sha256 p.hashed) content)
  | presentAgain {failed : Bool} (h : p.phase = .restatting)
    (hblob : (s.blobs (oidOf sha256 p.hashed)).isSome = true) :
    Acts s p (.statAgain failed)
      { p with phase := .removing (.ok (statOf sha256 blobDir p.hashed)) } .nothing
  | absentAgain {failed : Bool} (h : p.phase = .restatting) :
    Acts s p (.statAgain failed) { p with phase := .removing (.error .rename) } .nothing
  | removeFails {result : Except PutError Stat} (h : p.phase = .removing result) :
    Acts s p (.remove true) { p with phase := .returning result } .nothing
  | remove {n : ℕ} {result : Except PutError Stat} (h : p.phase = .removing result)
    (htemp : p.temp = some n) :
    Acts s p (.remove false) { p with phase := .returning result, temp := none } (.unlink n)
  | ret {result : Except PutError Stat} (h : p.phase = .returning result) :
    Acts s p .ret { p with phase := .done result } .nothing

theorem acts_of_act {s : Store} {p p' : Put} {a : Action} {effect : Effect}
    (h : act sha256 blobDir s p a = some (p', effect)) :
    Acts sha256 blobDir s p a p' effect := by
  obtain ⟨opts, phase, temp, body, hashed⟩ := p
  cases a with
  | createTemp name =>
    cases phase with
    | creating =>
      cases name with
      | none =>
        cases h
        exact .createFails rfl
      | some n =>
        obtain ⟨hfresh, h⟩ := Option.ite_none_right_eq_some.mp h
        cases h
        exact .create rfl (Option.isNone_iff_eq_none.mp hfresh)
    | _ => cases h
  | read data taken =>
    cases phase with
    | copying =>
      cases temp with
      | none => cases taken <;> cases h
      | some n =>
        cases taken with
        | none =>
          obtain ⟨content, hfile, h⟩ := Option.bind_eq_some_iff.mp h
          obtain ⟨-, h⟩ := Option.ite_none_right_eq_some.mp h
          cases h
          exact .write rfl rfl hfile
        | some k =>
          obtain ⟨content, hfile, h⟩ := Option.bind_eq_some_iff.mp h
          cases h
          exact .writeFails rfl rfl hfile
    | _ => cases h
  | readEnds failure =>
    cases phase with
    | copying =>
      cases h
      exact .readEnds rfl
    | _ => cases h
  | close failed =>
    cases phase with
    | closing failure =>
      cases failure with
      | some cause =>
        cases h
        exact .closed rfl
      | none =>
        cases failed with
        | true =>
          cases h
          exact .closeFails rfl
        | false =>
          simp only [act, Bool.false_eq_true, if_false] at h
          cases hc : checked sha256 blobDir opts hashed with
          | error e =>
            rw [hc] at h
            cases h
            exact .closeFails rfl
          | ok st =>
            rw [hc] at h
            cases h
            exact .checks rfl
    | _ => cases h
  | stat failed =>
    cases phase with
    | statting =>
      simp only [act] at h
      by_cases hblob : failed = false ∧ (s.blobs (oidOf sha256 hashed)).isSome = true
      · rw [if_pos hblob] at h
        cases h
        exact .present rfl hblob.2
      · rw [if_neg hblob] at h
        cases h
        exact .absent rfl
    | _ => cases h
  | mkdir failed =>
    cases phase with
    | making =>
      cases failed with
      | true =>
        cases h
        exact .mkdirFails rfl
      | false =>
        cases h
        exact .mkdir rfl
    | _ => cases h
  | rename failed =>
    cases phase with
    | placing =>
      cases temp with
      | none => cases h
      | some n =>
        cases failed with
        | true =>
          cases h
          exact .renameFails rfl
        | false =>
          obtain ⟨content, hfile, h⟩ := Option.bind_eq_some_iff.mp h
          cases h
          exact .rename rfl rfl hfile
    | _ => cases h
  | statAgain failed =>
    cases phase with
    | restatting =>
      simp only [act] at h
      by_cases hblob : failed = false ∧ (s.blobs (oidOf sha256 hashed)).isSome = true
      · rw [if_pos hblob] at h
        cases h
        exact .presentAgain rfl hblob.2
      · rw [if_neg hblob] at h
        cases h
        exact .absentAgain rfl
    | _ => cases h
  | remove failed =>
    cases phase with
    | removing result =>
      cases temp with
      | none => cases h
      | some n =>
        cases failed with
        | true =>
          cases h
          exact .removeFails rfl
        | false =>
          cases h
          exact .remove rfl rfl
    | _ => cases h
  | ret =>
    cases phase with
    | returning result =>
      cases h
      exact .ret rfl
    | _ => cases h

end

end Blobstore
