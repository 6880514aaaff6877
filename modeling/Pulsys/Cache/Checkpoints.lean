import Pulsys.Cache.Reservations

/-!
# Checkpoints

`checkpoint` and `commit` are two merges into one record, each into what it reads from the
file. How often a checkpoint is made makes no difference (`checkpoints_transparent`) under two
conditions. The owners on record are sorted, as the store keeps them: an owner is looked for by
bisection. And the texts are in UTF-8: an owner that is not comes back altered from the file,
is not found there, and is entered once more by each checkpoint
(`altered_owner_entered_again`).
-/

namespace Cache

open Bytes JSONText Text

structure Place (owners : List Bytes) (x : Bytes) (c : ℕ) : Prop where
  le : c ≤ owners.length
  below : ∀ k < c, owners.getD k [] < x
  others : ∀ k, c ≤ k → k < owners.length → ¬ owners.getD k [] < x

theorem exists_place {owners : List Bytes} (h : owners.Pairwise (· ≤ ·)) (x : Bytes) :
    ∃ c, Place owners x c := by
  induction owners with
  | nil => exact ⟨0, le_rfl, nofun, fun k _ hk => absurd hk (Nat.not_lt_zero k)⟩
  | cons a l ih =>
    obtain ⟨hle, hl⟩ := List.pairwise_cons.mp h
    by_cases ha : a < x
    · obtain ⟨c, hc⟩ := ih hl
      refine ⟨c + 1, Nat.succ_le_succ hc.le, fun k hk => ?_, fun k hk hlen => ?_⟩
      · cases k with
        | zero => exact ha
        | succ k => exact hc.below k (Nat.lt_of_succ_lt_succ hk)
      · obtain ⟨k, rfl⟩ := Nat.exists_eq_add_of_lt (show 0 < k by omega)
        rw [Nat.zero_add] at hk hlen ⊢
        exact hc.others k (by omega) (Nat.lt_of_succ_lt_succ hlen)
    · refine ⟨0, Nat.zero_le _, nofun, fun k _ hlen hlt => ?_⟩
      cases k with
      | zero => exact ha hlt
      | succ k =>
        rw [List.getD_cons_succ, List.getD_eq_getElem?_getD,
          List.getElem?_eq_getElem (Nat.lt_of_succ_lt_succ hlen)] at hlt
        exact ha (List.lt_of_le_of_lt (hle _ (List.getElem_mem _)) hlt)

theorem Place.searchStrings_eq {owners : List Bytes} {x : Bytes} {c : ℕ} (h : Place owners x c)
    (n : ℕ) {i j : ℕ} (hi : i ≤ c) (hj : c ≤ j) (hlen : j ≤ owners.length) (hn : j < i + n) :
    searchStrings owners x n i j = c := by
  induction n generalizing i j with
  | zero => omega
  | succ n ih =>
    rw [searchStrings]
    split
    · omega
    · next hij =>
      dsimp only
      split
      · next hlt =>
        have hc : (i + j) / 2 < c := by
          by_contra hge
          exact h.others _ (by omega) (by omega) hlt
        exact ih hc hj hlen (by omega)
      · next hge =>
        have hc : c ≤ (i + j) / 2 := by
          by_contra hlt
          exact hge (h.below _ (by omega))
        exact ih hi hc (by omega) (by omega)

theorem Place.insertIdx {owners : List Bytes} {x : Bytes} {c : ℕ} (h : Place owners x c) :
    Place (owners.insertIdx c x) x c := by
  have hlength := List.length_insertIdx_of_le_length h.le x
  refine ⟨by rw [hlength]; exact Nat.le_succ_of_le h.le, fun k hk => ?_, fun k hk hlen => ?_⟩
  · rw [List.getD_eq_getElem?_getD, List.getElem?_insertIdx, if_pos hk,
      ← List.getD_eq_getElem?_getD]
    exact h.below k hk
  · rw [List.getD_eq_getElem?_getD, List.getElem?_insertIdx, if_neg (Nat.not_lt.mpr hk)]
    split
    · rw [if_pos (by omega)]
      exact List.lt_irrefl x
    · rw [← List.getD_eq_getElem?_getD]
      exact h.others (k - 1) (by omega) (by omega)

theorem Place.appendOwner_eq {l : List Bytes} {x : Bytes} {c : ℕ} (h : Place l x c)
    (hx : x ≠ []) : appendOwner l x
      = if l[c]? = some x then l else if maxOriginPaths ≤ l.length then l else l.insertIdx c x := by
  have hsearch : searchStrings l x (l.length + 1) 0 l.length = c :=
    h.searchStrings_eq _ (Nat.zero_le _) h.le le_rfl (by omega)
  rw [appendOwner, if_neg hx]
  dsimp only
  rw [hsearch]

theorem appendOwner_again {owners : List Bytes} (h : owners.Pairwise (· ≤ ·)) (x : Bytes) :
    appendOwner (appendOwner owners x) x = appendOwner owners x := by
  obtain ⟨c, hc⟩ := exists_place h x
  by_cases hx : x = []
  · rw [appendOwner, if_pos hx]
  by_cases hthere : owners[c]? = some x
  · have hsame : appendOwner owners x = owners := by rw [hc.appendOwner_eq hx, if_pos hthere]
    rw [hsame, hsame]
  · by_cases hfull : maxOriginPaths ≤ owners.length
    · have hsame : appendOwner owners x = owners := by
        rw [hc.appendOwner_eq hx, if_neg hthere, if_pos hfull]
      rw [hsame, hsame]
    · have hnew : appendOwner owners x = owners.insertIdx c x := by
        rw [hc.appendOwner_eq hx, if_neg hthere, if_neg hfull]
      have hat : (owners.insertIdx c x)[c]? = some x := by
        rw [List.getElem?_insertIdx, if_neg (lt_irrefl c), if_pos rfl, if_pos hc.le]
      rw [hnew, hc.insertIdx.appendOwner_eq hx, if_pos hat]

theorem mem_appendOwner {owners : List Bytes} {x o : Bytes} (h : o ∈ appendOwner owners x) :
    o = x ∨ o ∈ owners := by
  unfold appendOwner at h
  split at h
  · exact .inr h
  · dsimp only at h
    split at h
    · exact .inr h
    split at h
    · exact .inr h
    · exact List.eq_or_mem_of_mem_insertIdx h

theorem lookup_cons_eq_ite (e : Bytes × Bytes) (l : List (Bytes × Bytes)) (k : Bytes) :
    (e :: l).lookup k = if k = e.1 then some e.2 else l.lookup k := by
  rw [List.lookup_cons]
  by_cases h : k = e.1
  · simp [h]
  · simp [h, beq_eq_false_iff_ne.mpr h]

theorem lookup_setHeader (m : List (Bytes × Bytes)) (k v k' : Bytes) :
    (setHeader m k v).lookup k' = if k' = k then some v else m.lookup k' := by
  have hmap : ∀ l : List (Bytes × Bytes), (l.map (fun e => if e.1 = k then (k, v) else e)).lookup k'
      = if k' = k ∧ l.any (·.1 == k) = true then some v else l.lookup k' := by
    intro l
    induction l with
    | nil => simp
    | cons e l ih =>
      rw [List.map_cons, lookup_cons_eq_ite, lookup_cons_eq_ite, ih]
      grind
  unfold setHeader
  split
  · next hany => simp only [hmap, hany, and_true]
  · next hany =>
    have hnot : m.lookup k = none := by
      refine List.lookup_eq_none_iff.mpr (fun e he => ?_)
      grind
    rw [List.lookup_append, lookup_cons_eq_ite]
    by_cases hk : k' = k
    · rw [if_pos hk, if_pos hk, hk, hnot, Option.none_or]
    · simp [hk]

theorem exists_lookup_mergeExtraHeaders (extra : List (Bytes × Bytes)) (k : Bytes) :
    ∃ v : Option Bytes, ∀ m, (mergeExtraHeaders m extra).lookup k = v.or (m.lookup k) := by
  induction extra with
  | nil => exact ⟨none, fun m => rfl⟩
  | cons e l ih =>
    obtain ⟨v, hv⟩ := ih
    by_cases he : e.2 ≠ [] ∧ k = e.1
    · refine ⟨v.or (some e.2), fun m => ?_⟩
      have hm : mergeExtraHeaders m (e :: l) = mergeExtraHeaders (setHeader m e.1 e.2) l :=
        congrArg (List.foldl _ · l) (if_neg he.1)
      rw [hm, hv, lookup_setHeader, if_pos he.2, Option.or_assoc]
      rfl
    · refine ⟨v, fun m => ?_⟩
      rw [← hv m]
      by_cases hnil : e.2 = []
      · have hm : mergeExtraHeaders m (e :: l) = mergeExtraHeaders m l :=
          congrArg (List.foldl _ · l) (if_pos hnil)
        rw [hm]
      · have hm : mergeExtraHeaders m (e :: l) = mergeExtraHeaders (setHeader m e.1 e.2) l :=
          congrArg (List.foldl _ · l) (if_neg hnil)
        rw [hm, hv, hv, lookup_setHeader, if_neg (fun hk => he ⟨hnil, hk⟩)]

theorem lookup_mergeExtraHeaders_again (m extra : List (Bytes × Bytes)) (k : Bytes) :
    (mergeExtraHeaders (mergeExtraHeaders m extra) extra).lookup k
      = (mergeExtraHeaders m extra).lookup k := by
  obtain ⟨v, hv⟩ := exists_lookup_mergeExtraHeaders extra k
  rw [hv, hv, ← Option.or_assoc, Option.or_self]

def SegmentParams.publish (p : SegmentParams) (last : Bool) (n : ℕ) (old : Option Meta) : Meta :=
  if last then p.commitMeta n old else p.checkpointMeta n old

theorem covered_publish (p : SegmentParams) (last : Bool) (n : ℕ) (old : Option Meta) (o : ℤ) :
    Covered (p.publish last n old).spans o ↔ Covered (spansOf old) o ∨ (p.span n).Has o := by
  cases last with
  | false => exact covered_checkpointMeta p n old o
  | true => exact covered_commitMeta p n old o

theorem extraHeaders_publish (p : SegmentParams) (last : Bool) (n : ℕ) (old : Option Meta) :
    (p.publish last n old).extraHeaders
      = mergeExtraHeaders (p.owned old).extraHeaders p.extraHeaders := by
  cases last <;> rfl

def Meta.bare (m : Meta) : Meta := { m with spans := [], extraHeaders := [] }

structure Meta.Alike (m m' : Meta) : Prop where
  covered : ∀ o, Covered m.spans o ↔ Covered m'.spans o
  headers : ∀ k, m.extraHeaders.lookup k = m'.extraHeaders.lookup k
  rest : m.bare = m'.bare

namespace Meta.Alike

variable {m m' m'' : Meta} {p : SegmentParams} {old : Option Meta}

theorem refl (m : Meta) : m.Alike m := ⟨fun _ => .rfl, fun _ => rfl, rfl⟩

theorem trans (h : m.Alike m') (h' : m'.Alike m'') : m.Alike m'' :=
  ⟨fun o => (h.covered o).trans (h'.covered o), fun k => (h.headers k).trans (h'.headers k),
    h.rest.trans h'.rest⟩

theorem total_eq (h : m.Alike m') : m.total = m'.total := (Meta.mk.inj h.rest).2.2.2.2.2.1

theorem publish (h : m.Alike m') (p : SegmentParams) (last : Bool) (n : ℕ) :
    (p.publish last n (some m)).Alike (p.publish last n (some m')) := by
  refine ⟨fun o => ?_, fun k => ?_, ?_⟩
  · rw [covered_publish, covered_publish, spansOf_some, spansOf_some, h.covered]
  · obtain ⟨v, hv⟩ := exists_lookup_mergeExtraHeaders p.extraHeaders k
    rw [extraHeaders_publish, extraHeaders_publish, hv, hv]
    exact congrArg v.or (h.headers k)
  · have hrest := congrArg (fun m => (p.publish last n (some m)).bare) h.rest
    cases last <;> exact hrest

end Meta.Alike

def SortedOwners (old : Option Meta) : Prop :=
  ∀ m ∈ old, m.originPaths.Pairwise (· ≤ ·)

structure Meta.Readable (m : Meta) : Prop where
  upstreamHost : Valid m.upstreamHost
  path : Valid m.path
  rawQuery : Valid m.rawQuery
  eTag : Valid m.eTag
  contentType : Valid m.contentType
  location : Valid m.location
  headers : ∀ e ∈ m.extraHeaders, Valid e.1 ∧ Valid e.2
  aliasOf : Valid m.aliasOf
  originPath : Valid m.originPath
  owners : ∀ o ∈ m.originPaths, Valid o

structure SegmentParams.Readable (p : SegmentParams) : Prop where
  record : p.newMeta.Readable
  headers : ∀ e ∈ p.extraHeaders, Valid e.1 ∧ Valid e.2

theorem Meta.Readable.reread_eq {m : Meta} (h : m.Readable) : m.reread = m := by
  have hpair : ∀ e ∈ m.extraHeaders, (coerce e.1, coerce e.2) = id e :=
    fun e he => Prod.ext (h.headers e he).1 (h.headers e he).2
  have hheaders : m.extraHeaders.map (fun e => (coerce e.1, coerce e.2)) = m.extraHeaders :=
    (List.map_congr_left hpair).trans (List.map_id _)
  have howners : m.originPaths.map coerce = m.originPaths :=
    (List.map_congr_left h.owners).trans (List.map_id _)
  obtain ⟨hhost, hpath, hquery, htag, htype, hloc, -, halias, horigin, -⟩ := h
  unfold Valid at hhost hpath hquery htag htype hloc halias horigin
  rw [Meta.reread, hheaders, howners, hhost, hpath, hquery, htag, htype, hloc, halias, horigin]

theorem valid_ite {c : Prop} [Decidable c] {a b : Bytes} (ha : Valid a) (hb : Valid b) :
    Valid (if c then a else b) := by
  split
  · exact ha
  · exact hb

structure InOrder (old : Option Meta) (p : SegmentParams) : Prop where
  sorted : SortedOwners old
  record : ∀ m ∈ old, m.Readable
  params : p.Readable

namespace SegmentParams

variable {p : SegmentParams} {old : Option Meta}

theorem span_mono {v n : ℕ} (hv : v ≤ n) {o : ℤ} (h : (p.span v).Has o) : (p.span n).Has o := by
  unfold span Span.Has at h ⊢
  dsimp only at h ⊢
  omega

theorem readable_owned (hp : p.Readable) (hold : ∀ m ∈ old, m.Readable) :
    (p.owned old).Readable := by
  have hbase : (old.getD p.newMeta).Readable := by
    cases old with
    | none => exact hp.record
    | some m => exact hold m rfl
  refine { hbase with
    originPath := valid_ite hp.record.originPath hbase.originPath, owners := fun o ho => ?_ }
  unfold owned at ho
  dsimp only at ho
  split at ho
  · exact hbase.owners o ho
  · rcases mem_appendOwner ho with rfl | ho
    · exact hp.record.originPath
    · exact hbase.owners o ho

theorem readable_publish (hp : p.Readable) (hold : ∀ m ∈ old, m.Readable) (last : Bool) (n : ℕ) :
    (p.publish last n old).Readable := by
  have howned := readable_owned hp hold
  have hheaders : ∀ e ∈ mergeExtraHeaders (p.owned old).extraHeaders p.extraHeaders,
      Valid e.1 ∧ Valid e.2 := forall_mem_mergeExtraHeaders howned.headers hp.headers
  cases last with
  | false => exact { howned with headers := hheaders }
  | true =>
    exact { howned with
      headers := hheaders
      eTag := valid_ite howned.eTag hp.record.eTag
      contentType := valid_ite howned.contentType hp.record.contentType
      upstreamHost := valid_ite hp.record.upstreamHost howned.upstreamHost
      path := valid_ite hp.record.path howned.path
      rawQuery := valid_ite hp.record.rawQuery howned.rawQuery }

theorem owned_again (hold : SortedOwners old) {m : Meta}
    (h : m.originPath = (p.owned old).originPath)
    (h' : m.originPaths = (p.owned old).originPaths) :
    (p.owned (some m)).originPath = (p.owned old).originPath
      ∧ (p.owned (some m)).originPaths = (p.owned old).originPaths := by
  have hsorted : (old.getD p.newMeta).originPaths.Pairwise (· ≤ ·) := by
    cases old with
    | none => exact List.Pairwise.nil
    | some m => exact hold m rfl
  unfold owned at h h' ⊢
  dsimp only [Option.getD_some] at h h' ⊢
  rw [h, h']
  constructor
  · by_cases hm : (old.getD p.newMeta).originPath = []
    · simp only [hm, if_true, ite_self]
    · simp only [hm, if_false]
  · by_cases hp : p.originPath = []
    · simp only [hp, if_true]
    · simp only [hp, if_false]
      exact appendOwner_again hsorted _

theorem alike_publish_again (hold : SortedOwners old) (last : Bool) {v n : ℕ} (hv : v ≤ n) :
    (p.publish last n (some (p.checkpointMeta v old))).Alike (p.publish last n old) := by
  refine ⟨fun o => ?_, fun k => ?_, ?_⟩
  · rw [covered_publish, spansOf_some, covered_checkpointMeta, covered_publish,
      or_assoc, or_iff_right_of_imp (span_mono hv)]
  · rw [extraHeaders_publish, extraHeaders_publish]
    exact lookup_mergeExtraHeaders_again _ _ k
  · obtain ⟨hpath, hpaths⟩ := @owned_again p old hold (p.checkpointMeta v old) rfl rfl
    have htotal : (p.publish last n (some (p.checkpointMeta v old))).total
        = (p.publish last n old).total := by
      cases last with
      | false =>
        show (p.checkpointMeta n _).total = (p.checkpointMeta n old).total
        rw [total_checkpointMeta, total_checkpointMeta, Option.bind_some, total_checkpointMeta]
        split <;> rfl
      | true =>
        show (p.commitMeta n _).total = (p.commitMeta n old).total
        rw [total_commitMeta, total_commitMeta, Option.bind_some, total_checkpointMeta, commitTotal,
          commitTotal]
        split <;> rfl
    cases last <;> exact Meta.mk.injEq .. ▸
      ⟨rfl, rfl, rfl, rfl, rfl, htotal, rfl, rfl, rfl, rfl, rfl, rfl, hpath, hpaths⟩

theorem metaTotal_commitMeta (h : 0 < p.total) (n : ℕ) (old : Option Meta) :
    metaTotal (some (p.commitMeta n old)) = p.total := by
  rw [metaTotal, total_commitMeta, commitTotal, if_pos h]
  exact if_neg (not_le.mpr h)

end SegmentParams

def Publishing.sound : Publishing := ⟨true, true, true⟩

namespace SegmentStore

def counted (used old new : ℤ) : ℤ := if new ≠ old then wrap64 (used + (new - old)) else used

def record (a : SegmentStore) : Option Meta := a.disk.get a.w.key

structure Follows (a b : SegmentStore) : Prop where
  readable : ∀ m ∈ b.record, m.Readable
  key : b.w.key = a.w.key
  params : b.w.params = a.w.params
  closed : b.w.closed = a.w.closed
  written : b.w.written = a.w.written
  quota : a.w.params.total ≤ 0 → b.usedBytes = a.usedBytes ∧ b.reservedBytes = a.reservedBytes
    ∧ b.w.reserved = a.w.reserved
  record : (b.record = a.record ∧ b.usedBytes = a.usedBytes)
    ∨ ∃ m v, b.record = some m ∧ v ≤ a.w.written ∧ m.Alike (a.w.params.checkpointMeta v a.record)
      ∧ b.usedBytes = counted a.usedBytes (metaTotal a.record) (metaTotal (some m))

theorem counted_again {used old mid new : ℤ} (h : mid = old ∨ mid = new) :
    counted (counted used old mid) mid new = counted used old new := by
  rcases h with rfl | rfl
  · have hmid : counted used mid mid = used := if_neg (not_not.mpr rfl)
    rw [hmid]
  · exact if_neg (not_not.mpr rfl)

theorem checkpoint_of_ne {a : SegmentStore} (h : a.w.written ≠ a.w.lastCheckpoint) :
    a.checkpoint .sound = ((a.put (a.w.params.checkpointMeta a.w.written a.record)).account a.record
      (a.w.params.checkpointMeta a.w.written a.record)).checkpointed := by
  rw [checkpoint, if_neg h]
  rfl

theorem metaTotal_of_alike {m m' : Meta} (h : m.Alike m') :
    metaTotal (some m) = metaTotal (some m') := by
  rw [metaTotal, metaTotal, h.total_eq]

theorem record_put (a : SegmentStore) (m : Meta) : (a.put m).record = some m.reread :=
  Directory.get_write _ _ _

theorem record_write (s : SegmentStore) (maxBytes interval : ℤ) (n : ℕ) :
    (s.write maxBytes interval n n false .sound).w.params = s.w.params
      ∧ ((s.write maxBytes interval n n false .sound).record = s.record
        ∨ 0 < interval ∧ (s.write maxBytes interval n n false .sound).record.isSome = true) := by
  have hwrote : ∀ t : SegmentStore, (t.wrote interval n false .sound).w.params = t.w.params
      ∧ ((t.wrote interval n false .sound).record = t.record
        ∨ 0 < interval ∧ (t.wrote interval n false .sound).record.isSome = true) := by
    intro t
    by_cases hdue : 0 < interval ∧ interval ≤ ((t.grow n).w.written : ℤ) - t.w.lastCheckpoint
    · rw [wrote, if_pos ⟨rfl, hdue⟩]
      by_cases hnew : (t.grow n).w.written = (t.grow n).w.lastCheckpoint
      · rw [checkpoint, if_pos hnew]
        exact ⟨rfl, .inl rfl⟩
      · rw [checkpoint_of_ne hnew]
        exact ⟨rfl, .inr ⟨hdue.1, Option.isSome_of_mem (record_put _ _)⟩⟩
    · rw [wrote, if_neg (fun hc => hdue hc.2)]
      exact ⟨rfl, .inl rfl⟩
  unfold write
  split
  · exact ⟨rfl, .inl rfl⟩
  split
  · split
    · exact ⟨rfl, .inl rfl⟩
    · rw [afterWrite, if_neg (lt_irrefl n)]
      exact hwrote _
  · exact hwrote s

namespace Follows

variable {a b : SegmentStore}

theorem publish (h : Follows a b) (hold : InOrder a.record a.w.params) (last : Bool) :
    (a.w.params.publish last a.w.written b.record).Alike
      (a.w.params.publish last a.w.written a.record) := by
  rcases h.record with ⟨hsame, -⟩ | ⟨m, v, hm, hv, halike, -⟩
  · rw [hsame]
    exact .refl _
  · rw [hm]
    exact (halike.publish _ last _).trans (SegmentParams.alike_publish_again hold.sorted last hv)

theorem counted_eq (h : Follows a b) {new : ℤ}
    (hnew : 0 < a.w.params.total → new = a.w.params.total) :
    counted b.usedBytes (metaTotal b.record) new
      = counted a.usedBytes (metaTotal a.record) new := by
  rcases h.record with ⟨hsame, hused⟩ | ⟨m, v, hm, -, halike, hused⟩
  · rw [hsame, hused]
  · have hmid : metaTotal (some m)
        = if 0 < a.w.params.total then a.w.params.total else metaTotal a.record := by
      rw [metaTotal_of_alike halike, metaTotal_checkpointMeta]
    rw [hm, hused]
    refine counted_again ?_
    rw [hmid]
    by_cases hp : 0 < a.w.params.total
    · rw [if_pos hp]
      exact .inr (hnew hp).symm
    · exact .inl (if_neg hp)

theorem checkpoint (h : Follows a b) (hold : InOrder a.record a.w.params) :
    Follows a (b.checkpoint .sound) := by
  by_cases hnew : b.w.written = b.w.lastCheckpoint
  · rw [SegmentStore.checkpoint, if_pos hnew]
    exact h
  have hread : (a.w.params.checkpointMeta a.w.written b.record).Readable :=
    SegmentParams.readable_publish hold.params h.readable false _
  have hput : (b.put (a.w.params.checkpointMeta a.w.written b.record)).record
      = some (a.w.params.checkpointMeta a.w.written b.record) := by
    rw [record_put, hread.reread_eq]
  rw [checkpoint_of_ne hnew, h.params, h.written]
  refine ⟨?_, h.key, h.params, h.closed, h.written, fun htotal => ?_, .inr
    ⟨_, a.w.written, hput, le_rfl, h.publish hold false, h.counted_eq ?_⟩⟩
  · intro m hm
    cases hput.symm.trans hm
    exact hread
  · -- without a total nothing is counted, and nothing given back
    have hsame := metaTotal_checkpointMeta a.w.params a.w.written b.record
    rw [if_neg (not_lt.mpr htotal)] at hsame
    rw [account_of_eq hsame]
    exact h.quota htotal
  · intro hp
    rw [metaTotal_checkpointMeta, if_pos hp]

theorem grow (h : Follows a b) (k : ℕ) : Follows (a.grow k) (b.grow k) := by
  refine ⟨h.readable, h.key, h.params, h.closed, congrArg (· + k) h.written, h.quota, ?_⟩
  refine h.record.imp id (fun ⟨m, v, hm, hv, hrest⟩ => ⟨m, v, hm, ?_, hrest⟩)
  exact hv.trans (Nat.le_add_right _ k)

theorem promise (h : Follows a b) (htotal : a.w.params.total ≤ 0) (r : ℤ) (n : ℕ) :
    Follows (a.promise r n) (b.promise r n) := by
  obtain ⟨hused, hreserved, hheld⟩ := h.quota htotal
  refine ⟨h.readable, h.key, h.params, h.closed, h.written, fun _ => ⟨hused, rfl, ?_⟩, h.record⟩
  show wrap64 (b.w.reserved + n) = wrap64 (a.w.reserved + n)
  rw [hheld]

theorem wrote (h : Follows a b) (hold : InOrder a.record a.w.params) (interval : ℤ) (k : ℕ) :
    Follows (a.wrote 0 k false .sound) (b.wrote interval k false .sound) := by
  have hgrow : a.wrote 0 k false .sound = a.grow k := by
    rw [SegmentStore.wrote, if_neg (fun hc => absurd hc.2.1 (lt_irrefl 0))]
  rw [hgrow]
  unfold SegmentStore.wrote
  dsimp only
  split
  · exact (h.grow k).checkpoint hold
  · exact h.grow k

theorem write (h : Follows a b) (hold : InOrder a.record a.w.params) (maxBytes interval : ℤ) (n : ℕ) :
    Follows (a.write maxBytes 0 n n false .sound) (b.write maxBytes interval n n false .sound) := by
  have hafter : ∀ (s : SegmentStore) (r : ℤ), s.afterWrite r n n = s.promise r n :=
    fun s r => if_neg (lt_irrefl n)
  unfold SegmentStore.write
  split
  · exact h
  rw [h.params]
  split
  · next hdynamic =>
    have htotal := total_le_of_dynamicQuota hdynamic
    obtain ⟨hused, hreserved, -⟩ := h.quota htotal
    rw [hused, hreserved]
    split
    · exact h
    · rw [hafter, hafter]
      exact (h.promise htotal _ n).wrote hold interval n
  · exact h.wrote hold interval n

theorem close (h : Follows a b) (hold : InOrder a.record a.w.params) (hopen : a.w.closed = false) :
    ∃ m m', (a.close .sound).record = some m ∧ (b.close .sound).record = some m' ∧ m'.Alike m
      ∧ (b.close .sound).usedBytes = (a.close .sound).usedBytes := by
  have hclose : ∀ {s : SegmentStore}, s.w.closed = false → s.w.params.Readable →
      (∀ m ∈ s.record, m.Readable) → (s.close .sound).record = some (s.w.params.commitMeta s.w.written s.record)
        ∧ (s.close .sound).usedBytes = counted s.usedBytes (metaTotal s.record)
          (metaTotal (some (s.w.params.commitMeta s.w.written s.record))) := by
    intro s hs hparams hrecord
    have hread : (s.w.params.commitMeta s.w.written s.record).Readable :=
      SegmentParams.readable_publish hparams hrecord true _
    rw [SegmentStore.close, if_neg (by simp [hs])]
    exact ⟨(record_put s.shut _).trans (congrArg some hread.reread_eq), rfl⟩
  obtain ⟨ha, hausedBytes⟩ := hclose hopen hold.params hold.record
  obtain ⟨hb, hbusedBytes⟩ := hclose (h.closed.trans hopen) (h.params ▸ hold.params) h.readable
  have halike : (a.w.params.commitMeta _ _).Alike (a.w.params.commitMeta _ _) := h.publish hold true
  rw [h.params, h.written] at hb hbusedBytes
  refine ⟨_, _, ha, hb, halike, ?_⟩
  rw [hbusedBytes, hausedBytes, metaTotal_of_alike halike]
  exact h.counted_eq (fun hp => SegmentParams.metaTotal_commitMeta hp _ _)

end Follows

end SegmentStore

structure CountedStore extends SegmentStore where
  entryCount : ℤ

namespace CountedStore

def entered (entries : ℤ) (old new : Option Meta) : ℤ :=
  if old.isNone && new.isSome then wrap64 (entries + 1) else entries

def after (c : CountedStore) (call : SegmentStore → SegmentStore) : CountedStore where
  toSegmentStore := call c.toSegmentStore
  entryCount := entered c.entryCount c.record (call c.toSegmentStore).record

def writes (maxBytes interval : ℤ) (c : CountedStore) (ns : List ℕ) : CountedStore :=
  ns.foldl (fun c n => c.after (·.write maxBytes interval n n false .sound)) c

def close (c : CountedStore) : CountedStore := c.after (·.close .sound)

theorem entered_self (entries : ℤ) (old : Option Meta) : entered entries old old = entries := by
  cases old <;> rfl

theorem entered_entered {entries : ℤ} {old mid new : Option Meta}
    (hmid : old.isSome = true → mid.isSome = true) (hnew : mid.isSome = true → new.isSome = true) :
    entered (entered entries old mid) mid new = entered entries old new := by
  cases old <;> cases mid <;> cases new <;> simp_all [entered]

structure Follows (a b : CountedStore) : Prop extends
    a.toSegmentStore.Follows b.toSegmentStore where
  entries : b.entryCount = entered a.entryCount a.record b.record

variable {a b : CountedStore}

theorem Follows.isSome_record (h : Follows a b) (hsome : a.record.isSome = true) :
    b.record.isSome = true := by
  rcases h.record with ⟨hsame, -⟩ | ⟨m, -, hm, -⟩
  · rwa [hsame]
  · exact Option.isSome_of_mem hm

theorem Follows.write (h : Follows a b) (hold : InOrder a.record a.w.params) (maxBytes interval : ℤ)
    (n : ℕ) : Follows (a.after (·.write maxBytes 0 n n false .sound))
        (b.after (·.write maxBytes interval n n false .sound))
      ∧ (a.after (·.write maxBytes 0 n n false .sound)).record = a.record := by
  have ha : (a.write maxBytes 0 n n false .sound).record = a.record :=
    (a.record_write maxBytes 0 n).2.resolve_right (fun hc => lt_irrefl 0 hc.1)
  have hb : b.record.isSome = true →
      (b.write maxBytes interval n n false .sound).record.isSome = true := by
    intro hsome
    rcases (b.record_write maxBytes interval n).2 with hsame | ⟨-, hnew⟩
    · rwa [hsame]
    · exact hnew
  refine ⟨⟨h.toFollows.write hold maxBytes interval n, ?_⟩, ha⟩
  show entered b.entryCount b.record (b.write maxBytes interval n n false .sound).record
    = entered (entered a.entryCount a.record (a.write maxBytes 0 n n false .sound).record)
      (a.write maxBytes 0 n n false .sound).record
      (b.write maxBytes interval n n false .sound).record
  rw [ha, entered_self, h.entries, entered_entered h.isSome_record hb]

theorem Follows.writes (h : Follows a b) (hold : InOrder a.record a.w.params) (maxBytes interval : ℤ)
    (ns : List ℕ) : Follows (a.writes maxBytes 0 ns) (b.writes maxBytes interval ns)
      ∧ (a.writes maxBytes 0 ns).record = a.record
      ∧ (a.writes maxBytes 0 ns).w.params = a.w.params
      ∧ (a.writes maxBytes 0 ns).w.closed = a.w.closed := by
  induction ns generalizing a b with
  | nil => exact ⟨h, rfl, rfl, rfl⟩
  | cons n ns ih =>
    obtain ⟨hnext, ha⟩ := h.write hold maxBytes interval n
    have hsame : (a.after (·.write maxBytes 0 n n false .sound)).w.params = a.w.params :=
      (a.record_write maxBytes 0 n).1
    obtain ⟨hfollows, hrecord, hparams, hclosed⟩ := ih hnext (by rwa [ha, hsame])
    exact ⟨hfollows, hrecord.trans ha, hparams.trans hsame,
      hclosed.trans (a.closed_write maxBytes 0 n n false .sound)⟩

/-- **Checkpoints are transparent**, whatever was on record and however often one is made, if
the owners on record are sorted and the texts are in UTF-8. -/
theorem checkpoints_transparent (a : CountedStore) (hopen : a.w.closed = false)
    (hold : InOrder a.record a.w.params) (maxBytes interval : ℤ) (ns : List ℕ) :
    (∃ m m', (a.writes maxBytes 0 ns).close.record = some m
        ∧ (a.writes maxBytes interval ns).close.record = some m' ∧ m'.Alike m)
      ∧ (a.writes maxBytes interval ns).close.usedBytes
        = (a.writes maxBytes 0 ns).close.usedBytes
      ∧ (a.writes maxBytes interval ns).close.entryCount
        = (a.writes maxBytes 0 ns).close.entryCount
      ∧ ∀ o, Covered (spansOf (a.writes maxBytes interval ns).record) o →
        Covered (spansOf a.record) o
          ∨ (a.w.params.span (a.writes maxBytes interval ns).w.written).Has o := by
  have hrefl : Follows a a := ⟨⟨hold.record, rfl, rfl, rfl, rfl, fun _ => ⟨rfl, rfl, rfl⟩, .inl ⟨rfl, rfl⟩⟩,
    (entered_self _ _).symm⟩
  obtain ⟨hfollows, hrecord, hparams, hclosed⟩ := hrefl.writes hold maxBytes interval ns
  rw [← hrecord, ← hparams] at hold
  obtain ⟨m, m', hm, hm', halike, hused⟩ := hfollows.toFollows.close hold (hclosed.trans hopen)
  refine ⟨⟨m, m', hm, hm', halike⟩, hused, ?_, fun o ho => ?_⟩
  · unfold close after
    dsimp only
    rw [hm, hm', hfollows.entries, entered_entered hfollows.isSome_record (fun _ => rfl)]
    rfl
  · rcases hfollows.record with ⟨hsame, -⟩ | ⟨m, v, hm, hv, halike, -⟩
    · rw [hsame, hrecord] at ho
      exact .inl ho
    · rw [hm, spansOf_some, halike.covered, covered_checkpointMeta, hrecord, hparams] at ho
      refine ho.imp id (fun hspan => ?_)
      rw [hfollows.written]
      exact SegmentParams.span_mono hv hspan

private def owned (owners : List Bytes) (originPath : Bytes) : CountedStore where
  disk := Directory.empty.write [107] { originPaths := owners }
  usedBytes := 0
  reservedBytes := 0
  w := { key := [107], params := { status := 200, start := 0, length := 2, total := 2,
                                   originPath := originPath } }
  entryCount := 1

theorem checkpoints_transparent_two_owners :
    InOrder (owned [ascii "a", ascii "z"] (ascii "m")).record
        (owned [ascii "a", ascii "z"] (ascii "m")).w.params
      ∧ ((owned [ascii "a", ascii "z"] (ascii "m")).writes 100 1 [1, 1]).close.usedBytes
        = ((owned [ascii "a", ascii "z"] (ascii "m")).writes 100 0 [1, 1]).close.usedBytes := by
  have hold : InOrder (owned [ascii "a", ascii "z"] (ascii "m")).record
      (owned [ascii "a", ascii "z"] (ascii "m")).w.params := by
    refine ⟨?_, ?_, ⟨?_, by decide⟩⟩
    · rintro m ⟨⟩
      decide
    · rintro m ⟨⟩
      constructor <;> decide
    · constructor <;> decide
  exact ⟨hold, (checkpoints_transparent _ rfl hold 100 1 [1, 1]).2.1⟩

/-- **An owner that is not in UTF-8 is entered once more by each checkpoint.** -/
theorem altered_owner_entered_again :
    ((owned [] [109, 0xFF]).writes 100 1 [1, 1]).close.record.map Meta.originPaths
        = some [[109, 0xEF, 0xBF, 0xBD], [109, 0xEF, 0xBF, 0xBD], [109, 0xEF, 0xBF, 0xBD]]
      ∧ ((owned [] [109, 0xFF]).writes 100 0 [1, 1]).close.record.map Meta.originPaths
        = some [[109, 0xEF, 0xBF, 0xBD]] := by
  decide +kernel

end CountedStore

end Cache
