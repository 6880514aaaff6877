import Pulsys.Base.Bytes
import Pulsys.Base.Directory
import Pulsys.Base.Runs

/-!
# Settings

A setting is replaced by who names the version that it has. `settings_no_lost_update`: the
requests for a setting that succeed have read each what the one before has written.
-/

namespace Admin

open Bytes Runs

abbrev SettingKey := Bytes × Bytes × Bytes

structure Setting (α : Type) where
  value : α
  version : ℤ
  deriving DecidableEq

inductive SettingError
  | negativeVersion
  | conflict
  | store

structure PutSettingRequest where
  tenantID : Bytes
  scope : Bytes
  key : Bytes
  body : Option (Bytes × ℤ)

def PutSettingRequest.id (r : PutSettingRequest) : SettingKey := (r.tenantID, r.scope, r.key)

inductive SettingReply (α : Type)
  | error (status : ℕ) (reason : Bytes)
  | ok (setting : Setting α)

section
variable {α : Type} (jsonb : Bytes → Option α)

def upsertSetting (rows : Directory SettingKey (Setting α)) (id : SettingKey) (value : Bytes)
    (expectVersion : ℤ) (fails : Bool) : Except SettingError (Setting α) :=
  if expectVersion < 0 then .error .negativeVersion
  else
    match if fails then none else jsonb value with
    | none => .error .store
    | some v =>
      if 1 ≤ expectVersion then
        match rows.get id with
        | none => .error .conflict
        | some row =>
          if row.version ≠ expectVersion then .error .conflict
          else if 2 ^ 63 ≤ row.version + 1 then .error .store
          else .ok ⟨v, row.version + 1⟩
      else
        -- `settings_tenant_scope_key_uq`
        match rows.get id with
        | some _ => .error .conflict
        | none => .ok ⟨v, 1⟩

def putSetting (rows : Directory SettingKey (Setting α)) (r : PutSettingRequest) (fails : Bool) :
    SettingReply α :=
  if r.scope = [] ∨ r.key = [] then .error 400 (ascii "scope and key required")
  else
    match r.body with
    | none => .error 400 (ascii "invalid json")
    | some (value, version) =>
      if version < 0 then .error 400 (ascii "version: must be >= 0")
      else
        match upsertSetting jsonb rows r.id value version fails with
        | .error .conflict => .error 409 (ascii "setting version conflict")
        | .error _ => .error 500 (ascii "settings write failed")
        | .ok setting => .ok setting

structure SettingsTable (α : Type) where
  rows : Directory SettingKey (Setting α) := .empty
  written : List (SettingKey × ℤ × Setting α) := []

def SettingsTable.step (s : SettingsTable α) (e : PutSettingRequest × Bool) :
    Option (SettingsTable α) :=
  match putSetting jsonb s.rows e.1 e.2 with
  | .error _ _ => some s
  | .ok setting => some ⟨s.rows.write e.1.id setting,
      s.written ++ [(e.1.id, (e.1.body.map Prod.snd).getD 0, setting)]⟩

def SettingsTable.writtenTo (s : SettingsTable α) (id : SettingKey) : List (ℤ × Setting α) :=
  (s.written.filter (fun w => w.1 = id)).map Prod.snd

structure SettingsTable.Numbered (s : SettingsTable α) (id : SettingKey) : Prop where
  versions : (s.writtenTo id).map (fun w => (w.1, w.2.version))
    = (List.range (s.writtenTo id).length).map (fun n : ℕ => ((n : ℤ), (n : ℤ) + 1))
  row : s.rows.get id = (s.writtenTo id).getLast?.map Prod.snd

variable {jsonb} {s s' : SettingsTable α} {id : SettingKey}

theorem putSetting_eq_ok {rows : Directory SettingKey (Setting α)} {r : PutSettingRequest}
    {fails : Bool} {setting : Setting α} (h : putSetting jsonb rows r fails = .ok setting) :
    (r.body.map Prod.snd).getD 0 = ((rows.get r.id).map Setting.version).getD 0
      ∧ setting.version = ((rows.get r.id).map Setting.version).getD 0 + 1 := by
  unfold putSetting upsertSetting at h
  split at h
  · cases h
  · split at h
    · cases h
    · next value version hbody =>
      rw [hbody]
      grind

namespace SettingsTable

theorem writtenTo_append (w : SettingKey × ℤ × Setting α) {rows rows'} :
    (⟨rows', s.written ++ [w]⟩ : SettingsTable α).writtenTo id
      = (⟨rows, s.written⟩ : SettingsTable α).writtenTo id ++ (if w.1 = id then [w.2] else []) := by
  simp only [writtenTo, List.filter_append, List.map_append, List.filter_singleton]
  split <;> simp_all

theorem Numbered.version (h : s.Numbered id) :
    ((s.rows.get id).map Setting.version).getD 0 = (s.writtenTo id).length := by
  have hversions := h.versions
  rw [h.row]
  rcases List.eq_nil_or_concat' (s.writtenTo id) with hnil | ⟨ws, w, hconcat⟩
  · rw [hnil]
    rfl
  · rw [hconcat] at hversions ⊢
    rw [List.length_append, List.length_singleton, List.range_succ, List.map_append,
      List.map_append] at hversions
    obtain ⟨-, hlast⟩ := List.append_inj' hversions rfl
    rw [List.getLast?_concat, List.length_append]
    simp only [List.map_cons, List.map_nil, List.cons.injEq, Prod.mk.injEq, and_true] at hlast
    simpa using hlast.2

theorem Numbered.step (h : s.Numbered id) {e : PutSettingRequest × Bool}
    (hs : s.step jsonb e = some s') : s'.Numbered id := by
  unfold SettingsTable.step at hs
  split at hs
  · cases hs
    exact h
  · next setting hok =>
    cases hs
    obtain ⟨hexpect, hversion⟩ := putSetting_eq_ok hok
    have hwritten := @writtenTo_append _ s id
      (e.1.id, (e.1.body.map Prod.snd).getD 0, setting) s.rows (s.rows.write e.1.id setting)
    by_cases hid : e.1.id = id
    · -- the version that is named is the number of those before
      rw [hid, h.version] at hexpect hversion
      rw [if_pos hid] at hwritten
      constructor
      · rw [hwritten, List.length_append, List.length_singleton, List.range_succ, List.map_append,
          List.map_append, h.versions, hexpect]
        simp [hversion]
      · rw [hwritten, List.getLast?_concat, hid, Directory.get_write]
        rfl
    · rw [if_neg hid, List.append_nil] at hwritten
      constructor
      · rw [hwritten]
        exact h.versions
      · rw [hwritten, Directory.get_write_of_ne _ _ (Ne.symm hid)]
        exact h.row

end SettingsTable

/-- **No update is lost**, in whatever order the requests are served: for every setting, those
that succeed have named the versions 0, 1, 2 and so on, each the one that it replaces, and the
last one's value is there. -/
theorem settings_no_lost_update {es : List (PutSettingRequest × Bool)}
    (hrun : run (SettingsTable.step jsonb) {} es = some s) (id : SettingKey) : s.Numbered id :=
  @invariant_of_step _ _ (SettingsTable.step jsonb) (·.Numbered id) (fun _ _ _ h hs => h.step hs)
    {} s es ⟨rfl, rfl⟩ hrun

/-- Two writers have read the first version; the second of them is refused. -/
theorem settings_no_lost_update_two : ∃ s : SettingsTable Bytes,
    run (SettingsTable.step some) {} [(⟨[], [1], [1], some ([7], 0)⟩, false),
        (⟨[], [1], [1], some ([8], 1)⟩, false), (⟨[], [1], [1], some ([9], 1)⟩, false)] = some s
      ∧ s.Numbered ([], [1], [1]) ∧ s.rows.get ([], [1], [1]) = some ⟨[8], 2⟩ := by
  have hrun : run (SettingsTable.step (some : Bytes → Option Bytes)) {}
      [(⟨[], [1], [1], some ([7], 0)⟩, false), (⟨[], [1], [1], some ([8], 1)⟩, false),
        (⟨[], [1], [1], some ([9], 1)⟩, false)] = some _ := rfl
  exact ⟨_, hrun, settings_no_lost_update hrun _, rfl⟩

end

end Admin
