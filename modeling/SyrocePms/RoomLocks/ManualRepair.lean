import SyrocePms.RoomLocks.Duplicates

/-! The repair of one night by an operator, `manual_resolve_room_night_lock_duplicate`. Its
guards read the night; the deletion comes before the test that one row is left. -/

namespace SyrocePms.RoomLocks

open Atomic List

variable {keep : Holder} {retire : List Holder} {key : NightKey} {g : Rows} {s : Store}

/-- The arguments. An identifier that is left out or empty is `none`. -/
structure ManualArgs where
  tenant : Option ℕ
  room : Option ℕ
  night : Option ℤ
  keep : Holder
  retire : List Holder
  actor : Actor

def ManualArgs.target (a : ManualArgs) : Option (NightKey × Holder) :=
  match a.tenant, a.room, a.night with
  | some tenant, some room, some night =>
    if a.keep.truthy then some (⟨tenant, room, night⟩, a.keep) else none
  | _, _, _ => none

def ManualArgs.retireIds (a : ManualArgs) : List Holder := a.retire.filter Holder.truthy

inductive ManualSkip where
  | incomplete
  | retireEmpty
  | keeperRetired
  | fetchError
  | keeperAbsent
  | notPresent (missing : List Holder)
  | deleteError
  | postCheck (rows : ℕ)

inductive ManualAnswer where
  | skipped (reason : ManualSkip) (deletedCount : Option ℕ)
  | applied (key : NightKey) (keep : Holder) (retired : List Holder) (deleted remaining : ℕ)

def ManualAnswer.isApplied : ManualAnswer → Bool
  | .skipped _ _ => false
  | .applied _ _ _ _ _ => true

def presenceGuard (read : Rows) (keep : Holder) (retire : List Holder) : Except ManualSkip Unit :=
  let present := read.map LockRow.holder
  let missing := retire.filter fun h => !present.contains h
  if !present.contains keep then .error .keeperAbsent
  else if !missing.isEmpty then .error (.notPresent missing)
  else .ok ()

/-- The guards before the deletion, with the night and its keeper when they all pass. -/
def manualGuard (rows : Rows) (a : ManualArgs) (fetch : Bool) :
    Except ManualSkip (NightKey × Holder) :=
  match a.target with
  | none => .error .incomplete
  | some (key, keep) =>
    if a.retireIds.isEmpty then .error .retireEmpty
    else if a.retireIds.contains keep then .error .keeperRetired
    else if !fetch then .error .fetchError
    else
      match presenceGuard ((group rows key).take 100) keep a.retireIds with
      | .error reason => .error reason
      | .ok _ => .ok (key, keep)

/-- The deletion, the test of the count, and the record. -/
def retireManually (s : Store) (a : ManualArgs) (r : Replies) (key : NightKey) (keep : Holder) :
    Store × ManualAnswer :=
  match retireRows s key a.retireIds r with
  | (s', none) => (s', .skipped .deleteError none)
  | (s', some (deleted, remaining)) =>
    if remaining = 1 then
      (s'.record r ⟨key, .manual ((group s.rows key).take 100), some keep, a.retireIds, deleted,
        a.actor⟩, .applied key keep a.retireIds deleted remaining)
    else (s', .skipped (.postCheck remaining) (some deleted))

def manualResolve (s : Store) (a : ManualArgs) (r : Replies) : Store × ManualAnswer :=
  match manualGuard s.rows a r.fetch with
  | .error reason => (s, .skipped reason none)
  | .ok (key, keep) => retireManually s a r key keep

/-! ### All or nothing -/

/-- The call leaves one row of its night, that of the keeper, and its record in `audit_logs`. -/
def Repaired (s s' : Store) (a : ManualArgs) : Prop :=
  ∃ key keep row record, a.target = some (key, keep) ∧ group s'.rows key = [row] ∧
    row.holder = keep ∧ s'.audit = s.audit ++ [record] ∧ record.key = key ∧
      record.keep = some keep ∧ record.retired = a.retireIds

/-- Nothing is deleted and the call reports that it was not applied, or the night is repaired
and the call reports this. -/
def AllOrNothing (s s' : Store) (a : ManualArgs) (answer : ManualAnswer) : Prop :=
  (answer.isApplied = false ∧ s'.rows = s.rows) ∨ (answer.isApplied = true ∧ Repaired s s' a)

theorem presenceGuard_ok {read : Rows} (h : presenceGuard read keep retire = .ok ()) :
    (∃ r ∈ read, r.holder = keep) ∧ ∀ x ∈ retire, ∃ r ∈ read, r.holder = x := by
  unfold presenceGuard at h
  simp only at h
  split_ifs at h with hkeep hmissing
  constructor
  · simpa using hkeep
  · intro x hx
    by_contra hout
    apply hmissing
    rw [Bool.not_eq_true', isEmpty_eq_false_iff_exists_mem]
    exact ⟨x, mem_filter.mpr ⟨hx, by simpa using hout⟩⟩

variable {a : ManualArgs}

theorem manualGuard_ok {rows : Rows} {fetch : Bool} (h : manualGuard rows a fetch = .ok (key, keep)) :
    a.target = some (key, keep) ∧ keep ∉ a.retireIds ∧
      ∃ r ∈ group rows key, r.holder ∈ a.retireIds := by
  unfold manualGuard at h
  cases ht : a.target with
  | none =>
    rw [ht] at h
    cases h
  | some target =>
    obtain ⟨key', keep'⟩ := target
    simp only [ht] at h
    split_ifs at h with hne hnot hfetch
    cases hp : presenceGuard ((group rows key').take 100) keep' a.retireIds with
    | error e =>
      rw [hp] at h
      cases h
    | ok u =>
      rw [hp] at h
      cases h
      obtain ⟨x, hx⟩ := exists_mem_of_ne_nil a.retireIds fun hnil => hne (by simp [hnil])
      obtain ⟨r, hr, rfl⟩ := (presenceGuard_ok hp).2 x hx
      exact ⟨rfl, by simpa using hnot, r, mem_of_mem_take hr, hx⟩

/-- The deletion is carried out and counted and the audit row is written, and on the night the
keeper has one row beside those of the retired owners. -/
structure Repairable (s : Store) (a : ManualArgs) (r : Replies) (key : NightKey)
    (keep : Holder) : Prop where
  delete : r.delete = .answered
  count : r.count = true
  audit : r.audit = true
  once : ((group s.rows key).filter fun row => row.holder = keep).length = 1
  others : ∀ row ∈ group s.rows key, row.holder ≠ keep → row.holder ∈ a.retireIds

theorem group_retired (rows : Rows) (key : NightKey) (retire : List Holder) :
    group (deleteMany rows (isRetired key retire)) key =
      (group rows key).filter fun row => !retire.contains row.holder := by
  rw [group_deleteMany]
  apply filter_congr
  intro row hrow
  simp [isRetired, (mem_group.mp hrow).2]

theorem filter_keeper_eq (hk : keep ∉ retire)
    (hothers : ∀ row ∈ g, row.holder ≠ keep → row.holder ∈ retire) :
    (g.filter fun row => !retire.contains row.holder) =
      g.filter fun row => row.holder = keep := by
  apply filter_congr
  intro row hrow
  by_cases h : row.holder = keep
  · simp [h, hk]
  · simp [h, hothers row hrow h]

theorem filter_retired_iff (hk : keep ∉ retire) :
    (∃ row, (g.filter fun row => !retire.contains row.holder) = [row] ∧ row.holder = keep) ↔
      (g.filter fun row => row.holder = keep).length = 1 ∧
        ∀ row ∈ g, row.holder ≠ keep → row.holder ∈ retire := by
  constructor
  · rintro ⟨row, hrow, hkeep⟩
    have hothers : ∀ x ∈ g, x.holder ≠ keep → x.holder ∈ retire := by
      intro x hx hne
      by_contra hout
      have hmem : x ∈ [row] := by
        rw [← hrow]
        exact mem_filter.mpr ⟨hx, by simpa using hout⟩
      rw [mem_singleton.mp hmem] at hne
      exact hne hkeep
    refine ⟨?_, hothers⟩
    rw [← filter_keeper_eq hk hothers, hrow]
    rfl
  · rintro ⟨honce, hothers⟩
    rw [← filter_keeper_eq hk hothers] at honce
    obtain ⟨row, hrow⟩ := length_eq_one_iff.mp honce
    rw [filter_keeper_eq hk hothers] at hrow ⊢
    have hmem : row ∈ g.filter fun row => row.holder = keep := hrow ▸ mem_singleton.mpr rfl
    exact ⟨row, hrow, by simpa using (mem_filter.mp hmem).2⟩

theorem not_allOrNothing_skipped {s' : Store} {reason : ManualSkip} {deleted : Option ℕ}
    {row : LockRow} (hrow : row ∈ group s.rows key) (hr : row.holder ∈ a.retireIds)
    (hs' : s'.rows = deleteMany s.rows (isRetired key a.retireIds)) :
    ¬ AllOrNothing s s' a (.skipped reason deleted) := by
  rintro (⟨-, hrows⟩ | ⟨happ, -⟩)
  · rw [hs', deleteMany_eq_self] at hrows
    have hfalse := hrows row (mem_group.mp hrow).1
    simp [isRetired, (mem_group.mp hrow).2, hr] at hfalse
  · cases happ

theorem retireManually_applied {r : Replies} (ht : a.target = some (key, keep))
    (hk : keep ∉ a.retireIds) (hd : r.delete = .answered) (hc : r.count = true)
    (hone : (group (deleteMany s.rows (isRetired key a.retireIds)) key).length = 1) :
    AllOrNothing s (retireManually s a r key keep).1 a (retireManually s a r key keep).2 ↔
      Repairable s a r key keep := by
  have hrun : retireManually s a r key keep =
      (Store.record { s with rows := deleteMany s.rows (isRetired key a.retireIds) } r
        ⟨key, .manual ((group s.rows key).take 100), some keep, a.retireIds,
          (s.rows.filter (isRetired key a.retireIds)).length, a.actor⟩,
        .applied key keep a.retireIds (s.rows.filter (isRetired key a.retireIds)).length
          (group (deleteMany s.rows (isRetired key a.retireIds)) key).length) := by
    simp only [retireManually, retireRows, hd, hc, if_true, if_pos hone]
  rw [hrun]
  constructor
  · rintro (⟨happ, -⟩ | ⟨-, key', keep', row, record, ht', hrow, hkeep, haudit, -⟩)
    · cases happ
    · rw [ht] at ht'
      cases ht'
      rw [record_rows, group_retired] at hrow
      obtain ⟨honce, hothers⟩ := (filter_retired_iff hk).mp ⟨row, hrow, hkeep⟩
      refine ⟨hd, hc, ?_, honce, hothers⟩
      by_contra ha
      simp [Store.record, ha] at haudit
  · intro h
    obtain ⟨row, hrow, hkeep⟩ := (filter_retired_iff hk).mpr ⟨h.once, h.others⟩
    refine .inr ⟨rfl, key, keep, row, ⟨key, .manual ((group s.rows key).take 100), some keep,
      a.retireIds, (s.rows.filter (isRetired key a.retireIds)).length, a.actor⟩, ht, ?_, hkeep, ?_,
      rfl, rfl, rfl⟩
    · rw [record_rows, group_retired]
      exact hrow
    · simp only [Store.record, h.audit, if_true]

/-- The call is all or nothing when a guard refuses it or the deletion fails, and otherwise
exactly when the deletion leaves the one row of the keeper and nothing raises after it. -/
theorem manualResolve_allOrNothing_iff (s : Store) (a : ManualArgs) (r : Replies) :
    AllOrNothing s (manualResolve s a r).1 a (manualResolve s a r).2 ↔
      (∃ reason, manualGuard s.rows a r.fetch = .error reason) ∨ r.delete = .failed ∨
        ∃ key keep, a.target = some (key, keep) ∧ Repairable s a r key keep := by
  unfold manualResolve
  cases hg : manualGuard s.rows a r.fetch with
  | error reason =>
    refine iff_of_true (.inl ⟨rfl, rfl⟩) (.inl ⟨reason, rfl⟩)
  | ok target =>
    obtain ⟨key, keep⟩ := target
    obtain ⟨ht, hk, row, hrow, hr⟩ := manualGuard_ok hg
    have hright : ((∃ reason, Except.ok (key, keep) = (.error reason : Except ManualSkip _)) ∨
        r.delete = .failed ∨ ∃ key keep, a.target = some (key, keep) ∧ Repairable s a r key keep) ↔
        (r.delete = .failed ∨ Repairable s a r key keep) := by
      simp [ht]
    rw [hright]
    cases hd : r.delete with
    | failed =>
      refine iff_of_true ?_ (.inl rfl)
      simp only [retireManually, retireRows, hd]
      exact .inl ⟨rfl, rfl⟩
    | lost =>
      refine iff_of_false ?_ (by rintro (h | h); cases h; cases hd.symm.trans h.delete)
      simp only [retireManually, retireRows, hd]
      exact not_allOrNothing_skipped hrow hr rfl
    | answered =>
      cases hc : r.count with
      | false =>
        refine iff_of_false ?_ (by rintro (h | h); cases h; cases hc.symm.trans h.count)
        simp only [retireManually, retireRows, hd, hc]
        exact not_allOrNothing_skipped hrow hr rfl
      | true =>
        by_cases hone : (group (deleteMany s.rows (isRetired key a.retireIds)) key).length = 1
        · rw [retireManually_applied ht hk hd hc hone]
          simp
        · refine iff_of_false ?_ ?_
          · simp only [retireManually, retireRows, hd, hc, if_true, if_neg hone]
            exact not_allOrNothing_skipped hrow hr rfl
          · rintro (h | h)
            · cases h
            · obtain ⟨x, hx, -⟩ := (filter_retired_iff hk).mpr ⟨h.once, h.others⟩
              rw [group_retired, hx] at hone
              exact hone rfl

def threeOwners : Store where
  rows := [⟨⟨1, 7, 20⟩, .named (.booking 4), some .booking, some 1⟩,
    ⟨⟨1, 7, 20⟩, .named (.booking 5), some .booking, some 2⟩,
    ⟨⟨1, 7, 20⟩, .named (.booking 6), some .booking, some 3⟩]

/-- Only one of them is retired: its row is deleted, and the call reports that it was not
applied. -/
theorem not_allOrNothing_threeOwners :
    ¬ AllOrNothing threeOwners
      (manualResolve threeOwners ⟨some 1, some 7, some 20, .named (.booking 4),
        [.named (.booking 5)], ⟨0, 0, 0⟩⟩ {}).1
      ⟨some 1, some 7, some 20, .named (.booking 4), [.named (.booking 5)], ⟨0, 0, 0⟩⟩
      (manualResolve threeOwners ⟨some 1, some 7, some 20, .named (.booking 4),
        [.named (.booking 5)], ⟨0, 0, 0⟩⟩ {}).2 := by
  rintro (⟨-, hrows⟩ | ⟨happ, -⟩)
  · revert hrows
    decide +kernel
  · revert happ
    decide +kernel

end SyrocePms.RoomLocks
