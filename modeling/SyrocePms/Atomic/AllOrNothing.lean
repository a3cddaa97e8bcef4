import SyrocePms.Atomic.FailedCalls

/-! What a call that raises leaves of the locks. The nights are judged one by one from their
cells before the call; the loop stops at the first that does not pass, and the locks that it
has claimed by then stay unless a compensation deletes them. -/

namespace SyrocePms.Atomic.Failing

open Reservation Lib List Collection

section

variable (s : Store) (f : Faults) (booking room : ℕ)

def stale (r : ℕ) (n : ℤ) (l : Lock) : Bool :=
  match retirableOwner l booking with
  | none => false
  | some owner => (staleReason (lockIsOldEnough l s.now) r n (s.bookings.get? owner)).isSome

/-- The cell is as before the call, or its stale lock is retired. -/
def Kept (locks : LockTable) (r : ℕ) (n : ℤ) : Prop :=
  locks r n = s.locks r n ∨
    locks r n = none ∧ ∃ l, s.locks r n = some l ∧ stale s booking r n l = true

/-- No booking is added or changed, and no lock but the stale ones that were retired. -/
def Restored (r : Result) : Prop :=
  r.bookings = s.bookings ∧ ∀ room n, Kept s booking r.locks room n

/-- How the operations on a night end: its lock is inserted, it is inserted and the answer is
lost, another lock holds the night, or an operation raises before the insert. -/
inductive Verdict where
  | claimed
  | lost
  | held
  | failed
  deriving DecidableEq

def insertVerdict : Answer → Verdict
  | .ok => .claimed
  | .lost => .lost
  | .fail => .failed

def verdict (night : ℤ) : Verdict :=
  match s.locks room night with
  | none => insertVerdict (f.claim night)
  | some l =>
    if f.claim night = .ok ∧ f.lookup night = .ok ∧
        ((retirableOwner l booking).isSome = true → f.owner night = .ok) then
      if stale s booking room night l then
        if f.retire night = .ok then insertVerdict (f.reclaim night) else .failed
      else .held
    else .failed

def passes (adopt : Bool) (night : ℤ) : Bool :=
  match verdict s f booking room night with
  | .claimed => true
  | .held => adopt && (s.locks room night).any (·.owner == .booking booking)
  | .lost | .failed => false

def stopsAt (adopt : Bool) (nights : List ℤ) : Option ℤ :=
  nights.find? fun n => !passes s f booking room adopt n

def claimedBefore (adopt : Bool) (nights : List ℤ) : List ℤ :=
  (nights.takeWhile (passes s f booking room adopt)).filter fun n =>
    verdict s f booking room n = .claimed

def endAt : Option ℤ → LoopEnd
  | none => .done
  | some n => if verdict s f booking room n = .held then .conflict else .raised

/-- A night whose lock is there though its insert has raised. -/
def lostAt (stop : Option ℤ) : Option ℤ := stop.filter fun n => verdict s f booking room n = .lost

end

variable {s : Store} {f : Faults} {booking room : ℕ}
variable {n night : ℤ} {locks locks' : LockTable} {l : Lock} {claimed nights : List ℤ}
  {lost : Option ℤ}

/-! ### One night -/

/-- The cell has no lock, or a stale one. -/
def Claimable (s : Store) (booking : ℕ) (r : ℕ) (n : ℤ) : Prop :=
  ∀ l, s.locks r n = some l → stale s booking r n l = true

/-- What the operations on a night leave of its cell, with their answer and the verdict. -/
inductive NightDone (s : Store) (booking room : ℕ) (night : ℤ) (locks : LockTable) :
    NightAnswer → Verdict → Prop
  | claimed (hcell : locks room night = some (s.lockDoc booking))
      (hfree : Claimable s booking room night) : NightDone s booking room night locks .claimed .claimed
  | lost (hcell : locks room night = some (s.lockDoc booking))
      (hfree : Claimable s booking room night) : NightDone s booking room night locks .raised .lost
  | held (hcell : locks room night = s.locks room night) :
      NightDone s booking room night locks (.held (s.locks room night)) .held
  | failed (hkept : Kept s booking locks room night) : NightDone s booking room night locks .raised .failed

/-- The other cells stay. -/
def Elsewhere (room : ℕ) (night : ℤ) (locks locks' : LockTable) : Prop :=
  ∀ r n, ¬ (r = room ∧ n = night) → locks' r n = locks r n

theorem exactFilter_self (l : Lock) : exactFilter l l = true := by simp [exactFilter]

theorem elsewhere_put (locks : LockTable) (night : ℤ) (l : Lock) :
    Elsewhere room night locks (locks.put room night l) := fun _ _ h => LockTable.put_of_ne h

theorem elsewhere_delete (locks : LockTable) (night : ℤ) :
    Elsewhere room night locks (locks.deleteMany fun r n _ => r == room && n == night) := by
  intro r n h
  have hp : (r == room && n == night) = false := by
    by_contra hp
    simp only [Bool.not_eq_false, Bool.and_eq_true, beq_iff_eq] at hp
    exact h hp
  simp only [LockTable.deleteMany, hp]
  cases locks r n <;> rfl

theorem delete_cell (locks : LockTable) (night : ℤ) :
    (locks.deleteMany fun r n _ => r == room && n == night) room night = none := by
  simp [LockTable.deleteMany]

theorem Elsewhere.trans {locks'' : LockTable} (h : Elsewhere room night locks locks')
    (h' : Elsewhere room night locks' locks'') : Elsewhere room night locks locks'' := fun r n hne => (h' r n hne).trans (h r n hne)

theorem insertLock_free (answer : Answer) (hcell : locks room night = none)
    (hfree : Claimable s booking room night) (hkept : Kept s booking locks room night) :
    ∃ locks', Elsewhere room night locks locks' ∧
      (insertLock answer locks room night (s.lockDoc booking) = (locks', .done) ∧
          NightDone s booking room night locks' .claimed (insertVerdict answer) ∨
        insertLock answer locks room night (s.lockDoc booking) = (locks', .raised) ∧
          NightDone s booking room night locks' .raised (insertVerdict answer)) := by
  have hself : locks.put room night (s.lockDoc booking) room night = some (s.lockDoc booking) :=
    LockTable.put_self ..
  cases answer with
  | ok =>
    refine ⟨_, elsewhere_put locks night (s.lockDoc booking), .inl ⟨?_, .claimed hself hfree⟩⟩
    simp only [insertLock, hcell]
  | fail => exact ⟨locks, fun _ _ _ => rfl, .inr ⟨rfl, .failed hkept⟩⟩
  | lost =>
    refine ⟨_, elsewhere_put locks night (s.lockDoc booking), .inr ⟨?_, .lost hself hfree⟩⟩
    simp only [insertLock, hcell]

/-- The retirement of the lock that was read: it stays, it is gone, or an operation raises. -/
theorem retire_cases (f : Faults) (booking : ℕ) (hcell : locks room night = s.locks room night)
    (hl : s.locks room night = some l) : ∃ locks', Elsewhere room night locks locks' ∧
      (retireStaleBookingLock s f booking room locks night l = (locks', .no) ∧ locks' = locks ∧
          stale s booking room night l = false ∧
          ((retirableOwner l booking).isSome = true → f.owner night = .ok) ∨
        retireStaleBookingLock s f booking room locks night l = (locks', .yes) ∧
          locks' room night = none ∧ stale s booking room night l = true ∧ f.owner night = .ok ∧
          f.retire night = .ok ∨
        retireStaleBookingLock s f booking room locks night l = (locks', .raised) ∧
          Kept s booking locks' room night ∧ (retirableOwner l booking).isSome = true ∧
          (f.owner night = .ok → stale s booking room night l = true ∧ f.retire night ≠ .ok)) := by
  unfold retireStaleBookingLock stale
  cases hret : retirableOwner l booking with
  | none => exact ⟨locks, fun _ _ _ => rfl, .inl ⟨rfl, rfl, rfl, by simp⟩⟩
  | some owner =>
    by_cases howner : f.owner night = .ok
    · simp only [if_pos howner]
      cases hreason : staleReason (lockIsOldEnough l s.now) room night (s.bookings.get? owner) with
      | none => exact ⟨locks, fun _ _ _ => rfl, .inl ⟨rfl, rfl, rfl, fun _ => howner⟩⟩
      | some reason =>
        have hstale : stale s booking room night l = true := by simp [stale, hret, hreason]
        have hany : (locks room night).any (exactFilter l) = true := by
          simp [hcell, hl, exactFilter_self]
        have hkept (locks' : LockTable) (h : locks' room night = none) :
            Kept s booking locks' room night := .inr ⟨h, l, hl, hstale⟩
        simp only [hany, if_true]
        cases hr : f.retire night with
        | ok =>
          exact ⟨_, elsewhere_delete locks night, .inr (.inl ⟨rfl, delete_cell locks night,
            rfl, howner, rfl⟩)⟩
        | fail =>
          exact ⟨locks, fun _ _ _ => rfl, .inr (.inr ⟨rfl, .inl hcell, rfl,
            fun _ => ⟨rfl, by simp⟩⟩)⟩
        | lost =>
          exact ⟨_, elsewhere_delete locks night, .inr (.inr ⟨rfl,
            hkept _ (delete_cell locks night), rfl, fun _ => ⟨rfl, by simp⟩⟩)⟩
    · simp only [if_neg howner]
      exact ⟨locks, fun _ _ _ => rfl, .inr (.inr ⟨rfl, .inl hcell, rfl,
        fun h => absurd h howner⟩)⟩

/-- The operations on one night, from a table in which its cell is as before the call. -/
theorem claimNight_done (f : Faults) (booking : ℕ) (hcell : locks room night = s.locks room night) :
    ∃ locks' answer, claimNightOrGetOwner s f booking room locks night = (locks', answer) ∧
      Elsewhere room night locks locks' ∧
      NightDone s booking room night locks' answer (verdict s f booking room night) := by
  unfold claimNightOrGetOwner verdict
  cases hl : s.locks room night with
  | none =>
    have hfree : Claimable s booking room night := by
      intro l h
      rw [hl] at h
      cases h
    obtain ⟨locks', helse, ⟨hins, hdone⟩ | ⟨hins, hdone⟩⟩ :=
      insertLock_free (f.claim night) (hcell.trans hl) hfree (.inl hcell)
    · exact ⟨locks', .claimed, by rw [hins], helse, hdone⟩
    · exact ⟨locks', .raised, by rw [hins], helse, hdone⟩
  | some l =>
    have hcell' : locks room night = some l := hcell.trans hl
    by_cases hclaim : f.claim night = .ok
    · have hins : insertLock (f.claim night) locks room night (s.lockDoc booking) =
          (locks, .duplicate) := by simp only [insertLock, hclaim, hcell']
      by_cases hlookup : f.lookup night = .ok
      · have hread : nightOwner room (f.lookup night) locks night = .held (some l) := by
          simp only [nightOwner, if_pos hlookup, hcell']
        simp only [hins, hread]
        obtain ⟨locks', helse, ⟨hretire, rfl, hstale, howner⟩ | ⟨hretire, hnone, hstale, howner, hr⟩ |
            ⟨hretire, hkept, hsome, hr⟩⟩ := retire_cases f booking hcell hl
        · rw [hretire, if_pos ⟨hclaim, hlookup, howner⟩, hstale]
          exact ⟨locks', _, rfl, helse, by rw [← hl]; exact .held hcell⟩
        · have hfree : Claimable s booking room night := by
            intro x h
            rw [hl] at h
            cases h
            exact hstale
          rw [hretire, if_pos ⟨hclaim, hlookup, fun _ => howner⟩, hstale, if_pos rfl, if_pos hr]
          obtain ⟨locks'', helse', ⟨hins', hdone⟩ | ⟨hins', hdone⟩⟩ :=
            insertLock_free (f.reclaim night) hnone hfree (.inr ⟨hnone, l, hl, hstale⟩)
          · exact ⟨locks'', .claimed, by simp only [hins'], helse.trans helse', hdone⟩
          · exact ⟨locks'', .raised, by simp only [hins'], helse.trans helse', hdone⟩
        · rw [hretire]
          refine ⟨locks', .raised, rfl, helse, ?_⟩
          have hfailed : (if f.claim night = .ok ∧ f.lookup night = .ok ∧
              ((retirableOwner l booking).isSome = true → f.owner night = .ok) then
                if stale s booking room night l then
                  if f.retire night = .ok then insertVerdict (f.reclaim night) else .failed
                else .held
              else .failed) = Verdict.failed := by
            split
            · rename_i h
              obtain ⟨hstale, hne⟩ := hr (h.2.2 hsome)
              rw [hstale, if_pos rfl, if_neg hne]
            · rfl
          rw [hfailed]
          exact .failed hkept
      · have hread : nightOwner room (f.lookup night) locks night = .raised := by
          simp only [nightOwner, if_neg hlookup]
        simp only [hins, hread]
        exact ⟨locks, .raised, rfl, fun _ _ _ => rfl,
          by rw [if_neg fun h => hlookup h.2.1]; exact .failed (.inl hcell)⟩
    · have hins : insertLock (f.claim night) locks room night (s.lockDoc booking) =
          (locks, .raised) := by
        cases hc : f.claim night <;> simp_all [insertLock]
      simp only [hins]
      exact ⟨locks, .raised, rfl, fun _ _ _ => rfl,
        by rw [if_neg fun h => hclaim h.1]; exact .failed (.inl hcell)⟩

/-! ### The loop -/

/-- The table of a loop: the locks of the claimed nights, the one of the night whose insert
has raised, and the cells that are kept. -/
structure Held (s : Store) (booking room : ℕ) (locks : LockTable) (claimed : List ℤ)
    (lost : Option ℤ) : Prop where
  mine : ∀ n ∈ claimed, locks room n = some (s.lockDoc booking) ∧ Claimable s booking room n
  unanswered : ∀ n ∈ lost, n ∉ claimed ∧ locks room n = some (s.lockDoc booking) ∧
    Claimable s booking room n
  kept : ∀ r n, (r = room → n ∉ claimed ∧ lost ≠ some n) → Kept s booking locks r n

theorem held_start : Held s booking room s.locks [] none where
  mine n hn := by cases hn
  unanswered n hn := by cases hn
  kept _ _ _ := .inl rfl

theorem Held.keep (h : Held s booking room locks claimed none)
    (helse : Elsewhere room night locks locks') (hn : night ∉ claimed)
    (hkept : Kept s booking locks' room night) : Held s booking room locks' claimed none where
  mine n hmem := by
    have hne : ¬ (room = room ∧ n = night) := fun he => hn (he.2 ▸ hmem)
    rw [helse room n hne]
    exact h.mine n hmem
  unanswered n hn := by cases hn
  kept r n hcell := by
    by_cases he : r = room ∧ n = night
    · rw [he.1, he.2]
      exact hkept
    · have hold := h.kept r n hcell
      rw [Kept] at hold ⊢
      rw [helse r n he]
      exact hold

theorem Held.insert (h : Held s booking room locks claimed none)
    (helse : Elsewhere room night locks locks') (hn : night ∉ claimed)
    (hcell : locks' room night = some (s.lockDoc booking)) (hfree : Claimable s booking room night) :
    Held s booking room locks' (night :: claimed) none ∧
      Held s booking room locks' claimed (some night) := by
  have hmine (n : ℤ) (hmem : n ∈ claimed) :
      locks' room n = some (s.lockDoc booking) ∧ Claimable s booking room n := by
    rw [helse room n fun he => hn (he.2 ▸ hmem)]
    exact h.mine n hmem
  have hkept (r : ℕ) (n : ℤ) (hc : r = room → n ∉ claimed) (hne : ¬ (r = room ∧ n = night)) :
      Kept s booking locks' r n := by
    have hold := h.kept r n fun hr => ⟨hc hr, by simp⟩
    rw [Kept] at hold ⊢
    rw [helse r n hne]
    exact hold
  constructor
  · refine ⟨fun n hmem => ?_, fun n hn => (by cases hn), fun r n hc => ?_⟩
    · obtain rfl | hmem := mem_cons.mp hmem
      · exact ⟨hcell, hfree⟩
      · exact hmine n hmem
    · refine hkept r n (fun hr hmem => (hc hr).1 (mem_cons_of_mem _ hmem)) fun he => ?_
      exact (hc he.1).1 (he.2 ▸ mem_cons_self)
  · refine ⟨hmine, fun n hlost => ?_, fun r n hc => ?_⟩
    · cases hlost
      exact ⟨hn, hcell, hfree⟩
    · exact hkept r n (fun hr => (hc hr).1) fun he => (hc he.1).2 (by rw [he.2])

theorem claimNights_done (f : Faults) (adopt : Bool) {todo : List ℤ} (hnodup : todo.Nodup)
    (hfresh : ∀ n ∈ todo, locks room n = s.locks room n ∧ n ∉ claimed)
    (h : Held s booking room locks claimed none) :
    ∃ locks', claimNights s f booking room adopt todo claimed locks =
        (locks', (claimedBefore s f booking room adopt todo).reverse ++ claimed,
          endAt s f booking room (stopsAt s f booking room adopt todo)) ∧
      Held s booking room locks' ((claimedBefore s f booking room adopt todo).reverse ++ claimed)
        (lostAt s f booking room (stopsAt s f booking room adopt todo)) := by
  induction todo generalizing claimed locks with
  | nil => exact ⟨locks, rfl, h⟩
  | cons night rest ih =>
    obtain ⟨hnot, hrest⟩ := nodup_cons.mp hnodup
    obtain ⟨hcell, hunclaimed⟩ := hfresh night mem_cons_self
    obtain ⟨locks', answer, hrun, helse, hdone⟩ :=
      claimNight_done f booking hcell
    have hfresh' (n : ℤ) (hn : n ∈ rest) : locks' room n = s.locks room n ∧ n ∉ claimed := by
      have hold := hfresh n (mem_cons_of_mem _ hn)
      rw [helse room n fun he => hnot (he.2 ▸ hn)]
      exact hold
    have hgo (hp : passes s f booking room adopt night = true) :
        stopsAt s f booking room adopt (night :: rest) = stopsAt s f booking room adopt rest := by
      simp [stopsAt, hp]
    have hstop (hp : passes s f booking room adopt night = false) :
        stopsAt s f booking room adopt (night :: rest) = some night ∧
          claimedBefore s f booking room adopt (night :: rest) = [] := by
      simp [stopsAt, claimedBefore, hp]
    simp only [claimNights, hrun]
    generalize hv : verdict s f booking room night = v at hdone
    cases hdone with
    | claimed hcell' hfree =>
      have hp : passes s f booking room adopt night = true := by simp [passes, hv]
      have hclaimed : claimedBefore s f booking room adopt (night :: rest) =
          night :: claimedBefore s f booking room adopt rest := by
        simp [claimedBefore, hp, hv]
      obtain ⟨locks'', hrun', hheld⟩ := ih hrest
        (fun n hn => ⟨(hfresh' n hn).1, fun hmem => (mem_cons.mp hmem).elim
          (fun he : n = night => hnot (he ▸ hn)) (hfresh' n hn).2⟩)
        (h.insert helse hunclaimed hcell' hfree).1
      rw [hgo hp, hclaimed, reverse_cons, append_assoc, singleton_append]
      exact ⟨locks'', hrun', hheld⟩
    | lost hcell' hfree =>
      obtain ⟨hs, hc⟩ := hstop (by simp [passes, hv])
      rw [hs, hc]
      refine ⟨locks', by simp [endAt, hv], ?_⟩
      have hlost : lostAt s f booking room (some night) = some night := by simp [lostAt, hv]
      rw [hlost]
      exact (h.insert helse hunclaimed hcell' hfree).2
    | held hcell' =>
      have hheld := h.keep helse hunclaimed (.inl hcell')
      by_cases hadopt : (adopt && (s.locks room night).any (·.owner == .booking booking)) = true
      · have hp : passes s f booking room adopt night = true := by simp only [passes, hv, hadopt]
        have hclaimed : claimedBefore s f booking room adopt (night :: rest) =
            claimedBefore s f booking room adopt rest := by
          simp [claimedBefore, hp, hv]
        simp only [if_pos hadopt]
        rw [hgo hp, hclaimed]
        exact ih hrest hfresh' hheld
      · have hp : passes s f booking room adopt night = false := by
          simpa only [passes, hv, Bool.not_eq_true] using hadopt
        obtain ⟨hs, hc⟩ := hstop hp
        simp only [if_neg hadopt]
        rw [hs, hc]
        refine ⟨locks', by simp [endAt, hv], ?_⟩
        have hlost : lostAt s f booking room (some night) = none := by simp [lostAt, hv]
        rw [hlost]
        exact hheld
    | failed hkept =>
      obtain ⟨hs, hc⟩ := hstop (by simp [passes, hv])
      rw [hs, hc]
      refine ⟨locks', by simp [endAt, hv], ?_⟩
      have hlost : lostAt s f booking room (some night) = none := by simp [lostAt, hv]
      rw [hlost]
      exact h.keep helse hunclaimed hkept

/-! ### What is left -/

theorem stale_own {r : ℕ} (h : l.owner = .booking booking) : stale s booking r n l = false := by
  unfold stale
  cases hret : retirableOwner l booking with
  | none => rfl
  | some owner =>
    obtain ⟨howner, hne⟩ := retirableOwner_some hret
    rw [h] at howner
    cases howner
    exact absurd rfl hne

/-- The lock that a call inserts is neither the one before nor none. -/
theorem not_kept_mine (hcell : locks room n = some (s.lockDoc booking))
    (hfree : Claimable s booking room n) : ¬ Kept s booking locks room n := by
  intro h
  obtain h | ⟨hnone, -⟩ := h
  · have hstale := hfree _ (h.symm.trans hcell)
    rw [stale_own rfl] at hstale
    cases hstale
  · rw [hcell] at hnone
    cases hnone

theorem Held.kept_iff (h : Held s booking room locks claimed lost) :
    (∀ r n, Kept s booking locks r n) ↔ claimed = [] ∧ lost = none := by
  constructor
  · intro hall
    constructor
    · refine eq_nil_iff_forall_not_mem.mpr fun n hn => ?_
      obtain ⟨hcell, hfree⟩ := h.mine n hn
      exact not_kept_mine hcell hfree (hall room n)
    · refine Option.eq_none_iff_forall_not_mem.mpr fun n hn => ?_
      obtain ⟨-, hcell, hfree⟩ := h.unanswered n hn
      exact not_kept_mine hcell hfree (hall room n)
  · rintro ⟨rfl, rfl⟩ r n
    exact h.kept r n fun _ => ⟨not_mem_nil, by simp⟩

/-- The compensation leaves the lock of an insert that has raised. -/
theorem Held.kept_deleteMany_iff (h : Held s booking room locks claimed lost) :
    (∀ r n, Kept s booking (locks.deleteMany (ofClaim booking room claimed)) r n) ↔
      lost = none := by
  have hstays {r : ℕ} {n : ℤ} (hne : ¬ (r = room ∧ n ∈ claimed)) :
      locks.deleteMany (ofClaim booking room claimed) r n = locks r n := by
    have hp (l : Lock) : ofClaim booking room claimed r n l = false := by
      by_contra hp
      simp only [ofClaim, Bool.not_eq_false, Bool.and_eq_true, beq_iff_eq,
        contains_iff_mem] at hp
      exact hne ⟨hp.1.2, hp.2⟩
    simp only [LockTable.deleteMany, hp]
    cases locks r n <;> rfl
  constructor
  · refine fun hall => Option.eq_none_iff_forall_not_mem.mpr fun n hn => ?_
    obtain ⟨hclaimed, hcell, hfree⟩ := h.unanswered n hn
    exact not_kept_mine ((hstays fun he => hclaimed he.2).trans hcell) hfree (hall room n)
  · rintro rfl r n
    by_cases hcell : r = room ∧ n ∈ claimed
    · obtain ⟨rfl, hn⟩ := hcell
      obtain ⟨hmine, hfree⟩ := h.mine n hn
      have hnone : locks.deleteMany (ofClaim booking r claimed) r n = none := by
        simp [LockTable.deleteMany, hmine, ofClaim, Store.lockDoc, hn]
      cases hbase : s.locks r n with
      | none => exact .inl (hnone.trans hbase.symm)
      | some l => exact .inr ⟨hnone, l, hbase, hfree l hbase⟩
    · have hkept := h.kept r n fun hr => ⟨fun hn => hcell ⟨hr, hn⟩, by simp⟩
      rw [Kept] at hkept ⊢
      rw [hstays hcell]
      exact hkept

theorem Held.compensate_iff (h : Held s booking room locks claimed lost) (answer : Answer) :
    (∀ r n, Kept s booking (compensate booking room answer claimed locks).1 r n) ↔
      lost = none ∧ (claimed ≠ [] → answer ≠ .fail) := by
  unfold compensate
  cases claimed with
  | nil =>
    simp only [isEmpty_nil, if_true]
    rw [h.kept_iff]
    simp
  | cons n claimed =>
    simp only [isEmpty_cons, Bool.false_eq_true, if_false]
    cases answer with
    | fail =>
      simp only [deleteLocks]
      rw [h.kept_iff]
      simp
    | ok | lost =>
      simp only [deleteLocks]
      rw [h.kept_deleteMany_iff]
      simp

theorem compensate_again (locks : LockTable) (claimed : List ℤ) (answer : Answer) :
    (compensate booking room answer claimed
        (locks.deleteMany (ofClaim booking room claimed))).1 =
      locks.deleteMany (ofClaim booking room claimed) := by
  have htwice : (locks.deleteMany (ofClaim booking room claimed)).deleteMany
      (ofClaim booking room claimed) = locks.deleteMany (ofClaim booking room claimed) := by
    funext r n
    simp only [LockTable.deleteMany]
    cases locks r n with
    | none => rfl
    | some l => cases hp : ofClaim booking room claimed r n l <;> simp [Option.filter, hp]
  unfold compensate
  split
  · rfl
  · cases answer <;> simp only [deleteLocks, htwice]

theorem claimNights_run (s : Store) (f : Faults) (booking room : ℕ) (adopt : Bool)
    (hnodup : nights.Nodup) : ∃ locks, claimNights s f booking room adopt nights [] s.locks =
        (locks, (claimedBefore s f booking room adopt nights).reverse,
          endAt s f booking room (stopsAt s f booking room adopt nights)) ∧
      Held s booking room locks (claimedBefore s f booking room adopt nights).reverse
        (lostAt s f booking room (stopsAt s f booking room adopt nights)) := by
  have hstart : Held s booking room s.locks [] none := held_start
  have hrun := claimNights_done f adopt hnodup (fun n _ => ⟨rfl, not_mem_nil⟩) hstart
  simpa only [append_nil] using hrun

/-! ### Creations -/

theorem insertOne_cases (doc : Booking) :
    (s.bookings.get? doc.id).isSome = true ∧ s.bookings.insertOne doc = none ∨
      (s.bookings.get? doc.id).isSome = false ∧
        ∃ bookings, s.bookings.insertOne doc = some bookings ∧ bookings ≠ s.bookings := by
  cases hget : s.bookings.get? doc.id with
  | none =>
    obtain ⟨bookings, hins⟩ := exists_insertOne (get?_eq_none.mp hget)
    refine .inr ⟨rfl, bookings, hins, fun he => ?_⟩
    have hlength := congrArg List.length (insertOne_eq_some hins).2
    rw [he, length_append, length_singleton] at hlength
    omega
  | some b =>
    obtain ⟨hb, hid⟩ := get?_eq_some.mp hget
    refine .inl ⟨rfl, ?_⟩
    cases hins : s.bookings.insertOne doc with
    | none => rfl
    | some bookings => exact absurd hid ((insertOne_eq_some hins).1 b hb)

theorem insertDoc_raises (doc : Booking) :
    (insertDoc s f doc).2 = true ↔ f.insertDoc ≠ .ok ∨ (s.bookings.get? doc.id).isSome = true := by
  unfold insertDoc
  obtain ⟨hsome, hins⟩ | ⟨hsome, bookings, hins, -⟩ := insertOne_cases (s := s) doc <;>
    cases hanswer : f.insertDoc <;> simp [hins, hsome]

/-- An insert that raises has stored nothing, unless only its answer was lost. -/
theorem insertDoc_bookings (doc : Booking) (h : (insertDoc s f doc).2 = true) :
    (insertDoc s f doc).1 = s.bookings ↔
      (f.insertDoc = .lost → (s.bookings.get? doc.id).isSome = true) := by
  unfold insertDoc at h ⊢
  obtain ⟨hsome, hins⟩ | ⟨hsome, bookings, hins, hne⟩ := insertOne_cases (s := s) doc <;>
    cases hanswer : f.insertDoc <;> simp_all

section

variable (s f)

/-- When a creation that claims the nights leaves nothing behind. Past the last night the
insert of its document has to keep its answer, unless the identifier is taken, and at any
other end no insert of a lock may lose its answer; the claimed nights have to be deleted, of
which a conflict has two tries. -/
def CreateSafe (doc : Booking) (room : ℕ) (nights : List ℤ) : Prop :=
  match stopsAt s f doc.id room false nights with
  | none =>
    (f.insertDoc = .lost → (s.bookings.get? doc.id).isSome = true) ∧
      (claimedBefore s f doc.id room false nights ≠ [] →
        (f.insertDoc = .ok ∧ (s.bookings.get? doc.id).isSome = false) ∨ f.errorRollback ≠ .fail)
  | some night =>
    verdict s f doc.id room night ≠ .lost ∧
      (claimedBefore s f doc.id room false nights ≠ [] →
        (verdict s f doc.id room night = .held ∧ f.rollback ≠ .fail) ∨ f.errorRollback ≠ .fail)

/-- The room and the nights whose locks a creation goes on to claim. None when it raises
before. -/
def nightsToClaim (doc : Booking) : Option (ℕ × List ℤ) :=
  if f.prepare ≠ .ok then none
  else if doc.status = .cancelled ∨ doc.status = .noShow then some (0, [])
  else match doc.room, doc.checkIn, doc.checkOut with
    | some room, some ci, some co =>
      if f.overlap ≠ .ok ∨ s.overlaps room ci co doc.id = true then none
      else some (room, nightDates ci.day co.day)
    | _, _, _ => some (0, [])

/-- When an assignment leaves nothing behind. After a claim it compensates a conflict only,
and the release of the other locks has to be answered. -/
def AssignSafe (booking room : ℕ) (releaseObsolete : Bool) (nights : List ℤ) : Prop :=
  match stopsAt s f booking room true nights with
  | none =>
    releaseObsolete = true → f.release ≠ .ok →
      claimedBefore s f booking room true nights = [] ∧
        (f.release = .lost → ∀ r n l, s.locks r n = some l → obsolete booking room nights r n l = false)
  | some night =>
    verdict s f booking room night ≠ .lost ∧
      (claimedBefore s f booking room true nights ≠ [] →
        verdict s f booking room night = .held ∧ f.rollback ≠ .fail)

end

theorem claimAndInsert_iff (doc : Booking) (hnodup : nights.Nodup) :
    ((claimAndInsert s f room doc nights).raised = true →
      Restored s doc.id (claimAndInsert s f room doc nights)) ↔ CreateSafe s f doc room nights := by
  obtain ⟨locks, hrun, hheld⟩ := claimNights_run s f doc.id room false hnodup
  have hreverse : (claimedBefore s f doc.id room false nights).reverse ≠ [] ↔
      claimedBefore s f doc.id room false nights ≠ [] := by simp
  unfold claimAndInsert CreateSafe Restored
  rw [hrun]
  cases hstop : stopsAt s f doc.id room false nights with
  | none =>
    rw [hstop] at hheld
    have hiff := hheld.compensate_iff f.errorRollback
    rw [hreverse] at hiff
    have hraises := insertDoc_raises (s := s) (f := f) doc
    have hbookings := insertDoc_bookings (s := s) (f := f) doc
    simp only [endAt]
    cases hins : (insertDoc s f doc).2 with
    | false =>
      have hok : f.insertDoc = .ok ∧ (s.bookings.get? doc.id).isSome = false := by
        rw [hins] at hraises
        simpa using hraises
      refine iff_of_true (fun h => by cases h) ⟨fun h => ?_, fun _ => .inl hok⟩
      rw [hok.1] at h
      cases h
    | true =>
      have hnot : ¬ (f.insertDoc = .ok ∧ (s.bookings.get? doc.id).isSome = false) := by
        rintro ⟨hok, hfree⟩
        obtain h | h := hraises.mp hins
        · exact h hok
        · rw [hfree] at h
          cases h
      have hlost : lostAt s f doc.id room none = none := rfl
      simp only [if_true, true_implies, hiff, hbookings hins, hlost, true_and, hnot, false_or]
  | some night =>
    rw [hstop] at hheld
    have hlost : lostAt s f doc.id room (some night) = none ↔
        verdict s f doc.id room night ≠ .lost := by simp [lostAt]
    have herror := hheld.compensate_iff f.errorRollback
    rw [hreverse, hlost] at herror
    by_cases hconflict : verdict s f doc.id room night = .held
    · have hend : endAt s f doc.id room (some night) = .conflict := by simp [endAt, hconflict]
      have hrollback := hheld.compensate_iff f.rollback
      rw [hreverse, hlost] at hrollback
      simp only [hend, hconflict, true_and]
      cases hclaimed : (claimedBefore s f doc.id room false nights).reverse with
      | nil =>
        have hnil : claimedBefore s f doc.id room false nights = [] := by simpa using hclaimed
        rw [hclaimed, hnil] at hrollback
        simpa [compensate, hnil, hconflict] using hrollback
      | cons n claimed =>
        have hne : claimedBefore s f doc.id room false nights ≠ [] := by
          rw [← hreverse, hclaimed]
          simp
        rw [hclaimed] at hrollback herror
        cases hanswer : f.rollback with
        | ok =>
          rw [hanswer] at hrollback
          simpa [compensate, deleteLocks, hne, hconflict] using hrollback
        | fail => simpa [compensate, deleteLocks, hne, hconflict] using herror
        | lost =>
          rw [hanswer] at hrollback
          have hdeleted : compensate doc.id room .lost (n :: claimed) locks =
              (locks.deleteMany (ofClaim doc.id room (n :: claimed)), true) := rfl
          rw [hdeleted] at hrollback ⊢
          simp only [true_implies, true_and, compensate_again, hrollback]
          simp [hne, hconflict]
    · have hend : endAt s f doc.id room (some night) = .raised := by simp [endAt, hconflict]
      simp only [hend, true_implies, true_and, herror, hconflict, false_and, false_or]

theorem Held.kept_release_iff (h : Held s booking room locks claimed none)
    (hsub : ∀ n ∈ claimed, n ∈ nights) :
    (∀ r n, Kept s booking (locks.deleteMany (obsolete booking room nights)) r n) ↔
      claimed = [] ∧
        ∀ r n l, s.locks r n = some l → obsolete booking room nights r n l = false := by
  have hself {r : ℕ} {n : ℤ} {l : Lock} (hp : obsolete booking room nights r n l = true) :
      l.owner = .booking booking := by
    simp only [obsolete, Bool.and_eq_true, beq_iff_eq] at hp
    exact hp.1
  constructor
  · intro hall
    constructor
    · refine eq_nil_iff_forall_not_mem.mpr fun n hn => ?_
      obtain ⟨hcell, hfree⟩ := h.mine n hn
      refine not_kept_mine ?_ hfree (hall room n)
      simp [LockTable.deleteMany, hcell, obsolete, hsub n hn]
    · intro r n l hl
      by_contra hp
      rw [Bool.not_eq_false] at hp
      -- an own lock of another cell is never stale, so that it was still there
      have hstale : stale s booking r n l = false := stale_own (hself hp)
      have hcell : locks r n = some l := by
        have hkept : Kept s booking locks r n := by
          refine h.kept r n fun hr => ⟨fun hn => ?_, by simp⟩
          rw [obsolete, hr] at hp
          simp [hsub n hn] at hp
        obtain hkept | ⟨-, x, hx, hxs⟩ := hkept
        · exact hkept.trans hl
        · rw [hl] at hx
          cases hx
          rw [hstale] at hxs
          cases hxs
      have hnone : locks.deleteMany (obsolete booking room nights) r n = none := by
        simp [LockTable.deleteMany, hcell, hp]
      obtain hkept | ⟨-, x, hx, hxs⟩ := hall r n
      · rw [hnone, hl] at hkept
        cases hkept
      · rw [hl] at hx
        cases hx
        rw [hstale] at hxs
        cases hxs
  · rintro ⟨rfl, hnone⟩ r n
    have hkept := h.kept r n fun _ => ⟨not_mem_nil, by simp⟩
    have hsame : locks.deleteMany (obsolete booking room nights) r n = locks r n := by
      cases hl : locks r n with
      | none => simp [LockTable.deleteMany, hl]
      | some l =>
        have hbase : s.locks r n = some l := by
          obtain hkept | ⟨hcell, -⟩ := hkept
          · exact hkept.symm.trans hl
          · rw [hl] at hcell
            cases hcell
        simp [LockTable.deleteMany, hl, hnone r n l hbase]
    rw [Kept] at hkept ⊢
    rw [hsame]
    exact hkept

theorem claimAndRelease_iff (releaseObsolete : Bool) (hnodup : nights.Nodup) :
    ((claimAndRelease s f booking room releaseObsolete nights).raised = true →
      Restored s booking (claimAndRelease s f booking room releaseObsolete nights)) ↔
      AssignSafe s f booking room releaseObsolete nights := by
  obtain ⟨locks, hrun, hheld⟩ := claimNights_run s f booking room true hnodup
  unfold claimAndRelease AssignSafe Restored
  rw [hrun]
  cases hstop : stopsAt s f booking room true nights with
  | none =>
    rw [hstop] at hheld
    have hsub (n : ℤ) (hn : n ∈ (claimedBefore s f booking room true nights).reverse) :
        n ∈ nights :=
      ( takeWhile_prefix _).subset (mem_of_mem_filter (mem_reverse.mp hn))
    have hlost : lostAt s f booking room none = none := rfl
    rw [hlost] at hheld
    have hkept := hheld.kept_iff
    have hdeleted := hheld.kept_release_iff hsub
    simp only [reverse_eq_nil_iff, and_true] at hkept hdeleted
    cases releaseObsolete with
    | false => simp [endAt]
    | true => cases hanswer : f.release <;> simp [endAt, deleteLocks, hkept, hdeleted]
  | some night =>
    rw [hstop] at hheld
    have hlost : lostAt s f booking room (some night) = none ↔
        verdict s f booking room night ≠ .lost := by simp [lostAt]
    by_cases hconflict : verdict s f booking room night = .held
    · have hend : endAt s f booking room (some night) = .conflict := by simp [endAt, hconflict]
      have hrollback := hheld.compensate_iff f.rollback
      rw [hlost] at hrollback
      simp only [hend, true_implies, true_and, hrollback, hconflict]
      simp
    · have hend : endAt s f booking room (some night) = .raised := by simp [endAt, hconflict]
      have hkept := hheld.kept_iff
      rw [hlost] at hkept
      simp only [hend, true_implies, true_and, hkept, hconflict, false_and]
      simp [and_comm]

/-! ### Both calls -/

theorem nodup_nightDates (ci co : ℤ) : (nightDates ci co).Nodup := nodup_nightsFrom ci _

theorem createBookingAtomic_cases (doc : Booking) :
    nightsToClaim s f doc = none ∧ createBookingAtomic s f doc = ⟨s.bookings, s.locks, true⟩ ∨
      ∃ room nights, nightsToClaim s f doc = some (room, nights) ∧ nights.Nodup ∧
        createBookingAtomic s f doc = claimAndInsert s f room doc nights := by
  unfold nightsToClaim createBookingAtomic
  by_cases hprepare : f.prepare ≠ .ok
  · rw [if_pos hprepare, if_pos hprepare]
    exact .inl ⟨rfl, rfl⟩
  · rw [if_neg hprepare, if_neg hprepare]
    by_cases hclosed : doc.status = .cancelled ∨ doc.status = .noShow
    · rw [if_pos hclosed, if_pos hclosed]
      exact .inr ⟨0, [], rfl, nodup_nil, (claimAndInsert_nil s f 0 doc).symm⟩
    · rw [if_neg hclosed, if_neg hclosed]
      cases doc.room with
      | none => exact .inr ⟨0, [], rfl, nodup_nil, (claimAndInsert_nil s f 0 doc).symm⟩
      | some room =>
        cases doc.checkIn with
        | none => exact .inr ⟨0, [], rfl, nodup_nil, (claimAndInsert_nil s f 0 doc).symm⟩
        | some ci =>
          cases doc.checkOut with
          | none => exact .inr ⟨0, [], rfl, nodup_nil, (claimAndInsert_nil s f 0 doc).symm⟩
          | some co =>
            by_cases hover : f.overlap ≠ .ok ∨ s.overlaps room ci co doc.id = true
            · simp only [if_pos hover]
              exact .inl ⟨trivial, trivial⟩
            · simp only [if_neg hover]
              refine .inr ⟨room, nightDates ci.day co.day, rfl, nodup_nightDates _ _, ?_⟩
              cases nightDates ci.day co.day with
              | nil => exact (claimAndInsert_nil s f 0 doc).symm
              | cons night rest => rfl

/-- A creation or an assignment that raises leaves the bookings as they were, and the locks up
to the stale ones, exactly when its failures are where nothing is left or where a
compensation works. -/
theorem failed_calls_iff (s : Store) (f : Faults) :
    (∀ doc, ((createBookingAtomic s f doc).raised = true →
        Restored s doc.id (createBookingAtomic s f doc)) ↔
      ∀ room nights, nightsToClaim s f doc = some (room, nights) →
        CreateSafe s f doc room nights) ∧
    ∀ booking room ci co releaseObsolete,
      ((assignRoomAtomic s f booking room ci co releaseObsolete).raised = true →
        Restored s booking (assignRoomAtomic s f booking room ci co releaseObsolete)) ↔
      (f.overlap = .ok → s.overlaps room ci co booking = false →
        AssignSafe s f booking room releaseObsolete (nightDates ci.day co.day)) := by
  constructor
  · intro doc
    obtain ⟨hnone, heq⟩ | ⟨room, nights, hsome, hnodup, heq⟩ :=
      createBookingAtomic_cases (s := s) (f := f) doc
    · rw [heq, hnone]
      exact iff_of_true (fun _ => ⟨rfl, fun _ _ => .inl rfl⟩) fun _ _ h => by cases h
    · rw [heq, hsome, claimAndInsert_iff doc hnodup]
      constructor
      · intro h room' nights' he
        cases he
        exact h
      · exact fun h => h room nights rfl
  · intro booking room ci co releaseObsolete
    unfold assignRoomAtomic
    by_cases hover : f.overlap ≠ .ok ∨ s.overlaps room ci co booking = true
    · rw [if_pos hover]
      refine iff_of_true (fun _ => ⟨rfl, fun _ _ => .inl rfl⟩) fun hok hfree => ?_
      obtain h | h := hover
      · exact absurd hok h
      · rw [hfree] at h
        cases h
    · rw [if_neg hover, claimAndRelease_iff releaseObsolete (nodup_nightDates _ _)]
      have hok : f.overlap = .ok ∧ s.overlaps room ci co booking = false := by simpa using hover
      exact ⟨fun h _ _ => h, fun h => h hok.1 hok.2⟩

/-- A stay of two nights in an empty house; the insert of the second lock raises. -/
def secondNightFails : Faults := { claim := fun n => if n = 1 then .fail else .ok }

def emptyHouse : Store := ⟨.empty, fun _ _ => none, 0⟩

/-- The assignment raises, and the lock of the first night stays. -/
theorem not_restored_assign :
    (assignRoomAtomic emptyHouse secondNightFails 7 101 ⟨0, none⟩ ⟨2, none⟩ true).raised = true ∧
      ¬ Restored emptyHouse 7
        (assignRoomAtomic emptyHouse secondNightFails 7 101 ⟨0, none⟩ ⟨2, none⟩ true) := by
  refine ⟨by decide, fun h => ?_⟩
  have hcell : (assignRoomAtomic emptyHouse secondNightFails 7 101 ⟨0, none⟩ ⟨2, none⟩ true).locks
      101 0 = some (emptyHouse.lockDoc 7) := by decide
  obtain h | ⟨h, -⟩ := h.2 101 0
  · rw [hcell] at h
    cases h
  · rw [hcell] at h
    cases h

end SyrocePms.Atomic.Failing
