import SyrocePms.Atomic.Assignments

/-! The lock set of a booking under several assignments. A call relies on the nights that it
has passed, and nothing in the code keeps the deletions of another call of the booking away
from them. -/

namespace SyrocePms.Atomic.Assign

open Reservation Lib List

variable {booking k room : ℕ} {locks : LockTable} {c : Call} {n night : ℤ} {rest : List ℤ}
  {s s' : Store} {t t' : Thread} {stage : Stage} {m : Move} {ts : List Thread}
  {p : Pool Store Thread}

/-! ### When the deletions and the writes do no harm -/

/-- The nights that a call in flight has passed, with their room. -/
def Thread.relies (t : Thread) : List (ℕ × ℤ) :=
  match t.pc with
  | .call _ c => c.passed.map fun n => (c.target.room, n)
  | _ => []

def Call.deletes (c : Call) (room : ℕ) (night : ℤ) : Bool :=
  match c.pc with
  | .rollback => room == c.target.room && c.claimed.contains night
  | .release => room != c.target.room || !c.target.nights.contains night
  | _ => false

def Thread.deletes (t : Thread) (room : ℕ) (night : ℤ) : Bool :=
  match t.pc with
  | .call _ c => c.deletes room night
  | .compensate x => room == x.room && x.nights.contains night
  | _ => false

/-- The caller is about to release the obsolete locks, with which its call succeeds. -/
def Thread.releases (t : Thread) : Bool :=
  match t.pc with
  | .call _ c => c.pc == .release
  | _ => false

/-- The other calls in flight lose no night that they have passed. -/
def Thread.sparesCalls (t : Thread) (ts : List Thread) (k : ℕ) : Bool :=
  (List.range ts.length).all fun j => j == k ||
    (ts[j]?).all fun u => u.relies.all fun x => !t.deletes x.1 x.2

/-- The last call that has succeeded loses no night. -/
def Thread.sparesLast (t : Thread) (s : Store) : Bool :=
  s.last.all fun h => h.target.nights.all fun n => !t.deletes h.target.room n

def Store.lastCaller (s : Store) : Option ℕ := s.last.bind Holder.caller

def running (ts : List Thread) (caller : Option ℕ) : Bool :=
  caller.any fun k => (ts[k]?).any fun t => t.pc != .returned

def Thread.isWrite (t : Thread) : Bool :=
  match t.pc with
  | .write _ => true
  | _ => false

/-- What a deletion leaves alone. -/
def Spares (p : Pool Store Thread) (k : ℕ) (t : Thread) (m : Move) : Prop :=
  m = .fail ∨ (t.sparesCalls p.threads k = true ∧
    ((t.releases = true ∧ m = .advance) ∨ t.sparesLast p.store = true))

/-- The caller of the last call that has succeeded ends with a document that shows what the
call assigned, and another caller leaves the document so when that caller is over. -/
def Settles (p : Pool Store Thread) (k : ℕ) (t : Thread) (m : Move) : Prop :=
  ∀ r ∈ t.step k p.store m,
    (r.2.pc = .returned → r.1.lastCaller = some k → r.1.shows = true) ∧
      (t.isWrite = true → r.1.lastCaller ≠ some k →
        r.1.shows = true ∨ running p.threads r.1.lastCaller = true)

def Careful (p : Pool Store Thread) : Act Env Job Move → Prop
  | .step k m => ∀ t ∈ p.threads[k]?, Spares p k t m ∧ Settles p k t m
  | _ => True

instance (p : Pool Store Thread) (k : ℕ) (t : Thread) (m : Move) : Decidable (Spares p k t m) :=
  inferInstanceAs (Decidable (_ ∨ _))

instance (p : Pool Store Thread) (k : ℕ) (t : Thread) (m : Move) : Decidable (Settles p k t m) :=
  inferInstanceAs (Decidable (∀ r ∈ t.step k p.store m, _))

instance (p : Pool Store Thread) (a : Act Env Job Move) : Decidable (Careful p a) :=
  match a with
  | .step k m => inferInstanceAs (Decidable (∀ t ∈ p.threads[k]?, Spares p k t m ∧ Settles p k t m))
  | .env _ | .call _ => .isTrue trivial

/-! ### One operation of a call -/

def Call.blockedBy (c : Call) : Option Lock :=
  match c.pc with
  | .owner _ l _ _ | .retire _ l => some l
  | _ => none

/-- A call holds the nights that it has passed, and the others are ahead. -/
structure CallOk (booking : ℕ) (locks : LockTable) (c : Call) : Prop where
  covered : ∀ n ∈ c.target.nights, n ∈ c.passed ∨ n ∈ c.todo
  held : ∀ n ∈ c.passed, Owned locks booking c.target.room n
  done : c.pc = .release → c.todo = []
  foreign : ∀ l, c.blockedBy = some l → l.owner ≠ .booking booking

/-- What holds of a call after an operation, unless it has given up. -/
def Reached (booking : ℕ) (locks : LockTable) (c : Call) : Prop :=
  ((∀ o, c.pc ≠ .ended o) → CallOk booking locks c) ∧
    (c.pc = .ended .success → ∀ n ∈ c.target.nights, Owned locks booking c.target.room n)

theorem CallOk.reached (h : CallOk booking locks c) (hend : c.pc ≠ .ended .success) :
    Reached booking locks c :=
  ⟨fun _ => h, fun hs => absurd hs hend⟩

theorem reached_ended {o : Outcome} (h : c.pc = .ended o) (ho : o ≠ .success) :
    Reached booking locks c :=
  ⟨fun hno => absurd h (hno o), fun hs => absurd (CallPc.ended.inj (h.symm.trans hs)) ho⟩

theorem loop_reached (hcov : ∀ n ∈ c.target.nights, n ∈ c.passed ∨ n ∈ c.todo)
    (hheld : ∀ n ∈ c.passed, Owned locks booking c.target.room n) :
    Reached booking locks c.loop := by
  unfold Call.loop
  split
  · exact ⟨fun _ => ⟨hcov, hheld, (fun h => nomatch h), fun _ h => nomatch h⟩, fun h => nomatch h⟩
  · rename_i htodo
    have hall : ∀ n ∈ c.target.nights, n ∈ c.passed := by
      intro n hn
      obtain h | h := hcov n hn
      · exact h
      · rw [htodo] at h
        cases h
    cases c.releaseObsolete with
    | true => exact ⟨fun _ => ⟨hcov, hheld, fun _ => htodo, fun _ h => nomatch h⟩, fun h => nomatch h⟩
    | false => exact ⟨fun h => absurd rfl (h .success), fun _ n hn => hheld n (hall n hn)⟩

theorem pass_reached (h : CallOk booking locks c) (htodo : c.todo = night :: rest) (fresh : Bool)
    (howned : Owned locks booking c.target.room night) :
    Reached booking locks (c.pass night fresh) := by
  refine loop_reached (fun n hn => ?_) fun n hn => ?_
  · obtain hp | ht := h.covered n hn
    · exact .inl (mem_cons_of_mem _ hp)
    · rw [htodo] at ht
      obtain rfl | ht := mem_cons.mp ht
      · exact .inl mem_cons_self
      · exact .inr (by rw [htodo]; exact ht)
  · obtain rfl | hn := mem_cons.mp hn
    · exact howned
    · exact h.held n hn

theorem compensate_reached (h : CallOk booking locks c) : Reached booking locks c.compensate := by
  unfold Call.compensate
  split
  · exact reached_ended rfl (fun h => nomatch h)
  · exact CallOk.reached ⟨h.covered, h.held, (fun h => nomatch h), fun _ h => nomatch h⟩
      fun h => nomatch h

theorem refused_reached (h : CallOk booking locks c) (htodo : c.todo = night :: rest)
    {existing : Option Lock} (hfound : ∀ l, existing = some l → l.owner = .booking booking →
      locks c.target.room night = some l) :
    Reached booking locks (c.refused booking night existing) := by
  unfold Call.refused
  split
  · rename_i hown
    cases existing with
    | none => cases hown
    | some l =>
      have ho : l.owner = .booking booking := by simpa using hown
      exact pass_reached h htodo false ⟨l, hfound l rfl ho, ho⟩
  · exact compensate_reached h

structure Advanced (s : Store) (c : Call) (r : LockTable × Call) : Prop where
  keeps : ∀ room n, Owned s.locks s.booking.id room n → c.deletes room n = false →
    Owned r.1 s.booking.id room n
  reached : Reached s.booking.id r.1 r.2

theorem Advanced.same {c' : Call} (hr : Reached s.booking.id s.locks c') :
    Advanced s c (s.locks, c') := ⟨fun _ _ h _ => h, hr⟩

theorem owned_deleteMany {f : ℕ → ℤ → Lock → Bool} (h : Owned locks booking room n)
    (hf : ∀ l, locks room n = some l → l.owner = .booking booking → f room n l = false) :
    Owned (locks.deleteMany f) booking room n := by
  obtain ⟨l, hl, ho⟩ := h
  exact ⟨l, LockTable.deleteMany_eq_some.mpr ⟨hl, hf l hl ho⟩, ho⟩

theorem tryClaim_advanced {created : ℕ} {taken : CallPc} (h : CallOk s.booking.id s.locks c)
    (htodo : c.todo = night :: rest) (hrun : ∀ o, taken ≠ .ended o) (hrel : taken ≠ .release)
    (hblock : Call.blockedBy { c with pc := taken } = none) :
    Advanced s c (s.tryClaim c night created taken) := by
  unfold Store.tryClaim
  split
  · rename_i hfree
    have hother {room : ℕ} {n : ℤ} (ho : Owned s.locks s.booking.id room n) :
        ¬ (room = c.target.room ∧ n = night) := by
      rintro ⟨rfl, rfl⟩
      obtain ⟨l, hl, -⟩ := ho
      rw [hfree] at hl
      cases hl
    have hkeep {room : ℕ} {n : ℤ} (ho : Owned s.locks s.booking.id room n) :
        Owned (s.locks.put c.target.room night
          ⟨.booking s.booking.id, some .booking, .stamped created⟩) s.booking.id room n := by
      obtain ⟨l, hl, hlo⟩ := ho
      exact ⟨l, (LockTable.put_of_ne (hother ⟨l, hl, hlo⟩)).trans hl, hlo⟩
    refine ⟨fun _ _ ho _ => hkeep ho, ?_⟩
    refine pass_reached ⟨h.covered, fun n hn => hkeep (h.held n hn), h.done, h.foreign⟩ htodo true ?_
    exact ⟨_, LockTable.put_self .., rfl⟩
  · refine .same (CallOk.reached ⟨h.covered, h.held, fun hr => absurd hr hrel, ?_⟩ (hrun _))
    intro l hl
    rw [hblock] at hl
    cases hl

theorem claimNight_advanced (h : CallOk s.booking.id s.locks c) (htodo : c.todo = night :: rest) :
    Advanced s c (s.claimNight c night) := by
  have hforeign {l : Lock} (hb : c.blockedBy = some l) :
      Reached s.booking.id s.locks (c.refused s.booking.id night (some l)) := by
    refine refused_reached h htodo fun x hx ho => ?_
    cases hx
    exact absurd ho (h.foreign l hb)
  unfold Store.claimNight
  split
  · exact tryClaim_advanced h htodo (fun _ h => nomatch h) (fun h => nomatch h) rfl
  · rename_i created hpc
    split
    · exact .same (refused_reached h htodo fun _ h => nomatch h)
    · rename_i l hl
      split
      · refine .same (refused_reached h htodo fun x hx _ => ?_)
        cases hx
        exact hl
      · rename_i owner howner
        obtain ⟨ho, hne⟩ := retirableOwner_some howner
        refine .same (CallOk.reached ⟨h.covered, h.held, (fun h => nomatch h), ?_⟩ fun h => nomatch h)
        intro x hx
        cases hx
        rw [ho]
        exact fun heq => hne (LockOwner.booking.inj heq)
  · rename_i created l owner old hpc
    have hb : c.blockedBy = some l := by simp [Call.blockedBy, hpc]
    split
    · exact .same (hforeign hb)
    · refine .same (CallOk.reached ⟨h.covered, h.held, (fun h => nomatch h), ?_⟩ fun h => nomatch h)
      intro x hx
      cases hx
      exact h.foreign l hb
  · rename_i created l hpc
    have hb : c.blockedBy = some l := by simp [Call.blockedBy, hpc]
    split
    · rename_i hexact
      -- the row that is deleted has another owner
      have hkeep {room : ℕ} {n : ℤ} (ho : Owned s.locks s.booking.id room n) :
          Owned (s.locks.deleteMany fun r n _ => r == c.target.room && n == night)
            s.booking.id room n := by
        refine owned_deleteMany ho fun x hx hxo => ?_
        rw [Bool.eq_false_iff]
        intro hcell
        simp only [Bool.and_eq_true, beq_iff_eq] at hcell
        rw [← hcell.1, ← hcell.2, hx] at hexact
        exact h.foreign l hb ((exactFilter_owner hexact).symm.trans hxo)
      refine ⟨fun _ _ ho _ => hkeep ho, CallOk.reached ⟨h.covered,
        fun n hn => hkeep (h.held n hn), (fun h => nomatch h), fun _ h => nomatch h⟩ fun h => nomatch h⟩
    · exact .same (hforeign hb)
  · exact tryClaim_advanced h htodo (fun _ h => nomatch h) (fun h => nomatch h) rfl
  · exact .same (refused_reached h htodo fun l hl _ => hl)

theorem advanceCall_advanced (h : CallOk s.booking.id s.locks c) (hruns : ∀ o, c.pc ≠ .ended o) :
    Advanced s c (s.advanceCall c) := by
  unfold Store.advanceCall
  split
  · split
    · exact .same (reached_ended rfl fun h => nomatch h)
    · exact .same (loop_reached h.covered h.held)
  · rename_i hpc
    refine ⟨fun room n ho hd => owned_deleteMany ho fun l _ _ => ?_,
      reached_ended rfl fun h => nomatch h⟩
    simp only [Call.deletes, hpc] at hd
    simp only [ofClaim, Bool.and_assoc, hd, Bool.and_false]
  · rename_i hpc
    have hkeep {room : ℕ} {n : ℤ} (ho : Owned s.locks s.booking.id room n)
        (hd : c.deletes room n = false) :
        Owned (s.locks.deleteMany (obsolete s.booking.id c.target.room c.target.nights))
          s.booking.id room n := by
      refine owned_deleteMany ho fun l _ _ => ?_
      simp only [Call.deletes, hpc] at hd
      simp only [obsolete, hd, Bool.and_false]
    refine ⟨fun _ _ ho hd => hkeep ho hd, fun hno => absurd rfl (hno .success), fun _ n hn => ?_⟩
    obtain hp | ht := h.covered n hn
    · exact hkeep (h.held n hp) (by simp [Call.deletes, hpc, hn])
    · rw [h.done hpc] at ht
      cases ht
  · rename_i o hpc
    exact absurd hpc (hruns o)
  · split
    · rename_i night rest htodo
      exact claimNight_advanced h htodo
    · exact .same (loop_reached h.covered h.held)

/-! ### One operation of a caller -/

/-- What holds of the call of a caller. -/
def ThreadOk (s : Store) (_ : ℕ) (t : Thread) : Prop :=
  match t.pc with
  | .call _ c => CallOk s.booking.id s.locks c ∧ ∀ o, c.pc ≠ .ended o
  | _ => True

/-- The caller is in no call, or at the start of one. -/
def Thread.Fresh (t : Thread) : Prop :=
  ∀ stage c, t.pc = .call stage c → ∃ x releaseObsolete, c = .start x releaseObsolete

theorem Thread.Fresh.ok (h : t.Fresh) (s : Store) (k : ℕ) : ThreadOk s k t := by
  unfold ThreadOk
  split
  · rename_i stage c hpc
    obtain ⟨x, r, rfl⟩ := h stage c hpc
    exact ⟨⟨fun n hn => .inr hn, fun n hn => absurd hn not_mem_nil, (fun h => nomatch h),
      fun _ h => nomatch h⟩, fun _ h => nomatch h⟩
  · trivial

theorem fresh_start (t : Thread) (stage : Stage) (x : Target) (r : Bool) :
    ({ t with pc := .call stage (.start x r) } : Thread).Fresh := by
  intro stage' c h
  cases h
  exact ⟨x, r, rfl⟩

theorem fresh_of_pc (h : ∀ stage c, t.pc ≠ .call stage c) : t.Fresh :=
  fun stage c hpc => absurd hpc (h stage c)

theorem ok_of_pc (h : ∀ stage c, t.pc ≠ .call stage c) : ThreadOk s k t := (fresh_of_pc h).ok s k

theorem assign_fresh (t : Thread) (room : ℕ) (r : Bool) : (t.assign room r).Fresh := by
  unfold Thread.assign
  split
  · exact fresh_start t _ _ _
  · exact fresh_of_pc fun _ _ h => nomatch h

theorem nextRoom_fresh (t : Thread) : t.nextRoom.Fresh := by
  unfold Thread.nextRoom
  split
  · exact assign_fresh _ _ _
  · exact fresh_of_pc fun _ _ h => nomatch h
  · exact assign_fresh _ _ _
  · exact fresh_of_pc fun _ _ h => nomatch h

theorem begin_fresh (t : Thread) (b : Booking) : (t.begin b).Fresh := by
  unfold Thread.begin
  cases t.job with
  | assignRoom room => exact assign_fresh _ _ _
  | update w =>
    simp only
    split
    · split
      · exact assign_fresh _ _ _
      · exact fresh_of_pc fun _ _ h => nomatch h
    · exact fresh_of_pc fun _ _ h => nomatch h
  | autoAssign rooms =>
    simp only
    split <;> exact fresh_of_pc fun _ _ h => nomatch h
  | agency rooms checkIn checkOut =>
    simp only
    split
    · exact nextRoom_fresh _
    · exact fresh_of_pc fun _ _ h => nomatch h

theorem restore_fresh (t : Thread) (target : Option Target) : (t.restore target).Fresh := by
  unfold Thread.restore
  split
  · exact fresh_start t _ _ _
  · exact fresh_of_pc fun _ _ h => nomatch h

theorem written_fresh (t : Thread) (target : Option Target) : (t.written target).Fresh := by
  unfold Thread.written
  split
  · exact fresh_start t _ _ _
  · exact fresh_of_pc fun _ _ h => nomatch h

theorem unwritten_fresh (t : Thread) (target : Option Target) (raised : Bool) :
    (t.unwritten target raised).Fresh := by
  unfold Thread.unwritten
  split
  · exact restore_fresh t _
  · exact fresh_of_pc fun _ _ h => nomatch h
  · exact fresh_of_pc fun _ _ h => nomatch h

theorem failed_fresh (t : Thread) : t.failed.Fresh := by
  unfold Thread.failed
  split
  · exact fresh_of_pc fun _ _ h => nomatch h
  · exact unwritten_fresh t _ true
  · exact fresh_of_pc fun _ _ h => nomatch h

theorem afterCall_ok (h : Reached s.booking.id s.locks c) : ThreadOk s k (t.afterCall stage c) := by
  unfold Thread.afterCall
  split
  · split <;> exact ok_of_pc fun _ _ h => nomatch h
  · split
    · exact (nextRoom_fresh t).ok s k
    · exact ok_of_pc fun _ _ h => nomatch h
  · exact ok_of_pc fun _ _ h => nomatch h
  · rename_i hs hc hr
    have hno : ∀ o, c.pc ≠ .ended o := by
      intro o ho
      cases o with
      | success => exact hs ho
      | conflict => exact hc ho
      | raised => exact hr ho
    exact ⟨h.1 hno, hno⟩

/-- What a step of caller `k` does. -/
structure Stepped (s s' : Store) (k : ℕ) (t t' : Thread) (m : Move) : Prop where
  id : s'.booking.id = s.booking.id
  keeps : ∀ room n, Owned s.locks s.booking.id room n → m = .fail ∨ t.deletes room n = false →
    Owned s'.locks s.booking.id room n
  ok : ThreadOk s' k t'
  last : (s'.last = s.last ∧ ¬ (t.releases = true ∧ m = .advance)) ∨
    ∃ x, s'.last = some ⟨some k, x⟩ ∧ s'.holds x.room x.nights
  booking : t.isWrite = false → s'.booking = s.booking

theorem Stepped.same (hid : s'.booking.id = s.booking.id) (hl : s'.locks = s.locks) (hok : t'.Fresh)
    (hlast : s'.last = s.last) (hr : ¬ (t.releases = true ∧ m = .advance))
    (hb : t.isWrite = false → s'.booking = s.booking) : Stepped s s' k t t' m :=
  ⟨hid, fun _ _ h _ => hl ▸ h, hok.ok s' k, .inl ⟨hlast, hr⟩, hb⟩

theorem call_stepped (hpc : t.pc = .call stage c) (hok : CallOk s.booking.id s.locks c)
    (hruns : ∀ o, c.pc ≠ .ended o) :
    Stepped s ({ s with locks := (s.advanceCall c).1 }.record k (s.advanceCall c).2) k t
      (t.afterCall stage (s.advanceCall c).2) .advance := by
  have hadv := advanceCall_advanced hok hruns
  refine ⟨rfl, fun room n ho hd => ?_, afterCall_ok hadv.reached, ?_, fun _ => rfl⟩
  · refine hadv.keeps room n ho ?_
    obtain hd | hd := hd
    · cases hd
    · simpa only [Thread.deletes, hpc] using hd
  · by_cases hsuc : (s.advanceCall c).2.pc = .ended .success
    · refine .inr ⟨(s.advanceCall c).2.target, ?_, hadv.reached.2 hsuc⟩
      simp only [Store.record, hsuc, if_true]
    · refine .inl ⟨by simp only [Store.record, hsuc, if_false], fun hrel => hsuc ?_⟩
      have hrelease : c.pc = .release := by simpa [Thread.releases, hpc] using hrel.1
      simp only [Store.advanceCall, hrelease]

theorem advance_stepped (hok : ThreadOk s k t) :
    Stepped s (s.advance k t).1 k t (s.advance k t).2 .advance := by
  unfold Store.advance
  cases hpc : t.pc with
  | start =>
    exact .same rfl rfl (begin_fresh t _) rfl (by simp [Thread.releases, hpc]) fun _ => rfl
  | claim =>
    simp only
    split
    · exact .same rfl rfl (nextRoom_fresh _) rfl (by simp [Thread.releases, hpc]) fun _ => rfl
    · exact .same rfl rfl (fresh_of_pc fun _ _ h => nomatch h) rfl
        (by simp [Thread.releases, hpc]) fun _ => rfl
  | call stage c =>
    simp only [ThreadOk, hpc] at hok
    exact call_stepped hpc hok.1 hok.2
  | write target =>
    simp only
    split
    · exact .same rfl rfl (written_fresh t _) rfl (by simp [Thread.releases, hpc])
        fun h => by simp [Thread.isWrite, hpc] at h
    · exact .same rfl rfl (unwritten_fresh t _ _) rfl (by simp [Thread.releases, hpc]) fun _ => rfl
  | check target raised =>
    refine .same rfl rfl ?_ rfl (by simp [Thread.releases, hpc]) fun _ => rfl
    simp only
    split
    · cases raised <;> exact fresh_of_pc fun _ _ h => nomatch h
    · exact fresh_of_pc fun _ _ h => nomatch h
  | compensate target =>
    refine ⟨rfl, fun room n ho hd => ?_, ok_of_pc (fun _ _ h => nomatch h),
      .inl ⟨rfl, by simp [Thread.releases, hpc]⟩, fun _ => rfl⟩
    refine owned_deleteMany ho fun l _ _ => ?_
    obtain hd | hd := hd
    · cases hd
    · simp only [Thread.deletes, hpc] at hd
      simp only [ofClaim, Bool.and_assoc, hd, Bool.and_false]
  | unclaim =>
    exact .same rfl rfl (fresh_of_pc fun _ _ h => nomatch h) rfl
      (by simp [Thread.releases, hpc]) fun _ => rfl
  | returned =>
    exact .same rfl rfl (fresh_of_pc fun _ _ h => by simp [hpc] at h) rfl
      (by simp [Thread.releases, hpc]) fun _ => rfl

theorem step_stepped (hok : ThreadOk s k t) (h : t.step k s m = some (s', t')) :
    Stepped s s' k t t' m := by
  unfold Thread.step at h
  split at h
  · cases h
  · cases m with
    | advance =>
      have heq := Option.some.inj h
      have hst := advance_stepped hok
      rw [heq] at hst
      exact hst
    | fail =>
      cases h
      exact .same rfl rfl (failed_fresh t) rfl (fun h => nomatch h.2) fun _ => rfl
    | unanswered =>
      cases h
      have hst := advance_stepped (k := k) hok
      exact ⟨hst.id, fun room n ho hd => hst.keeps room n ho (hd.imp (fun h => nomatch h) id),
        (failed_fresh t).ok _ k, .inl ⟨rfl, fun h => nomatch h.2⟩, hst.booking⟩

/-! ### The runs -/

def HoldsLast (s : Store) : Prop := ∀ h ∈ s.last, s.holds h.target.room h.target.nights

theorem ThreadOk.keeps (h : ThreadOk s k t) (hid : s'.booking.id = s.booking.id)
    (hkeep : ∀ x ∈ t.relies, Owned s.locks s.booking.id x.1 x.2 →
      Owned s'.locks s.booking.id x.1 x.2) : ThreadOk s' k t := by
  unfold ThreadOk at h ⊢
  cases hpc : t.pc with
  | call stage c =>
    simp only [hpc] at h ⊢
    obtain ⟨hok, hruns⟩ := h
    rw [hid]
    refine ⟨⟨hok.covered, fun n hn => ?_, hok.done, hok.foreign⟩, hruns⟩
    have hmem : (c.target.room, n) ∈ t.relies := by
      rw [Thread.relies, hpc]
      exact mem_map.mpr ⟨n, hn, rfl⟩
    exact hkeep _ hmem (hok.held n hn)
  | _ => trivial

theorem owned_env {x : Env} (h : Owned s.locks s.booking.id room n) :
    Owned (s.env x).locks s.booking.id room n := by
  cases x with
  | tick => exact h
  | others bookings locks =>
    obtain ⟨l, hl, ho⟩ := h
    refine ⟨l, ?_, ho⟩
    simp only [Store.env, hl, Option.any_some, ho, beq_self_eq_true, if_true]

theorem env_booking (s : Store) (x : Env) : (s.env x).booking = s.booking := by
  cases x <;> rfl

theorem env_last (s : Store) (x : Env) : (s.env x).last = s.last := by
  cases x <;> rfl

theorem sparesCalls_iff :
    t.sparesCalls ts k = true ↔ ∀ j, j ≠ k → ∀ u, ts[j]? = some u → ∀ x ∈ u.relies,
      t.deletes x.1 x.2 = false := by
  simp only [Thread.sparesCalls, all_eq_true, mem_range, Bool.or_eq_true, beq_iff_eq]
  constructor
  · intro h j hj u hu x hx
    have hlt := (List.getElem?_eq_some_iff.mp hu).1
    obtain heq | hall := h j hlt
    · exact absurd heq hj
    · rw [hu, Option.all_some, all_eq_true] at hall
      simpa using hall x hx
  · intro h j _
    by_cases hj : j = k
    · exact .inl hj
    · refine .inr ?_
      cases hu : ts[j]? with
      | none => rfl
      | some u =>
        rw [Option.all_some, all_eq_true]
        intro x hx
        simpa using h j hj u hu x hx

theorem sparesLast_iff : t.sparesLast s = true ↔ ∀ h ∈ s.last, ∀ n ∈ h.target.nights,
      t.deletes h.target.room n = false := by
  unfold Thread.sparesLast
  cases s.last with
  | none => simp
  | some h => simp

theorem assignments_preserves :
    assignments.Preserves Careful HoldsLast ThreadOk (fun _ _ => True) where
  symm _ _ _ := trivial
  init s h := fun x hx => (h.2.2 x hx).2
  env p x s' hi _ h := by
    cases h
    refine ⟨fun y hy n hn => ?_, fun k t ht => ?_⟩
    · rw [env_last] at hy
      rw [env_booking]
      exact owned_env (hi.store y hy n hn)
    · exact (hi.thread k t ht).keeps (by rw [env_booking]) fun _ _ => owned_env
  call p j t _ _ h := by
    cases h
    exact ⟨trivial, fun _ _ => trivial⟩
  step p k m t s' t' hi hc ht h := by
    have hst := step_stepped (hi.thread k t ht) h
    obtain ⟨hspares, -⟩ := hc t ht
    refine ⟨fun x hx n hn => ?_, hst.ok, fun j u hj hu => ⟨?_, trivial⟩⟩
    · rw [hst.id]
      obtain ⟨hlast, hrel⟩ | ⟨y, hlast, hheld⟩ := hst.last
      · rw [hlast] at hx
        refine hst.keeps _ n (hi.store x hx n hn) ?_
        obtain hfail | ⟨-, hsuc | hl⟩ := hspares
        · exact .inl hfail
        · exact absurd hsuc hrel
        · exact .inr (sparesLast_iff.mp hl x hx n hn)
      · rw [hlast] at hx
        cases hx
        rw [← hst.id]
        exact hheld n hn
    · refine (hi.thread j u hu).keeps hst.id fun x hx ho => hst.keeps _ _ ho ?_
      obtain hfail | ⟨hcalls, -⟩ := hspares
      · exact .inl hfail
      · exact .inr (sparesCalls_iff.mp hcalls j hj u hu x hx)

/-- The document shows what the last call assigned, or its caller has still to go on. -/
def Shown (p : Pool Store Thread) : Prop :=
  p.store.shows = true ∨ running p.threads p.store.lastCaller = true

theorem running_iff {caller : Option ℕ} :
    running ts caller = true ↔ ∃ k, caller = some k ∧ ∃ t, ts[k]? = some t ∧ t.pc ≠ .returned := by
  unfold running
  cases caller with
  | none => simp
  | some k => cases ht : ts[k]? <;> simp [ht]

theorem shows_congr (hb : s'.booking = s.booking) (hl : s'.last = s.last) : s'.shows = s.shows := by
  unfold Store.shows
  rw [hb, hl]

theorem Shown.next {p' : Pool Store Thread} {a : Act Env Job Move}
    (hi : Program.Inv HoldsLast ThreadOk (fun _ _ => True) p) (hsh : Shown p) (hc : Careful p a)
    (h : assignments.machine.step p a = some p') : Shown p' := by
  cases a with
  | env x =>
    obtain ⟨hs, ht⟩ := Program.next_env h
    have hstore : p'.store = p.store.env x := (Option.some.inj hs).symm
    unfold Shown Store.lastCaller at hsh ⊢
    rw [hstore, ht, shows_congr (env_booking _ x) (env_last _ x), env_last]
    exact hsh
  | call j =>
    obtain ⟨t, -, hs, ht⟩ := Program.next_call h
    unfold Shown at hsh ⊢
    rw [hs, ht]
    refine hsh.imp id fun hrun => ?_
    obtain ⟨k, hk, u, hu, hne⟩ := running_iff.mp hrun
    refine running_iff.mpr ⟨k, hk, u, ?_, hne⟩
    rw [List.getElem?_append_left (List.getElem?_eq_some_iff.mp hu).1]
    exact hu
  | step k m =>
    obtain ⟨t, t', ht, hs, hset⟩ := Program.next_step h
    have hstep : t.step k p.store m = some (p'.store, t') := hs
    have hst := step_stepped (hi.thread k t ht) hstep
    obtain ⟨hends, hwrites⟩ := (hc t ht).2 (p'.store, t') hstep
    by_cases hlast : p'.store.lastCaller = some k
    · by_cases hover : t'.pc = .returned
      · exact .inl (hends hover hlast)
      · refine .inr (running_iff.mpr ⟨k, hlast, t', ?_, hover⟩)
        rw [hset]
        exact List.getElem?_set_self (List.getElem?_eq_some_iff.mp ht).1
    · -- the last call is that of another caller, and stays so
      have hsame : p'.store.last = p.store.last := by
        obtain ⟨hsame, -⟩ | ⟨x, hx, -⟩ := hst.last
        · exact hsame
        · exact absurd (by rw [Store.lastCaller, hx]; rfl) hlast
      have hcaller : p'.store.lastCaller = p.store.lastCaller := by
        rw [Store.lastCaller, Store.lastCaller, hsame]
      have hrun (hr : running p.threads p'.store.lastCaller = true) :
          running p'.threads p'.store.lastCaller = true := by
        obtain ⟨j, hj, u, hu, hne⟩ := running_iff.mp hr
        refine running_iff.mpr ⟨j, hj, u, ?_, hne⟩
        have hjk : j ≠ k := fun heq => hlast (heq ▸ hj)
        rw [hset, getElem?_set_ne hjk.symm]
        exact hu
      cases hw : t.isWrite with
      | true => exact (hwrites hw hlast).imp id hrun
      | false =>
        unfold Shown at hsh
        rw [← shows_congr (hst.booking hw) hsame, ← hcaller] at hsh
        exact hsh.imp id hrun

theorem reach_shown (hp : assignments.machine.Reach Careful p) : Shown p :=
  assignments_preserves.reach_pool (fun _ h₀ => .inl h₀.1.2.1)
    (fun _ _ _ hi hsh hc h => hsh.next hi hc h) hp

/-- The last call that has succeeded has the lock of every night on its room, and when all
callers are over, the lock set of the room in the document is complete. -/
def LockSetKept (p : Pool Store Thread) : Prop :=
  HoldsLast p.store ∧ ((∀ t ∈ p.threads, t.pc = .returned) → p.store.Complete)

theorem lockSet_kept {p : Pool Store Thread} (hp : assignments.machine.Reach Careful p) :
    LockSetKept p := by
  have hheld := (assignments_preserves.reach hp).store
  refine ⟨hheld, fun hover room n hcov => ?_⟩
  have hshows : p.store.shows = true := by
    obtain hshows | hrun := reach_shown hp
    · exact hshows
    · obtain ⟨k, -, t, ht, hne⟩ := running_iff.mp hrun
      exact absurd (hover t (mem_of_getElem? ht)) hne
  obtain ⟨hroom, hn⟩ := hcov
  rw [Store.shows, hroom, Option.all_some, all_eq_true] at hshows
  have hany := hshows n hn
  cases hl : p.store.last with
  | none =>
    rw [hl] at hany
    cases hany
  | some h =>
    rw [hl, Option.any_some, Bool.and_eq_true] at hany
    have hr : h.target.room = room := beq_iff_eq.mp hany.1
    have hnight : n ∈ h.target.nights := by simpa using hany.2
    exact hr ▸ hheld h hl n hnight

/-! ### Two assignments at once -/

def allocated : Store where
  booking := { id := 0, room := some 2, checkIn := some ⟨10, some 14⟩, checkOut := some ⟨11, some 11⟩ }
  others := .empty
  locks := fun room night => if room = 2 ∧ night = 10 then some ⟨.booking 0, some .booking, .missing⟩ else none
  now := 0
  nextClaim := 0
  last := some ⟨none, ⟨2, ⟨10, some 14⟩, ⟨11, some 11⟩⟩⟩

theorem allocated_init : assignments.machine.init ⟨allocated, []⟩ := by
  have howned : ∀ n ∈ nightDates 10 11, Owned allocated.locks 0 2 n := by
    intro n hn
    have hnight : n = 10 := by
      have hmem := mem_nightDates.mp hn
      omega
    rw [hnight]
    exact ⟨_, rfl, rfl⟩
  refine ⟨⟨fun room n hcov => ?_, rfl, fun h hh => ?_⟩, rfl⟩
  · obtain ⟨hroom, hn⟩ := hcov
    cases hroom
    exact howned n hn
  · cases hh
    exact ⟨rfl, howned⟩

/-- Both calls claim, and each releases what the other has claimed. -/
def crossedReleases : List (Act Env Job Move) :=
  [.call (.assignRoom 1), .call (.assignRoom 3)] ++ List.replicate 3 (.step 0 .advance) ++
    List.replicate 4 (.step 1 .advance) ++ List.replicate 2 (.step 0 .advance) ++
    [.step 1 .advance]

/-- The room and the nights in the document, the rooms whose lock of the night is held, and
whether all callers are over. -/
structure Ending where
  room : Option ℕ
  nights : List ℤ
  locked : List ℕ
  ended : Bool
  deriving DecidableEq

def ending (p : Pool Store Thread) : Ending where
  room := p.store.booking.room
  nights := p.store.booking.nights
  locked := [1, 2, 3].filter fun room => (p.store.locks room 10).isSome
  ended := p.threads.all (·.pc == .returned)

/-- After the releases of two assignments the booking has no lock at all. -/
theorem crossed_releases : ¬ ∀ p, assignments.machine.Reachable p → LockSetKept p := by
  intro hall
  obtain ⟨p, hp, hend⟩ := Machine.exists_reachable_of_run (f := ending)
    (v := ⟨some 3, [10], [], true⟩) crossedReleases allocated_init (by decide +kernel)
  have hroom : p.store.booking.room = some 3 := congrArg Ending.room hend
  have hnights : p.store.booking.nights = [10] := congrArg Ending.nights hend
  have hover : p.threads.all (·.pc == .returned) = true := congrArg Ending.ended hend
  have hfree : (p.store.locks 3 10).isSome ≠ true :=
    filter_eq_nil_iff.mp (congrArg Ending.locked hend) 3 (by decide)
  have hcomplete := (hall p hp).2 fun t ht => by simpa using all_eq_true.mp hover t ht
  obtain ⟨l, hl, -⟩ := hcomplete 3 10 ⟨hroom, by rw [hnights]; exact mem_singleton.mpr rfl⟩
  rw [hl] at hfree
  exact hfree rfl

/-- Both assignments are to room 1, and the second accepts the lock of the first. -/
def sameRoom : List (Act Env Job Move) :=
  [.call (.assignRoom 1), .call (.assignRoom 1)] ++ List.replicate 3 (.step 0 .advance) ++
    List.replicate 4 (.step 1 .advance) ++
    [.step 0 .advance, .step 1 .advance, .step 0 .advance, .step 1 .advance]

theorem lockSet_kept_sameRoom : ∃ p, assignments.machine.Reach Careful p ∧
    ending p = ⟨some 1, [10], [1], true⟩ ∧ LockSetKept p := by
  obtain ⟨p, hp, hobs⟩ := Machine.exists_reach_of_runUnder (C := Careful) (f := ending)
    (v := ⟨some 1, [10], [1], true⟩) sameRoom allocated_init (by decide +kernel)
  exact ⟨p, hp, hobs, lockSet_kept hp⟩

end SyrocePms.Atomic.Assign
