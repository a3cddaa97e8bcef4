import SyrocePms.Atomic.Invariant

/-! No double booking. Each operation changes one of the lock table, the bookings and
the control of its call, so the step lemma is assembled from what such a change leaves
alone in the other calls. The run at the end shows what happens without the condition:
two assignments of one booking release each other's locks. -/

namespace SyrocePms.Atomic

open Reservation Lib List Collection

variable {s : State} {t x : Task}
variable {booking created room : ℕ} {night : ℤ} {p : ℕ → ℤ → Lock → Bool} {s' : State} {t' : Task}
  {b : Booking} {nights rest : List ℤ} {op : Op} {pc : Pc}

/-! ### What a change of one table leaves alone -/

theorem TaskOk.relock (h : TaskOk s x) {locks : LockTable}
    (hk : s.holds x = true → ∀ night ∈ x.passed, ∀ l, s.locks x.room night = some l →
      l.owner = .booking x.booking → locks x.room night = some l) :
    TaskOk { s with locks := locks } x where
  booking_lt := h.booking_lt
  started := h.started
  document := h.document
  stay := h.stay
  closing := h.closing
  stored := h.stored
  progress := h.progress
  passed_sub := h.passed_sub
  todo_sub := h.todo_sub
  claimed_sub := h.claimed_sub
  unstored := h.unstored
  control := by
    have := h.control
    revert this
    cases x.pc <;> exact id
  held hx night hn := by
    obtain ⟨l, hl, ho⟩ := h.held hx night hn
    exact ⟨l, hk hx night hn l hl ho, ho⟩
  recent hx night hn := by
    obtain ⟨l, time, hl, ho, hc⟩ := h.recent hx night hn
    exact ⟨l, time, hk hx night (h.claimed_sub night hn) l hl ho, ho, hc⟩

/-- An insert into a free cell keeps every lock. -/
theorem TaskOk.put (h : TaskOk s x) {l : Lock} (hfree : s.locks room night = none) :
    TaskOk { s with locks := s.locks.put room night l } x := by
  refine h.relock fun _ n _ l' hl' _ => ?_
  rw [LockTable.put_of_ne, hl']
  rintro ⟨rfl, rfl⟩
  rw [hfree] at hl'
  cases hl'

theorem TaskOk.delete (h : TaskOk s x)
    (hk : s.holds x = true → ∀ night ∈ x.passed, ∀ l, s.locks x.room night = some l →
      l.owner = .booking x.booking → p x.room night l = false) :
    TaskOk { s with locks := s.locks.deleteMany p } x :=
  h.relock fun hx n hn l hl ho =>
    LockTable.deleteMany_eq_some.mpr ⟨hl, hk hx n hn l hl ho⟩

/-- A change of the bookings that revives no booking, deletes none, keeps the terminal
ones terminal and stores no document for a creation in flight. -/
theorem TaskOk.rebook (h : TaskOk s x) {bookings : Bookings} {next : ℕ}
    (hnext : s.nextBooking ≤ next)
    (hlive : x.pc.holding = true → ∀ b ∈ bookings, b.id = x.booking → b.live = true →
      s.liveDoc x.booking = true)
    (hkeep : ∀ b ∈ s.bookings,
      ∃ c ∈ bookings, c.id = b.id ∧ (b.status.terminal = true → c.status.terminal = true))
    (hstored : x.op.isCreate = true → x.pc ≠ .done → ∀ b ∈ bookings, b.id ≠ x.booking) :
    TaskOk { s with bookings := bookings, nextBooking := next } x := by
  have hret : ∀ l owner, Retirable s l owner →
      Retirable { s with bookings := bookings, nextBooking := next } l owner := by
    rintro l owner (⟨b, hb, hid, ht⟩ | ho)
    · obtain ⟨c, hc, hcid, hct⟩ := hkeep b hb
      exact .inl ⟨c, hc, hcid.trans hid, hct ht⟩
    · exact .inr ho
  have hholds : State.holds { s with bookings := bookings, nextBooking := next } x = true →
      s.holds x = true := by
    intro hx
    obtain ⟨h1, h2, h3⟩ := holds_iff.mp hx
    refine holds_iff.mpr ⟨h1, h2, h3.imp_right fun hd => ?_⟩
    obtain ⟨b, hb, hid, hl⟩ := liveDoc_iff.mp hd
    exact hlive h1 b hb hid hl
  have hdoc : x.op.isCreate = false → ∃ b ∈ bookings, b.id = x.booking := by
    intro hx
    obtain ⟨b, hb, hid⟩ := h.stored hx
    obtain ⟨c, hc, hcid, -⟩ := hkeep b hb
    exact ⟨c, hc, hcid.trans hid⟩
  refine ⟨lt_of_lt_of_le h.booking_lt hnext, h.started, h.document, h.stay, h.closing, hdoc,
    h.progress, h.passed_sub, h.todo_sub, h.claimed_sub, hstored, ?_,
    fun hx => h.held (hholds hx), fun hx => h.recent (hholds hx)⟩
  have hc := h.control
  revert hc
  cases x.pc with
  | retire created l reason =>
    rintro ⟨h1, h2, owner, h3, h4, h5⟩
    exact ⟨h1, h2, owner, h3, h4, hret l owner h5⟩
  | releaseAll =>
    rintro ⟨b, hb, hid, ht⟩
    obtain ⟨c, hc, hcid, hct⟩ := hkeep b hb
    exact ⟨c, hc, hcid.trans hid, hct ht⟩
  | _ => exact id

/-- Time passes. -/
theorem TaskOk.tick (h : TaskOk s x) : TaskOk { s with now := s.now + 1 } x := by
  have hold : ∀ l, lockIsOldEnough l s.now = true → lockIsOldEnough l (s.now + 1) = true :=
    fun l => lockIsOldEnough_mono (Nat.le_succ _)
  have hholds : State.holds { s with now := s.now + 1 } x = true → s.holds x = true := by
    intro hx
    obtain ⟨h1, h2, h3⟩ := holds_iff.mp hx
    have h2' : s.now + 1 < x.startedAt + staleLockMinAgeSeconds := h2
    exact holds_iff.mpr ⟨h1, by omega, h3⟩
  refine ⟨h.booking_lt, Nat.le_succ_of_le h.started, h.document, h.stay, h.closing, h.stored,
    h.progress, h.passed_sub, h.todo_sub, h.claimed_sub, h.unstored, ?_,
    fun hx => h.held (hholds hx), fun hx => h.recent (hholds hx)⟩
  have hc := h.control
  revert hc
  cases x.pc with
  | owner created l owner old =>
    rintro ⟨h1, h2, h3, h4, h5⟩
    exact ⟨h1, h2, h3, h4, fun ho => hold l (h5 ho)⟩
  | retire created l reason =>
    rintro ⟨h1, h2, owner, h3, h4, h5⟩
    exact ⟨h1, h2, owner, h3, h4, h5.imp_right (hold l)⟩
  | _ => exact id

/-- The invariant of a call does not read the other calls. -/
theorem TaskOk.congr (h : TaskOk s x) (hb : s'.bookings = s.bookings) (hl : s'.locks = s.locks)
    (hn : s'.now = s.now) (hnext : s'.nextBooking = s.nextBooking) : TaskOk s' x := by
  cases s
  cases s'
  subst hb hl hn hnext
  refine ⟨h.booking_lt, h.started, h.document, h.stay, h.closing, h.stored, h.progress,
    h.passed_sub, h.todo_sub, h.claimed_sub, h.unstored, ?_, h.held, h.recent⟩
  have := h.control
  revert this
  cases x.pc <;> exact id

theorem TaskOk.putTask (h : TaskOk s x) (t : Task) : TaskOk (s.putTask t) x :=
  h.congr rfl rfl rfl rfl

/-! ### Assembling a step -/

theorem Inv.step (h : Inv s) (ht : t ∈ s.tasks) (hd : t.pc ≠ .done) (hsame : Task.Same t t')
    (htasks : s'.tasks = s.tasks) (hnext : s'.nextTask = s.nextTask)
    (hids : ∀ b ∈ s'.bookings, b.id < s'.nextBooking)
    (hothers : ∀ x ∈ s.tasks, x.id ≠ t.id → TaskOk s' x) (hself : TaskOk s' t')
    (hsafe : NoDoubleBooking s'.bookings) (hforeign : NoForeignLock s'.bookings s'.locks)
    (hstamped : Stamped s'.locks) : Inv (s'.putTask t') := by
  have hmem : ∀ x, x ∈ (s'.putTask t').tasks ↔ x = t' ∨ (x ∈ s.tasks ∧ x.id ≠ t.id) := by
    intro x
    rw [State.putTask, mem_upsert, htasks, hsame.id]
  refine ⟨hids, ?_, ?_, ?_, hsafe, hforeign, hstamped⟩
  · intro x hx
    rcases (hmem x).mp hx with rfl | ⟨hx, -⟩
    · rw [hsame.id]
      exact hnext ▸ h.task_ids t ht
    · exact hnext ▸ h.task_ids x hx
  · intro x hx
    rcases (hmem x).mp hx with rfl | ⟨hx', hne⟩
    · exact hself.putTask x
    · exact (hothers x hx' hne).putTask t'
  · intro y hy x hx hc hd' hb
    rcases (hmem y).mp hy with rfl | ⟨hy', hyne⟩
    · rcases (hmem x).mp hx with rfl | ⟨hx', hxne⟩
      · rfl
      · have := h.sole t ht x hx' (hsame.op ▸ hc) hd (hb.trans hsame.booking)
        exact absurd (congrArg Task.id this) hxne
    · rcases (hmem x).mp hx with rfl | ⟨hx', -⟩
      · have := h.sole y hy' t ht hc hd' (hsame.booking ▸ hb)
        exact absurd (congrArg Task.id this).symm hyne
      · exact h.sole y hy' x hx' hc hd' hb

theorem Inv.move (h : Inv s) (ht : t ∈ s.tasks) (hd : t.pc ≠ .done) (hsame : Task.Same t t')
    (hself : TaskOk s t') : Inv (s.putTask t') :=
  h.step ht hd hsame rfl rfl h.booking_ids (fun x hx _ => h.tasks x hx) hself h.safe h.noForeign
    h.stamped

/-- A step that removes locks and spares those that the other calls hold. -/
theorem Inv.delete (h : Inv s) (ht : t ∈ s.tasks) (hd : t.pc ≠ .done) (hsame : Task.Same t t')
    (hothers : ∀ x ∈ s.tasks, x.id ≠ t.id → s.holds x = true → ∀ night ∈ x.passed, ∀ l,
      s.locks x.room night = some l → l.owner = .booking x.booking → p x.room night l = false)
    (hself : TaskOk { s with locks := s.locks.deleteMany p } t') :
    Inv ({ s with locks := s.locks.deleteMany p }.putTask t') := by
  refine h.step ht hd hsame rfl rfl h.booking_ids
    (fun x hx hne => (h.tasks x hx).delete (hothers x hx hne)) hself h.safe ?_ ?_
  · intro b hb hl room night hcov l hlock
    exact h.noForeign b hb hl room night hcov l (LockTable.deleteMany_eq_some.mp hlock).1
  · intro room night l owner hlock
    exact h.stamped room night l owner (LockTable.deleteMany_eq_some.mp hlock).1

theorem Inv.not_terminal_of_holds (h : Inv s) (hx : x ∈ s.tasks) (hholds : s.holds x = true)
    (hb : b ∈ s.bookings) (hid : b.id = x.booking) (hterm : b.status.terminal = true) : False := by
  obtain ⟨hpc, -, hc | hl⟩ := holds_iff.mp hholds
  · refine (h.tasks x hx).unstored hc ?_ b hb hid
    intro hdone
    rw [hdone] at hpc
    cases hpc
  · exact not_liveDoc_of_terminal hb hterm (hid ▸ hl)

theorem Inv.not_covers_of_owned (h : Inv s) (ho : Owned s.locks booking room night) {c : Booking}
    (hc : c ∈ s.bookings) (hl : c.live = true) (hne : c.id ≠ booking) : ¬ c.covers room night := by
  intro hcov
  obtain ⟨l, hlock, howner⟩ := ho
  have := h.noForeign c hc hl room night hcov l hlock
  rw [howner] at this
  exact hne (LockOwner.booking.inj this).symm

/-- Storing a call that is already stored adds none. -/
theorem mem_of_putTask (ht : t ∈ s.tasks) (hx : x ∈ (s.putTask t).tasks) : x ∈ s.tasks := by
  rcases mem_upsert.mp hx with rfl | ⟨hx, -⟩
  · exact ht
  · exact hx

/-! ### The operations on the lock table -/

/-- The conditions on the next operation of `t`, read at a member of the tasks. -/
theorem SparesCallsInFlight.apply (hk : SparesCallsInFlight s t) (hx : x ∈ s.tasks)
    (hne : x.id ≠ t.id) (hholds : s.holds x = true) (hn : night ∈ x.passed)
    (hr : s.removes t x.room night = true) :
    t.pc ≠ .rollback ∧ t.pc ≠ .release ∧ night ∈ x.claimed :=
  hk x hx hne hholds night hn hr

theorem Inv.tryClaim (h : Inv s) (ht : t ∈ s.tasks) (hd : t.pc ≠ .done) (hh : t.pc.holding = true)
    (htodo : t.todo = night :: rest) (hcreated : t.startedAt ≤ created) {taken : Pc}
    (htaken : PcOk s t taken) (hk : s.locks t.room night = none → ∀ b ∈ s.bookings, b.live = true →
      b.id ≠ t.booking → ¬ b.covers t.room night) : Inv (s.tryClaim t night created taken) := by
  unfold State.tryClaim
  split
  · rename_i hfree
    have hself : TaskOk { s with locks := s.locks.put t.room night (State.lockDoc t created) } t :=
      (h.tasks t ht).put hfree
    refine h.step ht hd (Task.same_pass t true) rfl rfl h.booking_ids
      (fun x hx _ => (h.tasks x hx).put hfree)
      (hself.pass hd hh htodo ⟨_, LockTable.put_self .., rfl⟩
        fun _ => ⟨_, created, LockTable.put_self .., rfl, rfl, hcreated⟩) h.safe ?_ ?_
    · intro b hb hl room n hcov l hlock
      rcases LockTable.put_eq_some.mp hlock with ⟨rfl, rfl, rfl⟩ | ⟨-, hold⟩
      · by_contra hne
        refine hk hfree b hb hl (fun hid => hne ?_) hcov
        rw [hid]
        rfl
      · exact h.noForeign b hb hl room n hcov l hold
    · intro room n l owner hlock howner
      rcases LockTable.put_eq_some.mp hlock with ⟨rfl, rfl, rfl⟩ | ⟨-, hold⟩
      · exact ⟨created, rfl⟩
      · exact h.stamped room n l owner hold howner
  · exact h.move ht hd (Task.same_pc t _) ((h.tasks t ht).goto hd htaken fun _ => hh)

/-- A retirement removes no lock that a call in flight inserted: the row it read is past
the grace period, or its owner is terminal. -/
theorem Inv.retire (h : Inv s) (ht : t ∈ s.tasks) (htodo : t.todo = night :: rest)
    (hk : SparesCallsInFlight s t) {existing : Lock} {reason : StaleReason}
    (hpc : t.pc = .retire created existing reason)
    (hmatch : (s.locks t.room night).any (exactFilter existing) = true) : Inv ({ s with
      locks := s.locks.deleteMany fun r n _ => r == t.room && n == night }.putTask
        { t with pc := .reclaim created }) := by
  have hd : t.pc ≠ .done := by simp [hpc]
  have hown := h.tasks t ht
  obtain ⟨hcreated, ⟨time, htime⟩, owner, howner, hne, hret⟩ :
      PcOk s t (.retire created existing reason) := hpc ▸ hown.control
  have hcell : ∀ l, s.locks t.room night = some l → exactFilter existing l = true := by
    intro l hl
    simpa [hl] using hmatch
  refine h.delete ht hd (Task.same_pc t _) ?_ ?_
  · intro x hx hxne hholds n hn l hl hlo
    by_contra hp
    simp only [Bool.not_eq_false, Bool.and_eq_true, beq_iff_eq] at hp
    obtain ⟨hroom, rfl⟩ := hp
    rw [hroom] at hl
    have hexact := hcell l hl
    have hremoves : s.removes t x.room n = true := by
      simp [State.removes, hroom, hl, hpc, htodo, hexact]
    obtain ⟨-, -, hclaimed⟩ := hk.apply hx hxne hholds hn hremoves
    obtain ⟨l', time', hl', hlo', htime', hsince⟩ := (h.tasks x hx).recent hholds n hclaimed
    rw [hroom, hl] at hl'
    cases hl'
    have hxo : owner = x.booking := by
      have := exactFilter_owner hexact
      rw [hlo, howner] at this
      exact (LockOwner.booking.inj this).symm
    rcases hret with ⟨b, hb, hid, hterm⟩ | hold
    · exact h.not_terminal_of_holds hx hholds hb (hid.trans hxo) hterm
    · have hsame := exactFilter_createdAt hexact (by simp [htime])
      rw [htime', htime] at hsame
      have hlt := (holds_iff.mp hholds).2.1
      simp only [lockIsOldEnough, htime, decide_eq_true_eq] at hold
      cases hsame
      omega
  · refine TaskOk.goto (hown.delete ?_) hd ?_ (fun _ => by simp [hpc, Pc.holding])
    on_goal 2 => exact hcreated
    intro _ n _ l hl hlo
    by_contra hp
    simp only [Bool.not_eq_false, Bool.and_eq_true, beq_iff_eq] at hp
    obtain ⟨-, rfl⟩ := hp
    have := exactFilter_owner (hcell l hl)
    rw [hlo, howner] at this
    exact hne (LockOwner.booking.inj this).symm

theorem Inv.claimStep (h : Inv s) (ht : t ∈ s.tasks) (hd : t.pc ≠ .done) (hh : t.pc.holding = true)
    (htodo : t.todo = night :: rest) (hk : StepKeepsLocks s t) : Inv (s.claimStep t night) := by
  have hown := h.tasks t ht
  have hcontrol := hown.control
  have hclear : t.pc.inserts = true → s.locks t.room night = none → ∀ b ∈ s.bookings,
      b.live = true → b.id ≠ t.booking → ¬ b.covers t.room night := fun hi hfree =>
    hk.1 hi night (by simp [htodo]) hfree
  have hcurrent : ∀ l, s.locks t.room night = some l → l.owner = .booking t.booking →
      Owned s.locks t.booking t.room night := fun l hl ho => ⟨l, hl, ho⟩
  have hconflict : ∀ l, l.owner ≠ .booking t.booking → Inv (s.putTask (t.refused (some l))) := by
    intro l hne
    refine h.move ht hd (Task.same_refused t _) (hown.refused hd hh htodo ?_)
    intro l' hl' ho
    cases hl'
    exact absurd ho hne
  unfold State.claimStep
  split
  · rename_i hpc
    exact h.tryClaim ht hd hh htodo hown.started hown.started (hclear (by simp [hpc, Pc.inserts]))
  · rename_i created hpc
    have hcreated : t.startedAt ≤ created := by rw [hpc] at hcontrol; exact hcontrol
    split
    · exact h.move ht hd (Task.same_refused t _) (hown.refused hd hh htodo (by simp))
    · rename_i l hl
      split
      · refine h.move ht hd (Task.same_refused t _) (hown.refused hd hh htodo ?_)
        intro l' hl'
        cases hl'
        exact hcurrent l hl
      · rename_i owner hret
        obtain ⟨howner, hne⟩ := retirableOwner_some hret
        exact h.move ht hd (Task.same_pc t _) (hown.goto hd
          ⟨hcreated, howner, hne, h.stamped t.room night l owner hl howner, id⟩ fun _ => hh)
  · rename_i created l owner old hpc
    rw [hpc] at hcontrol
    obtain ⟨hcreated, howner, hne, htime, hold⟩ := hcontrol
    split
    · exact hconflict l fun ho => hne (LockOwner.booking.inj (howner.symm.trans ho))
    · rename_i reason hreason
      refine h.move ht hd (Task.same_pc t _) (hown.goto hd
        ⟨hcreated, htime, owner, howner, hne, ?_⟩ fun _ => hh)
      rcases staleReason_some hreason with ⟨b, hb, hterm⟩ | ho
      · obtain ⟨hmem, hid⟩ := get?_eq_some.mp hb
        exact .inl ⟨b, hmem, hid, hterm⟩
      · exact .inr (hold ho)
  · rename_i created l reason hpc
    split
    · rename_i hmatch
      exact h.retire ht htodo hk.2.1 hpc hmatch
    · rw [hpc] at hcontrol
      obtain ⟨-, -, owner, howner, hne, -⟩ := hcontrol
      exact hconflict l fun ho => hne (LockOwner.booking.inj (howner.symm.trans ho))
  · rename_i created hpc
    have hcreated : t.startedAt ≤ created := by rw [hpc] at hcontrol; exact hcontrol
    exact h.tryClaim ht hd hh htodo hcreated trivial (hclear (by simp [hpc, Pc.inserts]))
  · exact h.move ht hd (Task.same_refused t _) (hown.refused hd hh htodo hcurrent)

theorem Inv.rollback (h : Inv s) (ht : t ∈ s.tasks) (hpc : t.pc = .rollback)
    (hk : SparesCallsInFlight s t) :
    Inv ({ s with locks := s.locks.deleteMany (ofClaim t.booking t.room t.claimed) }.putTask
      { t with pc := .done }) := by
  refine h.delete ht (by simp [hpc]) (Task.same_pc t _) ?_ (TaskOk.finish ?_)
  · intro x hx hne hholds night hn l hl _
    by_contra hp
    rw [Bool.not_eq_false] at hp
    exact (hk.apply hx hne hholds hn (by simp [State.removes, hl, hpc, hp])).1 hpc
  · refine (h.tasks t ht).delete fun hholds => ?_
    simp [holds_iff, hpc, Pc.holding] at hholds

theorem Inv.release (h : Inv s) (ht : t ∈ s.tasks) (hpc : t.pc = .release)
    (hk : SparesCallsInFlight s t) :
    Inv ({ s with locks := s.locks.deleteMany (obsolete t.booking t.room t.nights) }.putTask
      (State.afterRelease t)) := by
  have hd : t.pc ≠ .done := by simp [hpc]
  have hown := h.tasks t ht
  refine h.delete ht hd (State.same_afterRelease t) ?_ ?_
  · intro x hx hne hholds night hn l hl _
    by_contra hp
    rw [Bool.not_eq_false] at hp
    exact (hk.apply hx hne hholds hn (by simp [State.removes, hl, hpc, hp])).2.1 hpc
  · have hself : TaskOk { s with
        locks := s.locks.deleteMany (obsolete t.booking t.room t.nights) } t :=
      hown.delete fun _ night hn l _ _ => by
        simp [obsolete, hown.passed_sub night hn]
    have htodo : t.todo = [] := by
      have := hown.control
      rw [hpc] at this
      exact this
    unfold State.afterRelease
    split
    · exact hself.goto hd htodo fun _ => by simp [hpc, Pc.holding]
    · exact hself.finish

theorem Inv.releaseAll (h : Inv s) (ht : t ∈ s.tasks) (hpc : t.pc = .releaseAll) :
    Inv ({ s with locks := s.locks.deleteMany (ofBooking t.booking) }.putTask
      { t with pc := .done }) := by
  have hcontrol := (h.tasks t ht).control
  rw [hpc] at hcontrol
  obtain ⟨b, hb, hid, hterm⟩ := hcontrol
  refine h.delete ht (by simp [hpc]) (Task.same_pc t _) ?_ (TaskOk.finish ?_)
  · intro x hx _ hholds night _ l _ ho
    by_contra hp
    rw [Bool.not_eq_false, ofBooking, beq_iff_eq, ho] at hp
    exact h.not_terminal_of_holds hx hholds hb (hid.trans (LockOwner.booking.inj hp).symm) hterm
  · refine (h.tasks t ht).delete fun hholds => ?_
    simp [holds_iff, hpc, Pc.holding] at hholds

/-! ### The operations on the bookings -/

theorem Inv.documents (h : Inv s) (bookings : Bookings) (booking : ℕ)
    (hnew : ∀ b ∈ bookings, b ∈ s.bookings ∨ (b.id = booking ∧ (b.live = true →
      ∀ room night, b.covers room night → Owned s.locks booking room night))) :
    NoDoubleBooking bookings ∧ NoForeignLock bookings s.locks := by
  have hmixed : ∀ b ∈ bookings, ∀ c ∈ bookings, c ∈ s.bookings → b.id = booking →
      c.live = true → ∀ room night, Owned s.locks booking room night →
      c.covers room night → b = c := by
    intro b hb c hc hcold hid hcl room night ho hcov
    by_cases hcid : c.id = booking
    · exact eq_of_key hb hc (hid.trans hcid.symm)
    · exact absurd hcov (h.not_covers_of_owned ho hcold hcl hcid)
  constructor
  · intro b hb c hc hbl hcl room night hbcov hccov
    rcases hnew b hb with hbold | ⟨hbid, hbo⟩ <;> rcases hnew c hc with hcold | ⟨hcid, hco⟩
    · exact h.safe b hbold c hcold hbl hcl room night hbcov hccov
    · exact (hmixed c hc b hb hbold hcid hbl room night (hco hcl room night hccov) hbcov).symm
    · exact hmixed b hb c hc hcold hbid hcl room night (hbo hbl room night hbcov) hccov
    · exact eq_of_key hb hc (hbid.trans hcid.symm)
  · intro b hb hbl room night hcov l hl
    rcases hnew b hb with hbold | ⟨hbid, hbo⟩
    · exact h.noForeign b hbold hbl room night hcov l hl
    · obtain ⟨l', hl', ho⟩ := hbo hbl room night hcov
      rw [hl] at hl'
      cases hl'
      exact ho.trans (congrArg LockOwner.booking hbid.symm)

/-- At the insert a creation owns every night of its document. -/
theorem Inv.insertDoc (h : Inv s) (ht : t ∈ s.tasks) (hpc : t.pc = .insertDoc)
    (htime : s.now < t.startedAt + staleLockMinAgeSeconds) : Inv (s.insertDoc t) := by
  have hd : t.pc ≠ .done := by simp [hpc]
  have hown := h.tasks t ht
  have htodo : t.todo = [] := by
    have := hown.control
    rw [hpc] at this
    exact this
  unfold State.insertDoc
  split
  · rename_i doc hop
    obtain ⟨hid, hcovers⟩ := hown.document doc hop
    have hcreate : t.op.isCreate = true := by simp [hop, Op.isCreate]
    split
    · rename_i bookings hins
      have hmem : ∀ b, b ∈ bookings ↔ b ∈ s.bookings ∨ b = doc := fun b =>
        mem_insertOne hins
      have hholds : s.holds t = true :=
        holds_iff.mpr ⟨by simp [hpc, Pc.holding], htime, .inl hcreate⟩
      obtain ⟨hsafe, hforeign⟩ := h.documents bookings t.booking <| by
        intro b hb
        refine ((hmem b).mp hb).imp_right ?_
        rintro rfl
        refine ⟨hid, fun hl room night hcov => ?_⟩
        obtain ⟨rfl, hn⟩ := hcovers hl room night hcov
        refine hown.held hholds night ((hown.progress night hn).resolve_right ?_)
        simp [htodo]
      have hkeep : ∀ b ∈ s.bookings, ∃ c ∈ bookings, c.id = b.id ∧
          (b.status.terminal = true → c.status.terminal = true) :=
        fun b hb => ⟨b, (hmem b).mpr (.inl hb), rfl, id⟩
      refine h.step ht hd (Task.same_pc t _) rfl rfl ?_ ?_ ?_ hsafe hforeign h.stamped
      · intro b hb
        rcases (hmem b).mp hb with hb | rfl
        · exact h.booking_ids b hb
        · exact hid ▸ hown.booking_lt
      · intro x hx hne
        have hbooking : x.booking ≠ t.booking := fun he =>
          hne (congrArg Task.id (h.sole t ht x hx hcreate hd he))
        refine (h.tasks x hx).rebook (Nat.le_refl _) ?_ hkeep ?_
        · intro _ b hb hbid hl
          rcases (hmem b).mp hb with hb | rfl
          · exact liveDoc_iff.mpr ⟨b, hb, hbid, hl⟩
          · exact absurd (hbid.symm.trans hid) hbooking
        · intro hc hxd b hb hbid
          rcases (hmem b).mp hb with hb | rfl
          · exact (h.tasks x hx).unstored hc hxd b hb hbid
          · exact hbooking (hbid.symm.trans hid)
      · exact hown.finish.rebook (Nat.le_refl _) (fun hh => by cases hh) hkeep
          (fun _ hxd => absurd rfl hxd)
    · exact h.move ht hd (Task.same_raised t) (hown.raised hd)
  · exact h.move ht hd (Task.same_pc t _) hown.finish

/-- The booking write moves a document to nights that the call owns. -/
theorem Inv.writeStep (h : Inv s) (ht : t ∈ s.tasks) (hpc : t.pc = .write)
    (htime : s.now < t.startedAt + staleLockMinAgeSeconds) (hk : WritesWhatItClaimed s t) :
    Inv (s.writeStep t) := by
  have hd : t.pc ≠ .done := by simp [hpc]
  have hown := h.tasks t ht
  have htodo : t.todo = [] := by
    have := hown.control
    rw [hpc] at this
    exact this
  unfold State.writeStep
  split
  · rename_i ci co releaseObsolete w hop
    have hk' := hk hpc
    rw [hop] at hk'
    have hmem : ∀ b, b ∈ s.bookings.updateMany
        (fun b => b.id = t.booking && w.admits b) w.apply ↔ ∃ r ∈ s.bookings,
          b = if decide (r.id = t.booking) && w.admits r then w.apply r else r :=
      fun b => mem_updateMany
    obtain ⟨hsafe, hforeign⟩ := h.documents
        (s.bookings.updateMany (fun b => b.id = t.booking && w.admits b) w.apply) t.booking <| by
      intro b hb
      obtain ⟨r, hr, rfl⟩ := (hmem b).mp hb
      split
      · rename_i hp
        simp only [Bool.and_eq_true, decide_eq_true_eq] at hp
        refine .inr ⟨hp.1, fun hl room night hcov => ?_⟩
        obtain ⟨hroom, hci, hco⟩ := hk' r hr hp.1 hp.2
        have hholds : s.holds t = true := holds_iff.mpr
          ⟨by simp [hpc, Pc.holding], htime, .inr (liveDoc_iff.mpr ⟨r, hr, hp.1, hl⟩)⟩
        obtain ⟨hr', hn⟩ := hcov
        rw [hroom] at hr'
        cases hr'
        rw [Booking.nights, hci, hco] at hn
        rw [stayNights, ← hown.stay ci co _ _ hop] at hn
        refine hown.held hholds night ((hown.progress night hn).resolve_right ?_)
        simp [htodo]
      · exact .inl hr
    have hkeep : ∀ b ∈ s.bookings, ∃ c ∈ s.bookings.updateMany
        (fun b => b.id = t.booking && w.admits b) w.apply, c.id = b.id ∧
          (b.status.terminal = true → c.status.terminal = true) := by
      intro b hb
      refine ⟨_, (hmem _).mpr ⟨b, hb, rfl⟩, ?_, ?_⟩
      · split <;> rfl
      · split <;> exact id
    have hold : ∀ b ∈ s.bookings.updateMany
        (fun b => b.id = t.booking && w.admits b) w.apply,
          ∃ r ∈ s.bookings, r.id = b.id ∧ r.live = b.live := by
      intro b hb
      obtain ⟨r, hr, rfl⟩ := (hmem b).mp hb
      refine ⟨r, hr, ?_, ?_⟩ <;> split <;> rfl
    refine h.step ht hd (Task.same_pc t _) rfl rfl ?_ ?_ ?_ hsafe hforeign h.stamped
    · intro b hb
      obtain ⟨r, hr, hid, -⟩ := hold b hb
      exact hid ▸ h.booking_ids r hr
    · intro x hx _
      refine (h.tasks x hx).rebook (Nat.le_refl _) ?_ hkeep ?_
      · intro _ b hb hbid hl
        obtain ⟨r, hr, hid, hlive⟩ := hold b hb
        exact liveDoc_iff.mpr ⟨r, hr, hid.trans hbid, hlive.trans hl⟩
      · intro hc hxd b hb hbid
        obtain ⟨r, hr, hid, -⟩ := hold b hb
        exact (h.tasks x hx).unstored hc hxd r hr (hid.trans hbid)
    · exact hown.finish.rebook (Nat.le_refl _) (fun hh => by cases hh) hkeep
        (fun _ hxd => absurd rfl hxd)
  · exact h.move ht hd (Task.same_pc t _) hown.finish

/-- The status write ends the booking, so that it covers nothing any more. -/
theorem Inv.statusStep (h : Inv s) (ht : t ∈ s.tasks) (hpc : t.pc = .setStatus) :
    Inv (s.statusStep t) := by
  have hd : t.pc ≠ .done := by simp [hpc]
  have hown := h.tasks t ht
  unfold State.statusStep
  split
  · rename_i status hop
    have hterm := hown.closing status hop
    have hmem : ∀ b, b ∈ s.bookings.update t.booking (fun b => { b with status := status }) ↔
        (b ∈ s.bookings ∧ b.id ≠ t.booking) ∨
          ∃ r ∈ s.bookings, r.id = t.booking ∧ b = { r with status := status } :=
      fun b => mem_update
    obtain ⟨hsafe, hforeign⟩ := h.documents
        (s.bookings.update t.booking fun b => { b with status := status }) t.booking <| by
      intro b hb
      rcases (hmem b).mp hb with ⟨hb, -⟩ | ⟨r, hr, hid, rfl⟩
      · exact .inl hb
      · refine .inr ⟨hid, fun hl => ?_⟩
        rw [live_iff, hterm] at hl
        cases hl
    have hkeep : ∀ b ∈ s.bookings, ∃ c ∈ s.bookings.update t.booking
        (fun b => { b with status := status }), c.id = b.id ∧
          (b.status.terminal = true → c.status.terminal = true) := by
      intro b hb
      by_cases hid : b.id = t.booking
      · exact ⟨_, (hmem _).mpr (.inr ⟨b, hb, hid, rfl⟩), rfl, fun _ => hterm⟩
      · exact ⟨b, (hmem b).mpr (.inl ⟨hb, hid⟩), rfl, id⟩
    have hrebook : ∀ x ∈ s.tasks, TaskOk { s with
        bookings := s.bookings.update t.booking fun b => { b with status := status } } x := by
      intro x hx
      refine (h.tasks x hx).rebook (Nat.le_refl _) ?_ hkeep ?_
      · intro _ b hb hbid hl
        rcases (hmem b).mp hb with ⟨hb, -⟩ | ⟨r, hr, hid, rfl⟩
        · exact liveDoc_iff.mpr ⟨b, hb, hbid, hl⟩
        · rw [live_iff, hterm] at hl
          cases hl
      · intro hc hxd b hb hbid
        rcases (hmem b).mp hb with ⟨hb, -⟩ | ⟨r, hr, hid, rfl⟩
        · exact (h.tasks x hx).unstored hc hxd b hb hbid
        · exact (h.tasks x hx).unstored hc hxd r hr hbid
    refine h.step ht hd (Task.same_pc t _) rfl rfl ?_ (fun x hx _ => hrebook x hx) ?_ hsafe
      hforeign h.stamped
    · intro b hb
      rcases (hmem b).mp hb with ⟨hb, -⟩ | ⟨r, hr, hid, rfl⟩
      · exact h.booking_ids b hb
      · exact h.booking_ids r hr
    · refine (hrebook t ht).goto hd ?_ (by simp [Pc.holding])
      obtain ⟨b, hb, hid⟩ := hown.stored (by simp [hop, Op.isCreate])
      exact ⟨_, (hmem _).mpr (.inr ⟨b, hb, hid, rfl⟩), hid, hterm⟩
  · exact h.move ht hd (Task.same_pc t _) hown.finish

theorem Inv.overlapStep (h : Inv s) (ht : t ∈ s.tasks) (hpc : t.pc = .overlap) :
    Inv (s.overlapStep t) := by
  have hd : t.pc ≠ .done := by simp [hpc]
  have hdone := h.move ht hd (Task.same_pc t .done) (h.tasks t ht).finish
  have hloop := h.move ht hd (Task.same_loop t)
    ((h.tasks t ht).loop hd (by simp [hpc, Pc.holding]))
  unfold State.overlapStep
  split
  · split
    · split <;> assumption
    · exact hloop
  · split <;> assumption
  · exact hdone

theorem Inv.claimOrPass (h : Inv s) (ht : t ∈ s.tasks) (hk : StepKeepsLocks s t)
    (hd : t.pc ≠ .done) (hh : t.pc.holding = true) :
    Inv (match t.todo with
      | night :: _ => s.claimStep t night
      | [] => s.putTask t.loop) := by
  split
  · exact h.claimStep ht hd hh (by assumption) hk
  · exact h.move ht hd (Task.same_loop t) ((h.tasks t ht).loop hd hh)

/-- Every operation of a call in time keeps the invariant under the conditions. -/
theorem Inv.advance (h : Inv s) (ht : t ∈ s.tasks)
    (htime : s.now < t.startedAt + staleLockMinAgeSeconds) (hk : StepKeepsLocks s t) :
    Inv (s.advance t) := by
  unfold State.advance
  cases hpc : t.pc with
  | overlap => exact h.overlapStep ht hpc
  | rollback => exact h.rollback ht hpc hk.2.1
  | insertDoc => exact h.insertDoc ht hpc htime
  | release => exact h.release ht hpc hk.2.1
  | write => exact h.writeStep ht hpc htime hk.2.2
  | setStatus => exact h.statusStep ht hpc
  | releaseAll => exact h.releaseAll ht hpc
  | done => exact h
  | _ => exact h.claimOrPass ht hk (by simp [hpc]) (by simp [hpc, Pc.holding])

/-! ### The start of a call -/

theorem TaskOk.start (hlt : booking < s.nextBooking)
    (hdocument : ∀ doc, op = .create doc → doc.id = booking ∧ (doc.live = true →
      ∀ r night, doc.covers r night → r = room ∧ night ∈ nights))
    (hstay : ∀ ci co release write, op = .assign ci co release write →
      nights = nightDates ci.day co.day)
    (hclosing : ∀ status, op = .close status → status.terminal = true)
    (hstored : op.isCreate = false → ∃ b ∈ s.bookings, b.id = booking)
    (hunstored : op.isCreate = true → ∀ b ∈ s.bookings, b.id ≠ booking)
    (hpc : PcOk s (s.newTask booking op room nights pc) pc) :
    TaskOk s (s.newTask booking op room nights pc) where
  booking_lt := hlt
  started := Nat.le_refl _
  document := hdocument
  stay := hstay
  closing := hclosing
  stored := hstored
  progress _ hn := .inr hn
  passed_sub _ hn := absurd hn not_mem_nil
  todo_sub _ hn := hn
  claimed_sub _ hn := absurd hn not_mem_nil
  unstored hc _ := hunstored hc
  control := hpc
  held _ _ hn := absurd hn not_mem_nil
  recent _ _ hn := absurd hn not_mem_nil

/-- A new call, when no creation in flight shares its booking. -/
theorem Inv.spawn (h : Inv s) (next : ℕ) (hnext : s.nextBooking ≤ next)
    (hself : TaskOk { s with nextBooking := next } (s.newTask booking op room nights pc))
    (hsole : ∀ x ∈ s.tasks, x.booking = booking →
      op.isCreate = false ∧ (x.op.isCreate = true → x.pc = .done)) :
    Inv (State.spawn { s with nextBooking := next } booking op room nights pc) := by
  have hmem : ∀ x, x ∈ (State.spawn { s with nextBooking := next } booking op room nights
      pc).tasks ↔ x = s.newTask booking op room nights pc ∨ (x ∈ s.tasks ∧ x.id ≠ s.nextTask) :=
    fun x => mem_upsert
  refine ⟨fun b hb => lt_of_lt_of_le (h.booking_ids b hb) hnext, ?_, ?_, ?_, h.safe, h.noForeign,
    h.stamped⟩
  · intro x hx
    rcases (hmem x).mp hx with rfl | ⟨hx, -⟩
    · exact Nat.lt_succ_self _
    · exact Nat.lt_succ_of_lt (h.task_ids x hx)
  · intro x hx
    rcases (hmem x).mp hx with rfl | ⟨hx', -⟩
    · exact hself.congr rfl rfl rfl rfl
    · have hx := h.tasks x hx'
      have hnow : TaskOk { s with nextBooking := next } x := by
        refine hx.rebook hnext ?_ (fun b hb => ⟨b, hb, rfl, id⟩) hx.unstored
        exact fun _ b hb hid hl => liveDoc_iff.mpr ⟨b, hb, hid, hl⟩
      exact hnow.congr rfl rfl rfl rfl
  · intro y hy x hx hc hd hb
    rcases (hmem y).mp hy with rfl | ⟨hy', -⟩ <;> rcases (hmem x).mp hx with rfl | ⟨hx', -⟩
    · rfl
    · exact absurd (hc.symm.trans (hsole x hx' hb).1) (by simp)
    · exact absurd ((hsole y hy' hb.symm).2 hc) hd
    · exact h.sole y hy' x hx' hc hd hb

theorem Inv.beginCreate (h : Inv s) (doc : Booking) : Inv (s.beginCreate doc) := by
  have hnext : s.nextBooking ≤ s.nextBooking + 1 := Nat.le_succ _
  have hfresh : ∀ op : Op, ∀ x ∈ s.tasks, x.booking = s.nextBooking →
      op.isCreate = false ∧ (x.op.isCreate = true → x.pc = .done) := fun _ x hx he =>
    absurd (h.tasks x hx).booking_lt (by omega)
  have hself : ∀ room nights pc,
      (pc = .overlap ∨ (pc = .insertDoc ∧ nights = [])) →
      ({ doc with id := s.nextBooking }.live = true → ∀ r n,
        { doc with id := s.nextBooking }.covers r n → r = room ∧ n ∈ nights) →
      TaskOk { s with nextBooking := s.nextBooking + 1 }
        (s.newTask s.nextBooking (.create { doc with id := s.nextBooking }) room nights pc) := by
    intro room nights pc hpc hcovers
    refine TaskOk.start (Nat.lt_succ_self _) ?_ (fun _ _ _ _ hop => by cases hop)
      (fun _ hop => by cases hop) (fun hop => by cases hop) ?_ ?_
    · rintro d hop
      cases hop
      exact ⟨rfl, hcovers⟩
    · exact fun _ b hb => Nat.ne_of_lt (h.booking_ids b hb)
    · rcases hpc with rfl | ⟨rfl, rfl⟩
      · trivial
      · rfl
  unfold State.beginCreate
  simp only
  split
  · rename_i hstatus
    refine h.spawn _ hnext (hself 0 [] .insertDoc (.inr ⟨rfl, rfl⟩) ?_) (hfresh _)
    intro hl
    rcases hstatus with hst | hst <;> simp [Booking.live, hst, BookingStatus.terminal] at hl
  · split
    · rename_i room ci co hroom hci hco
      refine h.spawn _ hnext (hself room _ .overlap (.inl rfl) ?_) (hfresh _)
      rintro - r n ⟨hr, hn⟩
      simp only [Booking.nights, hci, hco, stayNights] at hn
      simp only [hroom, Option.some.injEq] at hr
      exact ⟨hr.symm, hn⟩
    · rename_i hmissing
      refine h.spawn _ hnext (hself 0 [] .insertDoc (.inr ⟨rfl, rfl⟩) ?_) (hfresh _)
      rintro - r n ⟨hr, hn⟩
      obtain ⟨ci, co, hci, hco, -⟩ := mem_stayNights.mp hn
      exact absurd hco (hmissing r ci co hr hci)

theorem Inv.stored_of_get? (h : Inv s) (hb : s.bookings.get? booking = some b)
    (hop : op.isCreate = false) : ∀ x ∈ s.tasks, x.booking = booking →
      op.isCreate = false ∧ (x.op.isCreate = true → x.pc = .done) := by
  intro x hx hxb
  refine ⟨hop, fun hc => ?_⟩
  by_contra hd
  obtain ⟨hmem, hid⟩ := get?_eq_some.mp hb
  exact (h.tasks x hx).unstored hc hd b hmem (hid.trans hxb.symm)

theorem Inv.beginAssign (h : Inv s) {target : BookingWrite} {writes releaseObsolete : Bool}
    (hs : s.beginAssign booking target writes releaseObsolete = some s') : Inv s' := by
  obtain ⟨b, hb, hs⟩ := Option.bind_eq_some_iff.mp hs
  obtain ⟨hmem, hid⟩ := get?_eq_some.mp hb
  simp only at hs
  split at hs
  · cases hs
    refine h.spawn s.nextBooking (Nat.le_refl _) ?_
      (h.stored_of_get? hb (by simp [Op.isCreate]))
    refine TaskOk.start (hid ▸ h.booking_ids b hmem) (fun _ hop => by cases hop) ?_
      (fun _ hop => by cases hop) (fun _ => ⟨b, hmem, hid⟩) (fun hop => by cases hop) trivial
    intro ci co r w hop
    cases hop
    rfl
  · cases hs

theorem Inv.beginClose (h : Inv s) {status : BookingStatus}
    (hs : s.beginClose booking status = some s') : Inv s' := by
  obtain ⟨b, hb, hs⟩ := Option.bind_eq_some_iff.mp hs
  obtain ⟨hmem, hid⟩ := get?_eq_some.mp hb
  split at hs
  · rename_i hguard
    cases hs
    refine h.spawn s.nextBooking (Nat.le_refl _) ?_
      (h.stored_of_get? hb (by simp [Op.isCreate]))
    refine TaskOk.start (hid ▸ h.booking_ids b hmem) (fun _ hop => by cases hop)
      (fun _ _ _ _ hop => by cases hop) ?_ (fun _ => ⟨b, hmem, hid⟩) (fun hop => by cases hop)
      trivial
    intro st hop
    cases hop
    rcases hguard with ⟨rfl, -⟩ | ⟨rfl, -⟩ <;> rfl
  · cases hs

/-! ### Runs -/

theorem inv_init (h : atomicMachine.init s) : Inv s := by
  obtain ⟨htasks, hids, hsafe, hforeign, hstamped⟩ := h
  have hnone : ∀ x, x ∉ s.tasks := by
    intro x
    rw [htasks]
    exact not_mem_empty
  exact ⟨hids, fun t ht => absurd ht (hnone t), fun t ht => absurd ht (hnone t),
    fun t ht => absurd ht (hnone t), hsafe, hforeign, hstamped⟩

theorem inv_step {a : Action} (h : Inv s) (hk : KeepsLocks s a)
    (hs : atomicMachine.step s a = some s') : Inv s' := by
  cases a with
  | tick =>
    cases hs
    exact ⟨h.booking_ids, h.task_ids, fun x hx => (h.tasks x hx).tick, h.sole, h.safe,
      h.noForeign, h.stamped⟩
  | create doc =>
    cases hs
    exact h.beginCreate doc
  | assign booking target writes releaseObsolete => exact h.beginAssign hs
  | close booking status => exact h.beginClose hs
  | advance id =>
    obtain ⟨t, ht, hs⟩ := Option.bind_eq_some_iff.mp hs
    obtain ⟨hmem, -⟩ := get?_eq_some.mp ht
    split at hs
    · rename_i hen
      cases hs
      simp only [Task.enabled, Bool.and_eq_true, decide_eq_true_eq] at hen
      exact h.advance hmem hen.2 (hk t ht)
    · cases hs
  | raise id =>
    obtain ⟨t, ht, hs⟩ := Option.bind_eq_some_iff.mp hs
    obtain ⟨hmem, -⟩ := get?_eq_some.mp ht
    split at hs
    · rename_i hen
      cases hs
      have hd : t.pc ≠ .done := by
        simp only [Task.enabled, Bool.and_eq_true, bne_iff_ne] at hen
        exact hen.1
      exact h.move hmem hd (Task.same_raised t) ((h.tasks t hmem).raised hd)
    · cases hs
  | crash id =>
    obtain ⟨t, ht, hs⟩ := Option.map_eq_some_iff.mp hs
    obtain ⟨hmem, -⟩ := get?_eq_some.mp ht
    cases hs
    by_cases hd : t.pc = .done
    · have hsame : ({ t with pc := .done } : Task) = t := by rw [← hd]
      rw [hsame]
      refine ⟨h.booking_ids, ?_, ?_, ?_, h.safe, h.noForeign, h.stamped⟩
      · intro x hx
        exact h.task_ids x (mem_of_putTask hmem hx)
      · intro x hx
        exact (h.tasks x (mem_of_putTask hmem hx)).putTask t
      · intro y hy x hx
        exact h.sole y (mem_of_putTask hmem hy) x (mem_of_putTask hmem hx)
    · exact h.move hmem hd (Task.same_pc t _) (h.tasks t hmem).finish

/-- In every run whose operations meet the conditions, no two distinct non-terminal
bookings of a room ever share a night. -/
theorem noDoubleBooking_of_keepsLocks (h : atomicMachine.Reach KeepsLocks s) :
    NoDoubleBooking s.bookings :=
  (h.invariant Inv (fun _ => inv_init) fun _ _ _ hi hk hs => inv_step hi hk hs).safe

/-! ### Runs on an empty database -/

def emptyState : State where
  bookings := .empty
  locks := fun _ _ => none
  tasks := .empty
  now := 0
  nextBooking := 0
  nextTask := 0

theorem init_emptyState : atomicMachine.init emptyState := by
  refine ⟨rfl, ?_, ?_, ?_, ?_⟩
  · exact fun b hb => absurd hb not_mem_empty
  · exact fun b hb => absurd hb not_mem_empty
  · exact fun b hb => absurd hb not_mem_empty
  · exact fun _ _ _ _ hl => by cases hl

def oneNight (room : ℕ) : Booking where
  id := 0
  room := some room
  checkIn := some ⟨10, some 14⟩
  checkOut := some ⟨11, some 11⟩

/-- Booking 0 is created on room 2, and a creation on room 1 passes its overlap check.
Two assignments move booking 0 to rooms 1 and 3: both claim, each releases what the other
claimed, and both write. The creation goes on. -/
def crossedAssignments : List Action :=
  [.create (oneNight 2), .advance 0, .advance 0, .advance 0,
   .create (oneNight 1), .advance 1,
   .assign 0 { room := some 1 } true true, .assign 0 { room := some 3 } true true,
   .advance 2, .advance 3, .advance 2, .advance 3, .advance 2, .advance 3,
   .advance 3, .advance 2, .advance 1, .advance 1]

/-- Two bookings end on room 1 for the same night. -/
theorem double_booking_reachable :
    ¬ ∀ s, atomicMachine.Reachable s → NoDoubleBooking s.bookings := by
  intro hall
  obtain ⟨s, hs, hv⟩ := Machine.exists_reachable_of_run crossedAssignments
    (M := atomicMachine) (f := fun s => s.bookings.rows.map fun b => (b.id, b.room, b.live, b.nights))
    (v := [(0, some 1, true, [10]), (1, some 1, true, [10])])
    init_emptyState (by decide +kernel)
  obtain ⟨b, hb, hbv⟩ := mem_map.mp (hv ▸ mem_cons_self :
    (0, some 1, true, [(10 : ℤ)]) ∈ s.bookings.rows.map _)
  obtain ⟨c, hc, hcv⟩ := mem_map.mp (hv ▸ mem_cons_of_mem _ mem_cons_self :
    (1, some 1, true, [(10 : ℤ)]) ∈ s.bookings.rows.map _)
  simp only [Prod.mk.injEq] at hbv hcv
  have := hall s hs b hb c hc hbv.2.2.1 hcv.2.2.1 1 10 ⟨hbv.2.1, by simp [hbv.2.2.2]⟩
    ⟨hcv.2.1, by simp [hcv.2.2.2]⟩
  rw [this, hcv.1] at hbv
  exact absurd hbv.1 (by decide)

/-- A creation, a room move and a no-show that meet the conditions. -/
def orderlyRun : List Action :=
  [.create (oneNight 2), .advance 0, .advance 0, .advance 0,
   .assign 0 { room := some 1 } true true, .advance 1, .tick, .advance 1, .advance 1, .advance 1,
   .create (oneNight 2), .advance 2, .advance 2, .advance 2,
   .close 0 .noShow, .advance 3, .advance 3]

theorem noDoubleBooking_orderlyRun : ∃ s, atomicMachine.Reach KeepsLocks s ∧
    s.bookings.rows.map (fun b => (b.room, b.live)) = [(some 1, false), (some 2, true)] ∧
    NoDoubleBooking s.bookings := by
  obtain ⟨s, hs, hv⟩ := Machine.exists_reach_of_runUnder orderlyRun (M := atomicMachine)
    (C := KeepsLocks) (f := fun s => s.bookings.rows.map fun b => (b.room, b.live))
    (v := [(some 1, false), (some 2, true)]) init_emptyState
    (by decide +kernel)
  exact ⟨s, hs, hv, noDoubleBooking_of_keepsLocks hs⟩

end SyrocePms.Atomic
