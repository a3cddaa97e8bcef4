import SyrocePms.NightAudit.Calls

/-! The business date goes on day by day. The roll writes the day after the date of its
run, whatever the open date is, so the order is kept by what lets a run get there: it is
created or resumed for the open date, and no other run is carried out when it rolls. -/

namespace SyrocePms.NightAudit

open Reservation Lib List

variable {s s' : Store} {run : ℕ} {date : ℤ} {f : Run → Run} {r : Run} {t t' : Thread}

def Thread.executes : Thread → Bool
  | .mapping c _ _ | .validate c _ _ | .build c _ _ | .insertItems c _ _ _ => !c.dryRun
  | .gate _ _ | .postCharges _ _ | .posting _ _ _ | .reconcile _ _ | .rollCheck _ _ | .roll _ _ => true
  | _ => false

def OpenDate (s : Store) : Thread → Prop
  | .insertRun c date _ => c.dryRun = false → s.runOf c.property date = none → date = s.businessDate
  | .reenter _ date => date = s.businessDate
  | _ => True

instance (s : Store) (t : Thread) : Decidable (OpenDate s t) := by
  rcases t with _ | _ <;> unfold OpenDate <;> infer_instance

def RollsAlone (ts : List Thread) (k : ℕ) : Thread → Prop
  | .roll _ _ => ∀ j < ts.length, j ≠ k → ∀ u ∈ ts[j]?, u.executes = false
  | _ => True

instance (ts : List Thread) (k : ℕ) (t : Thread) : Decidable (RollsAlone ts k t) := by
  rcases t with _ | _ <;> unfold RollsAlone <;> infer_instance

def InDateOrder (p : Pool Store Thread) : Act Env Call Move → Prop
  | .step k (.advance _) => ∀ t ∈ p.threads[k]?, OpenDate p.store t ∧ RollsAlone p.threads k t
  | _ => True

instance (p : Pool Store Thread) (a : Act Env Call Move) : Decidable (InDateOrder p a) := by
  rcases a with _ | _ | ⟨_, _ | _⟩ <;> unfold InDateOrder <;> infer_instance

/-! ### The runs -/

/-- What a call keeps of the runs: ids are not used again, a run keeps its date, and the
log only grows. -/
structure Moves (s s' : Store) : Prop where
  nextId : s.nextId ≤ s'.nextId
  runs : ∀ r' ∈ s'.runs, s.nextId ≤ r'.id ∨
    ∃ r ∈ s.runs, r.id = r'.id ∧ r.businessDate = r'.businessDate
  rolled : ∀ x ∈ s.rolled, x ∈ s'.rolled

def RunFor (s : Store) (run : ℕ) (date : ℤ) : Prop :=
  run < s.nextId ∧ ∀ r ∈ s.runs, r.id = run → r.businessDate = date

def Logged (s : Store) (run : ℕ) : Prop :=
  run < s.nextId ∧ ∀ r ∈ s.runs, r.id = run → (run, r.businessDate) ∈ s.rolled

theorem RunFor.moves (h : RunFor s run date) (hm : Moves s s') : RunFor s' run date := by
  have hlt := h.1
  have hle := hm.nextId
  refine ⟨by omega, fun r' hr' hid => ?_⟩
  obtain hge | ⟨r, hr, hrid, hdate⟩ := hm.runs r' hr'
  · omega
  · rw [← hdate]
    exact h.2 r hr (by omega)

theorem Logged.moves (h : Logged s run) (hm : Moves s s') : Logged s' run := by
  have hlt := h.1
  have hle := hm.nextId
  refine ⟨by omega, fun r' hr' hid => ?_⟩
  obtain hge | ⟨r, hr, hrid, hdate⟩ := hm.runs r' hr'
  · omega
  · rw [← hdate]
    exact hm.rolled _ (h.2 r hr (by omega))

theorem Moves.of_eq (hn : s'.nextId = s.nextId) (hr : s'.runs = s.runs)
    (hl : ∀ x ∈ s.rolled, x ∈ s'.rolled) : Moves s s' where
  nextId := by omega
  runs r' hr' := .inr ⟨r', hr ▸ hr', rfl, rfl⟩
  rolled := hl

theorem Moves.trans {t : Store} (h : Moves s s') (h' : Moves s' t) : Moves s t where
  nextId := Nat.le_trans h.nextId h'.nextId
  runs r' hr' := by
    have hle := h.nextId
    obtain hge | ⟨r, hr, hid, hdate⟩ := h'.runs r' hr'
    · exact .inl (by omega)
    · obtain hge | ⟨x, hx, hxid, hxdate⟩ := h.runs r hr
      · exact .inl (by omega)
      · exact .inr ⟨x, hx, hxid.trans hid, hxdate.trans hdate⟩
  rolled x hx := h'.rolled x (h.rolled x hx)

theorem mem_setRun :
    r ∈ (s.setRun run f).runs ↔ ∃ x ∈ s.runs, (if x.id = run then f x else x) = r := by
  simp [Store.setRun]

/-- The days that are closed, and the runs that are completed. -/
structure DaysClosed (s : Store) : Prop where
  fresh : ∀ r ∈ s.runs, r.id < s.nextId
  date : ∀ r ∈ s.runs, ∀ x ∈ s.runs, r.id = x.id → r.businessDate = x.businessDate
  days : (s.businessDate :: s.rolled.map Prod.snd).IsChain fun later earlier => later = earlier + 1
  completed : ∀ r ∈ s.runs, r.status = .completed → (r.id, r.businessDate) ∈ s.rolled

structure RunUpdate (s : Store) (run : ℕ) (f : Run → Run) : Prop where
  id : ∀ r, (f r).id = r.id
  date : ∀ r, (f r).businessDate = r.businessDate
  completed : ∀ r ∈ s.runs, r.id = run → (f r).status = .completed →
    r.status = .completed ∨ (run, r.businessDate) ∈ s.rolled

theorem RunUpdate.key (h : RunUpdate s run f) (r : Run) :
    (if r.id = run then f r else r).id = r.id ∧
      (if r.id = run then f r else r).businessDate = r.businessDate := by
  split
  · exact ⟨h.id r, h.date r⟩
  · exact ⟨rfl, rfl⟩

theorem Moves.setRun (h : RunUpdate s run f) : Moves s (s.setRun run f) where
  nextId := Nat.le_refl _
  runs r' hr' := by
    obtain ⟨x, hx, rfl⟩ := mem_setRun.mp hr'
    obtain ⟨hid, hdate⟩ := h.key x
    exact .inr ⟨x, hx, hid.symm, hdate.symm⟩
  rolled _ hx := hx

theorem DaysClosed.setRun (hs : DaysClosed s) (h : RunUpdate s run f) :
    DaysClosed (s.setRun run f) where
  fresh r' hr' := by
    obtain ⟨x, hx, rfl⟩ := mem_setRun.mp hr'
    rw [(h.key x).1]
    exact hs.fresh x hx
  date r' hr' y' hy' hid := by
    obtain ⟨x, hx, rfl⟩ := mem_setRun.mp hr'
    obtain ⟨y, hy, rfl⟩ := mem_setRun.mp hy'
    rw [(h.key x).1, (h.key y).1] at hid
    rw [(h.key x).2, (h.key y).2]
    exact hs.date x hx y hy hid
  days := hs.days
  completed r' hr' hst := by
    obtain ⟨x, hx, rfl⟩ := mem_setRun.mp hr'
    obtain ⟨hid, hdate⟩ := h.key x
    rw [hid, hdate]
    split at hst
    · rename_i hrun
      obtain hc | hlog := h.completed x hx hrun hst
      · exact hs.completed x hx hc
      · exact hrun ▸ hlog
    · exact hs.completed x hx hst

theorem RunUpdate.status {status : RunStatus} (hst : status ≠ .completed) :
    RunUpdate s run fun r => { r with status := status } where
  id _ := rfl
  date _ := rfl
  completed _ _ _ h := absurd h hst

theorem RunUpdate.superseded : RunUpdate s run Run.superseded where
  id _ := rfl
  date _ := rfl
  completed _ _ _ h := nomatch h

theorem RunUpdate.beat : RunUpdate s run fun r => { r with heartbeat := s.now } where
  id _ := rfl
  date _ := rfl
  completed _ _ _ h := .inl h

theorem DaysClosed.runFor (hs : DaysClosed s) (h : s.findRun run = some r) :
    RunFor s run r.businessDate := by
  have hr := mem_of_find?_eq_some h
  have hid : r.id = run := by simpa using find?_some h
  exact ⟨hid ▸ hs.fresh r hr, fun x hx hx' => hs.date x hx r hr (by omega)⟩

theorem DaysClosed.newRun (hs : DaysClosed s) (c : StartCall) (date : ℤ) : let s' := { s with runs := s.runs ++ [newRun s c date], nextId := s.nextId + 1 }
    DaysClosed s' ∧ Moves s s' ∧ RunFor s' s.nextId date := by
  have hmem (r : Run) : r ∈ s.runs ++ [NightAudit.newRun s c date] ↔
      r ∈ s.runs ∨ r = NightAudit.newRun s c date := by simp
  refine ⟨⟨fun r hr => ?_, fun r hr x hx hid => ?_, hs.days, fun r hr hst => ?_⟩,
    ⟨Nat.le_succ _, fun r hr => ?_, fun _ h => h⟩, Nat.lt_succ_self _, fun r hr hid => ?_⟩
  · obtain hr | rfl := (hmem r).mp hr
    · exact Nat.lt_succ_of_lt (hs.fresh r hr)
    · exact Nat.lt_succ_self _
  · obtain hr | rfl := (hmem r).mp hr <;> obtain hx | rfl := (hmem x).mp hx
    · exact hs.date r hr x hx hid
    · exact absurd hid (Nat.ne_of_lt (hs.fresh r hr))
    · exact absurd hid.symm (Nat.ne_of_lt (hs.fresh x hx))
    · rfl
  · obtain hr | rfl := (hmem r).mp hr
    · exact hs.completed r hr hst
    · cases hst
  · obtain hr | rfl := (hmem r).mp hr
    · exact .inr ⟨r, hr, rfl, rfl⟩
    · exact .inl (Nat.le_refl _)
  · obtain hr | rfl := (hmem r).mp hr
    · exact absurd hid (Nat.ne_of_lt (hs.fresh r hr))
    · rfl

/-! ### The calls -/

def InHand (s : Store) (_ : ℕ) : Thread → Prop
  | .mapping c run date | .validate c run date | .build c run date | .insertItems c run date _ =>
    RunFor s run date ∧ (c.dryRun = false → date = s.businessDate)
  | .resetItems run date _ | .resumeValidating run date | .resumeValidate run date
  | .reenter run date => RunFor s run date
  | .gate run date | .postCharges run date | .posting run date _ | .reconcile run date
  | .rollCheck run date | .roll run date => RunFor s run date ∧ date = s.businessDate
  | .close run status => status = .completed → Logged s run
  | _ => True

/-- What a call knows outlives the operations of the others, as long as the date stays. -/
theorem InHand.moves {k : ℕ} (h : InHand s k t) (hm : Moves s s')
    (hd : t.executes = true → s'.businessDate = s.businessDate) : InHand s' k t := by
  cases t with
  | mapping c run date | validate c run date | build c run date | insertItems c run date items =>
    refine ⟨h.1.moves hm, fun hdry => ?_⟩
    rw [hd (by simp [Thread.executes, hdry])]
    exact h.2 hdry
  | resetItems run date b | resumeValidating run date | resumeValidate run date | reenter run date =>
    exact RunFor.moves h hm
  | gate run date | postCharges run date | posting run date todo | reconcile run date
  | rollCheck run date | roll run date =>
    refine ⟨h.1.moves hm, ?_⟩
    rw [hd rfl]
    exact h.2
  | close run status => exact fun hst => (h hst).moves hm
  | _ => trivial

/-- What one operation does to the days and the runs. -/
structure KeepsDays (s s' : Store) (t' : Thread) : Prop where
  closed : DaysClosed s'
  inHand : InHand s' 0 t'
  moves : Moves s s'

theorem KeepsDays.control (hs : DaysClosed s) (hn : s'.nextId = s.nextId) (hr : s'.runs = s.runs)
    (hd : s'.businessDate = s.businessDate) (hl : s'.rolled = s.rolled) (ht : InHand s' 0 t') :
    KeepsDays s s' t' where
  closed := by
    obtain ⟨hf, hdate, hdays, hc⟩ := hs
    exact ⟨hr ▸ hn ▸ hf, hr ▸ hdate, hd ▸ hl ▸ hdays, hr ▸ hl ▸ hc⟩
  inHand := ht
  moves := .of_eq hn hr (hl ▸ fun _ h => h)

theorem KeepsDays.quiet (hs : DaysClosed s) (ht : InHand s 0 t') : KeepsDays s s t' :=
  .control hs rfl rfl rfl rfl ht

/-- The run is written, and the call goes on with what it knows. -/
theorem KeepsDays.setRun (hs : DaysClosed s) (h : RunUpdate s run f) (ht : InHand s 0 t') :
    KeepsDays s (s.setRun run f) t' where
  closed := hs.setRun h
  inHand := ht.moves (.setRun h) fun _ => rfl
  moves := .setRun h

theorem KeepsDays.beat (run : ℕ) (hs : DaysClosed s) (ht : InHand s 0 t') :
    KeepsDays s (s.beat run) t' :=
  .setRun hs .beat ht

theorem KeepsDays.running (hs : DaysClosed s) (ht : InHand s 0 t') :
    KeepsDays s ((s.setRun run fun r => { r with status := .running }).beat run) t' := by
  have hset : KeepsDays s (s.setRun run fun r => { r with status := .running }) t' :=
    .setRun hs (.status (by simp)) ht
  have hbeat := KeepsDays.beat run hset.closed hset.inHand
  exact ⟨hbeat.closed, hbeat.inHand, hset.moves.trans hbeat.moves⟩

theorem inHand_close {status : RunStatus} (h : status ≠ .completed) :
    InHand s 0 (.close run status) := fun hst => absurd hst h

theorem handleDuplicate_inHand (s : Store) (c : StartCall) (date : ℤ) (retry : Bool) :
    InHand s 0 (handleDuplicate s c date retry) := by
  unfold handleDuplicate
  split
  · trivial
  · split
    · trivial
    · split
      · exact inHand_close (by simp)
      · trivial

theorem resumeStep_inHand (hs : DaysClosed s) (run : ℕ) : InHand s 0 (resumeStep s run) := by
  unfold resumeStep
  split
  · trivial
  · rename_i r hr
    split
    · exact hs.runFor hr
    · trivial

theorem advance_keepsDays {o : Outside} (hs : DaysClosed s) (ht : InHand s 0 t) (hc : OpenDate s t)
    (h : advance s o t = some (s', t')) : (∃ run date, t = .roll run date) ∨ KeepsDays s s' t' := by
  cases t with
  | roll run date => exact .inl ⟨run, date, rfl⟩
  | returned => cases h
  | start c =>
    cases h
    refine .inr (.quiet hs ?_)
    split <;> trivial
  | insertRun c date first =>
    right
    cases hr : s.runOf c.property date with
    | none =>
      simp only [advance, insertRunStep, hr] at h
      cases h
      obtain ⟨hcl, hm, hrun⟩ := hs.newRun c date
      refine ⟨hcl, ?_, hm⟩
      unfold pipeline
      split <;> exact ⟨hrun, fun hdry => hc hdry hr⟩
    | some r =>
      simp only [advance, insertRunStep, hr, Option.some.injEq] at h
      split at h
      · cases h
        exact .quiet hs trivial
      · split at h <;> cases h <;> exact .quiet hs trivial
  | supersedeRead c date =>
    right
    simp only [advance] at h
    split at h <;> cases h
    · refine .quiet hs ?_
      split <;> trivial
    · exact .quiet hs trivial
  | supersede c date old =>
    cases h
    exact .inr (.setRun hs .superseded trivial)
  | duplicate c date retry =>
    cases h
    exact .inr (.quiet hs (handleDuplicate_inHand s c date retry))
  | supersedeDryRun c date old retry =>
    cases h
    refine .inr (.setRun hs .superseded ?_)
    split <;> trivial
  | mapping c run date | validate c run date =>
    cases h
    refine .inr (.quiet hs ?_)
    split
    · exact inHand_close (by simp)
    · exact ht
  | build c run date =>
    cases h
    exact .inr (.beat run hs ht)
  | insertItems c run date items =>
    cases h
    refine .inr (.control hs rfl rfl rfl rfl ?_)
    split
    · exact inHand_close (by simp)
    · rename_i hdry
      exact ⟨ht.1, ht.2 (by simpa using hdry)⟩
  | resume run =>
    cases h
    exact .inr (.quiet hs (resumeStep_inHand hs run))
  | resetItems run date blocked =>
    cases h
    refine .inr (.control hs rfl rfl rfl rfl ?_)
    split <;> exact ht
  | resumeValidating run date =>
    cases h
    exact .inr (.running hs ht)
  | resumeValidate run date =>
    cases h
    refine .inr (.quiet hs ?_)
    split
    · exact inHand_close (by simp)
    · exact ht
  | reenter run date =>
    cases h
    exact .inr (.running hs ⟨ht, hc⟩)
  | gate run date =>
    cases h
    refine .inr (.quiet hs ?_)
    unfold gateStep
    split
    · exact inHand_close (by simp)
    · exact ht
  | postCharges run date =>
    cases h
    exact .inr (.beat run hs ht)
  | posting run date todo =>
    right
    cases todo with
    | nil =>
      cases h
      exact .quiet hs ht
    | cons x xs =>
      cases h
      obtain ⟨hn, hr, hd, hl⟩ := (s.postItem_outcome ((x :: xs).getD o.item x) o.fault).frame
      have hm : Moves s _ := .of_eq hn hr fun _ h => hl ▸ h
      exact .control hs hn hr hd hl ⟨ht.1.moves hm, ht.2.trans hd.symm⟩
  | reconcile run date =>
    cases h
    refine .inr (.beat run hs ?_)
    unfold reconcileStep
    split
    · exact inHand_close (by simp)
    · split
      · exact inHand_close (by simp)
      · exact ht
  | rollCheck run date =>
    cases h
    refine .inr (.beat run hs ?_)
    split
    · exact inHand_close (by simp)
    · exact ht
  | close run status =>
    cases h
    refine .inr (.setRun hs ⟨fun _ => rfl, fun _ => rfl, fun r hr hid hst => ?_⟩ trivial)
    exact .inr ((ht hst).2 r hr hid)
  | abort run =>
    right
    simp only [advance] at h
    split at h <;> cases h
    · refine .quiet hs ?_
      split <;> trivial
    · exact .quiet hs trivial
  | abortRun run =>
    cases h
    exact .inr (.setRun hs (.status (by simp)) trivial)
  | abortItems run =>
    cases h
    exact .inr (.control hs rfl rfl rfl rfl trivial)

theorem roll_keepsDays (hs : DaysClosed s) (ht : InHand s 0 (.roll run date)) : let s' := { s with businessDate := date + 1, rolled := (run, date) :: s.rolled }
    DaysClosed s' ∧ InHand s' 0 (.close run .completed) ∧ Moves s s' := by
  obtain ⟨hrun, rfl⟩ := ht
  have hlog (x : ℕ × ℤ) (hx : x ∈ s.rolled) : x ∈ (run, s.businessDate) :: s.rolled :=
    mem_cons_of_mem _ hx
  refine ⟨⟨hs.fresh, hs.date, ?_, fun r hr hst => hlog _ (hs.completed r hr hst)⟩,
    fun _ => ⟨hrun.1, fun r hr hid => ?_⟩, .of_eq rfl rfl hlog⟩
  · exact isChain_cons_cons.mpr ⟨rfl, hs.days⟩
  · rw [hrun.2 r hr hid]
    exact mem_cons_self

theorem raised_inHand (s : Store) (t : Thread) : InHand s 0 t.raised := by
  cases t <;> first | trivial | exact inHand_close (by simp)

theorem env_keepsDays {e : Env} (hs : DaysClosed s) (ht : InHand s 0 t) :
    KeepsDays s (s.env e) t := by
  have hm : Moves s (s.env e) := by cases e <;> exact .of_eq rfl rfl fun _ h => h
  have hd : (s.env e).businessDate = s.businessDate := by cases e <;> rfl
  cases e <;> exact .control hs rfl rfl rfl rfl (ht.moves hm fun _ => hd)

theorem preserves_days : calls.Preserves InDateOrder DaysClosed InHand fun _ _ => True where
  symm _ _ _ := trivial
  init s h := by
    obtain ⟨hr, -, hl⟩ := h
    refine ⟨?_, ?_, ?_, ?_⟩ <;> simp [hr, hl]
  env p e s' hi _ h := by
    cases h
    exact ⟨(env_keepsDays (t := .returned) hi.store trivial).closed,
      fun k t ht => (env_keepsDays hi.store (hi.thread k t ht)).inHand⟩
  call p c t _ _ h := by
    cases h
    exact ⟨by cases c <;> trivial, fun _ _ => trivial⟩
  step p k m t s' t' hi hc ht h := by
    have hs := hi.store
    have hok := hi.thread k t ht
    cases m with
    | raise =>
      cases h
      exact ⟨hs, raised_inHand _ t, fun j u _ hu => ⟨hi.thread j u hu, trivial⟩⟩
    | crash =>
      cases h
      exact ⟨hs, trivial, fun j u _ hu => ⟨hi.thread j u hu, trivial⟩⟩
    | advance o =>
      obtain ⟨hopen, halone⟩ := hc t ht
      have hdate (j : ℕ) (u : Thread) (hjk : j ≠ k) (hu : p.threads[j]? = some u)
          (hex : u.executes = true) : s'.businessDate = p.store.businessDate := by
        obtain ⟨hd, -⟩ | ⟨run, date, rfl, -⟩ := advance_roll h
        · exact hd
        · rw [halone j (List.getElem?_eq_some_iff.mp hu).1 hjk u hu] at hex
          cases hex
      obtain ⟨run, date, rfl⟩ | hk := advance_keepsDays hs hok hopen h
      · cases h
        obtain ⟨hcl, hin, hm⟩ := roll_keepsDays hs hok
        exact ⟨hcl, hin, fun j u hjk hu => ⟨(hi.thread j u hu).moves hm (hdate j u hjk hu), trivial⟩⟩
      · exact ⟨hk.closed, hk.inHand, fun j u hjk hu =>
          ⟨(hi.thread j u hu).moves hk.moves (hdate j u hjk hu), trivial⟩⟩

/-- The date stays, or a run rolls it from its own date to the day after. -/
def RollsByOne (s s' : Store) : Prop :=
  (s'.businessDate = s.businessDate ∧ s'.rolled = s.rolled) ∨
    ∃ run, s'.rolled = (run, s.businessDate) :: s.rolled ∧ s'.businessDate = s.businessDate + 1

theorem next_rollsByOne {p p' : Pool Store Thread} {a : Act Env Call Move}
    (hi : Program.Inv DaysClosed InHand (fun _ _ => True) p)
    (h : calls.machine.step p a = some p') : RollsByOne p.store p'.store := by
  cases next_roll h with
  | inl hsame => exact .inl hsame
  | inr hroll =>
    obtain ⟨k, o, run, date, -, ht, hst⟩ := hroll
    obtain ⟨-, rfl⟩ := hi.thread k _ ht
    exact .inr ⟨run, by rw [hst], by rw [hst]⟩

/-- When runs are created and resumed for the open date and roll alone, each step leaves
the business date or rolls it by one day, the days in the log follow each other up to the
open one, and each completed run is in the log under its date. -/
theorem business_date_in_order {p : Pool Store Thread} (h : calls.machine.Reach InDateOrder p) :
    (∀ a p', InDateOrder p a → calls.machine.step p a = some p' → RollsByOne p.store p'.store) ∧
      ((p.store.businessDate :: p.store.rolled.map Prod.snd).IsChain
        fun later earlier => later = earlier + 1) ∧
      ∀ r ∈ p.store.runs, r.status = .completed → (r.id, r.businessDate) ∈ p.store.rolled := by
  have hi := preserves_days.reach h
  exact ⟨fun a p' _ hs => next_rollsByOne hi hs, hi.store.days, hi.store.completed⟩

def emptyHotel : Hotel := { bookings := [] }

def startRun (c : StartCall) (k operations : ℕ) : List (Act Env Call Move) :=
  .call (.start c) :: List.replicate operations (.step k (.advance {}))

/-- Two days are closed one after the other. -/
theorem business_date_in_order_twoDays : ∃ p, calls.machine.Reach InDateOrder p ∧
    (p.store.businessDate, p.store.rolled) = (12, [(1, 11), (0, 10)]) ∧
    ∀ r ∈ p.store.runs, r.status = .completed → (r.id, r.businessDate) ∈ p.store.rolled := by
  obtain ⟨p, hp, hv⟩ := Machine.exists_reach_of_runUnder (C := InDateOrder)
    (f := fun p : Pool Store Thread => (p.store.businessDate, p.store.rolled))
    (v := (12, [(1, 11), (0, 10)])) (startRun {} 0 12 ++ startRun {} 1 12)
    (firstDay_init emptyHotel 10 40) (by decide +kernel)
  exact ⟨p, hp, hv, (business_date_in_order hp).2.2⟩

/-- Two days are closed, and a rerun of the first one takes the date back; and a start for
a later day leaves days out. -/
theorem business_date_out_of_order :
    (∃ p p', calls.machine.Reachable p ∧ calls.machine.Path (fun _ _ => True) p p' ∧
      (p.store.businessDate, p.store.rolled) = (12, [(1, 11), (0, 10)]) ∧
      (p'.store.businessDate, p'.store.rolled) = (11, [(2, 10), (1, 11), (0, 10)])) ∧
    ∃ p p', calls.machine.Reachable p ∧ calls.machine.Path (fun _ _ => True) p p' ∧
      (p.store.businessDate, p.store.rolled) = (10, []) ∧
      (p'.store.businessDate, p'.store.rolled) = (21, [(0, 20)]) :=
  ⟨Machine.exists_path_of_runUnder (startRun {} 0 12 ++ startRun {} 1 12)
      (startRun { businessDate := some 10, forceRerun := true } 2 15)
      (firstDay_init emptyHotel 10 40) (by decide +kernel) (by decide +kernel),
    Machine.exists_path_of_runUnder [] (startRun { businessDate := some 20 } 0 12)
      (firstDay_init emptyHotel 10 40) (by decide +kernel) (by decide +kernel)⟩

end SyrocePms.NightAudit
