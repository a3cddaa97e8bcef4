import SyrocePms.NightAudit.Run
import SyrocePms.Lib.Threads

/-! `start_night_audit`, `resume_night_audit` and `abort_night_audit` for the properties of
one tenant. A call goes on one operation at a time; the reads of one validation and the
reads of one candidate build are an operation each, and so is the transaction of an
item. -/

namespace SyrocePms.NightAudit

open Reservation Lib

variable {s s' : Store} {x : Item} {fault : Fault}

def staleThresholdSeconds : ℕ := 900

/-- The arguments of `start_night_audit`. -/
structure StartCall where
  property : ℕ := 0
  businessDate : Option ℤ := none
  skipValidations : Bool := false
  dryRun : Bool := false
  forceRerun : Bool := false

inductive Thread where
  | start (c : StartCall)
  | insertRun (c : StartCall) (date : ℤ) (first : Bool)
  | supersedeRead (c : StartCall) (date : ℤ)
  | supersede (c : StartCall) (date : ℤ) (old : ℕ)
  | duplicate (c : StartCall) (date : ℤ) (retry : Bool)
  | supersedeDryRun (c : StartCall) (date : ℤ) (old : ℕ) (retry : Bool)
  | mapping (c : StartCall) (run : ℕ) (date : ℤ)
  | validate (c : StartCall) (run : ℕ) (date : ℤ)
  | build (c : StartCall) (run : ℕ) (date : ℤ)
  | insertItems (c : StartCall) (run : ℕ) (date : ℤ) (items : List Item)
  | resume (run : ℕ)
  | resetItems (run : ℕ) (date : ℤ) (blocked : Bool)
  | resumeValidating (run : ℕ) (date : ℤ)
  | resumeValidate (run : ℕ) (date : ℤ)
  | reenter (run : ℕ) (date : ℤ)
  | gate (run : ℕ) (date : ℤ)
  | postCharges (run : ℕ) (date : ℤ)
  | posting (run : ℕ) (date : ℤ) (todo : List Item)
  | reconcile (run : ℕ) (date : ℤ)
  | rollCheck (run : ℕ) (date : ℤ)
  | roll (run : ℕ) (date : ℤ)
  | close (run : ℕ) (status : RunStatus)
  | abort (run : ℕ)
  | abortRun (run : ℕ)
  | abortItems (run : ℕ)
  | returned

inductive Call where
  | start (c : StartCall)
  | resume (run : ℕ)
  | abort (run : ℕ)

def Thread.begin : Call → Thread
  | .start c => .start c
  | .resume run => .resume run
  | .abort run => .abort run

/-- The item whose transaction is next, and what happens to it. -/
structure Outside where
  item : ℕ := 0
  fault : Fault := .none

/-- A run that `force_rerun` may supersede. -/
def RunStatus.over : RunStatus → Bool
  | .running => false
  | _ => true

def newRun (s : Store) (c : StartCall) (date : ℤ) : Run where
  id := s.nextId
  property := some c.property
  businessDate := date
  dryRun := c.dryRun
  heartbeat := s.now

/-- `_handle_duplicate_run` on the run that it reads. -/
def handleDuplicate (s : Store) (c : StartCall) (date : ℤ) (retry : Bool) : Thread :=
  match s.runOf c.property date with
  | none => .returned
  | some r =>
    if r.status = .dryRunCompleted ∨ (r.dryRun = true ∧
        (r.status = .blocked ∨ r.status = .failed ∨ r.status = .partialRecovery)) then
      .supersedeDryRun c date r.id retry
    else if r.status = .running ∧ r.heartbeat + staleThresholdSeconds < s.now then
      .close r.id .partialRecovery
    else .returned

def pipeline (c : StartCall) (run : ℕ) (date : ℤ) : Thread :=
  if c.skipValidations then .mapping c run date else .validate c run date

def insertRunStep (s : Store) (c : StartCall) (date : ℤ) (first : Bool) : Store × Thread :=
  match s.runOf c.property date with
  | none =>
    ({ s with runs := s.runs ++ [newRun s c date], nextId := s.nextId + 1 },
      pipeline c s.nextId date)
  | some _ =>
    if !first then (s, .duplicate c date false)
    else if c.forceRerun then (s, .supersedeRead c date)
    else (s, .duplicate c date true)

/-- Taking a run out of the unique index. -/
def Run.superseded (r : Run) : Run := { r with status := .superseded, property := none }

/-- Where the posting starts after a run is known to be clean of open mappings. -/
def gateStep (s : Store) (run : ℕ) (date : ℤ) : Thread :=
  if s.hotel.mappingBlocked date then .close run .blocked else .postCharges run date

def reconcileStep (s : Store) (run : ℕ) (date : ℤ) : Thread :=
  if s.hasItem run .failed then .close run .partialRecovery
  else if s.hasItem run .pending then .close run .failed
  else .rollCheck run date

/-- `resume_night_audit` on the run that it reads. -/
def resumeStep (s : Store) (run : ℕ) : Thread :=
  match s.findRun run with
  | none => .returned
  | some r =>
    if (r.status = .failed ∨ r.status = .partialRecovery ∨ r.status = .blocked) ∧ r.dryRun = false then
      .resetItems run r.businessDate (r.status == .blocked)
    else .returned

def advance (s : Store) (o : Outside) : Thread → Option (Store × Thread)
  | .start c =>
    let date := c.businessDate.getD s.businessDate
    some (s, if !c.dryRun && decide (s.localToday ≤ date) then .returned
      else .insertRun c date true)
  | .insertRun c date first => some (insertRunStep s c date first)
  | .supersedeRead c date =>
    match s.runOf c.property date with
    | some r => some (s, if r.status.over then .supersede c date r.id else .duplicate c date false)
    | none => some (s, .duplicate c date false)
  | .supersede c date old => some (s.setRun old Run.superseded, .insertRun c date false)
  | .duplicate c date retry => some (s, handleDuplicate s c date retry)
  | .supersedeDryRun c date old retry =>
    some (s.setRun old Run.superseded, if retry then .insertRun c date false else .returned)
  | .mapping c run date =>
    some (s, if s.hotel.mappingBlocked date && !c.dryRun then .close run .blocked
      else .build c run date)
  | .validate c run date =>
    some (s, if s.validationBlocked date && !c.dryRun then .close run .blocked
      else .build c run date)
  | .build c run date =>
    some (s.beat run, .insertItems c run date (buildCandidateSet s.hotel run date))
  | .insertItems c run date items =>
    some ({ s with items := s.items ++ items },
      if c.dryRun then .close run .dryRunCompleted else .gate run date)
  | .resume run => some (s, resumeStep s run)
  | .resetItems run date blocked =>
    some (s.resetFailed run, if blocked then .resumeValidating run date else .reenter run date)
  | .resumeValidating run date =>
    some ((s.setRun run fun r => { r with status := .running }).beat run, .resumeValidate run date)
  | .resumeValidate run date =>
    some (s, if s.validationBlocked date then .close run .blocked else .reenter run date)
  | .reenter run date =>
    some ((s.setRun run fun r => { r with status := .running }).beat run, .gate run date)
  | .gate run date => some (s, gateStep s run date)
  | .postCharges run date => some (s.beat run, .posting run date (s.pendingItems run))
  | .posting run date [] => some (s, .reconcile run date)
  | .posting run date (x :: xs) =>
    -- the transactions run side by side, so any of them may be next
    let next := (x :: xs).getD o.item x
    some (s.postItem next o.fault, .posting run date ((x :: xs).eraseIdx
      (if o.item < (x :: xs).length then o.item else 0)))
  | .reconcile run date => some (s.beat run, reconcileStep s run date)
  | .rollCheck run date =>
    some (s.beat run, if s.hotel.mappingBlocked date then .close run .failed else .roll run date)
  | .roll run date =>
    some ({ s with businessDate := date + 1, rolled := (run, date) :: s.rolled },
      .close run .completed)
  | .close run status => some (s.setRun run fun r => { r with status := status }, .returned)
  | .abort run =>
    match s.findRun run with
    | some r => some (s, if r.status = .completed then .returned else .abortRun run)
    | none => some (s, .returned)
  | .abortRun run =>
    some (s.setRun run fun r => { r with status := .failed }, .abortItems run)
  | .abortItems run => some (s.cancelPending run, .returned)
  | .returned => none

/-- Control when the current operation raises: most stages mark the run as failed. -/
def Thread.raised : Thread → Thread
  | .mapping _ run _ | .validate _ run _ | .build _ run _ | .insertItems _ run _ _ | .gate run _
  | .postCharges run _ | .posting run _ _ | .reconcile run _ | .rollCheck run _ | .roll run _ =>
    .close run .failed
  | _ => .returned

inductive Move where
  | advance (o : Outside)
  | raise
  | crash

def Thread.step (s : Store) (t : Thread) : Move → Option (Store × Thread)
  | .advance o => NightAudit.advance s o t
  | .raise => some (s, t.raised)
  | .crash => some (s, .returned)

/-- What happens beside the calls: the clock goes on, and the front desk changes what it
likes. -/
inductive Env where
  | clock (localToday : ℤ) (seconds : ℕ)
  | frontDesk (h : Hotel)

def Store.env (s : Store) : Env → Store
  | .clock today n => { s with localToday := today, now := s.now + n }
  | .frontDesk h => { s with hotel := h }

/-- The calls of one tenant. A run starts without a night audit of before. -/
def calls : Program Store Thread Env Call Move where
  init s := s.runs = [] ∧ s.items = [] ∧ s.rolled = []
  env s e := some (s.env e)
  call _ c := some (.begin c)
  step _ s t m := t.step s m

def firstDay (h : Hotel) (businessDate localToday : ℤ) : Store where
  hotel := h
  runs := []
  items := []
  businessDate := businessDate
  rolled := []
  localToday := localToday
  now := 0
  nextId := 0

theorem firstDay_init (h : Hotel) (businessDate localToday : ℤ) :
    calls.machine.init ⟨firstDay h businessDate localToday, []⟩ := ⟨⟨rfl, rfl, rfl⟩, rfl⟩

variable {o : Outside} {t t' : Thread}

theorem advance_roll (h : advance s o t = some (s', t')) :
    (s'.businessDate = s.businessDate ∧ s'.rolled = s.rolled) ∨ ∃ run date, t = .roll run date ∧
      s' = { s with businessDate := date + 1, rolled := (run, date) :: s.rolled } := by
  cases t with
  | roll run date =>
    cases h
    exact .inr ⟨run, date, rfl, rfl⟩
  | insertRun c date first =>
    left
    simp only [advance, insertRunStep, Option.some.injEq] at h
    split at h
    · cases h
      exact ⟨rfl, rfl⟩
    · split at h
      · cases h
        exact ⟨rfl, rfl⟩
      · split at h <;> cases h <;> exact ⟨rfl, rfl⟩
  | supersedeRead | abort =>
    simp only [advance] at h
    split at h <;> cases h <;> exact .inl ⟨rfl, rfl⟩
  | posting run date todo =>
    cases todo with
    | nil =>
      cases h
      exact .inl ⟨rfl, rfl⟩
    | cons x xs =>
      cases h
      obtain ⟨-, -, hd, hl⟩ := (s.postItem_outcome ((x :: xs).getD o.item x) o.fault).frame
      exact .inl ⟨hd, hl⟩
  | returned => cases h
  | _ =>
    cases h
    exact .inl ⟨rfl, rfl⟩

def Store.commits (s : Store) (x : Item) : Fault → Bool
  | .none | .unanswered => s.isPending x && (s.transact x).isSome
  | .aborted | .unmarked => false

def postedItem (s : Store) (o : Outside) : Thread → Option Item
  | .posting _ _ (x :: xs) =>
    let next := (x :: xs).getD o.item x
    if s.commits next o.fault then some next else none
  | _ => none

theorem Store.postItem_hotel (h : s.commits x fault = false) :
    (s.postItem x fault).hotel = s.hotel := by
  unfold postItem
  cases fault with
  | aborted => rfl
  | unmarked => rfl
  | none | unanswered =>
    dsimp only
    split
    · rename_i hp
      have hrefused : s.transact x = none := by simpa [commits, hp] using h
      rw [hrefused]
      dsimp only
      split <;> rfl
    · rfl

theorem Store.postItem_posted (h : s.commits x fault = true) :
    Posted s.hotel x (s.postItem x fault).hotel := by
  have hrun (hc : (s.isPending x && (s.transact x).isSome) = true) :
      s.isPending x = true ∧ ∃ s', s.transact x = some s' ∧ Posted s.hotel x s'.hotel := by
    simp only [Bool.and_eq_true, Option.isSome_iff_exists] at hc
    obtain ⟨hp, s', hs'⟩ := hc
    obtain ⟨h', hposted, rfl⟩ := transact_posted hs'
    exact ⟨hp, _, hs', hposted⟩
  unfold postItem
  cases fault with
  | aborted => cases h
  | unmarked => cases h
  | none | unanswered =>
    obtain ⟨hp, s', hs', hposted⟩ := hrun h
    simp only [hp, hs', if_true, reduceCtorEq, if_false]
    exact hposted

theorem advance_posted (h : advance s o t = some (s', t')) (hx : postedItem s o t = some x) :
    Posted s.hotel x s'.hotel := by
  cases t with
  | posting run date todo =>
    cases todo with
    | nil => cases hx
    | cons y ys =>
      cases h
      simp only [postedItem] at hx
      split at hx
      · rename_i hc
        cases hx
        exact Store.postItem_posted hc
      · cases hx
  | _ => cases hx

theorem advance_hotel (h : advance s o t = some (s', t')) (hn : postedItem s o t = none) :
    s'.hotel = s.hotel := by
  cases t with
  | posting run date todo =>
    cases todo with
    | nil =>
      cases h
      rfl
    | cons x xs =>
      cases h
      simp only [postedItem, ite_eq_right_iff, reduceCtorEq, imp_false, Bool.not_eq_true] at hn
      exact Store.postItem_hotel hn
  | insertRun c date first =>
    simp only [advance, insertRunStep, Option.some.injEq] at h
    split at h
    · cases h
      rfl
    · split at h
      · cases h
        rfl
      · split at h <;> cases h <;> rfl
  | supersedeRead | abort =>
    simp only [advance] at h
    split at h <;> cases h <;> rfl
  | returned => cases h
  | _ =>
    cases h
    rfl

theorem next_roll {p p' : Pool Store Thread} {a : Act Env Call Move}
    (h : calls.machine.step p a = some p') :
    (p'.store.businessDate = p.store.businessDate ∧ p'.store.rolled = p.store.rolled) ∨
      ∃ k o run date, a = .step k (.advance o) ∧ p.threads[k]? = some (.roll run date) ∧ p'.store =
        { p.store with businessDate := date + 1, rolled := (run, date) :: p.store.rolled } := by
  cases a with
  | env e =>
    have he : p.store.env e = p'.store := Option.some.inj (Program.next_env h).1
    left
    rw [← he]
    cases e <;> exact ⟨rfl, rfl⟩
  | call c =>
    obtain ⟨t, -, hst, -⟩ := Program.next_call h
    exact .inl ⟨by rw [hst], by rw [hst]⟩
  | step k m =>
    obtain ⟨t, t', ht, hstep, -⟩ := Program.next_step h
    cases m with
    | raise | crash =>
      have hst : p'.store = p.store := (congrArg Prod.fst (Option.some.inj hstep)).symm
      exact .inl ⟨by rw [hst], by rw [hst]⟩
    | advance o =>
      obtain hsame | ⟨run, date, rfl, hst⟩ := advance_roll hstep
      · exact .inl hsame
      · exact .inr ⟨k, o, run, date, rfl, ht, hst⟩

end SyrocePms.NightAudit
