import SyrocePms.NightAudit.Coverage

/-! A day is closed when it is charged. The reconciliation looks at the items of the run
and not at the bookings, so what a roll relies on is that the items of its run cover the
bookings: the build has to take them all in, a resume has to find them covered, and
nothing may take them out before the roll. -/

namespace SyrocePms.NightAudit

open Reservation Lib List

variable {t t' u : Thread} {s s' : Store} {k run : ℕ} {cut own : Option ℕ} {items : List Item}
  {date : ℤ}

namespace Thread

def owns : Thread → Option ℕ
  | .mapping _ run _ | .validate _ run _ | .build _ run _ | .insertItems _ run _ _ => some run
  | _ => none

def posts : Thread → Option ℕ
  | .gate run _ | .postCharges run _ | .posting run _ _ | .reconcile run _ => some run
  | _ => none

def closes : Thread → Option ℤ
  | .insertItems c _ date _ => if c.dryRun then none else some date
  | .gate _ date | .postCharges _ date | .posting _ date _ | .reconcile _ date
  | .rollCheck _ date | .roll _ date => some date
  | _ => none

end Thread

def CoversOwing (s : Store) : Thread → Prop
  | .build c _ date => c.dryRun = false → Billable s.hotel date
  | .reenter run date => Covers s.items run date (s.hotel.owing date)
  | .roll _ date => date ≤ s.businessDate
  | _ => True

instance (s : Store) (t : Thread) : Decidable (CoversOwing s t) := by
  unfold CoversOwing
  split <;> infer_instance

def CancelsIdle (ts : List Thread) : Thread → Prop
  | .abortItems run => ∀ u ∈ ts, u.posts ≠ some run
  | _ => True

instance (ts : List Thread) (t : Thread) : Decidable (CancelsIdle ts t) := by
  unfold CancelsIdle
  split <;> infer_instance

def ChargesAll (p : Pool Store Thread) : Act Env Call Move → Prop
  | .env (.frontDesk h) => ∀ t ∈ p.threads, ∀ date ∈ t.closes, ∀ id ∈ h.owing date,
    id ∈ p.store.hotel.owing date
  | .step k (.advance _) => ∀ t ∈ p.threads[k]?, CoversOwing p.store t ∧ CancelsIdle p.threads t
  | _ => True

instance (p : Pool Store Thread) (a : Act Env Call Move) : Decidable (ChargesAll p a) := by
  unfold ChargesAll
  split <;> infer_instance

/-! ### The calls -/

def Fresh (s : Store) (run : ℕ) : Prop := run < s.nextId ∧ ∀ x ∈ s.items, x.run ≠ run

def NewItems (run : ℕ) (items : List Item) : Prop := (∀ x ∈ items, x.run = run) ∧ Rows items

def Knows (s : Store) (_ : ℕ) : Thread → Prop
  | .mapping _ run _ | .validate _ run _ | .build _ run _ => Fresh s run
  | .insertItems c run date items => Fresh s run ∧ NewItems run items ∧
    (c.dryRun = false → Covers items run date (s.hotel.owing date))
  | .gate run date | .postCharges run date | .reconcile run date =>
    Covers s.items run date (s.hotel.owing date)
  | .posting run date todo => Covers s.items run date (s.hotel.owing date) ∧
    ∀ x ∈ todo, ∃ z ∈ s.items, z.row = x.row
  | .rollCheck _ date | .roll _ date => s.hotel.owing date = []
  | _ => True

def Numbered (s : Store) : Prop := Rows s.items ∧ ∀ x ∈ s.items, x.run < s.nextId

/-- Two calls insert the items of different runs. -/
def OwnApart (t u : Thread) : Prop := ∀ run, t.owns = some run → u.owns ≠ some run

theorem OwnApart.of_none (h : t.owns = none) : OwnApart t u := fun run hr => by
  rw [h] at hr
  cases hr

theorem OwnApart.of_eq (h : OwnApart t u) (he : t'.owns = t.owns) : OwnApart t' u := fun run hr => h run (he ▸ hr)

theorem Fresh.of_owns (h : Knows s k t) (ho : t.owns = some run) : Fresh s run := by
  cases t with
  | mapping | validate | build =>
    cases ho
    exact h
  | insertItems =>
    cases ho
    exact h.1
  | _ => cases ho

theorem Fresh.keeps (h : Fresh s run) (hk : Keeps own cut s s') (ho : own ≠ some run) :
    Fresh s' run := by
  refine ⟨Nat.lt_of_lt_of_le h.1 hk.nextId, fun y hy hrun => ?_⟩
  obtain he | ⟨x, hx, hrow⟩ := hk.added y hy
  · exact ho (hrun ▸ he)
  · exact h.2 x hx ((Item.row_eq hrow).1.trans hrun)

theorem Covers.of_owing {l l' : List ℕ} (h : Covers items run date l) (hl : ∀ id ∈ l', id ∈ l) :
    Covers items run date l' :=
  fun id hid => h id (hl id hid)

theorem owing_nil_of (h : s.hotel.owing date = [])
    (hl : ∀ id ∈ s'.hotel.owing date, id ∈ s.hotel.owing date) : s'.hotel.owing date = [] := by
  rw [eq_nil_iff_forall_not_mem]
  intro id hid
  have hmem := hl id hid
  rw [h] at hmem
  cases hmem

/-- What a call knows outlives the operations of the others. -/
theorem Knows.keeps (h : Knows s k t) (hk : Keeps own cut s s')
    (hown : ∀ run, own = some run → t.owns ≠ some run)
    (hcut : ∀ run, cut = some run → t.posts ≠ some run) : Knows s' k t := by
  have hfresh {run : ℕ} (hf : Fresh s run) (ho : t.owns = some run) : Fresh s' run :=
    hf.keeps hk fun he => hown run he ho
  have hcovers {run : ℕ} {date : ℤ} (hc : Covers s.items run date (s.hotel.owing date))
      (hp : t.posts = some run) : Covers s'.items run date (s'.hotel.owing date) :=
    hc.keeps hk fun he => hcut run he hp
  cases t with
  | mapping c run date | validate c run date | build c run date => exact hfresh h rfl
  | insertItems c run date items =>
    exact ⟨hfresh h.1 rfl, h.2.1, fun hdry => (h.2.2 hdry).of_owing (hk.owing date)⟩
  | gate run date | postCharges run date | reconcile run date => exact hcovers h rfl
  | posting run date todo =>
    refine ⟨hcovers h.1 rfl, fun x hx => ?_⟩
    obtain ⟨z, hz, hrow⟩ := h.2 x hx
    obtain ⟨y, hy, hyrow⟩ := hk.rows z hz
    exact ⟨y, hy, hyrow.trans hrow⟩
  | rollCheck run date | roll run date => exact owing_nil_of h (hk.owing date)
  | _ => trivial

def Thread.adds : Thread → Option ℕ
  | .insertItems _ run _ _ => some run
  | _ => none

def Thread.cuts : Thread → Option ℕ
  | .abortItems run => some run
  | _ => none

/-- What one operation of a call does. -/
structure Advances (s s' : Store) (t t' : Thread) : Prop where
  numbered : Numbered s'
  knows : Knows s' 0 t'
  keeps : Keeps t.adds t.cuts s s'
  owns : t'.owns = t.owns ∨ t'.owns = none ∨ t'.owns = some s.nextId

theorem Advances.control (hs : Numbered s) (hn : s.nextId ≤ s'.nextId) (hh : s'.hotel = s.hotel)
    (hi : s'.items = s.items) (hk : Knows s' 0 t')
    (ho : t'.owns = t.owns ∨ t'.owns = none ∨ t'.owns = some s.nextId) : Advances s s' t t' where
  numbered := ⟨hi ▸ hs.1, hi ▸ fun x hx => Nat.lt_of_lt_of_le (hs.2 x hx) hn⟩
  knows := hk
  keeps := .of_eq hn hh hi
  owns := ho

theorem Advances.idle (hs : Numbered s) (hn : s.nextId ≤ s'.nextId) (hh : s'.hotel = s.hotel)
    (hi : s'.items = s.items) (hk : Knows s' 0 t') (ho : t'.owns = none) : Advances s s' t t' :=
  .control hs hn hh hi hk (.inr (.inl ho))

/-- A reconciliation that finds no open item leaves nothing to charge. -/
theorem owing_nil_of_reconcile (h : Covers s.items run date (s.hotel.owing date))
    (hf : s.hasItem run .failed = false) (hp : s.hasItem run .pending = false) :
    s.hotel.owing date = [] := by
  rw [eq_nil_iff_forall_not_mem]
  intro id hid
  obtain ⟨x, hx, howes⟩ := h id hid
  obtain ⟨hrun, -, -, -, hopen⟩ := Item.owes_iff.mp howes
  have hno (status : ItemStatus) (hst : s.hasItem run status = false) : x.status ≠ status := by
    intro he
    have hany : s.hasItem run status = true :=
      any_eq_true.mpr ⟨x, hx, by simp [hrun, he]⟩
    rw [hst] at hany
    cases hany
  have hpending := hno .pending hp
  have hfailed := hno .failed hf
  simp [Item.isOpen, hpending, hfailed] at hopen

theorem insertItems_advances {c : StartCall} (hs : Numbered s)
    (h : Knows s 0 (.insertItems c run date items)) :
    Advances s { s with items := s.items ++ items } (.insertItems c run date items)
      (if c.dryRun then .close run .dryRunCompleted else .gate run date) := by
  obtain ⟨hfresh, ⟨hrun, hrows⟩, hcovers⟩ := h
  have hsplit (x : Item) : x ∈ s.items ++ items ↔ x ∈ s.items ∨ x ∈ items := mem_append
  refine ⟨⟨fun x hx y hy hxy => ?_, fun x hx => ?_⟩, ?_, ⟨Nat.le_refl _, fun _ _ h => h,
    fun x hx => ?_, fun y hy => ?_, fun x hx ho _ => ?_⟩, ?_⟩
  · have hxrun := (Item.same_iff.mp hxy).1
    obtain hx | hx := (hsplit x).mp hx <;> obtain hy | hy := (hsplit y).mp hy
    · exact hs.1 x hx y hy hxy
    · exact absurd (hxrun.trans (hrun y hy)) (hfresh.2 x hx)
    · exact absurd (hxrun.symm.trans (hrun x hx)) (hfresh.2 y hy)
    · exact hrows x hx y hy hxy
  · obtain hx | hx := (hsplit x).mp hx
    · exact hs.2 x hx
    · exact hrun x hx ▸ hfresh.1
  · split
    · trivial
    · rename_i hdry
      intro id hid
      obtain ⟨x, hx, howes⟩ := hcovers (by simpa using hdry) id hid
      exact ⟨x, (hsplit x).mpr (.inr hx), howes⟩
  · exact ⟨x, (hsplit x).mpr (.inl hx), rfl⟩
  · obtain hy | hy := (hsplit y).mp hy
    · exact .inr ⟨y, hy, rfl⟩
    · exact .inl (congrArg some (hrun y hy).symm)
  · exact .inl ⟨x, (hsplit x).mpr (.inl hx), rfl, ho⟩
  · split <;> exact .inr (.inl rfl)

theorem posting_advances {todo todo' : List Item} {x : Item} (hs : Numbered s)
    (h : Knows s 0 (.posting run date todo)) (hx : x ∈ todo) (htodo : ∀ y ∈ todo', y ∈ todo)
    (hout : Outcome s x s') : Advances s s' (.posting run date todo) (.posting run date todo') := by
  have hk := hout.keeps hs.1 (h.2 x hx)
  have hknows : Knows s' 0 (.posting run date todo) :=
    h.keeps hk (fun _ he => nomatch he) fun _ he => nomatch he
  refine ⟨⟨hs.1.outcome hout, fun y hy => ?_⟩, ⟨hknows.1, fun y hy => hknows.2 y (htodo y hy)⟩, hk,
    .inl rfl⟩
  obtain he | ⟨z, hz, hrow⟩ := hk.added y hy
  · cases he
  · rw [← (Item.row_eq hrow).1]
    exact Nat.lt_of_lt_of_le (hs.2 z hz) hk.nextId

theorem rewrite_advances {f : Item → Item} (hs : Numbered s) (hn : s'.nextId = s.nextId)
    (hi : s'.items = s.items.map f) (hf : ∀ x, (f x).row = x.row) (hk : Keeps t.adds t.cuts s s')
    (hknows : Knows s' 0 t') (ho : t'.owns = none) : Advances s s' t t' := by
  refine ⟨⟨hi ▸ hs.1.map hf, fun y hy => ?_⟩, hknows, hk, .inr (.inl ho)⟩
  rw [hi] at hy
  obtain ⟨x, hx, rfl⟩ := mem_map.mp hy
  rw [(Item.row_eq (hf x)).1, hn]
  exact hs.2 x hx

theorem handleDuplicate_idle (s : Store) (c : StartCall) (date : ℤ) (retry : Bool) :
    Knows s 0 (handleDuplicate s c date retry) ∧ (handleDuplicate s c date retry).owns = none := by
  unfold handleDuplicate
  split
  · exact ⟨trivial, rfl⟩
  · split
    · exact ⟨trivial, rfl⟩
    · split <;> exact ⟨trivial, rfl⟩

theorem resumeStep_idle (s : Store) (run : ℕ) :
    Knows s 0 (resumeStep s run) ∧ (resumeStep s run).owns = none := by
  unfold resumeStep
  split
  · exact ⟨trivial, rfl⟩
  · split <;> exact ⟨trivial, rfl⟩

/-- What a call knows of its bookings after one of its operations. -/
theorem advance_advances {o : Outside} (hs : Numbered s) (ht : Knows s 0 t) (hc : CoversOwing s t)
    (h : advance s o t = some (s', t')) : Advances s s' t t' := by
  have hle := Nat.le_refl s.nextId
  cases t with
  | returned => cases h
  | start c =>
    cases h
    refine .idle hs hle rfl rfl ?_ ?_ <;> split <;> trivial
  | insertRun c date first =>
    cases hr : s.runOf c.property date with
    | none =>
      simp only [advance, insertRunStep, hr] at h
      cases h
      have hfresh : Fresh { s with runs := s.runs ++ [newRun s c date], nextId := s.nextId + 1 }
          s.nextId := ⟨Nat.lt_succ_self _, fun x hx => Nat.ne_of_lt (hs.2 x hx)⟩
      refine .control hs (Nat.le_succ _) rfl rfl ?_ (.inr (.inr ?_)) <;> unfold pipeline <;> split
      · exact hfresh
      · exact hfresh
      · rfl
      · rfl
    | some r =>
      simp only [advance, insertRunStep, hr, Option.some.injEq] at h
      split at h
      · cases h
        exact .idle hs hle rfl rfl trivial rfl
      · split at h <;> cases h <;> exact .idle hs hle rfl rfl trivial rfl
  | supersedeRead c date =>
    simp only [advance] at h
    split at h <;> cases h
    · refine .idle hs hle rfl rfl ?_ ?_ <;> split <;> trivial
    · exact .idle hs hle rfl rfl trivial rfl
  | supersede c date old =>
    cases h
    exact .idle hs hle rfl rfl trivial rfl
  | duplicate c date retry =>
    cases h
    obtain ⟨hk, ho⟩ := handleDuplicate_idle s c date retry
    exact .idle hs hle rfl rfl hk ho
  | supersedeDryRun c date old retry =>
    cases h
    refine .idle hs hle rfl rfl ?_ ?_ <;> split <;> trivial
  | mapping c run date | validate c run date =>
    cases h
    split
    · exact .idle hs hle rfl rfl trivial rfl
    · exact .control hs hle rfl rfl ht (.inl rfl)
  | build c run date =>
    cases h
    refine .control hs hle rfl rfl ⟨ht, ⟨fun x hx => mem_buildCandidateSet hx,
      rows_buildCandidateSet _ run date⟩, fun hdry => ?_⟩ (.inl rfl)
    exact buildCandidateSet_covers (hc hdry) run
  | insertItems c run date items =>
    cases h
    exact insertItems_advances hs ht
  | resume run =>
    cases h
    obtain ⟨hk, ho⟩ := resumeStep_idle s run
    exact .idle hs hle rfl rfl hk ho
  | resetItems run date blocked =>
    cases h
    refine rewrite_advances hs rfl rfl (fun x => ?_) (resetFailed_keeps s run) ?_ ?_ <;> split <;>
      trivial
  | resumeValidating run date =>
    cases h
    exact .idle hs hle rfl rfl trivial rfl
  | resumeValidate run date =>
    cases h
    refine .idle hs hle rfl rfl ?_ ?_ <;> split <;> trivial
  | reenter run date =>
    cases h
    exact .idle hs hle rfl rfl hc rfl
  | gate run date =>
    cases h
    refine .idle hs hle rfl rfl ?_ ?_ <;> unfold gateStep <;> split
    · trivial
    · exact ht
    · rfl
    · rfl
  | postCharges run date =>
    cases h
    refine .idle hs hle rfl rfl ⟨ht, fun x hx => ⟨x, ?_, rfl⟩⟩ rfl
    exact mem_of_mem_filter (mem_of_mem_take hx)
  | posting run date todo =>
    cases todo with
    | nil =>
      cases h
      exact .idle hs hle rfl rfl ht.1 rfl
    | cons x xs =>
      cases h
      refine posting_advances hs ht ?_ (fun y hy => mem_of_mem_eraseIdx hy)
        (s.postItem_outcome _ o.fault)
      rw [getD_eq_getElem?_getD]
      cases hx : (x :: xs)[o.item]? with
      | none => exact mem_cons_self
      | some y => exact mem_of_getElem? hx
  | reconcile run date =>
    cases h
    refine .idle hs hle rfl rfl ?_ ?_ <;> unfold reconcileStep
    · split
      · trivial
      · split
        · trivial
        · rename_i hf hp
          have hnil := owing_nil_of_reconcile (s := s) ht (by simpa using hf) (by simpa using hp)
          exact hnil
    · split
      · rfl
      · split <;> rfl
  | rollCheck run date =>
    cases h
    split
    · exact .idle hs hle rfl rfl trivial rfl
    · exact .idle hs hle rfl rfl ht rfl
  | roll run date =>
    cases h
    exact .idle hs hle rfl rfl trivial rfl
  | close run status =>
    cases h
    exact .idle hs hle rfl rfl trivial rfl
  | abort run =>
    simp only [advance] at h
    split at h <;> cases h
    · refine .idle hs hle rfl rfl ?_ ?_ <;> split <;> trivial
    · exact .idle hs hle rfl rfl trivial rfl
  | abortRun run =>
    cases h
    exact .idle hs hle rfl rfl trivial rfl
  | abortItems run =>
    cases h
    exact rewrite_advances hs rfl rfl (fun x => by split <;> rfl) (cancelPending_keeps s run) trivial rfl

theorem raised_idle (s : Store) (t : Thread) : Knows s 0 t.raised ∧ t.raised.owns = none := by
  cases t <;> exact ⟨trivial, rfl⟩

/-- The hotel changes and the items stay: no booking comes to owe the night that the call
is about to close. -/
theorem Knows.hotel {h : Hotel} (hk : Knows s k t)
    (ho : ∀ date ∈ t.closes, ∀ id ∈ h.owing date, id ∈ s.hotel.owing date) :
    Knows { s with hotel := h } k t := by
  cases t with
  | insertItems c run date items =>
    refine ⟨hk.1, hk.2.1, fun hdry => (hk.2.2 hdry).of_owing (ho date ?_)⟩
    simp [Thread.closes, hdry]
  | gate run date | postCharges run date | reconcile run date => exact hk.of_owing (ho date rfl)
  | posting run date todo => exact ⟨hk.1.of_owing (ho date rfl), hk.2⟩
  | rollCheck run date | roll run date => exact owing_nil_of hk (ho date rfl)
  | _ => exact hk

theorem preserves_charges : calls.Preserves ChargesAll Numbered Knows OwnApart where
  symm t u h run hu ht := h run ht hu
  init s h := by
    obtain ⟨-, hi, -⟩ := h
    refine ⟨fun x hx => ?_, fun x hx => ?_⟩ <;> rw [hi] at hx <;> cases hx
  env p e s' hi hc h := by
    cases h
    cases e with
    | clock today n => exact ⟨hi.store, fun k t ht => by
        have hk := hi.thread k t ht
        cases t <;> exact hk⟩
    | frontDesk hotel => exact ⟨hi.store, fun k t ht =>
        (hi.thread k t ht).hotel (hc t (mem_of_getElem? ht))⟩
  call p c t _ _ h := by
    cases h
    exact ⟨by cases c <;> trivial, fun u _ => .of_none (by cases c <;> rfl)⟩
  step p k m t s' t' hi hc ht h := by
    have hs := hi.store
    have hok := hi.thread k t ht
    cases m with
    | raise =>
      cases h
      obtain ⟨hk, ho⟩ := raised_idle p.store t
      exact ⟨hs, hk, fun j u _ hu => ⟨hi.thread j u hu, .of_none ho⟩⟩
    | crash =>
      cases h
      exact ⟨hs, trivial, fun j u _ hu => ⟨hi.thread j u hu, .of_none rfl⟩⟩
    | advance o =>
      obtain ⟨hcov, hidle⟩ := hc t ht
      have ha := advance_advances hs hok hcov h
      refine ⟨ha.numbered, ha.knows, fun j u hjk hu => ?_⟩
      have huk := hi.thread j u hu
      have hap := hi.apart k j t u hjk.symm ht hu
      refine ⟨huk.keeps ha.keeps (fun run he => ?_) fun run he => ?_, ?_⟩
      · refine hap run ?_
        cases t <;> first | exact he | cases he
      · cases t with
        | abortItems run' =>
          cases he
          exact hidle u (mem_of_getElem? hu)
        | _ => cases he
      · obtain ho | ho | ho := ha.owns
        · exact hap.of_eq ho
        · exact .of_none ho
        · intro run hr hur
          rw [ho] at hr
          cases hr
          exact Nat.lt_irrefl _ (Fresh.of_owns huk hur).1

/-- The step closes no day that is not charged: neither the day of the run that rolls, nor
a day that the business date goes past. -/
def ClosesCharged (s s' : Store) : Prop :=
  (∀ run date, s'.rolled = (run, date) :: s.rolled → s'.hotel.FullyCharged date) ∧
    ∀ date, s.businessDate ≤ date → date < s'.businessDate → s'.hotel.FullyCharged date

/-- When the items of a run cover the bookings that owe the night, and stay to the roll,
every chargeable booking of a day that is closed has its charge. -/
theorem closes_charged {p p' : Pool Store Thread} {a : Act Env Call Move}
    (h : calls.machine.Reach ChargesAll p) (hc : ChargesAll p a)
    (hs : calls.machine.step p a = some p') : ClosesCharged p.store p'.store := by
  have hi := preserves_charges.reach h
  obtain ⟨hd, hl⟩ | ⟨k, o, run, date, rfl, ht, hst⟩ := next_roll hs
  · refine ⟨fun run date hroll => ?_, fun date hle hlt => by omega⟩
    rw [hl] at hroll
    have hlen := congrArg List.length hroll
    simp at hlen
  · have hfull : p'.store.hotel.FullyCharged date := by
      rw [hst]
      exact Hotel.fullyCharged_of_owing (hi.thread k _ ht)
    refine ⟨fun run' date' hroll => ?_, fun date' hle hlt => ?_⟩
    · rw [hst] at hroll
      cases hroll
      exact hfull
    · -- the roll is not for a later day, so it goes past no other day
      have hopen : date ≤ p.store.businessDate := (hc _ ht).1
      rw [hst] at hlt
      have heq : date' = date := by
        have hlt' : date' < date + 1 := hlt
        omega
      exact heq ▸ hfull

/-! ### Runs -/

def inHouse : Booking where
  id := 1
  status := .checkedIn
  checkIn := some ⟨9, none⟩
  checkOut := some ⟨12, none⟩
  roomId := some 5
  folioId := some 7
  price := { totalAmount := 300 }

def inHouseHotel : Hotel where
  bookings := [inHouse]
  folios := [⟨7, 1, true⟩]

/-- The night of the guest is charged, and the day is closed. -/
theorem closes_charged_inHouse : ∃ p p', calls.machine.Reach ChargesAll p ∧
    calls.machine.step p (.step 0 (.advance {})) = some p' ∧
    (p'.store.rolled, p'.store.hotel.charges) = ([(0, 10)], [⟨1, 10, .roomCharge, 100, false⟩]) ∧
    ClosesCharged p.store p'.store := by
  obtain ⟨p, hp, hv⟩ := Machine.exists_reach_of_runUnder (C := ChargesAll)
    (f := fun p : Pool Store Thread => (decide (ChargesAll p (.step 0 (.advance {}))),
      (calls.machine.step p (.step 0 (.advance {}))).map fun p' =>
        (p'.store.rolled, p'.store.hotel.charges)))
    (v := (true, some ([(0, 10)], [⟨1, 10, .roomCharge, 100, false⟩])))
    (.call (.start {}) :: List.replicate 11 (.step 0 (.advance {})))
    (firstDay_init inHouseHotel 10 40) (by decide +kernel)
  obtain ⟨hc, hstep⟩ := Prod.mk.inj hv
  obtain ⟨p', hs, hobs⟩ := Option.map_eq_some_iff.mp hstep
  exact ⟨p, p', hp, hs, hobs, closes_charged hp (of_decide_eq_true hc) hs⟩

/-- A guest who should have left holds up the first start, and leaves before the resume. -/
def overdue (status : BookingStatus) : Booking where
  id := 2
  status := status
  checkIn := some ⟨8, none⟩
  checkOut := some ⟨10, none⟩
  roomId := some 6
  folioId := some 8

/-- A blocked run is resumed after its blocker is gone: it has no items, and the day is
closed without the night of the guest in house. -/
theorem closes_uncharged : ∃ p p', calls.machine.Reachable p ∧
    calls.machine.step p (.step 1 (.advance {})) = some p' ∧
    p'.store.rolled = (0, 10) :: p.store.rolled ∧ ¬ ClosesCharged p.store p'.store := by
  obtain ⟨p, hp, hv⟩ := Machine.exists_reachable_of_run
    (f := fun p : Pool Store Thread => (p.store.rolled,
      (calls.machine.step p (.step 1 (.advance {}))).map fun p' =>
        (p'.store.rolled, p'.store.hotel.owing 10)))
    (v := ([], some ([(0, 10)], [1])))
    (List.flatten [[.call (.start {})], List.replicate 4 (.step 0 (.advance {})),
      [.env (.frontDesk { inHouseHotel with bookings := [inHouse, overdue .checkedOut] }),
      .call (.resume 0)], List.replicate 10 (.step 1 (.advance {}))])
    (firstDay_init { inHouseHotel with bookings := [inHouse, overdue .checkedIn] } 10 40)
    (by decide +kernel)
  obtain ⟨hlog, hstep⟩ := Prod.mk.inj hv
  obtain ⟨p', hs, hobs⟩ := Option.map_eq_some_iff.mp hstep
  obtain ⟨hroll, howing⟩ := Prod.mk.inj hobs
  have hnext : p'.store.rolled = (0, 10) :: p.store.rolled := by rw [hroll, hlog]
  have hnot : ¬ p'.store.hotel.FullyCharged 10 :=
    Hotel.not_fullyCharged (by rw [howing]; exact mem_singleton.mpr rfl)
  exact ⟨p, p', hp, hs, hnext, fun hcl => hnot (hcl.1 0 10 hnext)⟩

end SyrocePms.NightAudit
