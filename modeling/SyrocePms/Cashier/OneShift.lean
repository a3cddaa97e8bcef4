import SyrocePms.Cashier.Shift

/-! A payment enters the till once, if the shift that records it was opened no later than the
payment was made, and shifts are opened after the payments that are recorded by then. The
counters of a shift are the sums of its cash transactions in every run. -/

namespace SyrocePms.Cashier

open Lib List

variable {s s' : Store} {x y : Shift} {i : ℕ}
variable {t : Transaction}

/-! ### The condition -/

def Key.MadeFrom (s : Store) (openedAt : ℤ) : Key → Prop
  | .payment i => ∃ t ∈ s.eventOf i, openedAt ≤ t
  | .other _ => True

/-- The payment of the key was made before `openedAt`. -/
def Key.MadeBefore (s : Store) (openedAt : ℤ) : Key → Prop
  | .payment i => ∀ t ∈ s.eventOf i, t < openedAt
  | .other _ => True

def StepTimely (s : Store) : Pc → Prop
  | .push q _ shift _ => ∀ x ∈ s.shifts.rows, x.id = shift → x.isOpen = true →
    ∀ k ∈ q.key, k.MadeFrom s x.openedAt
  | .insert _ openedAt => ∀ x ∈ s.shifts.rows, ∀ k ∈ x.keys, k.MadeBefore s openedAt
  | _ => True

/-- A payment is recorded in a shift that was opened no later than it was made, and a shift
is opened later than the payments that have been recorded were made. -/
def Timely (p : Pool Store Pc) : Act Elsewhere Call Chance → Prop
  | .step k _ => ∀ pc ∈ p.threads[k]?, StepTimely p.store pc
  | _ => True

/-! ### The counters -/

/-- The counters are the sums of the cash transactions. -/
def Shift.Balanced (x : Shift) : Prop := x.cashIn = x.cashOf .into ∧ x.cashOut = x.cashOf .out

theorem Shift.cashOf_record (x : Shift) (t : Transaction) (d : Direction) :
    (x.record t).cashOf d = x.cashOf d + if t.method = .cash ∧ t.direction = d then t.amount else 0 := by
  simp only [Shift.cashOf, Shift.record, filter_append, map_append, sum_append]
  by_cases h : t.method = .cash ∧ t.direction = d
  · simp [h.1, h.2]
  · rw [if_neg h, filter_cons_of_neg (by simpa using h)]
    simp

theorem Shift.Balanced.record (h : x.Balanced) (t : Transaction) : (x.record t).Balanced := by
  refine ⟨?_, ?_⟩
  · rw [Shift.cashOf_record, ← h.1]
    rfl
  · rw [Shift.cashOf_record, ← h.2]
    rfl

theorem Shift.keys_record (x : Shift) (t : Transaction) : (x.record t).keys = x.keys ++ t.key.toList := by
  simp only [Shift.keys, Shift.record, filterMap_append]
  cases hk : t.key <;> simp [hk]

/-! ### What the steps write -/

/-- What a step of a call in the state `pc` does to the shifts: nothing that the till depends
on, one more transaction in an open shift, or a new shift. -/
inductive Writes (s s' : Store) (pc : Pc) : Prop
  | keeps (f : Shift → Shift) (hrows : s'.shifts.rows = s.shifts.rows.map f)
      (hsame : ∀ x, (f x).id = x.id ∧ (f x).openedAt = x.openedAt ∧ (f x).cashIn = x.cashIn ∧
        (f x).cashOut = x.cashOut ∧ (f x).transactions = x.transactions)
      (hopen : ∀ x, (f x).isOpen = true → x.isOpen = true)
  | records (t : Transaction) (x : Shift) (hx : x ∈ s.shifts.rows) (hopen : x.isOpen = true)
      (hrows : s'.shifts.rows = s.shifts.rows.map fun y => if y.id = x.id then y.record t else y)
      (htimely : StepTimely s pc → ∀ i, t.key = some (.payment i) → ∃ τ ∈ s.eventOf i, x.openedAt ≤ τ)
  | opens (x : Shift) (hrows : s'.shifts.rows = s.shifts.rows ++ [x]) (hempty : x.transactions = [])
      (hcash : x.cashIn = 0 ∧ x.cashOut = 0)
      (htimely : StepTimely s pc → ∀ y ∈ s.shifts.rows, ∀ i, .payment i ∈ y.keys →
        ∀ τ ∈ s.eventOf i, τ < x.openedAt)

variable {pc pc' : Pc} {o : Chance}

theorem Writes.of_eq (h : s'.shifts = s.shifts) : Writes s s' pc :=
  .keeps id (by rw [h, map_id]) (fun _ => ⟨rfl, rfl, rfl, rfl, rfl⟩) fun _ h => h

theorem push_writes {shift : ℕ} (h : s.push shift t = some s') :
    s'.payments = s.payments ∧ ∃ x ∈ s.shifts.rows, x.id = shift ∧ x.isOpen = true ∧
      s'.shifts.rows = s.shifts.rows.map fun y => if y.id = x.id then y.record t else y := by
  unfold Store.push at h
  split at h
  · rename_i hany
    cases h
    obtain ⟨x, hx, hmatch⟩ := any_eq_true.mp hany
    have hx' := hmatch
    simp only [Bool.and_eq_true, decide_eq_true_eq] at hmatch
    obtain ⟨⟨hid, hopen⟩, -⟩ := hmatch
    refine ⟨rfl, x, hx, hid, hopen, ?_⟩
    refine map_congr_left fun y hy => ?_
    by_cases hyx : y.id = x.id
    · obtain rfl : y = x := Collection.eq_of_key (c := s.shifts.toCollection) hy hx hyx
      rw [if_pos rfl, if_pos hx']
    · rw [if_neg hyx, if_neg]
      simp [← hid, hyx]
  · cases h

theorem closeShift_writes {status : ShiftStatus} {hne : status ≠ .isOpen}
    (h : s.closeShift x status hne = some s') : Writes s s' pc ∧ s'.payments = s.payments := by
  unfold Store.closeShift at h
  split at h
  · cases h
    refine ⟨.keeps (fun y => if (y.id = x.id && y.isOpen && y.cashIn = x.cashIn && y.cashOut = x.cashOut) = true
      then { y with status } else y) rfl (fun y => ?_) (fun y => ?_), rfl⟩
    · split <;> exact ⟨rfl, rfl, rfl, rfl, rfl⟩
    · split
      · exact fun ho => absurd (of_decide_eq_true ho) hne
      · exact fun ho => ho
  · cases h

theorem dateShift_writes (shift date : ℕ) : Writes s (s.dateShift shift date) pc :=
  .keeps (fun y => if (y.id = shift && y.isOpen) = true then { y with businessDate := some date } else y) rfl
    (fun y => by split <;> exact ⟨rfl, rfl, rfl, rfl, rfl⟩) fun y => by
      split
      · exact fun ho => ho
      · exact fun ho => ho

/-- The payments stay as they were made. -/
def KeepsEvents (s s' : Store) : Prop := ∀ i t, s.eventOf i = some t → s'.eventOf i = some t

theorem KeepsEvents.of_eq (h : s'.payments = s.payments) : KeepsEvents s s' := by
  intro i t ht
  rwa [Store.eventOf, h]

theorem keepsEvents_map {f : Payment → Payment} (hpay : s'.payments = s.payments.map f)
    (hid : ∀ p, (f p).id = p.id) (hevent : ∀ p, (f p).eventAt = p.eventAt) : KeepsEvents s s' := by
  intro i t ht
  simp only [Store.eventOf, hpay] at ht ⊢
  generalize s.payments = ps at ht
  induction ps with
  | nil => exact ht
  | cons p ps ih =>
    by_cases hp : p.id = some i
    · rw [find?_cons_of_pos (by simpa using hp)] at ht
      rw [map_cons, find?_cons_of_pos (by simpa [hid] using hp)]
      simpa only [Option.bind_some, hevent] using ht
    · rw [find?_cons_of_neg (by simpa using hp)] at ht
      rw [map_cons, find?_cons_of_neg (by simpa [hid] using hp)]
      exact ih ht

theorem advance_writes (h : advance s o pc = some (s', pc')) : Writes s s' pc ∧ KeepsEvents s s' := by
  have hsame : s' = s → Writes s s' pc ∧ KeepsEvents s s' := by
    rintro rfl
    exact ⟨.of_eq rfl, .of_eq rfl⟩
  cases pc <;> simp only [advance] at h
  case push q d shift back =>
    split at h
    · rename_i s₁ hpush
      cases h
      obtain ⟨hpay, x, hx, hid, hopen, hrows⟩ := push_writes hpush
      refine ⟨.records _ x hx hopen hrows fun hc i hi => ?_, .of_eq hpay⟩
      exact hc x hx hid hopen _ hi
    · cases h
      exact hsame rfl
  case stamp x =>
    split at h <;> cases h
    · exact hsame rfl
    · exact ⟨dateShift_writes _ _, .of_eq rfl⟩
  case sweep w =>
    split at h
    · cases h
      exact hsame rfl
    · split at h
      · cases h
        exact hsame rfl
      · obtain ⟨rfl, -⟩ := Prod.mk.inj (Option.some.inj h)
        split
        · refine ⟨.of_eq rfl, keepsEvents_map rfl (fun p => ?_) fun p => ?_⟩
          · split <;> rfl
          · split <;> rfl
        · exact ⟨.of_eq rfl, .of_eq rfl⟩
  case insert openingAmount openedAt =>
    split at h <;> cases h
    · rename_i hopen
      obtain ⟨shifts, hins, rfl⟩ := Option.map_eq_some_iff.mp hopen
      obtain ⟨hrows, -, -⟩ := Shifts.insertOpen_eq_some hins
      refine ⟨.opens _ hrows rfl ⟨rfl, rfl⟩ fun hc y hy i hi τ hτ => ?_, .of_eq rfl⟩
      exact hc y hy _ hi τ hτ
    · exact hsame rfl
  case update x now handover =>
    split at h
    · split at h <;> cases h
      · rename_i hclose
        obtain ⟨hw, hpay⟩ := closeShift_writes hclose
        exact ⟨hw, .of_eq hpay⟩
      · exact hsame rfl
    · split at h <;> cases h
      · rename_i hclose
        obtain ⟨hw, hpay⟩ := closeShift_writes hclose
        exact ⟨hw, .of_eq hpay⟩
      · exact hsame rfl
  case look q back =>
    split at h
    · cases h
      exact hsame rfl
    · split at h
      · cases h
        exact hsame rfl
      · split at h <;> cases h <;> exact hsame rfl
  case reconcile => split at h <;> cases h <;> exact hsame rfl
  case opening => split at h <;> cases h <;> exact hsame rfl
  case closing => split at h <;> cases h <;> exact hsame rfl
  case refused => cases h; exact hsame rfl
  case candidates => cases h; exact hsame rfl
  case ended => cases h

theorem elsewhere_keeps {e : Elsewhere} (h : elsewhere s e = some s') :
    s'.shifts = s.shifts ∧ KeepsEvents s s' := by
  cases e with
  | pay p =>
    simp only [elsewhere] at h
    split at h
    · cases h
    · cases h
      refine ⟨rfl, fun i t ht => ?_⟩
      obtain ⟨q, hq, hqt⟩ := Option.bind_eq_some_iff.mp ht
      simp only [Store.eventOf, find?_append, hq]
      exact hqt
  | void id =>
    cases h
    refine ⟨rfl, keepsEvents_map rfl (fun p => ?_) fun p => ?_⟩
    · split <;> rfl
    · split <;> rfl
  | tick n =>
    cases h
    exact ⟨rfl, .of_eq rfl⟩

/-! ### The invariants -/

theorem Shift.cashOf_congr {d : Direction} (h : y.transactions = x.transactions) : y.cashOf d = x.cashOf d := by
  rw [Shift.cashOf, Shift.cashOf, h]

theorem Shift.keys_congr (h : y.transactions = x.transactions) : y.keys = x.keys := by
  rw [Shift.keys, Shift.keys, h]

theorem Writes.balanced (hw : Writes s s' pc) (h : ∀ x ∈ s.shifts.rows, x.Balanced) :
    ∀ x ∈ s'.shifts.rows, x.Balanced := by
  intro z hz
  cases hw with
  | keeps f hrows hsame hopen =>
    rw [hrows] at hz
    obtain ⟨y, hy, rfl⟩ := mem_map.mp hz
    obtain ⟨-, -, hin, hout, htx⟩ := hsame y
    refine ⟨?_, ?_⟩
    · rw [hin, Shift.cashOf_congr htx]
      exact (h y hy).1
    · rw [hout, Shift.cashOf_congr htx]
      exact (h y hy).2
  | records t x hx hopen hrows htimely =>
    rw [hrows] at hz
    obtain ⟨y, hy, rfl⟩ := mem_map.mp hz
    split
    · exact (h y hy).record t
    · exact h y hy
  | opens x hrows hempty hcash htimely =>
    rw [hrows] at hz
    obtain hz | hz := mem_append.mp hz
    · exact h z hz
    · obtain rfl := mem_singleton.mp hz
      refine ⟨?_, ?_⟩
      · simp [hcash.1, Shift.cashOf, hempty]
      · simp [hcash.2, Shift.cashOf, hempty]

/-- Recorded payments have been made, before every other shift that is open was opened, and
each stands in one shift. -/
structure Placed (s : Store) : Prop where
  made : ∀ x ∈ s.shifts.rows, ∀ i, .payment i ∈ x.keys → ∃ t, s.eventOf i = some t
  before : ∀ x ∈ s.shifts.rows, x.isOpen = true → ∀ y ∈ s.shifts.rows, y.id ≠ x.id → ∀ i,
    .payment i ∈ y.keys → ∀ t, s.eventOf i = some t → t < x.openedAt
  once : ∀ x ∈ s.shifts.rows, ∀ y ∈ s.shifts.rows, ∀ i, .payment i ∈ x.keys → .payment i ∈ y.keys →
    x.id = y.id

theorem Placed.eventOf (h : Placed s) (hk : KeepsEvents s s') (hx : x ∈ s.shifts.rows)
    (hi : .payment i ∈ x.keys) {t : ℤ} (ht : s'.eventOf i = some t) : s.eventOf i = some t := by
  obtain ⟨t₀, ht₀⟩ := h.made x hx i hi
  rw [ht₀, ← ht, hk i t₀ ht₀]

theorem Placed.keeps (h : Placed s) (hk : KeepsEvents s s') {f : Shift → Shift}
    (hrows : s'.shifts.rows = s.shifts.rows.map f)
    (hid : ∀ x, (f x).id = x.id) (hat : ∀ x, (f x).openedAt = x.openedAt)
    (htx : ∀ x, (f x).transactions = x.transactions)
    (hopen : ∀ x, (f x).isOpen = true → x.isOpen = true) : Placed s' := by
  refine ⟨fun z hz i hi => ?_, fun z hz ho w hw hne i hi t ht => ?_, fun z hz w hw i hi hi' => ?_⟩
  · rw [hrows] at hz
    obtain ⟨x, hx, rfl⟩ := mem_map.mp hz
    rw [Shift.keys_congr (htx x)] at hi
    exact (h.made x hx i hi).imp fun t => hk i t
  · rw [hrows] at hz hw
    obtain ⟨x, hx, rfl⟩ := mem_map.mp hz
    obtain ⟨y, hy, rfl⟩ := mem_map.mp hw
    rw [Shift.keys_congr (htx y)] at hi
    rw [hid, hid] at hne
    rw [hat]
    exact h.before x hx (hopen x ho) y hy hne i hi t (h.eventOf hk hy hi ht)
  · rw [hrows] at hz hw
    obtain ⟨x, hx, rfl⟩ := mem_map.mp hz
    obtain ⟨y, hy, rfl⟩ := mem_map.mp hw
    rw [Shift.keys_congr (htx _)] at hi hi'
    rw [hid, hid]
    exact h.once x hx y hy i hi hi'

theorem mem_keys_recorded {k : Key} (h : k ∈ (if y.id = x.id then y.record t else y).keys) :
    k ∈ y.keys ∨ (y.id = x.id ∧ t.key = some k) := by
  split at h
  · rename_i hid
    rw [Shift.keys_record] at h
    obtain h | h := mem_append.mp h
    · exact .inl h
    · exact .inr ⟨hid, Option.mem_toList.mp h⟩
  · exact .inl h

theorem Placed.records (h : Placed s) (hk : KeepsEvents s s') (hx : x ∈ s.shifts.rows)
    (hopen : x.isOpen = true)
    (hrows : s'.shifts.rows = s.shifts.rows.map fun y => if y.id = x.id then y.record t else y)
    (htimely : ∀ i, t.key = some (.payment i) → ∃ τ ∈ s.eventOf i, x.openedAt ≤ τ) : Placed s' := by
  have hid : ∀ y : Shift, (if y.id = x.id then y.record t else y).id = y.id := by
    intro y
    split <;> rfl
  have hat : ∀ y : Shift, (if y.id = x.id then y.record t else y).openedAt = y.openedAt := by
    intro y
    split <;> rfl
  have hstays : ∀ y : Shift, (if y.id = x.id then y.record t else y).isOpen = y.isOpen := by
    intro y
    split <;> rfl
  -- a payment that is recorded now stands in no other shift
  have hnew : ∀ y ∈ s.shifts.rows, ∀ i, t.key = some (.payment i) → .payment i ∈ y.keys → y.id = x.id := by
    intro y hy i hi hmem
    by_contra hne
    obtain ⟨τ, hτ, hle⟩ := htimely i hi
    have hlt := h.before x hx hopen y hy hne i hmem τ hτ
    omega
  refine ⟨fun z hz i hi => ?_, fun z hz ho w hw hne i hi τ hτ => ?_, fun z hz w hw i hi hi' => ?_⟩
  · rw [hrows] at hz
    obtain ⟨y, hy, rfl⟩ := mem_map.mp hz
    obtain hi | ⟨-, hi⟩ := mem_keys_recorded hi
    · exact (h.made y hy i hi).imp fun t => hk i t
    · obtain ⟨τ, hτ, -⟩ := htimely i hi
      exact ⟨τ, hk i τ hτ⟩
  · rw [hrows] at hz hw
    obtain ⟨x₁, hx₁, rfl⟩ := mem_map.mp hz
    obtain ⟨y, hy, rfl⟩ := mem_map.mp hw
    rw [hid, hid] at hne
    rw [hstays] at ho
    rw [hat]
    obtain hi | ⟨hyx, -⟩ := mem_keys_recorded hi
    · exact h.before x₁ hx₁ ho y hy hne i hi τ (h.eventOf hk hy hi hτ)
    · have heq : x₁ = x := s.shifts.oneOpen x₁ hx₁ x hx ho hopen
      exact absurd (hyx.trans (congrArg Shift.id heq).symm) hne
  · rw [hrows] at hz hw
    obtain ⟨x₁, hx₁, rfl⟩ := mem_map.mp hz
    obtain ⟨y, hy, rfl⟩ := mem_map.mp hw
    rw [hid, hid]
    obtain hi | ⟨hx₁x, hi⟩ := mem_keys_recorded hi <;> obtain hi' | ⟨hyx, hi'⟩ := mem_keys_recorded hi'
    · exact h.once x₁ hx₁ y hy i hi hi'
    · exact (hnew x₁ hx₁ i hi' hi).trans hyx.symm
    · exact hx₁x.trans (hnew y hy i hi hi').symm
    · exact hx₁x.trans hyx.symm

theorem Placed.opens (h : Placed s) (hk : KeepsEvents s s')
    (hrows : s'.shifts.rows = s.shifts.rows ++ [x]) (hempty : x.transactions = [])
    (htimely : ∀ y ∈ s.shifts.rows, ∀ i, .payment i ∈ y.keys → ∀ τ ∈ s.eventOf i, τ < x.openedAt) :
    Placed s' := by
  have hold : ∀ z ∈ s'.shifts.rows, ∀ k ∈ z.keys, z ∈ s.shifts.rows := by
    intro z hz k hkz
    rw [hrows] at hz
    obtain hz | hz := mem_append.mp hz
    · exact hz
    · obtain rfl := mem_singleton.mp hz
      simp [Shift.keys, hempty] at hkz
  refine ⟨fun z hz i hi => ?_, fun z hz ho w hw hne i hi t ht => ?_, fun z hz w hw i hi hi' => ?_⟩
  · exact (h.made z (hold z hz _ hi) i hi).imp fun t => hk i t
  · have hw' := hold w hw _ hi
    have ht' := h.eventOf hk hw' hi ht
    rw [hrows] at hz
    obtain hz | hz := mem_append.mp hz
    · exact h.before z hz ho w hw' hne i hi t ht'
    · obtain rfl := mem_singleton.mp hz
      exact htimely w hw' i hi t ht'
  · exact h.once z (hold z hz _ hi) w (hold w hw _ hi') i hi hi'

theorem Writes.placed (hw : Writes s s' pc) (hk : KeepsEvents s s') (hc : StepTimely s pc)
    (h : Placed s) : Placed s' := by
  cases hw with
  | keeps f hrows hsame hopen =>
    exact h.keeps hk hrows (fun x => (hsame x).1) (fun x => (hsame x).2.1)
      (fun x => (hsame x).2.2.2.2) hopen
  | records t x hx hopen hrows htimely => exact h.records hk hx hopen hrows (htimely hc)
  | opens x hrows hempty hcash htimely => exact h.opens hk hrows hempty (htimely hc)

/-! ### Runs -/

variable {p : Pool Store Pc}

theorem shifts_balanced (h : till.machine.Reachable p) : ∀ x ∈ p.store.shifts.rows, x.Balanced := by
  refine h.invariant (fun p => ∀ x ∈ p.store.shifts.rows, x.Balanced) (fun p h₀ x hx => ?_)
    fun p a p' hi _ hn => ?_
  · rw [h₀.1] at hx
    exact absurd hx not_mem_nil
  · cases a with
    | env e =>
      obtain ⟨hs, -⟩ := elsewhere_keeps (Program.next_env hn).1
      rwa [hs]
    | call c =>
      obtain ⟨-, -, hs, -⟩ := Program.next_call hn
      rwa [hs]
    | step k o =>
      obtain ⟨pc, pc', -, hstep, -⟩ := Program.next_step hn
      exact (advance_writes hstep).1.balanced hi

theorem payments_placed (h : till.machine.Reach Timely p) : Placed p.store := by
  refine h.invariant (fun p => Placed p.store) (fun p h₀ => ?_) fun p a p' hi hc hn => ?_
  · have hnone : p.store.shifts.rows = [] := by
      rw [h₀.1]
      rfl
    refine ⟨fun x hx => ?_, fun x hx => ?_, fun x hx => ?_⟩ <;>
      exact absurd (hnone ▸ hx) not_mem_nil
  · cases a with
    | env e =>
      obtain ⟨hs, hk⟩ := elsewhere_keeps (Program.next_env hn).1
      refine hi.keeps (f := id) hk (by rw [hs, map_id]) ?_ ?_ ?_ ?_
      · exact fun _ => rfl
      · exact fun _ => rfl
      · exact fun _ => rfl
      · exact fun _ h => h
    | call c =>
      obtain ⟨-, -, hs, -⟩ := Program.next_call hn
      rwa [hs]
    | step k o =>
      obtain ⟨pc, pc', hpc, hstep, -⟩ := Program.next_step hn
      obtain ⟨hw, hk⟩ := advance_writes hstep
      exact hw.placed hk (hc pc hpc) hi

/-- The counters of every shift are the sums of its cash transactions; and if the run is
timely, a payment is recorded in one shift. -/
theorem payment_in_one_shift (h : till.machine.Reachable p) :
    (∀ x ∈ p.store.shifts.rows, x.cashIn = x.cashOf .into ∧ x.cashOut = x.cashOf .out) ∧
      (till.machine.Reach Timely p → ∀ x ∈ p.store.shifts.rows, ∀ y ∈ p.store.shifts.rows, ∀ i,
        x.records (.payment i) → y.records (.payment i) → x = y) := by
  refine ⟨shifts_balanced h, fun ht x hx y hy i hi hi' => ?_⟩
  exact Collection.eq_of_key (c := p.store.shifts.toCollection) hx hy
    ((payments_placed ht).once x hx y hy i hi hi')

instance {openedAt : ℤ} {k : Key} : Decidable (k.MadeFrom s openedAt) := by
  cases k <;> unfold Key.MadeFrom <;> infer_instance

instance {openedAt : ℤ} {k : Key} : Decidable (k.MadeBefore s openedAt) := by
  cases k <;> unfold Key.MadeBefore <;> infer_instance

instance {pc : Pc} : Decidable (StepTimely s pc) := by
  cases pc <;> unfold StepTimely <;> infer_instance

instance {a : Act Elsewhere Call Chance} : Decidable (Timely p a) := by
  cases a <;> unfold Timely <;> infer_instance

/-- A cash payment of 10.00 for the folio of a guest, made at `time`. -/
def cashPayment (id : ℕ) (time : ℤ) : Payment where
  id := some id
  businessDate := some 0
  method := .cash
  processedAt := some (.at time)
  amount := 1000
  drawerAmount := some 1000

def noShifts : Pool Store Pc := ⟨⟨.empty, [], 0⟩, []⟩

theorem noShifts_init : till.machine.init noShifts := ⟨rfl, rfl⟩

/-- The shifts, whether they hold the payment, and what they count. -/
def recordings (id : ℕ) (p : Pool Store Pc) : List (ℕ × Bool × ℤ) :=
  p.store.shifts.rows.map fun x => (x.id, x.keys.contains (.payment id), x.cashIn)

theorem records_of_recordings {id n : ℕ} {c : ℤ} (h : (n, true, c) ∈ recordings id p) :
    ∃ x ∈ p.store.shifts.rows, x.id = n ∧ x.records (.payment id) := by
  obtain ⟨x, hx, heq⟩ := mem_map.mp h
  obtain ⟨hid, hrest⟩ := Prod.mk.inj heq
  exact ⟨x, hx, hid, contains_iff_mem.mp (Prod.mk.inj hrest).1⟩

def steps (k n : ℕ) (o : Chance) : List (Act Elsewhere Call Chance) := List.replicate n (.step k o)

/-- A shift, a payment at its second second, its recording, and a handover after it. -/
def recordedThenHandedOver : List (Act Elsewhere Call Chance) :=
  [.call (.openShift 0)] ++ steps 0 2 {} ++ [.env (.tick 2), .env (.pay (cashPayment 5 2)),
    .call (.record ((cashPayment 5 2).request 5 1000))] ++ steps 1 2 {} ++
  [.env (.tick 1), .call .handoverShift] ++ steps 2 3 { newId := 1 } ++
  [.call .reconcile] ++ steps 3 5 {}

theorem payment_in_one_shift_handedOver :
    ∃ p, till.machine.Reachable p ∧ recordings 5 p = [(0, true, 1000), (1, false, 0)] ∧
      (∀ x ∈ p.store.shifts.rows, x.cashIn = x.cashOf .into ∧ x.cashOut = x.cashOf .out) ∧
      ∀ x ∈ p.store.shifts.rows, ∀ y ∈ p.store.shifts.rows,
        x.records (.payment 5) → y.records (.payment 5) → x = y := by
  obtain ⟨p, hp, hv⟩ := Machine.exists_reach_of_runUnder (C := Timely) (f := recordings 5)
    (v := [(0, true, 1000), (1, false, 0)]) recordedThenHandedOver noShifts_init (by decide +kernel)
  have hr : till.machine.Reachable p := hp.mono fun _ _ _ => trivial
  have hboth := payment_in_one_shift hr
  exact ⟨p, hr, hv, hboth.1, fun x hx y hy => hboth.2 hp x hx y hy 5⟩

/-- The reconciliation before a handover has recorded a payment, and the call of the payment
itself comes after the handover. -/
theorem payment_in_two_shifts :
    ¬ ∀ p, till.machine.Reachable p →
        (∀ x ∈ p.store.shifts.rows, x.cashIn = x.cashOf .into ∧ x.cashOut = x.cashOf .out) ∧
          ∀ x ∈ p.store.shifts.rows, ∀ y ∈ p.store.shifts.rows, ∀ i,
            x.records (.payment i) → y.records (.payment i) → x = y := by
  intro h
  obtain ⟨p, hp, hv⟩ := Machine.exists_reachable_of_run (f := recordings 5)
    (v := [(0, true, 1000), (1, true, 1000)])
    (List.flatten [[.call (.openShift 0)], steps 0 2 {}, [.env (.tick 2),
      .env (.pay (cashPayment 5 2)), .call .reconcile], steps 1 7 {}, [.env (.tick 1),
      .call .handoverShift], steps 2 3 { newId := 1 },
      [.call (.record ((cashPayment 5 2).request 5 1000))], steps 3 2 {}])
    noShifts_init (by decide +kernel)
  obtain ⟨x, hx, hxid, hxr⟩ := records_of_recordings (n := 0) (hv ▸ mem_cons_self)
  obtain ⟨y, hy, hyid, hyr⟩ := records_of_recordings (n := 1)
    (hv ▸ mem_cons_of_mem _ mem_cons_self)
  have heq := (h p hp).2 x hx y hy 5 hxr hyr
  rw [heq, hyid] at hxid
  cases hxid

end SyrocePms.Cashier
