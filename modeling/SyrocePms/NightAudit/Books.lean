import SyrocePms.NightAudit.ChargedClose

/-! The room charges of the night audit in the books. The claim of an item, its charge, the
balance of its folio and its mark are writes of one transaction, the unique index refuses a
second charge, and a refused transaction takes all of its writes back. -/

namespace SyrocePms.NightAudit

open Reservation Lib List

variable {x : Item}

structure FolioCharge where
  folio : Option ℕ
  charge : Charge

/-- The night audit and the balances of the folios, where a folio that does not exist has
none. `stored` has the charges that the audit inserted, in order. -/
structure Books where
  audit : Store
  balance : ℕ → Option ℚ
  stored : List FolioCharge := []

namespace Books

def insertCharge (b : Books) (x : Item) : Option Books :=
  if b.audit.hotel.duplicateCharge x.charge then none
  else some { b with
    audit := { b.audit with hotel := b.audit.hotel.post x.charge }
    stored := b.stored ++ [⟨x.folio, x.charge⟩] }

def incBalance (b : Books) (x : Item) : Books :=
  match x.folio with
  | some f => { b with balance := fun g => if g = f then (b.balance g).map (· + x.total) else b.balance g }
  | none => b

def markNoShow (b : Books) (x : Item) : Books :=
  { b with audit := { b.audit with hotel := b.audit.hotel.markNoShow x.booking } }

def setItem (b : Books) (x : Item) (status : ItemStatus) (reason : Option ItemReason) : Books :=
  { b with audit := b.audit.setItem x status reason }

/-- The transaction of a claimed item. A no-show fee does not go into the balance. -/
def transact (b : Books) (x : Item) : Option Books :=
  match x.postingType with
  | .roomCharge =>
    (b.insertCharge x).map fun b => (b.incBalance x).setItem x .posted x.reason
  | .noShow =>
    if 0 < x.total ∧ x.folio.isSome = true then
      ((b.markNoShow x).insertCharge x).map fun b => b.setItem x .posted x.reason
    else some ((b.markNoShow x).setItem x .posted x.reason)

def postItem (b : Books) (x : Item) (fault : Fault) : Books :=
  match fault with
  | .aborted => b.setItem x .failed none
  | .unmarked => b
  | .none | .unanswered =>
    if b.audit.isPending x then
      match b.transact x with
      | some b' => if fault = .unanswered then b'.setItem x .failed none else b'
      | none =>
        match x.postingType with
        | .roomCharge => b.setItem x .skipped (some .duplicateChargePrevented)
        | .noShow => b.setItem x .failed none
    else b

/-- One operation of a call, with the balances. -/
def advance (b : Books) (o : Outside) : Thread → Option (Books × Thread)
  | .posting run date (x :: xs) =>
    let next := (x :: xs).getD o.item x
    some (b.postItem next o.fault, .posting run date ((x :: xs).eraseIdx
      (if o.item < (x :: xs).length then o.item else 0)))
  | t => (NightAudit.advance b.audit o t).map fun r => ({ b with audit := r.1 }, r.2)

def step (b : Books) (t : Thread) : Move → Option (Books × Thread)
  | .advance o => b.advance o t
  | .raise => some (b, t.raised)
  | .crash => some (b, .returned)

/-- The front desk changes what it likes but the charges. -/
def env (b : Books) : Env → Books
  | .clock today n => { b with audit := b.audit.env (.clock today n) }
  | .frontDesk h =>
    { b with audit := b.audit.env (.frontDesk { h with charges := b.audit.hotel.charges }) }

/-! ### The books extend the night audit -/

theorem setItem_audit (b : Books) (x : Item) (status : ItemStatus) (reason : Option ItemReason) :
    (b.setItem x status reason).audit = b.audit.setItem x status reason := rfl

@[simp] theorem incBalance_audit (b : Books) (x : Item) : (b.incBalance x).audit = b.audit := by
  unfold incBalance
  split <;> rfl

@[simp] theorem incBalance_stored (b : Books) (x : Item) : (b.incBalance x).stored = b.stored := by
  unfold incBalance
  split <;> rfl

theorem transact_audit (b : Books) (x : Item) :
    (b.transact x).map Books.audit = b.audit.transact x := by
  unfold transact Store.transact
  cases x.postingType with
  | roomCharge =>
    simp only [insertCharge]
    split
    · rfl
    · simp [setItem_audit]
  | noShow =>
    simp only [insertCharge, markNoShow]
    split
    · have hdup : (b.audit.hotel.markNoShow x.booking).duplicateCharge x.charge =
          b.audit.hotel.duplicateCharge x.charge := rfl
      simp only [hdup]
      split <;> rfl
    · rfl

theorem settled_audit (b : Books) (x : Item) (fault : Fault) :
    (match b.transact x with
      | some b' => if fault = Fault.unanswered then b'.setItem x .failed none else b'
      | none =>
        match x.postingType with
        | .roomCharge => b.setItem x .skipped (some .duplicateChargePrevented)
        | .noShow => b.setItem x .failed none).audit =
      match b.audit.transact x with
      | some s' => if fault = Fault.unanswered then s'.setItem x .failed none else s'
      | none =>
        match x.postingType with
        | .roomCharge => b.audit.setItem x .skipped (some .duplicateChargePrevented)
        | .noShow => b.audit.setItem x .failed none := by
  rw [← transact_audit]
  cases b.transact x with
  | some b' =>
    simp only [Option.map_some]
    split <;> rfl
  | none =>
    simp only [Option.map_none]
    split <;> rfl

theorem postItem_audit (b : Books) (x : Item) (fault : Fault) :
    (b.postItem x fault).audit = b.audit.postItem x fault := by
  have hrun := b.settled_audit x fault
  unfold postItem Store.postItem
  cases fault with
  | aborted => rfl
  | unmarked => rfl
  | none | unanswered =>
    simp only
    split
    · exact hrun
    · rfl

theorem advance_audit (b : Books) (o : Outside) (t : Thread) :
    (b.advance o t).map (fun r => (r.1.audit, r.2)) = NightAudit.advance b.audit o t := by
  cases t with
  | posting run date todo =>
    cases todo with
    | nil => rfl
    | cons x xs =>
      simp only [advance, NightAudit.advance, Option.map_some, postItem_audit]
  | _ =>
    simp only [advance, Option.map_map]
    exact congrFun Option.map_id _

end Books

/-- The charges that the unique index compares with one another. -/
def Hotel.activeCharges (h : Hotel) (type : ChargeType) (booking : ℕ) (businessDate : ℤ) :
    List Charge :=
  h.charges.filter fun c =>
    c.booking == booking && c.businessDate == businessDate && c.type == type && !c.voided

def Hotel.Indexed (h : Hotel) : Prop :=
  ∀ type booking businessDate, (h.activeCharges type booking businessDate).length ≤ 1

def books : Program Books Thread Env Call Move where
  init b := b.audit.runs = [] ∧ b.audit.items = [] ∧ b.audit.rolled = [] ∧ b.stored = [] ∧
    b.audit.hotel.Indexed
  env b e := some (b.env e)
  call _ c := some (.begin c)
  step _ b t m := b.step t m

def roomTotal (folio : ℕ) (l : List FolioCharge) : ℚ :=
  ((l.filter fun c => c.folio == some folio && c.charge.type == .roomCharge).map
    fun c => c.charge.total).sum

@[simp] theorem roomTotal_nil (folio : ℕ) : roomTotal folio [] = 0 := rfl

theorem roomTotal_append (folio : ℕ) (l l' : List FolioCharge) :
    roomTotal folio (l ++ l') = roomTotal folio l + roomTotal folio l' := by
  simp [roomTotal]

/-- What happens to the books between two states: charges are added, each balance moves by
the room charges on its folio, and the unique index goes on to stand. -/
def Booked (b b' : Books) : Prop :=
  (b.audit.hotel.Indexed → b'.audit.hotel.Indexed) ∧
    ∃ new, b'.audit.hotel.charges = b.audit.hotel.charges ++ new.map FolioCharge.charge ∧
      b'.stored = b.stored ++ new ∧
      ∀ folio, b'.balance folio = (b.balance folio).map (· + roomTotal folio new)

namespace Booked

variable {b b' b'' : Books}

theorem of_eq (hc : b'.audit.hotel.charges = b.audit.hotel.charges) (hs : b'.stored = b.stored)
    (hb : b'.balance = b.balance) : Booked b b' := by
  refine ⟨fun h => ?_, [], by simp [hc], by simp [hs], fun folio => ?_⟩
  · intro type booking businessDate
    rw [Hotel.activeCharges, hc]
    exact h type booking businessDate
  · simp [hb]

theorem refl (b : Books) : Booked b b := of_eq rfl rfl rfl

theorem trans (h : Booked b b') (h' : Booked b' b'') : Booked b b'' := by
  obtain ⟨hi, new, hc, hs, hb⟩ := h
  obtain ⟨hi', new', hc', hs', hb'⟩ := h'
  refine ⟨fun h => hi' (hi h), new ++ new', ?_, ?_, fun folio => ?_⟩
  · rw [hc', hc, map_append, append_assoc]
  · rw [hs', hs, append_assoc]
  · rw [hb', hb, roomTotal_append, Option.map_map]
    congr 1
    funext q
    simp only [Function.comp]
    ring

end Booked

variable {b b' : Books}

namespace Books

theorem indexed_post {h : Hotel} {c : Charge} (hi : h.Indexed) (hv : c.voided = false)
    (hd : h.duplicateCharge c = false) : (h.post c).Indexed := by
  intro type booking businessDate
  have hold := hi type booking businessDate
  simp only [Hotel.activeCharges, Hotel.post, filter_append, length_append] at hold ⊢
  by_cases hkey : c.booking = booking ∧ c.businessDate = businessDate ∧ c.type = type
  · -- the key is the one of the new charge, and no active charge had it
    obtain ⟨rfl, rfl, rfl⟩ := hkey
    have hnone : (h.charges.filter fun x => x.booking == c.booking &&
        x.businessDate == c.businessDate && x.type == c.type && !x.voided) = [] := by
      rw [filter_eq_nil_iff]
      intro x hx hp
      have hdup : h.duplicateCharge c = true := any_eq_true.mpr ⟨x, hx, hp⟩
      rw [hd] at hdup
      cases hdup
    rw [hnone]
    simp [hv]
  · have hother : ([c].filter fun x => x.booking == booking && x.businessDate == businessDate &&
        x.type == type && !x.voided) = [] := by
      rw [filter_eq_nil_iff]
      intro x hx hp
      rw [mem_singleton.mp hx] at hp
      simp only [Bool.and_eq_true, beq_iff_eq] at hp
      exact hkey ⟨hp.1.1.1, hp.1.1.2, hp.1.2⟩
    rw [hother]
    exact hold

theorem insertCharge_some (h : b.insertCharge x = some b') :
    b.audit.hotel.duplicateCharge x.charge = false ∧ b' = { b with
      audit := { b.audit with hotel := b.audit.hotel.post x.charge }
      stored := b.stored ++ [⟨x.folio, x.charge⟩] } := by
  unfold insertCharge at h
  split at h
  · cases h
  · rename_i hd
    cases h
    exact ⟨by simpa using hd, rfl⟩

theorem incBalance_balance (b : Books) (ht : x.postingType = .roomCharge) (folio : ℕ) :
    (b.incBalance x).balance folio =
      (b.balance folio).map (· + roomTotal folio [⟨x.folio, x.charge⟩]) := by
  have hcharge : x.charge.type = .roomCharge := by simp [Item.charge, ht]
  have htotal : x.charge.total = x.total := rfl
  unfold incBalance
  cases hf : x.folio with
  | none => simp [roomTotal]
  | some f =>
    by_cases hff : folio = f
    · simp [roomTotal, hff, hcharge, htotal]
    · have hne : (f == folio) = false := by simpa using Ne.symm hff
      simp [roomTotal, hff, hne]

theorem transact_booked (h : b.transact x = some b') : Booked b b' := by
  unfold transact at h
  cases ht : x.postingType with
  | roomCharge =>
    simp only [ht] at h
    obtain ⟨b₁, hins, rfl⟩ := Option.map_eq_some_iff.mp h
    obtain ⟨hd, rfl⟩ := insertCharge_some hins
    refine ⟨fun hi => ?_, [⟨x.folio, x.charge⟩], ?_, ?_, fun folio => ?_⟩
    · rw [setItem_audit, incBalance_audit]
      exact indexed_post hi rfl hd
    · rw [setItem_audit, incBalance_audit]
      rfl
    · exact incBalance_stored _ x
    · exact incBalance_balance _ ht folio
  | noShow =>
    simp only [ht] at h
    split at h
    · obtain ⟨b₁, hins, rfl⟩ := Option.map_eq_some_iff.mp h
      obtain ⟨hd, rfl⟩ := insertCharge_some hins
      have hfee : x.charge.type = .noShowFee := by simp [Item.charge, ht]
      refine ⟨fun hi => ?_, [⟨x.folio, x.charge⟩], rfl, rfl, fun folio => ?_⟩
      · exact indexed_post (show (b.audit.hotel.markNoShow x.booking).Indexed from hi) rfl hd
      · simp [roomTotal, hfee, setItem, markNoShow]
    · cases h
      exact .of_eq rfl rfl rfl

theorem postItem_booked (b : Books) (x : Item) (fault : Fault) : Booked b (b.postItem x fault) := by
  have hset (b' : Books) (status : ItemStatus) (reason : Option ItemReason) :
      Booked b' (b'.setItem x status reason) := .of_eq rfl rfl rfl
  have hrun : Booked b (match b.transact x with
      | some b' => if fault = Fault.unanswered then b'.setItem x .failed none else b'
      | none =>
        match x.postingType with
        | .roomCharge => b.setItem x .skipped (some .duplicateChargePrevented)
        | .noShow => b.setItem x .failed none) := by
    cases htr : b.transact x with
    | some b' =>
      simp only
      split
      · exact (transact_booked htr).trans (hset _ _ _)
      · exact transact_booked htr
    | none =>
      simp only
      split <;> exact hset _ _ _
  unfold postItem
  cases fault with
  | aborted => exact hset _ _ _
  | unmarked => exact .refl b
  | none | unanswered =>
    simp only
    split
    · exact hrun
    · exact .refl b

theorem step_booked {t t' : Thread} {m : Move} (h : b.step t m = some (b', t')) : Booked b b' := by
  cases m with
  | raise | crash =>
    cases h
    exact .refl b
  | advance o =>
    simp only [step] at h
    by_cases ht : ∃ run date x xs, t = .posting run date (x :: xs)
    · obtain ⟨run, date, x, xs, rfl⟩ := ht
      cases h
      exact postItem_booked b _ o.fault
    · have hne : ∀ run date x xs, t ≠ .posting run date (x :: xs) :=
        fun run date x xs he => ht ⟨run, date, x, xs, he⟩
      have haudit := advance_audit b o t
      rw [h, Option.map_some] at haudit
      have hhotel := advance_hotel haudit.symm (by
        cases t with
        | posting run date todo =>
          cases todo with
          | nil => rfl
          | cons x xs => exact absurd rfl (hne run date x xs)
        | _ => rfl)
      have hrest : b'.stored = b.stored ∧ b'.balance = b.balance := by
        unfold advance at h
        split at h
        · rename_i x xs
          exact absurd rfl (hne _ _ _ _)
        · obtain ⟨r, -, heq⟩ := Option.map_eq_some_iff.mp h
          cases heq
          exact ⟨rfl, rfl⟩
      exact .of_eq (by rw [hhotel]) hrest.1 hrest.2

end Books

/-- In every run: there is at most one active room charge for a booking and a date, and
the balance of each folio has moved by the totals of the room charges that were inserted on
it since the run began. -/
theorem room_charge_once {p₀ p : Pool Books Thread} (h₀ : books.machine.init p₀)
    (hp : books.machine.Path (fun _ _ => True) p₀ p) :
    (∀ booking date, (p.store.audit.hotel.activeCharges .roomCharge booking date).length ≤ 1) ∧
    p.store.audit.hotel.charges =
      p₀.store.audit.hotel.charges ++ p.store.stored.map FolioCharge.charge ∧
    ∀ folio, p.store.balance folio =
      (p₀.store.balance folio).map (· + roomTotal folio p.store.stored) := by
  have hbooked : Booked p₀.store p.store := by
    refine Machine.Path.relation (I := fun _ => True)
      (R := fun q q' : Pool Books Thread => Booked q.store q'.store) trivial (.refl _)
      (fun q a q' _ hq _ hs => ⟨trivial, hq.trans ?_⟩) hp
    cases a with
    | env e =>
      have he : q.store.env e = q'.store := Option.some.inj (Program.next_env hs).1
      rw [← he]
      cases e <;> exact .of_eq rfl rfl rfl
    | call c =>
      obtain ⟨t, -, hst, -⟩ := Program.next_call hs
      exact hst ▸ .refl _
    | step k m =>
      obtain ⟨t, t', -, hst, -⟩ := Program.next_step hs
      exact Books.step_booked hst
  obtain ⟨⟨-, -, -, hnil, hi⟩, -⟩ := h₀
  obtain ⟨hidx, new, hc, hs, hb⟩ := hbooked
  rw [hnil, nil_append] at hs
  subst hs
  exact ⟨fun booking date => hidx hi .roomCharge booking date, hc, hb⟩

def inHouseBooks : Books where
  audit := firstDay inHouseHotel 10 40
  balance folio := if folio = 7 then some 0 else none

/-- The answer of the transaction is lost after it went through, so the item is posted once
more on the resume: the index refuses the charge, and the balance moves once. -/
theorem room_charge_once_inHouse : ∃ p₀ p, books.machine.init p₀ ∧
    books.machine.Path (fun _ _ => True) p₀ p ∧
    (p.store.audit.items.map Item.reason, p.store.balance 7) =
      ([some .duplicateChargePrevented], some 100) ∧
    (p.store.audit.hotel.activeCharges .roomCharge 1 10).length ≤ 1 ∧
    p.store.balance 7 = (p₀.store.balance 7).map (· + roomTotal 7 p.store.stored) := by
  have h₀ : books.machine.init ⟨inHouseBooks, []⟩ :=
    ⟨⟨rfl, rfl, rfl, rfl, fun _ _ _ => Nat.zero_le 1⟩, rfl⟩
  obtain ⟨p, hp, hv⟩ := Machine.exists_path_of_run (M := books.machine)
    (f := fun p : Pool Books Thread =>
      (p.store.audit.items.map Item.reason, p.store.balance 7))
    (v := ([some .duplicateChargePrevented], some 100))
    (List.flatten [[.call (.start {})], List.replicate 7 (.step 0 (.advance {})),
      [.step 0 (.advance { fault := .unanswered })], List.replicate 3 (.step 0 (.advance {})),
      [.call (.resume 0)], List.replicate 6 (.step 1 (.advance {}))])
    (s := ⟨inHouseBooks, []⟩) (by decide +kernel)
  obtain ⟨honce, -, hbal⟩ := room_charge_once h₀ hp
  exact ⟨_, p, h₀, hp, hv, honce 1 10, hbal 7⟩

end SyrocePms.NightAudit
