import SyrocePms.Lib.Pending
import SyrocePms.Loyalty.Points

/-! When the balance of a member is that of the ledger. Every call owes the ledger or the balance
what it has written to the other alone, and an award sets the balance to what it has computed
from an earlier read. -/

namespace SyrocePms.Loyalty

open Lib Collection

def Pc.debt : Pc → ℤ
  | .awardSet points _ | .awardUndo points => points
  | .earnFresh points .. | .earnTier points .. | .earnInsert points .. => -points
  | .redeemStock cost _ | .redeemBack cost | .redeemFresh cost _ | .redeemInsert cost .. => cost
  | _ => 0

/-- The call has written to the ledger or to the balance, and not yet to the other. -/
def Pc.isHalfDone : Pc → Bool
  | .awardSet .. | .awardUndo _ | .earnFresh .. | .earnTier .. | .earnInsert .. | .redeemStock .. | .redeemBack _
  | .redeemFresh .. | .redeemInsert .. => true
  | _ => false

def Pc.hasMember : Pc → Bool
  | .awardRead .. | .earnRead .. | .redeemRead .. | .returned => false
  | _ => true

def Pc.isAwardSet : Pc → Bool
  | .awardSet .. => true
  | _ => false

def Pc.finds (s : Store) (o : Chance) : Pc → Bool
  | .awardSet _ read => s.member.any fun m => decide (m.balance = read.balance)
  | .awardInsert booking _ _ => s.stayIndex || !s.hasStay booking
  | .earnInsert _ source reference _ =>
    (stayOf source reference).all fun booking => !s.hasStay booking && !s.refuses o booking
  | _ => true

def Pc.isSafe (k : ℕ) (s : Store) (o : Chance) (pc : Pc) : Reply → Bool
  | .answered => pc.finds s o
  | .lost => pc.finds s o && !pc.isAwardSet && (operate k s o pc).all fun r => !r.2.isHalfDone
  | .failed => !pc.isHalfDone || pc.isAwardSet

/-- The steps of sound runs. Operations find what they rely on; a call neither stops nor raises
half way; a member is enrolled with the points of the ledger, and no other programme writes to it. -/
def Sound (p : Pool Store Pc) : Act Env Request Move → Bool
  | .env (.enroll points _ _) => decide (points = p.store.ledger)
  | .env (.foreignRow _ points) => decide (points = 0)
  | .env _ => true
  | .call _ => true
  | .step k (.go o reply) => p.threads[k]?.all fun pc => pc.isSafe k p.store o reply
  | .step k .stop => p.threads[k]?.all fun pc => !pc.isHalfDone

variable {k j : ℕ} {s s' : Store} {o : Chance} {pc pc' : Pc} {p p' : Pool Store Pc} {x : Tx}

theorem debt_eq_zero (h : pc.isHalfDone = false) : pc.debt = 0 := by
  cases pc <;> first | rfl | cases h

/-! ### The ledger and the balance -/

namespace Store

def gap (s : Store) : ℤ := s.member.elim 0 fun m => s.ledger - m.balance

theorem gap_eq {m : Member} (h : s.member = some m) : s.gap = s.ledger - m.balance := by
  rw [gap, h]
  rfl

theorem addTx_eq_some (h : s.addTx x = some s') :
    s'.member = s.member ∧ s'.stayIndex = s.stayIndex ∧ s'.ledger = s.ledger + x.points ∧
      ∀ y, y ∈ s'.transactions ↔ y ∈ s.transactions ∨ y = x := by
  obtain ⟨c, hc, rfl⟩ := Option.map_eq_some_iff.mp h
  exact ⟨rfl, rfl, total_insertOne hc, fun y => mem_insertOne hc⟩

theorem gap_addTx (h : s.addTx x = some s') (hm : s.member.isSome = true) : s'.gap = s.gap + x.points := by
  obtain ⟨hmember, -, hledger, -⟩ := addTx_eq_some h
  obtain ⟨m, hm⟩ := Option.isSome_iff_exists.mp hm
  rw [gap_eq hm, gap_eq (hmember.trans hm), hledger]
  ring

theorem gap_inc (n : ℤ) (hm : s.member.isSome = true) : (s.inc n).gap = s.gap - n := by
  obtain ⟨m, hm⟩ := Option.isSome_iff_exists.mp hm
  simp only [gap, inc, hm, Option.map_some, Option.elim_some, ledger]
  ring

theorem gap_incEarned (n : ℤ) (hm : s.member.isSome = true) : (s.incEarned n).gap = s.gap - n := by
  obtain ⟨m, hm⟩ := Option.isSome_iff_exists.mp hm
  simp only [gap, incEarned, hm, Option.map_some, Option.elim_some, ledger]
  ring

@[simp] theorem gap_setTier (tier : Option ℕ) : (s.setTier tier).gap = s.gap := by
  cases hm : s.member <;> simp [gap, setTier, hm, ledger]

/-- A row is taken out of the ledger. -/
theorem ledger_deleteTx (hx : x ∈ s.transactions) : (s.deleteTx x.id).ledger = s.ledger - x.points := by
  have hne := sumOf_ne (p := fun _ => true) (f := Tx.points) hx
  have hfilter : (fun y : Tx => true && y.id != x.id) = fun y => !decide (y.id = x.id) := by
    funext y
    simp [bne, BEq.beq]
  rw [hfilter] at hne
  simpa [Collection.sumOf, deleteTx, ledger, Collection.total, Collection.deleteMany] using hne

theorem gap_deleteTx (hx : x ∈ s.transactions) (hm : s.member.isSome = true) :
    (s.deleteTx x.id).gap = s.gap - x.points := by
  obtain ⟨m, hm⟩ := Option.isSome_iff_exists.mp hm
  have hm' : (s.deleteTx x.id).member = some m := hm
  rw [gap_eq hm, gap_eq hm', ledger_deleteTx hx]
  ring

end Store

def Pc.HasRow (k : ℕ) (s : Store) : Pc → Prop
  | .awardSet points _ | .awardUndo points => ∃ x ∈ s.transactions, x.id = .call k ∧ x.points = points
  | _ => True

/-- What call `k` can rely on in every state. -/
structure Pc.Fits (k : ℕ) (s : Store) (pc : Pc) : Prop where
  member : pc.hasMember = true → s.member.isSome = true
  row : pc.HasRow k s

theorem gap_operate (h : operate k s o pc = some (s', pc')) (hfits : pc.Fits k s) (hf : pc.finds s o = true) :
    s'.gap - s.gap = pc'.debt - pc.debt := by
  obtain ⟨hm, hrow⟩ := hfits
  cases pc with
  | awardRead booking amount =>
    simp only [operate] at h
    cases hmember : s.member with
    | none =>
      simp only [hmember] at h
      cases h
      simp [Pc.debt]
    | some m =>
      simp only [hmember] at h
      split at h <;> cases h <;> simp [Pc.debt]
  | awardInsert booking points read =>
    simp only [operate] at h
    split at h
    · cases h
      simp [Pc.debt]
    · obtain ⟨s₁, hs₁, h⟩ := Option.map_eq_some_iff.mp h
      cases h
      rw [Store.gap_addTx hs₁ (hm rfl)]
      simp [Pc.debt]
  | awardSet points read =>
    cases h
    obtain ⟨m, hmember⟩ := Option.isSome_iff_exists.mp (hm rfl)
    have hbalance : m.balance = read.balance := by simpa [Pc.finds, hmember] using hf
    simp only [Store.gap, hmember, Option.map_some, Option.elim_some, Pc.debt, Store.ledger]
    omega
  | awardUndo points =>
    cases h
    obtain ⟨x, hx, hid, hpoints⟩ := hrow
    rw [← hid, Store.gap_deleteTx hx (hm rfl), hpoints]
    simp [Pc.debt]
  | earnRead points source reference =>
    simp only [operate] at h
    cases hmember : s.member <;> simp only [hmember] at h <;> cases h <;> simp [Pc.debt]
  | earnFind points source reference =>
    simp only [operate] at h
    split at h <;> cases h <;> simp [Pc.debt]
  | earnInc points source reference =>
    cases h
    rw [Store.gap_incEarned points (hm rfl)]
    simp [Pc.debt]
  | earnFresh points source reference =>
    cases h
    simp [Pc.debt]
  | earnTier points source reference balance =>
    cases h
    simp [Pc.debt]
  | earnInsert points source reference balance =>
    simp only [operate] at h
    split at h
    · rename_i hrefused
      cases hstay : stayOf source reference with
      | none => simp [hstay] at hrefused
      | some booking => simp_all [Pc.finds]
    · obtain ⟨s₁, hs₁, h⟩ := Option.map_eq_some_iff.mp h
      cases h
      rw [Store.gap_addTx hs₁ (hm rfl)]
      simp [Pc.debt]
  | redeemRead cost reward =>
    simp only [operate] at h
    cases hmember : s.member <;> simp only [hmember] at h <;> cases h <;> simp [Pc.debt]
  | redeemInc cost reward =>
    simp only [operate] at h
    split at h
    · cases h
      rw [Store.gap_inc (-cost) (hm rfl)]
      simp [Pc.debt]
    · cases h
      simp [Pc.debt]
  | redeemStock cost reward =>
    cases h
    cases o.inStock <;> simp [Pc.debt]
  | redeemBack cost =>
    cases h
    rw [Store.gap_inc cost (hm rfl)]
    simp [Pc.debt]
  | redeemFresh cost reward =>
    cases h
    simp [Pc.debt]
  | redeemInsert cost reward balance =>
    obtain ⟨s₁, hs₁, h⟩ := Option.map_eq_some_iff.mp h
    cases h
    rw [Store.gap_addTx hs₁ (hm rfl)]
    simp [Pc.debt]
  | returned => cases h

theorem member_operate (h : operate k s o pc = some (s', pc')) : s'.member.isSome = s.member.isSome := by
  cases pc <;> simp only [operate] at h
  case awardInsert =>
    split at h
    · cases h
      rfl
    · obtain ⟨s₁, hs₁, h⟩ := Option.map_eq_some_iff.mp h
      cases h
      rw [(Store.addTx_eq_some hs₁).1]
  case earnInsert =>
    split at h
    · cases h
      rfl
    · obtain ⟨s₁, hs₁, h⟩ := Option.map_eq_some_iff.mp h
      cases h
      rw [(Store.addTx_eq_some hs₁).1]
  case redeemInsert =>
    obtain ⟨s₁, hs₁, h⟩ := Option.map_eq_some_iff.mp h
    cases h
    rw [(Store.addTx_eq_some hs₁).1]
  all_goals
    (repeat' split at h) <;> cases h <;> simp [Store.inc, Store.incEarned, Store.setTier, Store.deleteTx]

/-- What an operation of call `k` does to the ledger: nothing, a row of its own that is the first of
its stay, or the deletion of its own row. -/
inductive Recorded (k : ℕ) (s s' : Store) : Prop
  | same (h : s'.transactions = s.transactions)
  | added (x : Tx) (hid : x.id = .call k) (h : s.transactions.insertOne x = some s'.transactions)
      (hfirst : ∀ booking, x.isOfStay booking = true → s.hasStay booking = false)
  | deleted (h : s'.transactions = s.transactions.deleteMany fun x => decide (x.id = .call k))

theorem Recorded.addTx (h : s.addTx x = some s') (hid : x.id = .call k)
    (hfirst : ∀ booking, x.isOfStay booking = true → s.hasStay booking = false) : Recorded k s s' := by
  obtain ⟨c, hc, rfl⟩ := Option.map_eq_some_iff.mp h
  exact .added x hid hc hfirst

theorem hasStay_eq_false {booking : ℕ} (hf : s.stayIndex = true ∨ s.hasStay booking = false)
    (hr : s.refuses o booking = false) : s.hasStay booking = false := by
  rcases hf with hindex | hnone
  · simp only [Store.refuses, hindex, Bool.true_and, Bool.or_eq_false_iff] at hr
    exact hr.2
  · exact hnone

theorem recorded_operate (h : operate k s o pc = some (s', pc')) (hf : pc.finds s o = true) : Recorded k s s' := by
  cases pc <;> simp only [operate] at h
  case awardInsert booking points read =>
    split at h
    · cases h
      exact .same rfl
    · rename_i hrefused
      obtain ⟨s₁, hs₁, h⟩ := Option.map_eq_some_iff.mp h
      cases h
      refine .addTx hs₁ rfl fun b hb => ?_
      obtain rfl : booking = b := by simpa [Tx.isOfStay] using hb
      exact hasStay_eq_false (by simpa [Pc.finds] using hf) (by simpa using hrefused)
  case earnInsert points source reference balance =>
    split at h
    · cases h
      exact .same rfl
    · obtain ⟨s₁, hs₁, h⟩ := Option.map_eq_some_iff.mp h
      cases h
      refine .addTx hs₁ rfl fun b hb => ?_
      have hboth : source = .stay ∧ reference = some b := by simpa [Tx.isOfStay] using hb
      obtain ⟨rfl, rfl⟩ := hboth
      simp only [Pc.finds, stayOf, Option.all_some, Bool.and_eq_true, Bool.not_eq_true'] at hf
      exact hf.1
  case redeemInsert =>
    obtain ⟨s₁, hs₁, h⟩ := Option.map_eq_some_iff.mp h
    cases h
    exact .addTx hs₁ rfl fun b hb => by simp [Tx.isOfStay] at hb
  case awardUndo =>
    cases h
    exact .deleted rfl
  all_goals
    (repeat' split at h) <;> cases h <;> exact .same rfl

/-- The row of another call stays. -/
theorem Recorded.hasRow (h : Recorded k s s') (hne : j ≠ k) (hrow : pc.HasRow j s) : pc.HasRow j s' := by
  have hkeep : ∀ x ∈ s.transactions, x.id = .call j → x ∈ s'.transactions := by
    intro x hx hid
    cases h with
    | same h => rwa [h]
    | added y _ h => exact (mem_insertOne h).mpr (.inl hx)
    | deleted h =>
      rw [h, mem_deleteMany, hid]
      exact ⟨hx, by simpa using hne⟩
  cases pc <;> first
    | trivial
    | obtain ⟨x, hx, hid, hpoints⟩ := hrow
      exact ⟨x, hkeep x hx hid, hid, hpoints⟩

theorem Recorded.oncePerStay (h : Recorded k s s') (hs : s.OncePerStay) : s'.OncePerStay := by
  cases h with
  | same h =>
    unfold Store.OncePerStay
    rw [h]
    exact hs
  | deleted h =>
    intro booking x hx y hy hxb hyb
    rw [h, mem_deleteMany] at hx hy
    exact hs booking x hx.1 y hy.1 hxb hyb
  | added z _ h hfirst =>
    intro booking x hx y hy hxb hyb
    have hnot : ∀ v ∈ s.transactions, v.isOfStay booking = true → z.isOfStay booking = true → False := by
      intro v hv hvb hzb
      have hnone := any_eq_false.mp (hfirst booking hzb) v hv
      exact hnone hvb
    obtain hx | rfl := (mem_insertOne h).mp hx
    · obtain hy | rfl := (mem_insertOne h).mp hy
      · exact hs booking x hx y hy hxb hyb
      · exact (hnot x hx hxb hyb).elim
    · obtain hy | rfl := (mem_insertOne h).mp hy
      · exact (hnot y hy hyb hxb).elim
      · rfl

/-- A call that has gone on fits the store that it leaves. -/
theorem fits_operate (h : operate k s o pc = some (s', pc')) (hfits : pc.Fits k s) : pc'.Fits k s' := by
  refine ⟨fun hm => ?_, ?_⟩
  · rw [member_operate h]
    cases hmember : s.member with
    | some m => rfl
    | none =>
      cases pc with
      | awardRead | earnRead | redeemRead =>
        simp only [operate, hmember] at h
        cases h
        cases hm
      | returned => cases h
      | _ => simpa [hmember] using hfits.member rfl
  · cases pc <;> simp only [operate] at h
    case awardInsert =>
      split at h
      · cases h
        trivial
      · obtain ⟨s₁, hs₁, h⟩ := Option.map_eq_some_iff.mp h
        cases h
        exact ⟨_, ((Store.addTx_eq_some hs₁).2.2.2 _).mpr (.inr rfl), rfl, rfl⟩
    case earnInsert =>
      split at h
      · cases h
        trivial
      · obtain ⟨s₁, hs₁, h⟩ := Option.map_eq_some_iff.mp h
        cases h
        trivial
    case redeemInsert =>
      obtain ⟨s₁, hs₁, h⟩ := Option.map_eq_some_iff.mp h
      cases h
      trivial
    case redeemStock => cases h; cases o.inStock <;> trivial
    all_goals
      (repeat' split at h) <;> cases h <;> trivial

/-! ### Runs -/

theorem step_sound {m : Move} (h : step k s pc m = some (s', pc')) (hfits : pc.Fits k s)
    (hsound : ∀ o reply, m = .go o reply → pc.isSafe k s o reply = true) (hstop : m = .stop → pc.isHalfDone = false) :
    s'.gap - s.gap = pc'.debt - pc.debt ∧ s'.member.isSome = s.member.isSome ∧ Recorded k s s' ∧ pc'.Fits k s' := by
  have hraised : pc.isHalfDone = false ∨ pc.isAwardSet = true →
      (Pc.raised pc).debt = pc.debt ∧ (Pc.raised pc).Fits k s := by
    intro hpc
    cases pc <;> simp only [Pc.isHalfDone, Pc.isAwardSet, reduceCtorEq, or_self, or_false] at hpc <;>
      first
      | exact ⟨rfl, fun _ => hfits.member rfl, hfits.row⟩
      | exact ⟨rfl, fun hm => (by cases hm), trivial⟩
  cases m with
  | stop =>
    cases h
    refine ⟨?_, rfl, .same rfl, fun hm => (by cases hm), trivial⟩
    rw [debt_eq_zero (hstop rfl), sub_self]
    rfl
  | go o reply =>
    have hsafe := hsound o reply rfl
    cases reply with
    | answered => exact ⟨gap_operate h hfits hsafe, member_operate h, recorded_operate h hsafe, fits_operate h hfits⟩
    | failed =>
      obtain ⟨r, -, h⟩ := Option.map_eq_some_iff.mp h
      cases h
      obtain ⟨hdebt, hfits'⟩ := hraised (by simpa [Pc.isSafe] using hsafe)
      exact ⟨by rw [hdebt, sub_self, sub_self], rfl, .same rfl, hfits'⟩
    | lost =>
      obtain ⟨⟨s₁, pc₁⟩, hop, h⟩ := Option.map_eq_some_iff.mp h
      cases h
      simp only [Pc.isSafe, hop, Option.all_some, Bool.and_eq_true, Bool.not_eq_true'] at hsafe
      obtain ⟨⟨hf, hset⟩, hhalf⟩ := hsafe
      have hret : Pc.raised pc = .returned := by
        cases pc <;> first | rfl | cases hset
      have hgap := gap_operate hop hfits hf
      rw [debt_eq_zero hhalf] at hgap
      rw [hret]
      exact ⟨hgap, member_operate hop, recorded_operate hop hf, fun hm => (by cases hm), trivial⟩

theorem oncePerStay_addTx (h : s.addTx x = some s') (hx : x.source ≠ some .stay) (hs : s.OncePerStay) :
    s'.OncePerStay := by
  obtain ⟨-, -, -, hmem⟩ := Store.addTx_eq_some h
  have hnot : ∀ booking, x.isOfStay booking = false := fun booking => by simp [Tx.isOfStay, hx]
  intro booking y hy z hz hyb hzb
  obtain hy | rfl := (hmem y).mp hy
  · obtain hz | rfl := (hmem z).mp hz
    · exact hs booking y hy z hz hyb hzb
    · rw [hnot] at hzb
      cases hzb
  · rw [hnot] at hyb
    cases hyb

/-- What happens beside the calls in a sound run. -/
theorem env_sound {e : Env} (h : p.store.env e = some s') (hc : Sound p (.env e) = true) :
    s'.gap = p.store.gap ∧ (p.store.member.isSome = true → s'.member.isSome = true) ∧
      (∀ x ∈ p.store.transactions, x ∈ s'.transactions) ∧ (p.store.OncePerStay → s'.OncePerStay) := by
  cases e with
  | enroll points lifetime tier =>
    simp only [Store.env] at h
    split at h
    · cases h
    · rename_i hnone
      cases h
      have hpoints : points = p.store.ledger := by simpa [Sound] using hc
      have hmember : p.store.member = none := by simpa using hnone
      refine ⟨?_, fun _ => rfl, fun x hx => hx, id⟩
      simp [Store.gap, hmember, hpoints, Store.ledger]
  | settle id points =>
    simp only [Store.env] at h
    split at h
    · rename_i hsome
      have hm : p.store.member.isSome = true := by
        cases hmember : p.store.member with
        | none => simp [hmember] at hsome
        | some m => rfl
      have hinc : (p.store.inc points).member.isSome = true := by simpa [Store.inc] using hm
      obtain ⟨hmember, -, -, hmem⟩ := Store.addTx_eq_some h
      refine ⟨?_, fun _ => hmember ▸ hinc, fun x hx => (hmem x).mpr (.inl hx), fun hs => ?_⟩
      · rw [Store.gap_addTx h hinc, Store.gap_inc points hm]
        ring
      · exact oncePerStay_addTx h (by simp) hs
    · cases h
  | foreignRow id points =>
    obtain rfl : points = 0 := by simpa [Sound] using hc
    obtain ⟨hmember, -, -, hmem⟩ := Store.addTx_eq_some h
    refine ⟨?_, fun hm => hmember ▸ hm, fun x hx => (hmem x).mpr (.inl hx), oncePerStay_addTx h (by simp)⟩
    cases hm : p.store.member with
    | none => simp [Store.gap, hmember, hm]
    | some m => rw [Store.gap_addTx h (by rw [hm]; rfl), add_zero]
  | ensureIndex =>
    simp only [Store.env] at h
    split at h
    · cases h
      exact ⟨rfl, id, fun x hx => hx, id⟩
    · cases h

theorem fits_of_subset (hfits : pc.Fits k s) (hm : s.member.isSome = true → s'.member.isSome = true)
    (hsub : ∀ x ∈ s.transactions, x ∈ s'.transactions) : pc.Fits k s' := by
  refine ⟨fun h => hm (hfits.member h), ?_⟩
  have hrow := hfits.row
  cases pc <;> first
    | trivial
    | obtain ⟨x, hx, hid, hpoints⟩ := hrow
      exact ⟨x, hsub x hx, hid, hpoints⟩

theorem preserves : calls.Preserves (fun p a => Sound p a = true) Store.OncePerStay (fun s k pc => pc.Fits k s)
    fun _ _ => True where
  symm _ _ _ := trivial
  init s h := h.2
  env p e s' hi hc he := by
    obtain ⟨-, hm, hsub, hs⟩ := env_sound he hc
    exact ⟨hs hi.store, fun k pc hpc => fits_of_subset (hi.thread k pc hpc) hm hsub⟩
  call p r pc hi hc hcall := by
    cases hcall
    refine ⟨⟨fun hm => ?_, ?_⟩, fun _ _ => trivial⟩
    · cases r <;> simp only [Request.begin] at hm <;> (try split at hm) <;> cases hm
    · cases r <;> simp only [Request.begin] <;> (try split) <;> trivial
  step p k m pc s' pc' hi hc ht hstep := by
    obtain ⟨-, hmember, hrec, hfits⟩ := step_sound hstep (hi.thread k pc ht)
      (fun o reply hm => by subst hm; simpa [Sound, ht] using hc) (fun hm => by subst hm; simpa [Sound, ht] using hc)
    refine ⟨hrec.oncePerStay hi.store, hfits, fun j u hne hu => ⟨⟨fun hm => ?_, ?_⟩, trivial⟩⟩
    · rw [hmember]
      exact (hi.thread j u hu).member hm
    · exact hrec.hasRow hne (hi.thread j u hu).row

theorem gap_eq_inFlight (hp : calls.machine.Reach (fun p a => Sound p a = true) p) :
    p.store.gap = Pool.inFlight Pc.debt p.threads := by
  refine preserves.reach_pool (Q := fun p => p.store.gap = Pool.inFlight Pc.debt p.threads) (fun p h => ?_)
    (fun p a p' hi hq hc hs => ?_) hp
  · obtain ⟨⟨hbalance, -⟩, hnil⟩ := h
    rw [hnil, Pool.inFlight_nil]
    cases hm : p.store.member with
    | none => simp [Store.gap, hm]
    | some m => rw [Store.gap_eq hm, hbalance m hm, sub_self]
  · cases a with
    | env e =>
      obtain ⟨he, hts⟩ := Program.next_env hs
      rw [(env_sound he hc).1, hts, hq]
    | call r =>
      obtain ⟨pc, hcall, hst, hts⟩ := Program.next_call hs
      cases hcall
      have hzero : r.begin.debt = 0 := by
        cases r <;> simp only [Request.begin] <;> (try split) <;> rfl
      rw [hst, hts, Pool.inFlight_append_one, hzero, add_zero, hq]
    | step k m =>
      obtain ⟨pc, pc', ht, hstep, hts⟩ := Program.next_step hs
      obtain ⟨hgap, -⟩ := step_sound hstep (hi.thread k pc ht)
        (fun o reply hm => by subst hm; simpa [Sound, ht] using hc)
        (fun hm => by subst hm; simpa [Sound, ht] using hc)
      rw [hts, Pool.inFlight_set ht, ← hq]
      omega

/-- In a sound run no stay has two rows in the ledger, and when no call is in flight the balance of
the member is the sum of the ledger. -/
theorem balance_eq_ledger (hp : calls.machine.Reach (fun p a => Sound p a = true) p) :
    p.store.OncePerStay ∧
      ((∀ pc ∈ p.threads, pc = .returned) → ∀ m, p.store.member = some m → m.balance = p.store.ledger) := by
  refine ⟨(preserves.reach hp).store, fun hret m hm => ?_⟩
  have hzero : Pool.inFlight Pc.debt p.threads = 0 := by
    refine Pool.inFlight_eq_zero fun pc hpc => ?_
    rw [hret pc hpc]
    rfl
  have hgap := gap_eq_inFlight hp
  rw [Store.gap_eq hm, hzero] at hgap
  omega

/-- The balance, the points of the rows, and whether all calls have returned. -/
def account (p : Pool Store Pc) : Option ℤ × List ℤ × Bool :=
  (p.store.member.map Member.balance, p.store.transactions.rows.map Tx.points,
    p.threads.all fun pc => decide (pc = .returned))

def notEnrolled : Pool Store Pc := ⟨⟨none, Collection.empty, false⟩, []⟩

theorem init_notEnrolled : calls.machine.init notEnrolled :=
  ⟨⟨fun m hm => (by cases hm), fun booking x hx => absurd hx not_mem_empty⟩, rfl⟩

def go : Move := .go {} .answered

/-- A stay of a thousand, awarded twice, fifty points more, and a reward of thirty points. -/
def oneByOne : List (Act Env Request Move) :=
  List.flatten [[.env (.enroll 0 0 none), .env .ensureIndex], [.call (.award 1 1000), .call (.award 1 1000)],
    [.step 0 go, .step 1 go, .step 0 go, .step 0 go, .step 1 go], [.call (.earn 50 (.other 1) none)],
    List.replicate 6 (.step 2 go), [.call (.redeem 30 4)], List.replicate 5 (.step 3 go)]

theorem balance_eq_ledger_oneByOne : ∃ p, calls.machine.Reach (fun p a => Sound p a = true) p ∧
    account p = (some 120, [100, 50, -30], true) ∧ ∀ m, p.store.member = some m → m.balance = p.store.ledger := by
  obtain ⟨p, hp, hv⟩ := Machine.exists_reach_of_runUnder (M := calls.machine) (C := fun p a => Sound p a = true)
    (f := account) (v := (some 120, [100, 50, -30], true)) oneByOne init_notEnrolled (by decide +kernel)
  refine ⟨p, hp, hv, (balance_eq_ledger hp).2 fun pc hpc => ?_⟩
  have hret : (p.threads.all fun pc => decide (pc = .returned)) = true := congrArg (fun v => v.2.2) hv
  simpa using List.all_eq_true.mp hret pc hpc

/-- Fifty points are earned between the read of an award and its write. -/
def interleaved : List (Act Env Request Move) :=
  List.flatten [[.env (.enroll 0 0 none), .env .ensureIndex], [.call (.award 1 1000), .step 0 go],
    [.call (.earn 50 (.other 1) none)], List.replicate 6 (.step 1 go), [.step 0 go, .step 0 go]]

/-- The award writes a hundred over the fifty points. -/
theorem balance_ne_ledger_interleaved : ∃ p, calls.machine.Reachable p ∧ (∀ pc ∈ p.threads, pc = .returned) ∧
    ∃ m, p.store.member = some m ∧ m.balance ≠ p.store.ledger := by
  obtain ⟨p, hp, hv⟩ := Machine.exists_reachable_of_run (M := calls.machine) (f := account)
    (v := (some 100, [50, 100], true)) interleaved init_notEnrolled (by decide +kernel)
  obtain ⟨hbalance, hrest⟩ := Prod.mk.inj hv
  obtain ⟨hpoints, hret⟩ := Prod.mk.inj hrest
  refine ⟨p, hp, fun pc hpc => by simpa using List.all_eq_true.mp hret pc hpc, ?_⟩
  obtain ⟨m, hm, hm'⟩ := Option.map_eq_some_iff.mp hbalance
  refine ⟨m, hm, ?_⟩
  rw [hm', Store.ledger, Collection.total, hpoints]
  decide

end SyrocePms.Loyalty
