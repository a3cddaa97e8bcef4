import SyrocePms.Lib.CollectionSum
import SyrocePms.Lib.Decimal
import SyrocePms.Lib.Threads

/-! The points of one loyalty member: the awards for stays, and the other movements, which earn
and redeem points. One operation of a call on the database is one step. The balance is a field of
the member, and each movement adds a row to the ledger. -/

namespace SyrocePms.Loyalty

open Lib

/-! ### Members and their ledger -/

inductive Source where
  | stay
  | other (n : ℕ)
  deriving DecidableEq

/-- The id of a row is drawn afresh by the call that inserts it. -/
inductive TxId where
  | call (k : ℕ)
  | other (n : ℕ)
  deriving DecidableEq

/-- A row of `loyalty_transactions` of the member. -/
structure Tx where
  id : TxId
  source : Option Source
  reference : Option ℕ
  points : ℤ
  balanceAfter : Option ℤ := none

structure Member where
  balance : ℤ
  lifetime : ℤ
  tierId : Option ℕ := none
  deriving DecidableEq

/-- The member, once enrolled, with the ledger. `stayIndex` says that the unique index
`loyalty_tx_stay_unique` has been created. -/
structure Store where
  member : Option Member
  transactions : Collection Tx Tx.id
  stayIndex : Bool

def Tx.isOfStay (booking : ℕ) (x : Tx) : Bool :=
  decide (x.source = some .stay) && decide (x.reference = some booking)

namespace Store

variable (s : Store)

def ledger : ℤ := s.transactions.total Tx.points

def hasStay (booking : ℕ) : Bool := s.transactions.any (Tx.isOfStay booking)

def addTx (x : Tx) : Option Store := (s.transactions.insertOne x).map fun transactions => { s with transactions }

def deleteTx (id : TxId) : Store :=
  { s with transactions := s.transactions.deleteMany fun x => decide (x.id = id) }

def inc (points : ℤ) : Store :=
  { s with member := s.member.map fun m => { m with balance := m.balance + points } }

/-- `$inc` of the balance and of the lifetime points. -/
def incEarned (points : ℤ) : Store :=
  { s with member := s.member.map fun m => { m with balance := m.balance + points, lifetime := m.lifetime + points } }

def setTier (tier : Option ℕ) : Store :=
  { s with member := s.member.map fun m => { m with tierId := tier.or m.tierId } }

end Store

/-! ### Calls -/

def pointsPerCurrencyUnit : ℚ := 1 / 10

def awardedPoints (amount multiplier : ℚ) : ℤ :=
  Decimal.roundEven (Decimal.roundEven (amount * pointsPerCurrencyUnit) * multiplier)

inductive Request where
  /-- `award_points_for_stay`. -/
  | award (booking : ℕ) (amount : ℚ)
  /-- `earn_points`. -/
  | earn (points : ℕ) (source : Source) (reference : Option ℕ)
  /-- `redeem_reward`, with the cost of the reward. -/
  | redeem (cost : ℕ) (reward : ℕ)

/-- Where a call stands: the operation that comes next, with what it knows. -/
inductive Pc where
  | awardRead (booking : ℕ) (amount : ℚ)
  | awardInsert (booking : ℕ) (points : ℤ) (read : Member)
  | awardSet (points : ℤ) (read : Member)
  | awardUndo (points : ℤ)
  | earnRead (points : ℕ) (source : Source) (reference : Option ℕ)
  | earnFind (points : ℤ) (source : Source) (reference : Option ℕ)
  | earnInc (points : ℤ) (source : Source) (reference : Option ℕ)
  | earnFresh (points : ℤ) (source : Source) (reference : Option ℕ)
  | earnTier (points : ℤ) (source : Source) (reference : Option ℕ) (balance : ℤ)
  | earnInsert (points : ℤ) (source : Source) (reference : Option ℕ) (balance : ℤ)
  | redeemRead (cost : ℕ) (reward : ℕ)
  | redeemInc (cost : ℕ) (reward : ℕ)
  | redeemStock (cost : ℕ) (reward : ℕ)
  | redeemBack (cost : ℕ)
  | redeemFresh (cost : ℕ) (reward : ℕ)
  | redeemInsert (cost : ℕ) (reward : ℕ) (balance : ℤ)
  | returned
  deriving DecidableEq

def Request.begin : Request → Pc
  | .award booking amount => if amount ≤ 0 then .returned else .awardRead booking amount
  | .earn points source reference => .earnRead points source reference
  | .redeem cost reward => .redeemRead cost reward

/-- What a step cannot foresee: the multiplier of the member's tier, the tier that the lifetime
points give, whether another guest has a row of the same source and reference, and whether the
reward is left. -/
structure Chance where
  multiplier : ℚ := 1
  newTier : Option ℕ := none
  taken : Bool := false
  inStock : Bool := true

/-- The unique index refuses a row of a stay. -/
def Store.refuses (s : Store) (o : Chance) (booking : ℕ) : Bool := s.stayIndex && (o.taken || s.hasStay booking)

def stayOf (source : Source) (reference : Option ℕ) : Option ℕ :=
  match source with
  | .stay => reference
  | .other _ => none

def operate (k : ℕ) (s : Store) (o : Chance) : Pc → Option (Store × Pc)
  | .awardRead booking amount =>
    match s.member with
    | none => some (s, .returned)
    | some m =>
      if awardedPoints amount o.multiplier ≤ 0 then some (s, .returned)
      else some (s, .awardInsert booking (awardedPoints amount o.multiplier) m)
  | .awardInsert booking points read =>
    if s.refuses o booking then some (s, .returned)
    else (s.addTx ⟨.call k, some .stay, some booking, points, some (read.balance + points)⟩).map
      fun s' => (s', .awardSet points read)
  | .awardSet points read =>
    some ({ s with
      member := s.member.map fun m =>
        ⟨read.balance + points, read.lifetime + points, o.newTier.or m.tierId⟩ }, .returned)
  | .awardUndo _ => some (s.deleteTx (.call k), .returned)
  | .earnRead points source reference =>
    match s.member with
    | none => some (s, .returned)
    | some _ => some (s, .earnFind (Decimal.roundEven (points * o.multiplier)) source reference)
  | .earnFind points source reference =>
    if reference.isSome && (o.taken || s.transactions.any fun x =>
        decide (x.source = some source) && decide (x.reference = reference)) then some (s, .returned)
    else some (s, .earnInc points source reference)
  | .earnInc points source reference => some (s.incEarned points, .earnFresh points source reference)
  | .earnFresh points source reference =>
    some (s, .earnTier points source reference ((s.member.map Member.balance).getD 0))
  | .earnTier points source reference balance =>
    some (s.setTier o.newTier, .earnInsert points source reference balance)
  | .earnInsert points source reference balance =>
    if (stayOf source reference).any (s.refuses o) then some (s, .returned)
    else (s.addTx ⟨.call k, some source, reference, points, some balance⟩).map fun s' => (s', .returned)
  | .redeemRead cost reward =>
    match s.member with
    | none => some (s, .returned)
    | some _ => some (s, .redeemInc cost reward)
  | .redeemInc cost reward =>
    if s.member.any fun m => decide ((cost : ℤ) ≤ m.balance) then some (s.inc (-cost), .redeemStock cost reward)
    else some (s, .returned)
  | .redeemStock cost reward => some (s, if o.inStock then .redeemFresh cost reward else .redeemBack cost)
  | .redeemBack cost => some (s.inc cost, .returned)
  | .redeemFresh cost reward => some (s, .redeemInsert cost reward ((s.member.map Member.balance).getD 0))
  | .redeemInsert cost reward balance =>
    (s.addTx ⟨.call k, none, some reward, -cost, some balance⟩).map fun s' => (s', .returned)
  | .returned => none

/-- An operation is answered, its answer is lost, or it fails. -/
inductive Reply where
  | answered
  | lost
  | failed

/-- A call goes on, or is stopped for good. -/
inductive Move where
  | go (o : Chance) (reply : Reply)
  | stop

/-- Where an exception leads: an award whose update raises deletes its row again. -/
def Pc.raised : Pc → Pc
  | .awardSet points _ => .awardUndo points
  | _ => .returned

def step (k : ℕ) (s : Store) (pc : Pc) : Move → Option (Store × Pc)
  | .go o .answered => operate k s o pc
  | .go o .lost => (operate k s o pc).map fun r => (r.1, pc.raised)
  | .go o .failed => (operate k s o pc).map fun _ => (s, pc.raised)
  | .stop => some (s, .returned)

/-! ### Beside the calls -/

inductive Env where
  /-- `enroll_member`, with the points that it is given. -/
  | enroll (points lifetime : ℤ) (tier : Option ℕ)
  /-- A settlement of a folio, or its reversal: one transaction. -/
  | settle (id : ℕ) (points : ℤ)
  /-- A row of the guest that another programme of points writes. -/
  | foreignRow (id : ℕ) (points : ℤ)
  /-- `_ensure_indexes`, when it creates the index. -/
  | ensureIndex

/-- No stay has two rows. -/
def Store.OncePerStay (s : Store) : Prop :=
  ∀ booking, ∀ x ∈ s.transactions, ∀ y ∈ s.transactions, x.isOfStay booking = true → y.isOfStay booking = true → x = y

def Store.stays (s : Store) : List (Option ℕ) :=
  (s.transactions.rows.filter fun x => decide (x.source = some .stay) && x.reference.isSome).map Tx.reference

def Store.env (s : Store) : Env → Option Store
  | .enroll points lifetime tier =>
    if s.member.isSome then none else some { s with member := some ⟨points, lifetime, tier⟩ }
  | .settle id points =>
    if s.member.any fun m => decide (0 ≤ points) || decide (0 ≤ m.balance + points) then
      (s.inc points).addTx ⟨.other id, some (.other 0), some id, points, none⟩
    else none
  | .foreignRow id points => s.addTx ⟨.other id, none, none, points, none⟩
  | .ensureIndex => if s.stays.Nodup then some { s with stayIndex := true } else none

def calls : Program Store Pc Env Request Move where
  init s := (∀ m, s.member = some m → m.balance = s.ledger) ∧ s.OncePerStay
  env := Store.env
  call _ r := some r.begin
  step := step

end SyrocePms.Loyalty
