import SyrocePms.Lib.Collection
import SyrocePms.Lib.Transaction
import SyrocePms.PosCheck.Pricing
import SyrocePms.Lib.Threads

/-! What an order needs of the ingredients. Names stand for what is left of them after the strip
and in lower case; a missing one is `none`. -/

namespace SyrocePms.RecipeStock

open Lib List

structure RecipeLine where
  ingredient : Option ℕ
  quantity : ℚ

/-- A recipe under its id, menu item, dish name and menu item name. -/
structure Recipe where
  names : List ℕ
  lines : List RecipeLine

/-- An item of an order, under its recipe, menu item and name in this order. -/
structure Item where
  names : List ℕ
  quantity : ℚ

/-- `stock_requirements`: ingredients with their quantities. -/
abbrev Needs := List (ℕ × ℚ)

/-- `round(x, 4)`. -/
def round4 (x : ℚ) : ℚ := Decimal.roundEven (x * 10000) / 10000

def lookup (recipes : List Recipe) (name : ℕ) : Option Recipe :=
  (recipes.filter fun r => name ∈ r.names).getLast?

def recipeOf (recipes : List Recipe) (item : Item) : Option Recipe := item.names.findSome? (lookup recipes)

def addNeed (iid : ℕ) (qty : ℚ) : Needs → Needs
  | [] => [(iid, round4 qty)]
  | x :: needs => if x.1 = iid then (iid, round4 (x.2 + qty)) :: needs else x :: addNeed iid qty needs

/-- A line of the recipe of an item. `none` is the error 409. -/
def addLine (item : Item) (needs : Needs) (line : RecipeLine) : Option Needs :=
  let qty := line.quantity * item.quantity
  if qty < 0 ∨ (0 < qty ∧ line.ingredient = none) then none
  else
    match line.ingredient with
    | some iid => some (if 0 < qty then addNeed iid qty needs else needs)
    | none => some needs

def addItem (recipes : List Recipe) (needs : Needs) (item : Item) : Option Needs :=
  match recipeOf recipes item with
  | some recipe => recipe.lines.foldlM (addLine item) needs
  | none => some needs

def stockRequirements (recipes : List Recipe) (items : List Item) : Option Needs :=
  items.foldlM (addItem recipes) []

/-! ### Quantities are not negative -/

def Needs.Nonneg (needs : Needs) : Prop := ∀ x ∈ needs, 0 ≤ x.2

variable {needs needs' : Needs} {item : Item}

theorem round4_nonneg {x : ℚ} (h : 0 ≤ x) : 0 ≤ round4 x := by
  have hround : 0 ≤ Decimal.roundEven (x * 10000) := Decimal.le_roundEven (by push_cast; positivity)
  have hcast : (0 : ℚ) ≤ Decimal.roundEven (x * 10000) := by exact_mod_cast hround
  exact div_nonneg hcast (by norm_num)

theorem addNeed_nonneg {iid : ℕ} {qty : ℚ} (hq : 0 ≤ qty) (h : needs.Nonneg) : (addNeed iid qty needs).Nonneg := by
  induction needs with
  | nil =>
    intro x hx
    obtain rfl := mem_singleton.mp hx
    exact round4_nonneg hq
  | cons y needs ih =>
    have hy := h y mem_cons_self
    have hrest : Needs.Nonneg needs := fun x hx => h x (mem_cons_of_mem y hx)
    unfold addNeed
    split
    · intro x hx
      obtain rfl | hx := mem_cons.mp hx
      · exact round4_nonneg (add_nonneg hy hq)
      · exact hrest x hx
    · intro x hx
      obtain rfl | hx := mem_cons.mp hx
      · exact hy
      · exact ih hrest x hx

theorem addLine_nonneg {line : RecipeLine} (h : needs.Nonneg) (hs : addLine item needs line = some needs') :
    needs'.Nonneg := by
  unfold addLine at hs
  dsimp only at hs
  split at hs
  · cases hs
  · split at hs
    · cases hs
      split
      · exact addNeed_nonneg (le_of_lt ‹_›) h
      · exact h
    · cases hs
      exact h

/-- What every step of a fold keeps, the fold keeps. -/
theorem foldlM_invariant {α β : Type*} {f : β → α → Option β} {J : β → Prop}
    (hstep : ∀ b x b', J b → f b x = some b' → J b') {l : List α} {b b' : β} (hb : J b)
    (h : l.foldlM f b = some b') : J b' := by
  induction l generalizing b with
  | nil =>
    cases h
    exact hb
  | cons x l ih =>
    obtain ⟨b₁, hx, hl⟩ := Option.bind_eq_some_iff.mp h
    exact ih (hstep b x b₁ hb hx) hl

theorem stockRequirements_nonneg {recipes : List Recipe} {items : List Item}
    (h : stockRequirements recipes items = some needs) : needs.Nonneg := by
  refine foldlM_invariant (fun b item b' hb hs => ?_) (fun x hx => absurd hx not_mem_nil) h
  unfold addItem at hs
  split at hs
  · exact foldlM_invariant (fun b line b' => addLine_nonneg) hb hs
  · cases hs
    exact hb

end SyrocePms.RecipeStock

/-! The stock work of an order: one transaction that consumes what the order needs, and one that
gives back what is not reversed. Orders are closed and refunded in transactions of their own. -/

namespace SyrocePms.RecipeStock

open Lib PosCheck

inductive JobStatus
  | pending
  | running
  | failed
  | completed
  deriving DecidableEq

/-- `consumption` is `stock_consumption_status`, `restore` is `stock_restore_status`; `paid` and
`refunded` are those of the sale. -/
structure SoldOrder where
  id : ℕ
  items : List Item
  status : Status := .pending
  paymentStatus : PaymentStatus := .unpaid
  paid : ℤ := 0
  refunded : ℤ := 0
  requirements : Option Needs := none
  consumption : Option JobStatus := none
  restore : Option JobStatus := none

structure Ingredient where
  id : ℕ
  stock : ℚ
  deriving DecidableEq

/-- `pos:{order}:{ingredient}`, or the uuid of a row that predates the jobs. -/
inductive RowId
  | job (order ingredient : ℕ)
  | legacy (n : ℕ)
  deriving DecidableEq

def RowId.isJob : RowId → Bool
  | .job _ _ => true
  | .legacy _ => false

/-- A row of `stock_consumptions`. -/
structure Consumption where
  id : RowId
  order : ℕ
  ingredient : ℕ
  consumed : ℚ
  reversed : Bool := false
  deriving DecidableEq

structure Store where
  orders : Collection SoldOrder SoldOrder.id := .empty
  ingredients : Collection Ingredient Ingredient.id := .empty
  rows : Collection Consumption Consumption.id := .empty
  recipes : List Recipe := []

/-! ### Writes -/

def SoldOrder.job (o : SoldOrder) (restore : Bool) : Option JobStatus := if restore then o.restore else o.consumption

def SoldOrder.setJob (restore : Bool) (status : JobStatus) (o : SoldOrder) : SoldOrder :=
  if restore then { o with restore := some status } else { o with consumption := some status }

def SoldOrder.markFailed (restore : Bool) (o : SoldOrder) : SoldOrder :=
  if o.job restore = some .completed then o else o.setJob restore .failed

/-- The first requirements stand. -/
def SoldOrder.freeze (needs : Needs) (o : SoldOrder) : SoldOrder :=
  if o.requirements = none then { o with requirements := some needs } else o

def SoldOrder.close (paid : ℤ) (o : SoldOrder) : SoldOrder :=
  { o with status := .closed, paymentStatus := .paid, paid, consumption := some .pending }

def SoldOrder.refund (amount : ℤ) (o : SoldOrder) : SoldOrder :=
  if o.paid ≤ o.refunded + amount then
    { o with refunded := o.refunded + amount, paymentStatus := .refunded, restore := some .pending }
  else { o with refunded := o.refunded + amount, paymentStatus := .partiallyRefunded }

theorem SoldOrder.setJob_id (restore : Bool) (status : JobStatus) (o : SoldOrder) : (o.setJob restore status).id = o.id := by
  cases restore <;> rfl

theorem SoldOrder.markFailed_id (restore : Bool) (o : SoldOrder) : (o.markFailed restore).id = o.id := by
  unfold SoldOrder.markFailed
  split
  · rfl
  · exact o.setJob_id restore .failed

theorem SoldOrder.freeze_id (needs : Needs) (o : SoldOrder) : (o.freeze needs).id = o.id := by
  unfold SoldOrder.freeze
  split <;> rfl

theorem SoldOrder.close_id (paid : ℤ) (o : SoldOrder) : (o.close paid).id = o.id := rfl

theorem SoldOrder.refund_id (amount : ℤ) (o : SoldOrder) : (o.refund amount).id = o.id := by
  unfold SoldOrder.refund
  split <;> rfl

/-- `$inc` of `current_stock`. -/
def Ingredient.add (qty : ℚ) (g : Ingredient) : Ingredient := { g with stock := g.stock + qty }

theorem Ingredient.add_id (qty : ℚ) (g : Ingredient) : (g.add qty).id = g.id := rfl

def Consumption.reverse (r : Consumption) : Consumption := { r with reversed := true }

theorem Consumption.reverse_id (r : Consumption) : r.reverse.id = r.id := rfl

namespace Store

variable (s : Store)

def setJob (i : ℕ) (restore : Bool) (status : JobStatus) : Store :=
  { s with orders := s.orders.update i (SoldOrder.setJob restore status) (SoldOrder.setJob_id restore status) }

def markFailed (i : ℕ) (restore : Bool) : Store :=
  { s with orders := s.orders.update i (SoldOrder.markFailed restore) (SoldOrder.markFailed_id restore) }

def freeze (i : ℕ) (needs : Needs) : Store :=
  { s with orders := s.orders.update i (SoldOrder.freeze needs) (SoldOrder.freeze_id needs) }

def close (i : ℕ) (paid : ℤ) : Store :=
  { s with orders := s.orders.update i (SoldOrder.close paid) (SoldOrder.close_id paid) }

def refund (i : ℕ) (amount : ℤ) : Store :=
  { s with orders := s.orders.update i (SoldOrder.refund amount) (SoldOrder.refund_id amount) }

def addStock (i : ℕ) (qty : ℚ) : Store :=
  { s with ingredients := s.ingredients.update i (Ingredient.add qty) (Ingredient.add_id qty) }

def reverseRow (id : RowId) : Store :=
  { s with rows := s.rows.update id Consumption.reverse Consumption.reverse_id }

end Store

/-! ### The transactions of `run_stock_job` -/

inductive Fault
  | notFound
  | notPrepared
  | insufficient
  | ingredientMissing
  | duplicate

/-- One ingredient of an order, unless a row stands for it. -/
def consumeOne (i : ℕ) (x : ℕ × ℚ) : Transaction Store Fault RowId := fun s =>
  if s.rows.any fun r => r.order = i && r.ingredient = x.1 then .ok (s, .job i x.1)
  else
    match s.ingredients.get? x.1 with
    | none => .error .insufficient
    | some g =>
      if g.stock < x.2 then .error .insufficient
      else
        match s.rows.insertOne ⟨.job i x.1, i, x.1, x.2, false⟩ with
        | none => .error .duplicate
        | some rows => .ok ({ s.addStock x.1 (-x.2) with rows }, .job i x.1)

def restoreOne (r : Consumption) : Transaction Store Fault RowId := fun s =>
  if r.consumed = 0 then .ok (s.reverseRow r.id, r.id)
  else
    match s.ingredients.get? r.ingredient with
    | none => .error .ingredientMissing
    | some _ => .ok ((s.addStock r.ingredient r.consumed).reverseRow r.id, r.id)

def work (o : SoldOrder) (restore : Bool) : Transaction Store Fault (List RowId) := fun s =>
  if restore then
    Transaction.forEach restoreOne (s.rows.rows.filter fun r => r.order = o.id && !r.reversed) s
  else if o.paymentStatus = .refunded then .ok (s, [])
  else
    match o.requirements with
    | none => .error .notPrepared
    | some needs => Transaction.forEach (consumeOne o.id) needs s

def runJob (i : ℕ) (restore : Bool) : Transaction Store Fault Unit := fun s =>
  match s.orders.get? i with
  | none => .error .notFound
  | some o =>
    if o.job restore = some .completed then .ok (s, ())
    else do
      let (s', _) ← work o restore (s.setJob i restore .running)
      .ok (s'.setJob i restore .completed, ())

end SyrocePms.RecipeStock

/-! Runs of the stock jobs as threads. The requirements are computed and frozen outside the
transaction, and a failure is marked after it. -/

namespace SyrocePms.RecipeStock

open Lib PosCheck

/-- Where `run_stock_job` stands. -/
inductive Pc
  | look
  | compute (items : List Item)
  | freeze (needs : Needs)
  | commit
  | mark
  | returned
  | raised

/-- A call of `run_stock_job`. -/
structure Job where
  order : ℕ
  restore : Bool

structure Thread where
  job : Job
  pc : Pc

/-- The access fails, or its answer is lost. -/
structure Chance where
  fails : Bool := false
  lost : Bool := false

def Pc.onFault : Pc → Pc
  | .mark => .raised
  | _ => .mark

def perform (s : Store) (j : Job) : Pc → Option (Store × Pc)
  | .look =>
    some (s, match s.orders.get? j.order with
      | some o => if o.requirements = none then .compute o.items else .commit
      | none => .commit)
  | .compute items =>
    some (s, match stockRequirements s.recipes items with
      | some needs => .freeze needs
      | none => .mark)
  | .freeze needs => some (s.freeze j.order needs, .commit)
  | .commit =>
    some (match runJob j.order j.restore s with
      | .ok (s', _) => (s', .returned)
      | .error _ => (s, .mark))
  | .mark => some (s.markFailed j.order j.restore, .raised)
  | .returned | .raised => none

def step (s : Store) (c : Chance) (t : Thread) : Option (Store × Thread) :=
  (perform s t.job t.pc).map fun x =>
    if c.fails then (s, { t with pc := t.pc.onFault })
    else (x.1, { t with pc := if c.lost then t.pc.onFault else x.2 })

/-- The rest of the house: a check is closed or refunded, its transaction checks again what the
call has read, stock comes in, and recipes change. -/
inductive Event
  | close (order : ℕ) (paid : ℤ)
  | refund (order : ℕ) (amount : ℤ)
  | receive (ingredient : ℕ) (qty : ℚ)
  | setRecipes (recipes : List Recipe)

def SoldOrder.isClosable (paid : ℤ) (o : SoldOrder) : Bool :=
  o.status ≠ .closed && o.status ≠ .voided && o.paymentStatus = .unpaid && 0 ≤ paid

def SoldOrder.isRefundable (amount : ℤ) (o : SoldOrder) : Bool :=
  o.status = .closed && (o.paymentStatus = .paid || o.paymentStatus = .partiallyRefunded) && 0 < amount &&
    o.refunded + amount ≤ o.paid

def event (s : Store) : Event → Option Store
  | .close i paid => if (s.orders.get? i).any (SoldOrder.isClosable paid) then some (s.close i paid) else none
  | .refund i amount => if (s.orders.get? i).any (SoldOrder.isRefundable amount) then some (s.refund i amount) else none
  | .receive i qty => if 0 ≤ qty then some (s.addStock i qty) else none
  | .setRecipes recipes => some { s with recipes }

/-- Before the jobs: rows are of the older code, and no order has a job's status. -/
structure Legacy (s : Store) : Prop where
  orders : ∀ o ∈ s.orders, o.requirements = none ∧ o.consumption = none ∧ o.restore = none ∧
    (o.paymentStatus = .refunded → o.status = .closed)
  stock : ∀ g ∈ s.ingredients, 0 ≤ g.stock
  rows : ∀ r ∈ s.rows, r.id.isJob = false ∧ 0 ≤ r.consumed

def stockJobs : Program Store Thread Event Job Chance where
  init := Legacy
  env := event
  call _ j := some ⟨j, if j.restore then .commit else .look⟩
  step _ s t c := step s c t

end SyrocePms.RecipeStock
