import Mathlib.Algebra.BigOperators.Group.List.Basic
import Mathlib.Tactic.Linarith
import SyrocePms.Lib.Collection
import SyrocePms.Lib.Transaction

/-! Minibar consumptions with their stock jobs, and the two inventories that the jobs draw on:
the warehouse and the older mobile one, which writes quantities with the opposite sign.
Quantities are exact; one that is no finite number stands as `none`. -/

namespace SyrocePms.MinibarStock

open Lib List

/-- The keys of `BACKENDS`. -/
inductive Backend
  | accounting
  | legacy
  deriving DecidableEq

def Backend.all : List Backend := [.accounting, .legacy]

/-- An `inventory_source` field. -/
inductive Source
  | known (b : Backend)
  | unknown (n : ℕ)
  deriving DecidableEq

def Source.backend : Source → Option Backend
  | .known b => some b
  | .unknown _ => none

/-! ### Jobs -/

inductive JobStatus
  | pending
  | unlinked
  | productNotFound
  | invalidStockQuantity
  | inactiveProduct
  | insufficientStock
  | depleted
  | alreadyApplied
  | legacyUntracked
  deriving DecidableEq

def JobStatus.isDone : JobStatus → Bool
  | .depleted | .alreadyApplied => true
  | _ => false

inductive Basis
  | consumptionSnapshot
  | explicitCurrentDayReconciliation
  deriving DecidableEq

/-- The id of a movement: the uuid5 of a consumption line, or one of another origin. -/
inductive MovementId
  | minibar (consumption line : ℕ)
  | other (n : ℕ)
  deriving DecidableEq

structure Line where
  lineNo : Option ℕ := none
  item : ℕ
  quantity : Option ℚ
  product : Option ℕ := none
  source : Option Source := none

structure Job where
  lineNo : ℕ
  item : ℕ
  quantity : Option ℚ
  product : Option ℕ
  source : Option Source
  status : JobStatus
  basis : Basis := .consumptionSnapshot
  movementId : Option MovementId := none
  available : Option ℚ := none
  newQuantity : Option ℚ := none
  retryable : Option Bool := none
  deriving DecidableEq

def Job.isDone (j : Job) : Bool := j.status.isDone

/-- An old link without a source refers to the mobile inventory. -/
def Line.jobSource (l : Line) : Option Source :=
  l.source.or (if l.product.isSome then some (.known .legacy) else none)

def Line.job (l : Line) (index : ℕ) : Job where
  lineNo := l.lineNo.getD index
  item := l.item
  quantity := l.quantity
  product := l.product
  source := l.jobSource
  status := if l.product.isSome then .pending else .unlinked

def makeJobs (lines : List Line) : List Job := lines.zipIdx.map fun x => x.1.job x.2

structure Consumption where
  id : ℕ
  lines : List Line
  jobs : Option (List Job)

def stockView (d : Consumption) : List Job :=
  match d.jobs with
  | none => (makeJobs d.lines).map fun j => { j with status := .legacyUntracked }
  | some jobs => jobs

def stockComplete (jobs : List Job) : Bool := !jobs.isEmpty && jobs.all Job.isDone

/-- The jobs that are stored, or that a reconciliation would start from. -/
def Consumption.currentJobs (d : Consumption) : List Job := d.jobs.getD (makeJobs d.lines)

theorem isDone_job (l : Line) (index : ℕ) : (l.job index).isDone = false := by
  unfold Job.isDone Line.job
  cases l.product <;> rfl

theorem not_isDone_of_mem_makeJobs {lines : List Line} {j : Job} (h : j ∈ makeJobs lines) : j.isDone = false := by
  obtain ⟨x, -, rfl⟩ := mem_map.mp h
  exact isDone_job x.1 x.2

def numbered (lines : List Line) : List Line := lines.zipIdx.map fun x => { x.1 with lineNo := some x.2 }

theorem lineNo_makeJobs_numbered (lines : List Line) :
    (makeJobs (numbered lines)).map Job.lineNo = List.range lines.length := by
  refine ext_getElem ?_ fun i h _ => ?_
  · simp [makeJobs, numbered]
  · simp [makeJobs, numbered, Line.job]

/-! ### Inventories -/

structure Product where
  id : ℕ
  quantity : Option ℚ
  inactive : Bool := false
  deriving DecidableEq

structure LineRef where
  consumption : ℕ
  line : ℕ
  deriving DecidableEq

structure Movement where
  id : MovementId
  source : Option LineRef
  product : ℕ
  isOut : Bool
  quantity : ℚ

def Movement.signed (b : Backend) (m : Movement) : ℚ :=
  match b with
  | .accounting => if m.isOut then -m.quantity else m.quantity
  | .legacy => m.quantity

structure Inventory where
  products : Collection Product Product.id
  movements : List Movement

namespace Inventory

variable (v : Inventory)

def movementOf (x : LineRef) : Option Movement := v.movements.find? fun m => m.source = some x

theorem setQuantity_id (q : ℚ) (x : Product) : { x with quantity := some q }.id = x.id := rfl

def setQuantity (x : Product) (remaining : ℚ) : Option Inventory :=
  if v.products.any fun y => y.id = x.id && y.quantity = x.quantity then
    some { v with
      products := v.products.updateMany (fun y => y.id = x.id && y.quantity = x.quantity)
        (fun y => { y with quantity := some remaining }) (setQuantity_id remaining) }
  else none

/-- `insert_one` under `ux_minibar_stock_source`. -/
def insertMovement (m : Movement) : Option Inventory :=
  if m.source.isSome && v.movements.any (·.source = m.source) then none
  else some { v with movements := v.movements ++ [m] }

def signedSum (b : Backend) (product : ℕ) : ℚ :=
  ((v.movements.filter fun m => m.product = product).map (Movement.signed b)).sum

def count (x : LineRef) : ℕ := v.movements.countP fun m => m.source = some x

end Inventory

structure Store where
  accounting : Inventory
  legacy : Inventory
  consumptions : Collection Consumption Consumption.id

namespace Store

variable (s : Store)

def inventory : Backend → Inventory
  | .accounting => s.accounting
  | .legacy => s.legacy

def setInventory (v : Inventory) : Backend → Store
  | .accounting => { s with accounting := v }
  | .legacy => { s with legacy := v }

/-- The movements of a consumption line in both inventories. -/
def count (x : LineRef) : ℕ := s.accounting.count x + s.legacy.count x

theorem setJobs_id (jobs : List Job) (d : Consumption) : { d with jobs := some jobs }.id = d.id := rfl

def setJobs (id : ℕ) (jobs : List Job) : Store :=
  { s with consumptions := s.consumptions.update id (fun d => { d with jobs := some jobs }) (setJobs_id jobs) }

variable {s} {v : Inventory} {b b' : Backend}

@[simp] theorem inventory_setInventory : (s.setInventory v b).inventory b = v := by
  cases b <;> rfl

theorem inventory_setInventory_of_ne (h : b' ≠ b) : (s.setInventory v b).inventory b' = s.inventory b' := by
  cases b <;> cases b' <;> first | rfl | exact absurd rfl h

@[simp] theorem consumptions_setInventory : (s.setInventory v b).consumptions = s.consumptions := by
  cases b <;> rfl

@[simp] theorem inventory_setJobs {id : ℕ} : (s.setJobs id jobs).inventory b = s.inventory b := by
  cases b <;> rfl

theorem mem_setJobs {id : ℕ} {d : Consumption} :
    d ∈ (s.setJobs id jobs).consumptions ↔ (d ∈ s.consumptions ∧ d.id ≠ id) ∨
      ∃ e ∈ s.consumptions, e.id = id ∧ d = { e with jobs := some jobs } := by
  simp only [setJobs, Collection.mem_update]

theorem count_setInventory (s : Store) (v : Inventory) (b : Backend) (x : LineRef) :
    (s.setInventory v b).count x + (s.inventory b).count x = s.count x + v.count x := by
  cases b <;> simp only [count, setInventory, inventory] <;> omega

theorem count_le (s : Store) (b : Backend) (x : LineRef) : (s.inventory b).count x ≤ s.count x := by
  cases b <;> simp only [count, inventory] <;> omega

end Store

/-! The stock work of a consumption. The transaction goes through the jobs, each on the store
that the jobs before it have left, so lines that draw on one product share what is there. -/

inductive StockError
  | notFound
  | unknownSource
  | evidenceMissing
  | mismatch
  | concurrentChange
  | duplicateMovement
  | legacyLinked
  | duplicateLine
  | lineNotFound
  | alreadyBound
  | productMissing
  | ambiguousSource
  | inactiveProduct
  | oldMovement
  deriving DecidableEq

/-! ### A job -/

/-- What stands against a depletion, or what it takes. -/
inductive Attempt
  | refused (status : JobStatus) (available : Option ℚ)
  | depletes (x : Product) (available needed : ℚ)

def attempt (x : Option Product) (needed : Option ℚ) : Attempt :=
  match x with
  | none => .refused .productNotFound none
  | some x =>
    match x.quantity, needed with
    | some available, some needed =>
      if available < 0 ∨ needed ≤ 0 then .refused .invalidStockQuantity (some available)
      else if x.inactive then .refused .inactiveProduct (some available)
      else if available < needed then .refused .insufficientStock (some available)
      else .depletes x available needed
    | available, _ => .refused .invalidStockQuantity available

namespace Job

variable (j : Job)

def applied (m : Movement) : Job := { j with status := .alreadyApplied, movementId := some m.id }

def refused (status : JobStatus) (available : Option ℚ) : Job :=
  { j with status, retryable := some true, available := available.or j.available }

def depleted (c : ℕ) (remaining : ℚ) : Job :=
  { j with
    status := .depleted
    movementId := some (.minibar c j.lineNo)
    newQuantity := some remaining
    retryable := some false
    available := none }

/-- The movement of a depletion. The warehouse writes what went out, the mobile inventory the
change. -/
def movement (c : ℕ) (b : Backend) (x : Product) (needed : ℚ) : Movement where
  id := .minibar c j.lineNo
  source := some ⟨c, j.lineNo⟩
  product := x.id
  isOut := true
  quantity := if b = .accounting then needed else -needed

end Job

def deplete (c : ℕ) (b : Backend) (product : ℕ) (j : Job) : Transaction Store StockError (Job × Bool) := fun s =>
  match attempt ((s.inventory b).products.get? product) j.quantity with
  | .refused status available => .ok (s, j.refused status available, true)
  | .depletes x available needed =>
    match (s.inventory b).setQuantity x (available - needed) with
    | none => .error .concurrentChange
    | some v =>
      match v.insertMovement (j.movement c b x needed) with
      | none => .error .duplicateMovement
      | some v => .ok (s.setInventory v b, j.depleted c (available - needed), true)

def runJob (c : ℕ) (j : Job) : Transaction Store StockError (Job × Bool) := fun s =>
  match j.product with
  | none => .ok (s, j, false)
  | some product =>
    match j.source.bind Source.backend with
    | none => .error .unknownSource
    | some b =>
      let prior := (s.inventory b).movementOf ⟨c, j.lineNo⟩
      if j.isDone && (prior.isNone || prior.map Movement.id ≠ j.movementId) then .error .evidenceMissing
      else
        match prior with
        | some m =>
          if m.product ≠ product ∨ some |m.quantity| ≠ j.quantity then .error .mismatch
          else if j.isDone then .ok (s, j, false)
          else .ok (s, j.applied m, true)
        | none => deplete c b product j s

def runStock (c : ℕ) : Transaction Store StockError (List Job) := fun s =>
  match s.consumptions.get? c with
  | none => .error .notFound
  | some d =>
    match d.jobs with
    | none => .ok (s, stockView d)
    | some jobs => do
      let (s', r) ← Transaction.forEach (runJob c) jobs s
      .ok (if r.any Prod.snd then s'.setJobs c (r.map Prod.fst) else s', r.map Prod.fst)

/-! ### What a job does -/

variable {s s' : Store} {c : ℕ} {j j' : Job} {changed : Bool} {b : Backend} {product : ℕ} {x : Product}
  {available needed : ℚ}
variable {jobs : List Job} {y : Option Product} {q : Option ℚ}

theorem attempt_eq_depletes (h : attempt y q = .depletes x available needed) :
    y = some x ∧ x.quantity = some available ∧ 0 < needed ∧ needed ≤ available := by
  unfold attempt at h
  split at h
  · cases h
  · split at h
    · rename_i hq
      split_ifs at h with hvalid hactive hless
      obtain ⟨rfl, rfl, rfl⟩ := Attempt.depletes.inj h
      rw [not_or, not_lt, not_le] at hvalid
      exact ⟨rfl, hq, hvalid.2, not_lt.mp hless⟩
    · cases h

theorem not_isDone_of_refused {status : JobStatus} {avail : Option ℚ}
    (h : attempt y q = .refused status avail) : status.isDone = false := by
  unfold attempt at h
  split at h
  · cases h
    rfl
  · split at h
    · split_ifs at h <;> cases h <;> rfl
    · cases h
      rfl

/-- The ways a job goes through. -/
inductive Worked (c : ℕ) (s : Store) (j : Job) : Store → Job → Bool → Prop
  | unlinked (h : j.product = none) : Worked c s j s j false
  | settled {b : Backend} {m : Movement} (hm : (s.inventory b).movementOf ⟨c, j.lineNo⟩ = some m)
      (hdone : j.isDone = true) : Worked c s j s j false
  | applied {b : Backend} {m : Movement} (hlinked : j.product.isSome = true)
      (hm : (s.inventory b).movementOf ⟨c, j.lineNo⟩ = some m) : Worked c s j s (j.applied m) true
  | refused {status : JobStatus} {avail : Option ℚ} (hdone : j.isDone = false) (hstatus : status.isDone = false) :
      Worked c s j s (j.refused status avail) true
  | depleted {b : Backend} {x : Product} {available needed : ℚ} {v v' : Inventory} (hdone : j.isDone = false)
      (hlinked : j.product.isSome = true) (hx : x ∈ (s.inventory b).products) (hq : x.quantity = some available)
      (hpos : 0 < needed) (hle : needed ≤ available)
      (hset : (s.inventory b).setQuantity x (available - needed) = some v)
      (hins : v.insertMovement (j.movement c b x needed) = some v') :
      Worked c s j (s.setInventory v' b) (j.depleted c (available - needed)) true

theorem deplete_worked (hlinked : j.product = some product) (hdone : j.isDone = false)
    (h : deplete c b product j s = .ok (s', j', changed)) : Worked c s j s' j' changed := by
  unfold deplete at h
  split at h
  · rename_i hattempt
    cases h
    exact .refused hdone (not_isDone_of_refused hattempt)
  · rename_i x available needed hattempt
    obtain ⟨hget, hq, hpos, hle⟩ := attempt_eq_depletes hattempt
    split at h
    · cases h
    · rename_i v hset
      split at h
      · cases h
      · rename_i v' hins
        cases h
        exact .depleted hdone (by rw [hlinked]; rfl) (Collection.get?_eq_some.mp hget).1 hq hpos hle hset hins

theorem runJob_worked (h : runJob c j s = .ok (s', j', changed)) : Worked c s j s' j' changed := by
  unfold runJob at h
  split at h
  · rename_i hproduct
    cases h
    exact .unlinked hproduct
  · rename_i product hproduct
    split at h
    · cases h
    · rename_i b _
      dsimp only at h
      split at h
      · cases h
      · rename_i hevidence
        split at h
        · rename_i m hm
          split_ifs at h with hmismatch hdone
          · cases h
            exact .settled hm hdone
          · cases h
            exact .applied (by rw [hproduct]; rfl) hm
        · rename_i hnone
          refine deplete_worked hproduct ?_ h
          rw [hnone] at hevidence
          simpa using hevidence

/-- A job that is left alone is as it was. -/
theorem Worked.eq_of_not_changed (h : Worked c s j s' j' false) : j' = j := by
  cases h <;> rfl

theorem Worked.lineNo (h : Worked c s j s' j' changed) : j'.lineNo = j.lineNo := by
  cases h <;> rfl

theorem Worked.consumptions (h : Worked c s j s' j' changed) : s'.consumptions = s.consumptions := by
  cases h <;> first | rfl | exact Store.consumptions_setInventory

/-! ### Inventories -/

/-- Quantities are the opening with all signed movements, and never negative. -/
def Inventory.Balanced (v : Inventory) (b : Backend) (opening : ℕ → ℚ) : Prop := ∀ y ∈ v.products,
  ∀ q, y.quantity = some q → q = opening y.id + v.signedSum b y.id ∧ 0 ≤ q

namespace Inventory

variable {v v₁ v₂ : Inventory} {m : Movement} {opening : ℕ → ℚ} {q : ℚ} {y : Product}

theorem setQuantity_eq_some (h : v.setQuantity x q = some v₁) : v₁.movements = v.movements ∧
    ∀ y, y ∈ v₁.products ↔
      ∃ z ∈ v.products, y = if z.id = x.id && z.quantity = x.quantity then { z with quantity := some q } else z := by
  unfold setQuantity at h
  split at h
  · cases h
    refine ⟨rfl, fun y => ?_⟩
    change y ∈ v.products.updateMany _ _ (setQuantity_id q) ↔ _
    exact Collection.mem_updateMany
  · cases h

theorem insertMovement_eq_some (h : v.insertMovement m = some v₁) :
    v₁.products = v.products ∧ v₁.movements = v.movements ++ [m] := by
  unfold insertMovement at h
  split at h
  · cases h
  · cases h
    exact ⟨rfl, rfl⟩

theorem signedSum_append (h : v₁.movements = v.movements ++ [m]) (product : ℕ) :
    v₁.signedSum b product = v.signedSum b product + if m.product = product then m.signed b else 0 := by
  rw [signedSum, h, filter_append, map_append, sum_append, ← signedSum]
  by_cases hp : m.product = product
  · simp [hp]
  · simp [hp]

theorem count_append (h : v₁.movements = v.movements ++ [m]) (ref : LineRef) :
    v₁.count ref = v.count ref + if m.source = some ref then 1 else 0 := by
  rw [count, h, countP_append, ← count]
  by_cases hr : m.source = some ref
  · simp [hr]
  · simp [hr]

theorem Balanced.move (h : v.Balanced b opening) (hx : x ∈ v.products) (hq : x.quantity = some available)
    (hset : v.setQuantity x q = some v₁) (hins : v₁.insertMovement m = some v₂) (hm : m.product = x.id)
    (hsigned : q = available + m.signed b) (hnn : 0 ≤ q) : v₂.Balanced b opening := by
  obtain ⟨hmov, hmem⟩ := setQuantity_eq_some hset
  obtain ⟨hprod, hmov'⟩ := insertMovement_eq_some hins
  intro y hy r hr
  rw [hmov] at hmov'
  rw [signedSum_append hmov', hm]
  rw [hprod] at hy
  obtain ⟨z, hz, rfl⟩ := (hmem y).mp hy
  by_cases hid : z.id = x.id
  · obtain rfl : z = x := Collection.eq_of_key hz hx hid
    simp only [Bool.and_self, decide_true, if_true] at hr ⊢
    cases hr
    obtain ⟨heq, -⟩ := h z hz available hq
    refine ⟨?_, hnn⟩
    rw [hsigned, heq, add_assoc]
  · rw [if_neg (by simp [hid])] at hr ⊢
    rw [if_neg (Ne.symm hid), add_zero]
    exact h z hz r hr

end Inventory

/-! ### The store -/

/-- A line has one movement at most, and quantities balance. -/
structure Sound (opening : Backend → ℕ → ℚ) (s : Store) : Prop where
  single : ∀ ref, s.count ref ≤ 1
  balanced : ∀ b, (s.inventory b).Balanced b (opening b)

/-- A job is done exactly if it is linked and its line has a movement. -/
def Evident (c : ℕ) (s : Store) (j : Job) : Prop :=
  j.isDone = true ↔ j.product.isSome = true ∧ s.count ⟨c, j.lineNo⟩ = 1

variable {opening : Backend → ℕ → ℚ} {ref : LineRef}

theorem count_of_movementOf {m : Movement} (hs : Sound opening s) (h : (s.inventory b).movementOf ref = some m) :
    s.count ref = 1 := by
  have hm : decide (m.source = some ref) = true :=
    find?_some (p := fun m : Movement => decide (m.source = some ref)) h
  have hpos : 0 < (s.inventory b).count ref := countP_pos_iff.mpr ⟨m, mem_of_find?_eq_some h, hm⟩
  have hle := s.count_le b ref
  have hsingle := hs.single ref
  omega

theorem count_depleted {v v' : Inventory} {q : ℚ} (hset : (s.inventory b).setQuantity x q = some v)
    (hins : v.insertMovement (j.movement c b x needed) = some v') (ref : LineRef) :
    (s.setInventory v' b).count ref = s.count ref + if ref = ⟨c, j.lineNo⟩ then 1 else 0 := by
  have hmov : v'.movements = (s.inventory b).movements ++ [j.movement c b x needed] := by
    rw [(Inventory.insertMovement_eq_some hins).2, (Inventory.setQuantity_eq_some hset).1]
  have hcount := Inventory.count_append hmov ref
  have hstore := s.count_setInventory v' b ref
  have hsource : ((j.movement c b x needed).source = some ref) = (ref = ⟨c, j.lineNo⟩) := by
    simp [Job.movement, eq_comm]
  rw [if_congr (Iff.of_eq hsource) rfl rfl] at hcount
  omega

theorem Worked.count_of_ne (h : Worked c s j s' j' changed) (hne : ref ≠ ⟨c, j.lineNo⟩) :
    s'.count ref = s.count ref := by
  cases h with
  | depleted _ _ _ _ _ _ hset hins => rw [count_depleted hset hins, if_neg hne, Nat.add_zero]
  | unlinked => rfl
  | settled => rfl
  | applied => rfl
  | refused => rfl

theorem signed_movement : (j.movement c b x needed).signed b = -needed := by
  cases b <;> simp [Movement.signed, Job.movement]

theorem Worked.sound (h : Worked c s j s' j' changed) (hs : Sound opening s) (hj : Evident c s j) :
    Sound opening s' ∧ Evident c s' j' := by
  cases h with
  | unlinked => exact ⟨hs, hj⟩
  | settled => exact ⟨hs, hj⟩
  | applied hlinked hm => exact ⟨hs, fun _ => ⟨hlinked, count_of_movementOf hs hm⟩, fun _ => rfl⟩
  | refused hdone hstatus =>
    refine ⟨hs, fun hd => absurd (hstatus.symm.trans hd) (by decide), fun h => ?_⟩
    rw [hj.mpr h] at hdone
    cases hdone
  | @depleted b x available needed v v' hdone hlinked hx hq hpos hle hset hins =>
    have hnone : s.count ⟨c, j.lineNo⟩ = 0 := by
      have hne : ¬ s.count ⟨c, j.lineNo⟩ = 1 := fun h => by simp [hj.mpr ⟨hlinked, h⟩] at hdone
      have hsingle := hs.single ⟨c, j.lineNo⟩
      omega
    have hcount := count_depleted (s := s) (c := c) (j := j) hset hins
    refine ⟨⟨fun ref => ?_, fun b' => ?_⟩, fun _ => ⟨hlinked, ?_⟩, fun _ => rfl⟩
    · rw [hcount]
      split
      · rename_i href
        rw [href, hnone]
      · exact hs.single ref
    · by_cases hb : b' = b
      · subst hb
        rw [Store.inventory_setInventory]
        refine (hs.balanced b').move hx hq hset hins rfl ?_ (sub_nonneg.mpr hle)
        rw [signed_movement, sub_eq_add_neg]
      · rw [Store.inventory_setInventory_of_ne hb]
        exact hs.balanced b'
    · rw [hcount]
      simp only [Job.depleted, hnone]
      rfl

end SyrocePms.MinibarStock
