import SyrocePms.MinibarStock.Jobs
import SyrocePms.Lib.Threads

/-! The reconciliation of consumption lines that no stock product was linked to. Its own
transaction links them, which moves no stock; the stock work that follows is that of any other
consumption. -/

namespace SyrocePms.MinibarStock

open Lib List

structure Binding where
  lineNo : ℕ
  product : ℕ
  source : Backend := .accounting
  deriving DecidableEq

def Store.validateLink (s : Store) (product : Option ℕ) (source : Option Backend) :
    Except StockError (Option ℕ × Option Backend) :=
  match product with
  | none => .ok (none, none)
  | some id =>
    let backends := match source with
      | some b => [b]
      | none => Backend.all
    match backends.filterMap fun b => ((s.inventory b).products.get? id).map fun x => (b, x) with
    | [] => .error .productMissing
    | [(b, x)] => if x.inactive then .error .inactiveProduct else .ok (some id, some b)
    | _ => .error .ambiguousSource

def Store.hasMovement (s : Store) (ref : LineRef) : Bool :=
  Backend.all.any fun b => ((s.inventory b).movementOf ref).isSome

def Job.linked (j : Job) (link : Option ℕ × Option Backend) : Job :=
  { j with
    product := link.1
    source := link.2.map .known
    status := .pending
    basis := .explicitCurrentDayReconciliation }

/-- The job under a line number: the last, where a number came twice. -/
def lookup (jobs : List Job) (lineNo : ℕ) : Option Job := jobs.reverse.find? fun j => j.lineNo = lineNo

/-- The loop of `reconcile_bindings` for one binding: the job that has changed. -/
def bindLine (s : Store) (c : ℕ) (x : Binding) : Transaction (List Job) StockError (Option Job) := fun jobs =>
  match lookup jobs x.lineNo with
  | none => .error .lineNotFound
  | some j =>
    match j.product with
    | some product =>
      if product = x.product ∧ j.source = some (.known x.source) then .ok (jobs, none) else .error .alreadyBound
    | none => do
      let link ← s.validateLink (some x.product) (some x.source)
      if s.hasMovement ⟨c, x.lineNo⟩ then .error .oldMovement
      else .ok (jobs.map fun y => if y.lineNo = x.lineNo then y.linked link else y, some (j.linked link))

def Consumption.jobsToBind (d : Consumption) : Except StockError (List Job) :=
  match d.jobs with
  | some jobs => .ok jobs
  | none => if d.lines.any (·.product.isSome) then .error .legacyLinked else .ok (makeJobs d.lines)

def reconcileBindings (c : ℕ) (bindings : List Binding) : Transaction Store StockError ℕ := fun s =>
  match s.consumptions.get? c with
  | none => .error .notFound
  | some d => do
    let jobs ← d.jobsToBind
    if ¬ (bindings.map Binding.lineNo).Nodup then .error .duplicateLine
    else do
      let (jobs, r) ← Transaction.forEach (bindLine s c) bindings jobs
      let changed := r.reduceOption
      .ok (if changed.isEmpty then s else s.setJobs c jobs, changed.length)

/-! ### What a binding does -/

variable {s s' : Store} {c : ℕ} {jobs jobs' : List Job} {x : Binding} {o : Option Job} {j j' : Job}

def Bound (j j' : Job) : Prop :=
  j' = j ∨ (j.product = none ∧ j'.lineNo = j.lineNo ∧ j'.product.isSome = true ∧ j'.status = .pending)

theorem Bound.lineNo (h : Bound j j') : j'.lineNo = j.lineNo := by
  obtain rfl | h := h
  · rfl
  · exact h.2.1

theorem validateLink_eq_ok {product : ℕ} {source : Option Backend} {link : Option ℕ × Option Backend}
    (h : s.validateLink (some product) source = .ok link) : link.1 = some product := by
  unfold Store.validateLink at h
  dsimp only at h
  split at h
  · cases h
  · split at h <;> cases h
    rfl
  · cases h

theorem count_eq_zero_of_not_hasMovement {ref : LineRef} (h : s.hasMovement ref = false) : s.count ref = 0 := by
  have hinv (b : Backend) (hb : b ∈ Backend.all) : (s.inventory b).count ref = 0 := by
    have hnone : (s.inventory b).movementOf ref = none := by
      simpa using any_eq_false.mp h b hb
    refine countP_eq_zero.mpr fun m hm => ?_
    exact find?_eq_none.mp hnone m hm
  have ha := hinv .accounting (by decide)
  have hl := hinv .legacy (by decide)
  simp only [Store.inventory] at ha hl
  simp only [Store.count, ha, hl]

theorem lookup_eq_some {n : ℕ} (h : lookup jobs n = some j) : j ∈ jobs ∧ j.lineNo = n := by
  refine ⟨mem_reverse.mp (mem_of_find?_eq_some h), ?_⟩
  exact of_decide_eq_true (find?_some (p := fun j : Job => decide (j.lineNo = n)) h)

theorem bindLine_cases (h : bindLine s c x jobs = .ok (jobs', o)) : (jobs' = jobs ∧ o = none) ∨
    ∃ j link, j ∈ jobs ∧ j.lineNo = x.lineNo ∧ j.product = none ∧ s.count ⟨c, x.lineNo⟩ = 0 ∧
      link.1 = some x.product ∧ jobs' = jobs.map fun y => if y.lineNo = x.lineNo then y.linked link else y := by
  unfold bindLine at h
  split at h
  · cases h
  · rename_i j hlook
    obtain ⟨hj, hno⟩ := lookup_eq_some hlook
    split at h
    · split at h <;> cases h
      exact .inl ⟨rfl, rfl⟩
    · rename_i hproduct
      obtain ⟨link, hlink, h⟩ := Transaction.bind_eq_ok h
      split at h
      · cases h
      · rename_i hmove
        cases h
        exact .inr ⟨j, link, hj, hno, hproduct, count_eq_zero_of_not_hasMovement (by simpa using hmove),
          validateLink_eq_ok hlink, rfl⟩

/-- What the bindings keep, from the jobs they start with. -/
structure Binds (s : Store) (c : ℕ) (jobs jobs' : List Job) : Prop where
  bound : List.Forall₂ Bound jobs jobs'
  evident : ∀ j ∈ jobs', Evident c s j

theorem lineNo_of_bound (h : List.Forall₂ Bound jobs jobs') : jobs'.map Job.lineNo = jobs.map Job.lineNo := by
  induction h with
  | nil => rfl
  | cons hb _ ih => rw [map_cons, map_cons, hb.lineNo, ih]

theorem forall₂_map_right {α β γ : Type*} {R : α → β → Prop} {R' : α → γ → Prop} {f : β → γ} {l : List α} {r : List β}
    (h : List.Forall₂ R l r) (hf : ∀ a b, b ∈ r → R a b → R' a (f b)) : List.Forall₂ R' l (r.map f) := by
  induction h with
  | nil => exact .nil
  | cons hab _ ih =>
    exact .cons (hf _ _ mem_cons_self hab) (ih fun a b hb => hf a b (mem_cons_of_mem _ hb))

theorem Binds.bindLine {jobs₀ : List Job} (hn : (jobs₀.map Job.lineNo).Nodup) (h : Binds s c jobs₀ jobs)
    (hx : bindLine s c x jobs = .ok (jobs', o)) : Binds s c jobs₀ jobs' := by
  obtain ⟨rfl, -⟩ | ⟨j, link, hj, hno, hproduct, hcount, hlink, rfl⟩ := bindLine_cases hx
  · exact h
  · have hone (y : Job) (hy : y ∈ jobs) (hyx : y.lineNo = x.lineNo) : y = j := by
      rw [← lineNo_of_bound h.bound] at hn
      exact inj_on_of_nodup_map hn hy hj (hyx.trans hno.symm)
    have hsome : link.1.isSome = true := by rw [hlink]; rfl
    refine ⟨forall₂_map_right h.bound fun a y hy hay => ?_, fun z hz => ?_⟩
    · split
      · rename_i hyx
        rw [hone y hy hyx] at hay ⊢
        obtain rfl | hay := hay
        · exact .inr ⟨hproduct, rfl, hsome, rfl⟩
        · rw [hproduct] at hay
          cases hay.2.2.1
      · exact hay
    · obtain ⟨y, hy, rfl⟩ := mem_map.mp hz
      split
      · rename_i hyx
        rw [← hyx] at hcount
        refine ⟨fun hd => (by cases hd), fun ⟨_, h⟩ => ?_⟩
        change s.count ⟨c, y.lineNo⟩ = 1 at h
        rw [hcount] at h
        cases h
      · exact h.evident y hy

end SyrocePms.MinibarStock

/-! Calls of the stock work and of the reconciliation, in any order. Each transaction is one
step, and so is its abort by whatever the code cannot foresee; between the two transactions of
a reconciliation other calls run. Meanwhile new consumptions arrive, products are received or
taken out with a movement, and are made active or inactive. -/

namespace SyrocePms.MinibarStock

open Lib

inductive Outside
  | consume (id : ℕ) (lines : List Line)
  | receive (b : Backend) (product : ℕ) (change : ℚ) (movement : ℕ)
  | setInactive (b : Backend) (product : ℕ) (inactive : Bool)

namespace Store

variable (s : Store)

def isFresh (id : ℕ) : Bool :=
  Backend.all.all fun b => (s.inventory b).movements.all fun m => m.source.all fun ref => ref.consumption ≠ id

/-- A new consumption with its frozen jobs. -/
def consume (id : ℕ) (lines : List Line) : Option Store :=
  if s.isFresh id then
    (s.consumptions.insertOne ⟨id, numbered lines, some (makeJobs (numbered lines))⟩).map fun consumptions =>
      { s with consumptions }
  else none

def receive (b : Backend) (product : ℕ) (change : ℚ) (movement : ℕ) : Option Store :=
  match (s.inventory b).products.get? product with
  | none => none
  | some x =>
    match x.quantity with
    | none => none
    | some q =>
      if q + change < 0 then none
      else
        (((s.inventory b).setQuantity x (q + change)).bind fun v =>
          v.insertMovement ⟨.other movement, none, x.id, false, change⟩).map fun v => s.setInventory v b

theorem setInactive_id (inactive : Bool) (x : Product) : { x with inactive }.id = x.id := rfl

def setInactive (b : Backend) (product : ℕ) (inactive : Bool) : Store :=
  s.setInventory { s.inventory b with
    products := (s.inventory b).products.update product (fun x => { x with inactive }) (setInactive_id inactive) } b

def outside : Outside → Option Store
  | .consume id lines => s.consume id lines
  | .receive b product change movement => s.receive b product change movement
  | .setInactive b product inactive => some (s.setInactive b product inactive)

end Store

/-! ### Calls -/

inductive Call
  | runStock (consumption : ℕ)
  | reconcile (consumption : ℕ) (bindings : List Binding)

/-- Where a call stands. An error that is `none` is one of the database or of the audit. -/
inductive Pc
  | bind (bindings : List Binding)
  | stock (bindingsChanged : Option ℕ)
  | returned (bindingsChanged : Option ℕ) (stock : List Job)
  | raised (e : Option StockError)
  deriving DecidableEq

structure Thread where
  consumption : ℕ
  pc : Pc
  deriving DecidableEq

/-- Whether a transaction fails by itself. -/
structure Chance where
  fails : Bool := false

/-- `with_resource_locks`. -/
def commit {α : Type*} (s : Store) (o : Chance) (t : Transaction Store StockError α) (f : α → Pc) : Store × Pc :=
  if o.fails then (s, .raised none)
  else
    match t.run s with
    | (s', .ok a) => (s', f a)
    | (s', .error e) => (s', .raised (some e))

def advance (s : Store) (t : Thread) (o : Chance) : Option (Store × Pc) :=
  match t.pc with
  | .bind bindings => some (commit s o (reconcileBindings t.consumption bindings) fun n => .stock (some n))
  | .stock n => some (commit s o (runStock t.consumption) fun jobs => .returned n jobs)
  | .returned _ _ | .raised _ => none

def Call.thread : Call → Thread
  | .runStock c => ⟨c, .stock none⟩
  | .reconcile c bindings => ⟨c, .bind bindings⟩

/-- A line has one movement at most, linked jobs are done exactly if it exists, and quantities
balance. Jobs of a consumption have numbers of their own. -/
structure Good (opening : Backend → ℕ → ℚ) (s : Store) : Prop where
  sound : Sound opening s
  distinct : ∀ d ∈ s.consumptions, (d.currentJobs.map Job.lineNo).Nodup
  evident : ∀ d ∈ s.consumptions, ∀ jobs, d.jobs = some jobs → ∀ j ∈ jobs, Evident d.id s j

def stockCalls (opening : Backend → ℕ → ℚ) : Program Store Thread Outside Call Chance where
  init := Good opening
  env := Store.outside
  call _ c := some c.thread
  step _ s t o := (advance s t o).map fun r => (r.1, { t with pc := r.2 })

end SyrocePms.MinibarStock
