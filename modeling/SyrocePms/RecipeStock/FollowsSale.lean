import SyrocePms.RecipeStock.Balance

/-! The stock over whole runs: the balance of each ingredient stays, and an order that is refunded
with both jobs completed has consumed nothing. -/

namespace SyrocePms.RecipeStock

open Lib PosCheck Program Collection

variable {s s' : Store} {i j k : ℕ} {o : SoldOrder} {r : Consumption} {x : ℕ × ℚ} {f : SoldOrder → SoldOrder}
  {restore : Bool} {status : JobStatus} {needs : Needs} {c : Chance} {t t' : Thread} {pc pc' : Pc} {job : Job}
  {p p' : Pool Store Thread} {ids : List RowId}
variable {e : Event}

/-! ### Orders -/

theorem Sound.update (h : Sound s) (hf : ∀ o, (f o).id = o.id)
    (hok : ∀ o ∈ s.orders, o.id = i → OrderOk s o → OrderOk s (f o)) :
    Sound { s with orders := s.orders.update i f hf } := by
  refine ⟨⟨h.rows.stock, h.rows.consumed, h.rows.once⟩, fun o ho => ?_⟩
  change o ∈ s.orders.update i f hf at ho
  have hsame : OrderOk s o := by
    obtain ⟨ho, -⟩ | ⟨y, hy, hid, rfl⟩ := mem_update.mp ho
    · exact h.orders o ho
    · exact hok y hy hid (h.orders y hy)
  exact ⟨hsame.needs, hsame.closed, hsame.restored⟩

theorem OrderOk.setJob (h : OrderOk s o) (hst : restore = true → status ≠ .completed) : OrderOk s (o.setJob restore status) := by
  cases restore with
  | false => exact ⟨h.needs, h.closed, h.restored⟩
  | true => exact ⟨h.needs, h.closed, fun _ hc => absurd (Option.some.inj hc) (hst rfl)⟩

theorem OrderOk.markFailed (h : OrderOk s o) : OrderOk s (o.markFailed restore) := by
  unfold SoldOrder.markFailed
  split
  · exact h
  · exact h.setJob fun _ => (by decide)

theorem OrderOk.freeze (h : OrderOk s o) (hn : needs.Nonneg) : OrderOk s (o.freeze needs) := by
  unfold SoldOrder.freeze
  split
  · refine ⟨fun needs' heq => ?_, h.closed, h.restored⟩
    cases heq
    exact hn
  · exact h

theorem OrderOk.close (h : OrderOk s o) {paid : ℤ} : OrderOk s (o.close paid) :=
  ⟨h.needs, fun _ => rfl, fun hr => (by cases hr)⟩

/-- A refund in full asks for a new restoration. -/
theorem OrderOk.refund (h : OrderOk s o) {amount : ℤ} (hclosed : o.status = .closed) : OrderOk s (o.refund amount) := by
  unfold SoldOrder.refund
  split
  · exact ⟨h.needs, fun _ => hclosed, fun _ hc => (by cases hc)⟩
  · exact ⟨h.needs, fun hr => (by cases hr), fun hr => (by cases hr)⟩

/-! ### Transactions -/

theorem consumeAll (h : Sound s) (ho : o ∈ s.orders) (hpaid : o.paymentStatus ≠ .refunded) (hneeds : o.requirements = some needs)
    (hs : Transaction.forEach (consumeOne o.id) needs s = .ok (s', ids)) : Sound s' ∧ ∀ i, s'.held i = s.held i := by
  have hn := (h.orders o ho).needs needs hneeds
  have hloop : RowsOk s' ∧ s'.orders = s.orders ∧ (∀ r ∈ s'.rows, r ∈ s.rows ∨ r.order = o.id) ∧
      ∀ i, s'.held i = s.held i := by
    refine Transaction.forEach_invariant (J := fun s' => RowsOk s' ∧ s'.orders = s.orders ∧
      (∀ r ∈ s'.rows, r ∈ s.rows ∨ r.order = o.id) ∧ ∀ i, s'.held i = s.held i) (fun s₁ x hx s₂ id hJ hone => ?_)
      ⟨h.rows, rfl, fun r hr => .inl hr, fun i => rfl⟩ hs
    obtain ⟨hrows, horders, hfrom, hheld⟩ := hJ
    obtain ⟨horders', hfrom'⟩ := consumeOne_others hone
    refine ⟨consumeOne_rows hrows (hn x hx) hone, horders'.trans horders, fun r hr => ?_,
      fun i => (consumeOne_held hone).trans (hheld i)⟩
    obtain hr | hr := hfrom' r hr
    · exact hfrom r hr
    · exact .inr hr
  obtain ⟨hrows, horders, hfrom, hheld⟩ := hloop
  refine ⟨⟨hrows, fun y hy => ?_⟩, hheld⟩
  rw [horders] at hy
  have hok := h.orders y hy
  refine ⟨hok.needs, hok.closed, fun href hcomp r hr hro => ?_⟩
  -- the rows of other orders are as before, and this order is not refunded
  obtain hr | hr := hfrom r hr
  · exact hok.restored href hcomp r hr hro
  · rw [eq_of_key hy ho (hro.symm.trans hr)] at href
    exact absurd href hpaid

theorem restoreOrder (h : Sound s)
    (hs : Transaction.forEach restoreOne (s.rows.rows.filter fun r => r.order = i && !r.reversed) s = .ok (s', ids)) :
    (Sound s' ∧ ∀ i, s'.held i = s.held i) ∧ ∀ r ∈ s'.rows, r.order = i → r.reversed = true := by
  obtain ⟨hend, hrev⟩ := restoreAll h.rows hs
  refine ⟨⟨⟨hend.rows, fun y hy => ?_⟩, hend.held⟩, hrev⟩
  rw [hend.orders] at hy
  have hok := h.orders y hy
  refine ⟨hok.needs, hok.closed, fun href hcomp r hr hro => ?_⟩
  obtain ⟨z, hz, -, hzo, hzrev⟩ := hend.kept r hr
  exact hzrev (hok.restored href hcomp z hz (hzo.symm.trans hro))

theorem setJob_mem (ho : o ∈ s.orders) : o.setJob restore status ∈ (s.setJob o.id restore status).orders := by
  change _ ∈ s.orders.update o.id (SoldOrder.setJob restore status) (SoldOrder.setJob_id restore status)
  exact mem_update.mpr (.inr ⟨o, ho, rfl, rfl⟩)

/-- `run_stock_job` keeps the invariant and the balance. -/
theorem runJob_sound {u : Unit} (h : Sound s) (hs : runJob i restore s = .ok (s', u)) : Sound s' ∧ ∀ j, s'.held j = s.held j := by
  unfold runJob at hs
  split at hs
  · cases hs
  · rename_i o hget
    obtain ⟨ho, rfl⟩ := get?_eq_some.mp hget
    split at hs
    · cases hs
      exact ⟨h, fun _ => rfl⟩
    · obtain ⟨⟨s₂, ids⟩, hwork, hs⟩ := Transaction.bind_eq_ok hs
      cases hs
      have hrun : Sound (s.setJob o.id restore .running) :=
        h.update _ fun y _ _ hy => hy.setJob fun _ => (by decide)
      unfold work at hwork
      split at hwork
      · rename_i hrestore
        obtain ⟨⟨hsound, hheld⟩, hrev⟩ := restoreOrder hrun hwork
        refine ⟨hsound.update _ fun y hy hid hok => ?_, hheld⟩
        rw [hrestore]
        exact ⟨hok.needs, hok.closed, fun _ _ r hr hro => hrev r hr (hro.trans hid)⟩
      · rename_i hconsume
        have hcomplete : ∀ {s₃ : Store}, Sound s₃ → Sound (s₃.setJob o.id restore .completed) := fun hs₃ =>
          hs₃.update _ fun y _ _ hy => hy.setJob fun hr => absurd hr hconsume
        split at hwork
        · cases hwork
          exact ⟨hcomplete hrun, fun _ => rfl⟩
        · rename_i hpaid
          split at hwork
          · cases hwork
          · rename_i needs hneeds
            have hmem : o.setJob restore .running ∈ (s.setJob o.id restore .running).orders := setJob_mem ho
            have hpaid' : (o.setJob restore .running).paymentStatus ≠ .refunded := by
              cases restore <;> exact hpaid
            have hneeds' : (o.setJob restore .running).requirements = some needs := by
              cases restore <;> exact hneeds
            have hwork' : Transaction.forEach (consumeOne (o.setJob restore .running).id) needs
                (s.setJob o.id restore .running) = .ok (s₂, ids) := by
              rw [o.setJob_id]
              exact hwork
            obtain ⟨hsound, hheld⟩ := consumeAll hrun hmem hpaid' hneeds' hwork'
            exact ⟨hcomplete hsound, hheld⟩

/-! ### Threads -/

/-- The requirements that a thread has computed. -/
def Pc.Fits : Pc → Prop
  | .freeze needs => needs.Nonneg
  | _ => True

theorem onFault_fits : pc.onFault.Fits := by cases pc <;> trivial

theorem perform_sound (h : Sound s) (hpc : pc.Fits) (hs : perform s job pc = some (s', pc')) :
    (Sound s' ∧ ∀ j, s'.held j = s.held j) ∧ pc'.Fits := by
  cases pc with
  | look =>
    cases hs
    refine ⟨⟨h, fun _ => rfl⟩, ?_⟩
    split
    · split <;> trivial
    · trivial
  | compute items =>
    cases hs
    refine ⟨⟨h, fun _ => rfl⟩, ?_⟩
    split
    · exact stockRequirements_nonneg ‹_›
    · trivial
  | freeze needs =>
    cases hs
    exact ⟨⟨h.update _ fun o _ _ hok => hok.freeze hpc, fun _ => rfl⟩, trivial⟩
  | commit =>
    simp only [perform] at hs
    split at hs
    · cases hs
      exact ⟨runJob_sound h ‹_›, trivial⟩
    · cases hs
      exact ⟨⟨h, fun _ => rfl⟩, trivial⟩
  | mark =>
    cases hs
    exact ⟨⟨h.update _ fun o _ _ hok => hok.markFailed, fun _ => rfl⟩, trivial⟩
  | returned => cases hs
  | raised => cases hs

theorem step_sound (h : Sound s) (ht : t.pc.Fits) (hs : step s c t = some (s', t')) :
    (Sound s' ∧ ∀ j, s'.held j = s.held j) ∧ t'.pc.Fits := by
  obtain ⟨⟨s₁, pc₁⟩, hperform, hs⟩ := Option.map_eq_some_iff.mp hs
  obtain ⟨hsound, hpc⟩ := perform_sound h ht hperform
  split at hs <;> cases hs
  · exact ⟨⟨h, fun _ => rfl⟩, onFault_fits⟩
  · refine ⟨hsound, ?_⟩
    dsimp only
    split
    · exact onFault_fits
    · exact hpc

/-! ### The house -/

theorem event_sound (h : Sound s) (hs : event s e = some s') : Sound s' := by
  cases e with
  | close i paid =>
    simp only [event] at hs
    split at hs <;> cases hs
    exact h.update _ fun o _ _ hok => hok.close
  | refund i amount =>
    simp only [event] at hs
    split at hs <;> cases hs
    rename_i hrefundable
    refine h.update _ fun o ho hid hok => hok.refund ?_
    rw [get?_eq_some.mpr ⟨ho, hid⟩] at hrefundable
    simp only [Option.any_some, SoldOrder.isRefundable, Bool.and_eq_true, decide_eq_true_eq] at hrefundable
    exact hrefundable.1.1.1
  | receive i qty =>
    simp only [event] at hs
    split at hs <;> cases hs
    refine ⟨⟨addStock_stock h.rows.stock fun g hg _ => add_nonneg (h.rows.stock g hg) ‹_›, h.rows.consumed, h.rows.once⟩,
      fun o ho => ?_⟩
    exact ⟨(h.orders o ho).needs, (h.orders o ho).closed, (h.orders o ho).restored⟩
  | setRecipes recipes =>
    cases hs
    exact ⟨⟨h.rows.stock, h.rows.consumed, h.rows.once⟩,
      fun o ho => ⟨(h.orders o ho).needs, (h.orders o ho).closed, (h.orders o ho).restored⟩⟩

/-- Only incoming stock changes a balance. -/
theorem event_held (he : ∀ i q, e ≠ .receive i q) (hs : event s e = some s') (j : ℕ) :
    s'.held j = s.held j := by
  cases e with
  | receive i q => exact absurd rfl (he i q)
  | setRecipes recipes =>
    cases hs
    rfl
  | close i paid =>
    simp only [event] at hs
    split at hs <;> cases hs
    rfl
  | refund i amount =>
    simp only [event] at hs
    split at hs <;> cases hs
    rfl

theorem Legacy.sound (h : Legacy s) : Sound s where
  rows :=
    { stock := h.stock
      consumed := fun r hr => (h.rows r hr).2
      once := fun r hr r' _ hjob => by
        rw [(h.rows r hr).1] at hjob
        cases hjob }
  orders o ho := by
    obtain ⟨hneeds, -, hrestore, hclosed⟩ := h.orders o ho
    refine ⟨fun needs hn => ?_, hclosed, fun _ hr => ?_⟩
    · rw [hneeds] at hn
      cases hn
    · rw [hrestore] at hr
      cases hr

/-! ### Runs -/

theorem stockJobs_preserve (C : Pool Store Thread → Act Event Job Chance → Prop) :
    stockJobs.Preserves C Sound (fun _ _ t => t.pc.Fits) (fun _ _ => True) where
  symm _ _ _ := trivial
  init _ h := h.sound
  env _ _ _ hp _ he := ⟨event_sound hp.store he, fun k t ht => hp.thread k t ht⟩
  call _ job _ _ _ hj := by
    cases hj
    refine ⟨?_, fun _ _ => trivial⟩
    dsimp only
    split <;> trivial
  step _ k _ t _ _ hp _ ht hs := by
    obtain ⟨⟨hsound, -⟩, hpc⟩ := step_sound hp.store (hp.thread k t ht) hs
    exact ⟨hsound, hpc, fun j u _ hu => ⟨hp.thread j u hu, trivial⟩⟩

def isClosed (_ : Pool Store Thread) : Act Event Job Chance → Bool
  | .env (.receive _ _) => false
  | _ => true

/-- What an order has consumed of an ingredient and not given back. -/
def Consumption.netOf (i j : ℕ) (r : Consumption) : ℚ :=
  if r.order = i ∧ r.ingredient = j ∧ r.reversed = false then r.consumed else 0

def Store.net (s : Store) (i j : ℕ) : ℚ := s.rows.total (Consumption.netOf i j)

structure FollowsSale (s : Store) : Prop where
  /-- An ingredient of an order is consumed once at most, and not beside a row of the older code. -/
  once : ∀ r ∈ s.rows, ∀ r' ∈ s.rows, r.id.isJob = true → r.order = r'.order → r.ingredient = r'.ingredient → r = r'
  stock : ∀ g ∈ s.ingredients, 0 ≤ g.stock
  net : ∀ o ∈ s.orders, o.paymentStatus = .refunded → o.consumption = some .completed → o.restore = some .completed →
    ∀ j, s.net o.id j = 0

theorem Sound.followsSale (h : Sound s) : FollowsSale s where
  once := h.rows.once
  stock := h.rows.stock
  net o ho href _ hrestore j := by
    refine total_eq_zero fun r hr => ?_
    refine if_neg fun hopen => ?_
    have hrev := (h.orders o ho).restored href hrestore r hr hopen.1
    rw [hopen.2.2] at hrev
    cases hrev

/-- In every state that is reached the stock follows the sales, and from there on no balance
changes while no stock comes in. -/
theorem recipe_stock_follows_sale (hp : stockJobs.machine.Reachable p) :
    FollowsSale p.store ∧ ∀ p', stockJobs.machine.Path (fun p a => isClosed p a = true) p p' →
      ∀ j, p'.store.held j = p.store.held j := by
  have hinv := (stockJobs_preserve fun _ _ => True).reach hp
  refine ⟨hinv.store.followsSale, fun p' hpath => ?_⟩
  refine (stockJobs_preserve fun p a => isClosed p a = true).path (R := fun s s' => ∀ j, s'.held j = s.held j)
    (fun s j => rfl) (fun s t u hst htu j => (htu j).trans (hst j)) (fun p e s' _ hc he j => ?_)
    (fun p k c t s' t' hi _ ht hs => (step_sound hi.store (hi.thread k t ht) hs).1.2) hinv hpath
  refine event_held (fun i q heq => ?_) he j
  rw [heq] at hc
  cases hc

/-! ### A run -/

/-- Two of ingredient 1 for a dish, one on stock. -/
def kitchen : Pool Store Thread :=
  ⟨{ orders := Collection.empty.upsert { id := 0, items := [⟨[5], 1⟩] }
     ingredients := Collection.empty.upsert ⟨1, 1⟩
     recipes := [⟨[5], [⟨some 1, 2⟩]⟩] }, []⟩

theorem kitchen_init : stockJobs.machine.init kitchen := by
  refine ⟨⟨fun o ho => ?_, fun g hg => ?_, fun r hr => absurd hr not_mem_empty⟩, rfl⟩
  · obtain rfl | ⟨ho, -⟩ := mem_upsert.mp ho
    · exact ⟨rfl, rfl, rfl, fun h => (by cases h)⟩
    · exact absurd ho not_mem_empty
  · obtain rfl | ⟨hg, -⟩ := mem_upsert.mp hg
    · exact zero_le_one
    · exact absurd hg not_mem_empty

def run (k n : ℕ) (restore : Bool) : List (Act Event Job Chance) := .call ⟨0, restore⟩ :: List.replicate n (.step k {})

/-- The stock does not suffice, more comes in, the order consumes it and is refunded in full; the
restoration is called twice. -/
theorem recipe_stock_follows_sale_refunded :
    ∃ p, stockJobs.machine.Reachable p ∧ FollowsSale p.store ∧
      (p.store.ingredients.rows, p.store.rows.rows) = ([⟨1, 3⟩], [⟨.job 0 1, 0, 1, 2, true⟩]) := by
  obtain ⟨p, hp, hv⟩ := Machine.exists_reachable_of_run (M := stockJobs.machine)
    (f := fun p => (p.store.ingredients.rows, p.store.rows.rows)) (v := ([⟨1, 3⟩], [⟨.job 0 1, 0, 1, 2, true⟩]))
    (.env (.close 0 10000) :: run 0 5 false ++ [.env (.receive 1 2)] ++ run 1 2 false ++
      [.env (.refund 0 10000)] ++ run 2 1 true ++ run 3 1 true) kitchen_init (by decide +kernel)
  exact ⟨p, hp, (recipe_stock_follows_sale hp).1, hv⟩

end SyrocePms.RecipeStock
