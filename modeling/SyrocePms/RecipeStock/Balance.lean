import SyrocePms.Lib.CollectionSum
import SyrocePms.RecipeStock.Jobs

/-! The balance of an ingredient: what is on stock, and what is consumed and not reversed. The
transactions keep it, and with it the rows of an order, one for each ingredient. -/

namespace SyrocePms.RecipeStock

open Lib PosCheck List Collection

variable {s s' s₀ : Store} {i j : ℕ} {o : SoldOrder} {g : Ingredient} {r : Consumption} {x : ℕ × ℚ} {id : RowId}
  {f : SoldOrder → SoldOrder} {restore : Bool} {status : JobStatus} {needs : Needs}
variable {q : ℚ}

def Ingredient.stockOf (i : ℕ) (g : Ingredient) : ℚ := if g.id = i then g.stock else 0

def Consumption.outOf (i : ℕ) (r : Consumption) : ℚ := if r.ingredient = i ∧ r.reversed = false then r.consumed else 0

def Store.held (s : Store) (i : ℕ) : ℚ := s.ingredients.total (Ingredient.stockOf i) + s.rows.total (Consumption.outOf i)

/-- What holds of an order beside the rows. -/
structure OrderOk (s : Store) (o : SoldOrder) : Prop where
  needs : ∀ needs, o.requirements = some needs → needs.Nonneg
  closed : o.paymentStatus = .refunded → o.status = .closed
  restored : o.paymentStatus = .refunded → o.restore = some .completed → ∀ r ∈ s.rows, r.order = o.id → r.reversed = true

/-- What holds of the stock and the rows. -/
structure RowsOk (s : Store) : Prop where
  stock : ∀ g ∈ s.ingredients, 0 ≤ g.stock
  consumed : ∀ r ∈ s.rows, 0 ≤ r.consumed
  once : ∀ r ∈ s.rows, ∀ r' ∈ s.rows, r.id.isJob = true → r.order = r'.order → r.ingredient = r'.ingredient → r = r'

structure Sound (s : Store) : Prop where
  rows : RowsOk s
  orders : ∀ o ∈ s.orders, OrderOk s o

/-! ### The stock -/

theorem mem_addStock : g ∈ (s.addStock i q).ingredients ↔
    (g ∈ s.ingredients ∧ g.id ≠ i) ∨ ∃ y ∈ s.ingredients, y.id = i ∧ g = y.add q := by
  change g ∈ s.ingredients.update i (Ingredient.add q) (Ingredient.add_id q) ↔ _
  exact mem_update

theorem stockOf_add (q : ℚ) : (g.add q).stockOf i = g.stockOf i + if g.id = i then q else 0 := by
  by_cases hi : g.id = i <;> simp [Ingredient.stockOf, Ingredient.add, hi]

theorem held_addStock (hg : g ∈ s.ingredients) :
    (s.addStock g.id q).held i = s.held i + if g.id = i then q else 0 := by
  unfold Store.held Store.addStock
  rw [total_update hg, stockOf_add]
  ring

theorem addStock_stock (h : ∀ g ∈ s.ingredients, 0 ≤ g.stock)
    (hq : ∀ g ∈ s.ingredients, g.id = i → 0 ≤ g.stock + q) :
    ∀ g ∈ (s.addStock i q).ingredients, 0 ≤ g.stock := by
  intro g hg
  obtain ⟨hg, -⟩ | ⟨y, hy, hid, rfl⟩ := mem_addStock.mp hg
  · exact h g hg
  · exact hq y hy hid

/-! ### Consumption -/

/-- What the consumption of an ingredient has done: nothing, as a row stands for it, or the stock
was enough and the row is written. -/
theorem consumeOne_eq (h : consumeOne i x s = .ok (s', id)) :
    s' = s ∨ (∀ r ∈ s.rows, r.order = i → r.ingredient ≠ x.1) ∧
      ∃ g ∈ s.ingredients, g.id = x.1 ∧ x.2 ≤ g.stock ∧
        ∃ rows, s.rows.insertOne ⟨.job i x.1, i, x.1, x.2, false⟩ = some rows ∧
          s' = { s.addStock x.1 (-x.2) with rows } := by
  unfold consumeOne at h
  split at h
  · cases h
    exact .inl rfl
  · rename_i hnone
    split at h
    · cases h
    · rename_i g hg
      obtain ⟨hg, hid⟩ := get?_eq_some.mp hg
      split at h
      · cases h
      · rename_i hstock
        split at h
        · cases h
        · rename_i rows hins
          cases h
          refine .inr ⟨fun r hr ho hi => hnone ?_, g, hg, hid, not_lt.mp hstock, rows, hins, rfl⟩
          exact Collection.any_eq_true.mpr ⟨r, hr, by simp [ho, hi]⟩

theorem consumeOne_rows (h : RowsOk s) (hx : 0 ≤ x.2) (hs : consumeOne i x s = .ok (s', id)) : RowsOk s' := by
  obtain rfl | ⟨hnone, g, hg, hid, hle, rows, hins, rfl⟩ := consumeOne_eq hs
  · exact h
  · have hmem := fun r => mem_insertOne (x := r) hins
    refine ⟨addStock_stock h.stock fun y hy hyid => ?_, fun r hr => ?_, fun r hr r' hr' hjob ho hi => ?_⟩
    · rw [eq_of_key hy hg (hyid.trans hid.symm)]
      linarith
    · obtain hr | rfl := (hmem r).mp hr
      · exact h.consumed r hr
      · exact hx
    · obtain hr | rfl := (hmem r).mp hr <;> obtain hr' | rfl := (hmem r').mp hr'
      · exact h.once r hr r' hr' hjob ho hi
      · exact absurd hi (hnone r hr ho)
      · exact absurd hi.symm (hnone r' hr' ho.symm)
      · rfl

theorem consumeOne_held (hs : consumeOne i x s = .ok (s', id)) : s'.held j = s.held j := by
  obtain rfl | ⟨-, g, hg, hid, -, rows, hins, rfl⟩ := consumeOne_eq hs
  · rfl
  · have hstock := held_addStock (i := j) (q := -x.2) hg
    rw [hid] at hstock
    have hrows : rows.total (Consumption.outOf j) =
        s.rows.total (Consumption.outOf j) + if x.1 = j then x.2 else 0 := by
      rw [total_insertOne hins]
      simp [Consumption.outOf]
    unfold Store.held at hstock ⊢
    dsimp only [Store.addStock] at hstock ⊢
    rw [hrows, ← add_assoc, hstock]
    split <;> ring

theorem consumeOne_others (hs : consumeOne i x s = .ok (s', id)) :
    s'.orders = s.orders ∧ ∀ r ∈ s'.rows, r ∈ s.rows ∨ r.order = i := by
  obtain rfl | ⟨-, -, -, -, -, rows, hins, rfl⟩ := consumeOne_eq hs
  · exact ⟨rfl, fun r hr => .inl hr⟩
  · refine ⟨rfl, fun r hr => ?_⟩
    obtain hr | rfl := (mem_insertOne hins).mp hr
    · exact .inl hr
    · exact .inr rfl

/-! ### Restoration -/

theorem mem_reverseRow {r' : Consumption} : r' ∈ (s.reverseRow id).rows ↔
    (r' ∈ s.rows ∧ r'.id ≠ id) ∨ ∃ r ∈ s.rows, r.id = id ∧ r' = r.reverse := by
  change r' ∈ s.rows.update id Consumption.reverse Consumption.reverse_id ↔ _
  exact mem_update

theorem held_reverseRow (hr : r ∈ s.rows) (hopen : r.reversed = false) :
    (s.reverseRow r.id).held i = s.held i - if r.ingredient = i then r.consumed else 0 := by
  unfold Store.held Store.reverseRow
  rw [total_update hr]
  have hbefore : r.outOf i = if r.ingredient = i then r.consumed else 0 := by simp [Consumption.outOf, hopen]
  have hafter : r.reverse.outOf i = 0 := by simp [Consumption.outOf, Consumption.reverse]
  rw [hbefore, hafter]
  ring

theorem restoreOne_eq (h : restoreOne r s = .ok (s', id)) :
    id = r.id ∧ ((r.consumed = 0 ∧ s' = s.reverseRow r.id) ∨
      ∃ g ∈ s.ingredients, g.id = r.ingredient ∧ s' = (s.addStock g.id r.consumed).reverseRow r.id) := by
  unfold restoreOne at h
  split at h
  · cases h
    exact ⟨rfl, .inl ⟨‹_›, rfl⟩⟩
  · split at h
    · cases h
    · rename_i g hg
      obtain ⟨hg, hid⟩ := get?_eq_some.mp hg
      cases h
      exact ⟨rfl, .inr ⟨g, hg, hid, by rw [hid]⟩⟩

theorem restoreOne_mem (h : restoreOne r s = .ok (s', id)) :
    s'.orders = s.orders ∧ ∀ y, y ∈ s'.rows ↔ (y ∈ s.rows ∧ y.id ≠ r.id) ∨ ∃ z ∈ s.rows, z.id = r.id ∧ y = z.reverse := by
  obtain ⟨-, ⟨-, rfl⟩ | ⟨g, -, -, rfl⟩⟩ := restoreOne_eq h
  · exact ⟨rfl, fun y => mem_reverseRow⟩
  · exact ⟨rfl, fun y => mem_reverseRow (s := s.addStock g.id r.consumed)⟩

theorem restoreOne_held (hr : r ∈ s.rows) (hopen : r.reversed = false) (h : restoreOne r s = .ok (s', id)) :
    s'.held i = s.held i := by
  obtain ⟨-, ⟨hzero, rfl⟩ | ⟨g, hg, hid, rfl⟩⟩ := restoreOne_eq h
  · rw [held_reverseRow hr hopen, hzero, ite_self, sub_zero]
  · rw [held_reverseRow (s := s.addStock g.id r.consumed) hr hopen, held_addStock hg, hid]
    ring

theorem reverse_of_mem {y : Consumption} (h : restoreOne r s = .ok (s', id)) (hy : y ∈ s'.rows) :
    ∃ z ∈ s.rows, y.id = z.id ∧ y.order = z.order ∧ y.ingredient = z.ingredient ∧ y.consumed = z.consumed ∧
      (z.reversed = true → y.reversed = true) ∧ (z.id = r.id → y.reversed = true) := by
  obtain ⟨hy, hne⟩ | ⟨z, hz, -, rfl⟩ := ((restoreOne_mem h).2 y).mp hy
  · exact ⟨y, hy, rfl, rfl, rfl, rfl, fun hrev => hrev, fun hid => absurd hid hne⟩
  · exact ⟨z, hz, rfl, rfl, rfl, rfl, fun _ => rfl, fun _ => rfl⟩

theorem restoreOne_rows (h : RowsOk s) (hr : r ∈ s.rows) (hs : restoreOne r s = .ok (s', id)) : RowsOk s' := by
  refine ⟨?_, fun y hy => ?_, fun y hy y' hy' hjob ho hi => ?_⟩
  · obtain ⟨-, ⟨-, rfl⟩ | ⟨g, hg, -, rfl⟩⟩ := restoreOne_eq hs
    · exact h.stock
    · exact addStock_stock h.stock fun z hz _ => add_nonneg (h.stock z hz) (h.consumed r hr)
  · obtain ⟨z, hz, -, -, -, hc, -⟩ := reverse_of_mem hs hy
    rw [hc]
    exact h.consumed z hz
  · have hkey : y.id = y'.id := by
      obtain ⟨z, hz, hid, hzo, hzi, -⟩ := reverse_of_mem hs hy
      obtain ⟨z', hz', hid', hzo', hzi', -⟩ := reverse_of_mem hs hy'
      rw [hid, hid', h.once z hz z' hz' (hid ▸ hjob) (hzo.symm.trans (ho.trans hzo')) (hzi.symm.trans (hi.trans hzi'))]
    exact eq_of_key hy hy' hkey

/-- What the rows before a restoration become. -/
structure Restoring (s₀ s : Store) : Prop where
  rows : RowsOk s
  held : ∀ i, s.held i = s₀.held i
  orders : s.orders = s₀.orders
  kept : ∀ y ∈ s.rows, ∃ z ∈ s₀.rows, y.id = z.id ∧ y.order = z.order ∧ (z.reversed = true → y.reversed = true)

theorem Restoring.step (h : Restoring s₀ s) (hr : r ∈ s.rows) (hopen : r.reversed = false)
    (hs : restoreOne r s = .ok (s', id)) : Restoring s₀ s' where
  rows := restoreOne_rows h.rows hr hs
  held i := (restoreOne_held hr hopen hs).trans (h.held i)
  orders := (restoreOne_mem hs).1.trans h.orders
  kept y hy := by
    obtain ⟨z, hz, hid, ho, -, -, hrev, -⟩ := reverse_of_mem hs hy
    obtain ⟨w, hw, hid', ho', hrev'⟩ := h.kept z hz
    exact ⟨w, hw, hid.trans hid', ho.trans ho', fun hw => hrev (hrev' hw)⟩

theorem restoreAll {ids : List RowId} (h : RowsOk s)
    (hs : Transaction.forEach restoreOne (s.rows.rows.filter fun r => r.order = i && !r.reversed) s = .ok (s', ids)) :
    Restoring s s' ∧ ∀ y ∈ s'.rows, y.order = i → y.reversed = true := by
  have hstart : Restoring s s := ⟨h, fun _ => rfl, rfl, fun y hy => ⟨y, hy, rfl, rfl, fun hrev => hrev⟩⟩
  have hn : ((s.rows.rows.filter fun r => r.order = i && !r.reversed).map Consumption.id).Nodup :=
    s.rows.unique.sublist (filter_sublist.map _)
  have hopen : ∀ r ∈ s.rows.rows.filter (fun r => r.order = i && !r.reversed), r ∈ s.rows ∧ r.reversed = false := by
    intro r hr
    obtain ⟨hr, hp⟩ := mem_filter.mp hr
    exact ⟨hr, by simpa using (Bool.and_eq_true_iff.mp hp).2⟩
  have hstep : ∀ s₁ r s₂ id, Restoring s s₁ → r ∈ s₁.rows ∧ r.reversed = false → restoreOne r s₁ = .ok (s₂, id) →
      Restoring s s₂ ∧ (∀ y ∈ s₂.rows, y.id = id → y.reversed = true) ∧ id = r.id ∧
        (∀ z : Consumption, z.id ≠ r.id → z ∈ s₁.rows ∧ z.reversed = false → z ∈ s₂.rows ∧ z.reversed = false) ∧
        ∀ z, z ≠ r.id → (∀ y ∈ s₁.rows, y.id = z → y.reversed = true) → ∀ y ∈ s₂.rows, y.id = z → y.reversed = true := by
    intro s₁ r s₂ id hJ hL hone
    obtain ⟨rfl, -⟩ := restoreOne_eq hone
    refine ⟨hJ.step hL.1 hL.2 hone, fun y hy hid => ?_, rfl, fun z hz hzL => ?_, fun z _ hzL y hy hid => ?_⟩
    · obtain ⟨w, hw, hwid, -, -, -, -, hrev⟩ := reverse_of_mem hone hy
      exact hrev (hwid.symm.trans hid)
    · exact ⟨((restoreOne_mem hone).2 z).mpr (.inl ⟨hzL.1, hz⟩), hzL.2⟩
    · obtain ⟨w, hw, hwid, -, -, -, hrev, -⟩ := reverse_of_mem hone hy
      exact hrev (hzL w hw (hwid.symm.trans hid))
  obtain ⟨hend, hrev, hids, -⟩ := Transaction.forEach_keyed hstep hn hstart hopen hs
  refine ⟨hend, fun y hy ho => ?_⟩
  obtain ⟨z, hz, hid, hzo, hzrev⟩ := hend.kept y hy
  by_cases hz' : z.reversed = true
  · exact hzrev hz'
  · refine hrev y.id ?_ y hy rfl
    have hmem : z.id ∈ (s.rows.rows.filter fun r => r.order = i && !r.reversed).map Consumption.id :=
      mem_map_of_mem (mem_filter.mpr ⟨hz, by simp [← hzo, ho, hz']⟩)
    rw [← hids, map_id'] at hmem
    exact hid ▸ hmem

end SyrocePms.RecipeStock
