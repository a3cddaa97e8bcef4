import SyrocePms.MinibarStock.Reconcile

/-! Each line is depleted once. A transaction judges its jobs by the movements of their own
lines, so jobs of one consumption are apart, and consumptions are apart by their ids. -/

namespace SyrocePms.MinibarStock

open Lib Program List

variable {opening : Backend → ℕ → ℚ} {s s' : Store} {c : ℕ} {d : Consumption} {jobs jobs' : List Job} {b : Backend}
  {k : ℕ} {o : Chance} {t : Thread} {p p' : Pool Store Thread}
variable {r : List (Job × Bool)} {product : ℕ} {pc : Pc}

/-! ### Stored jobs -/

theorem setJobs_self (hd : d ∈ s.consumptions) (hjobs : d.jobs = some jobs) : s.setJobs d.id jobs = s := by
  have hsame : (s.setJobs d.id jobs).consumptions = s.consumptions := by
    ext1
    refine (map_congr_left fun e he => ?_).trans (map_id' _)
    split
    · rename_i hid
      rw [Collection.eq_of_key he hd (of_decide_eq_true hid), ← hjobs]
    · rfl
  exact congrArg (fun consumptions => { s with consumptions }) hsame

theorem Good.setJobs (h : Good opening s) (hs : Sound opening s') (hsame : s'.consumptions = s.consumptions)
    (hcount : ∀ ref, ref.consumption ≠ d.id → s'.count ref = s.count ref) (hd : d ∈ s.consumptions)
    (hno : jobs.map Job.lineNo = d.currentJobs.map Job.lineNo) (hev : ∀ j ∈ jobs, Evident d.id s' j) :
    Good opening (s'.setJobs d.id jobs) := by
  refine ⟨⟨hs.single, fun b => ?_⟩, fun e he => ?_, fun e he jobs' hjobs' j hj => ?_⟩
  · rw [Store.inventory_setJobs]
    exact hs.balanced b
  · rw [Store.mem_setJobs, hsame] at he
    obtain ⟨he, -⟩ | ⟨e, he, hid, rfl⟩ := he
    · exact h.distinct e he
    · change (jobs.map Job.lineNo).Nodup
      rw [hno]
      exact h.distinct d hd
  · rw [Store.mem_setJobs, hsame] at he
    obtain ⟨he, hne⟩ | ⟨e, he, hid, rfl⟩ := he
    · have hold := h.evident e he jobs' hjobs' j hj
      rw [Evident, ← hcount ⟨e.id, j.lineNo⟩ hne] at hold
      exact hold
    · cases hjobs'
      have hnew := hev j hj
      rw [← hid] at hnew
      exact hnew

/-! ### The stock work -/

theorem map_fst_of_not_changed (h : List.Forall₂ (fun j y => y.2 = false → y.1 = j) jobs r)
    (hr : r.any Prod.snd = false) : r.map Prod.fst = jobs := by
  induction h with
  | nil => rfl
  | cons hy _ ih =>
    rw [any_cons, Bool.or_eq_false_iff] at hr
    rw [map_cons, hy hr.1, ih hr.2]

/-- What the loop of `run_stock` keeps. -/
structure Keeps (opening : Backend → ℕ → ℚ) (c : ℕ) (s s' : Store) : Prop where
  sound : Sound opening s'
  consumptions : s'.consumptions = s.consumptions
  count : ∀ ref, ref.consumption ≠ c → s'.count ref = s.count ref

theorem forEach_runJob (hs : Sound opening s) (hn : (jobs.map Job.lineNo).Nodup)
    (hev : ∀ j ∈ jobs, Evident c s j) (h : Transaction.forEach (runJob c) jobs s = .ok (s', r)) :
    Keeps opening c s s' ∧ (∀ y ∈ r, Evident c s' y.1) ∧ r.map (fun y => y.1.lineNo) = jobs.map Job.lineNo := by
  have hstep : ∀ s₁ j s₂ y, Keeps opening c s s₁ → Evident c s₁ j → runJob c j s₁ = .ok (s₂, y) →
      Keeps opening c s s₂ ∧ Evident c s₂ y.1 ∧ y.1.lineNo = j.lineNo ∧
        (∀ z : Job, z.lineNo ≠ j.lineNo → Evident c s₁ z → Evident c s₂ z) ∧
          ∀ z : Job × Bool, z.1.lineNo ≠ j.lineNo → Evident c s₁ z.1 → Evident c s₂ z.1 := by
    intro s₁ j s₂ y hJ hj hy
    have hw := runJob_worked hy
    obtain ⟨hsound, hy'⟩ := hw.sound hJ.sound hj
    have hkeep (z : Job) (hz : z.lineNo ≠ j.lineNo) (he : Evident c s₁ z) : Evident c s₂ z := by
      rw [Evident, hw.count_of_ne (fun heq => hz (LineRef.mk.inj heq).2)]
      exact he
    refine ⟨⟨hsound, hw.consumptions.trans hJ.consumptions, fun ref href => ?_⟩, hy', hw.lineNo, hkeep,
      fun z => hkeep z.1⟩
    rw [hw.count_of_ne, hJ.count ref href]
    rintro rfl
    exact href rfl
  obtain ⟨hJ, hr, hmap, -⟩ := Transaction.forEach_keyed hstep hn ⟨hs, rfl, fun _ _ => rfl⟩ hev h
  exact ⟨hJ, hr, hmap⟩

theorem runStock_good (h : Good opening s) (hrun : runStock c s = .ok (s', jobs')) : Good opening s' := by
  unfold runStock at hrun
  split at hrun
  · cases hrun
  · rename_i d hget
    obtain ⟨hd, hid⟩ := Collection.get?_eq_some.mp hget
    subst hid
    split at hrun
    · cases hrun
      exact h
    · rename_i jobs hjobs
      obtain ⟨⟨s₁, r⟩, hloop, hrun⟩ := Transaction.bind_eq_ok hrun
      cases hrun
      have hcurrent : d.currentJobs = jobs := by rw [Consumption.currentJobs, hjobs]; rfl
      have hn : (jobs.map Job.lineNo).Nodup := hcurrent ▸ h.distinct d hd
      obtain ⟨⟨hs₁, hsame, hcount⟩, hev, hno⟩ := forEach_runJob h.sound hn (h.evident d hd jobs hjobs) hloop
      have hgood : Good opening (s₁.setJobs d.id (r.map Prod.fst)) := by
        refine h.setJobs hs₁ hsame hcount hd ?_ fun j hj => ?_
        · rw [map_map, hcurrent]
          exact hno
        · obtain ⟨y, hy, rfl⟩ := mem_map.mp hj
          exact hev y hy
      split
      · exact hgood
      · rename_i hany
        have hstep : ∀ s j s' y, runJob d.id j s = .ok (s', y) → y.2 = false → y.1 = j := by
          intro s j s' y hy hno
          have hw := runJob_worked hy
          rw [hno] at hw
          exact hw.eq_of_not_changed
        have hfst := map_fst_of_not_changed (Transaction.forEach_forall₂ hstep hloop) (by simpa using hany)
        rw [hfst, setJobs_self (hsame ▸ hd) hjobs] at hgood
        exact hgood

/-! ### The reconciliation -/

/-- What the transaction of a reconciliation changes: jobs of its consumption, which it links. -/
structure Linked (c : ℕ) (s s' : Store) : Prop where
  inventory : ∀ b, s'.inventory b = s.inventory b
  jobs : ∀ d' ∈ s'.consumptions, d' ∈ s.consumptions ∨
    ∃ d ∈ s.consumptions, d.id = c ∧ d'.id = c ∧ List.Forall₂ Bound d.currentJobs d'.currentJobs

theorem jobsToBind_eq_ok (h : d.jobsToBind = .ok jobs) : jobs = d.currentJobs ∧
    (d.jobs = some jobs ∨ ∀ j ∈ jobs, j.isDone = false ∧ j.product = none) := by
  unfold Consumption.jobsToBind at h
  unfold Consumption.currentJobs
  cases hj : d.jobs with
  | some js =>
    rw [hj] at h
    cases h
    exact ⟨rfl, .inl rfl⟩
  | none =>
    simp only [hj] at h
    split at h
    · cases h
    · rename_i hlinked
      cases h
      refine ⟨rfl, .inr fun j hmem => ⟨not_isDone_of_mem_makeJobs hmem, ?_⟩⟩
      obtain ⟨x, hx, rfl⟩ := mem_map.mp hmem
      have hline : x.1 ∈ d.lines := fst_mem_of_mem_zipIdx hx
      have hnone := any_eq_false.mp (Bool.not_eq_true _ ▸ hlinked) x.1 hline
      simpa [Line.job] using hnone

theorem forall₂_bound_refl (jobs : List Job) : List.Forall₂ Bound jobs jobs := by
  induction jobs with
  | nil => exact .nil
  | cons j jobs ih => exact .cons (.inl rfl) ih

theorem reconcileBindings_good {bindings : List Binding} {n : ℕ} (h : Good opening s)
    (hrun : reconcileBindings c bindings s = .ok (s', n)) : Good opening s' ∧ Linked c s s' := by
  unfold reconcileBindings at hrun
  split at hrun
  · cases hrun
  · rename_i d hget
    obtain ⟨hd, rfl⟩ := Collection.get?_eq_some.mp hget
    obtain ⟨jobs, hjobs, hrun⟩ := Transaction.bind_eq_ok hrun
    obtain ⟨rfl, hstored⟩ := jobsToBind_eq_ok hjobs
    split at hrun
    · cases hrun
    · obtain ⟨⟨jobs', r⟩, hloop, hwrite⟩ := Transaction.bind_eq_ok hrun
      have hev : ∀ j ∈ d.currentJobs, Evident d.id s j := by
        intro j hj
        obtain hstored | hstored := hstored
        · exact h.evident d hd _ hstored j hj
        · obtain ⟨hdone, hproduct⟩ := hstored j hj
          simp [Evident, hdone, hproduct]
      have hn := h.distinct d hd
      have hbinds : Binds s d.id d.currentJobs jobs' := by
        refine Transaction.forEach_invariant (fun jobs₁ x _ jobs₂ y hJ hy => ?_) ⟨forall₂_bound_refl _, hev⟩ hloop
        exact hJ.bindLine hn hy
      cases hwrite
      split
      · exact ⟨h, fun _ => rfl, fun d' hd' => .inl hd'⟩
      · refine ⟨h.setJobs h.sound rfl (fun _ _ => rfl) hd (lineNo_of_bound hbinds.bound) hbinds.evident,
          fun b => Store.inventory_setJobs, fun d' hd' => ?_⟩
        obtain ⟨hd', -⟩ | ⟨e, he, hid, rfl⟩ := Store.mem_setJobs.mp hd'
        · exact .inl hd'
        · obtain rfl : e = d := Collection.eq_of_key he hd hid
          exact .inr ⟨e, he, rfl, rfl, hbinds.bound⟩

/-! ### Beside the calls -/

theorem Good.consume {id : ℕ} {lines : List Line} (h : Good opening s) (hs : s.consume id lines = some s') :
    Good opening s' := by
  unfold Store.consume at hs
  split at hs
  · rename_i hfresh
    obtain ⟨consumptions, hins, rfl⟩ := Option.map_eq_some_iff.mp hs
    refine ⟨⟨h.sound.single, fun b => ?_⟩, fun d hd => ?_, fun d hd jobs hjobs j hj => ?_⟩
    · cases b
      · exact h.sound.balanced .accounting
      · exact h.sound.balanced .legacy
    · obtain hd | rfl := (Collection.mem_insertOne hins).mp hd
      · exact h.distinct d hd
      · change ((makeJobs (numbered lines)).map Job.lineNo).Nodup
        rw [lineNo_makeJobs_numbered]
        exact nodup_range
    · obtain hd | rfl := (Collection.mem_insertOne hins).mp hd
      · exact h.evident d hd jobs hjobs j hj
      · cases hjobs
        have hnone (b : Backend) (hb : b ∈ Backend.all) : (s.inventory b).count ⟨id, j.lineNo⟩ = 0 := by
          refine countP_eq_zero.mpr fun m hm hsource => ?_
          have hm := all_eq_true.mp (all_eq_true.mp hfresh b hb) m hm
          rw [of_decide_eq_true hsource] at hm
          simp at hm
        have hcount : s.count ⟨id, j.lineNo⟩ = 0 := by
          have ha := hnone .accounting (by decide)
          have hl := hnone .legacy (by decide)
          simp only [Store.inventory] at ha hl
          simp only [Store.count, ha, hl]
        refine ⟨fun hd => ?_, fun hd => ?_⟩
        · rw [not_isDone_of_mem_makeJobs hj] at hd
          cases hd
        · have hone : s.count ⟨id, j.lineNo⟩ = 1 := hd.2
          rw [hcount] at hone
          cases hone
  · cases hs

/-- Inventories change, and no line gets a movement. -/
theorem Good.of_inventory {v : Inventory} (h : Good opening s) (hv : v.Balanced b (opening b))
    (hcount : ∀ ref, v.count ref = (s.inventory b).count ref) : Good opening (s.setInventory v b) := by
  have hsame (ref : LineRef) : (s.setInventory v b).count ref = s.count ref := by
    have hset := s.count_setInventory v b ref
    have href := hcount ref
    omega
  refine ⟨⟨fun ref => ?_, fun b' => ?_⟩, fun d hd => ?_, fun d hd jobs hjobs j hj => ?_⟩
  · rw [hsame]
    exact h.sound.single ref
  · by_cases hb : b' = b
    · subst hb
      rw [Store.inventory_setInventory]
      exact hv
    · rw [Store.inventory_setInventory_of_ne hb]
      exact h.sound.balanced b'
  · rw [Store.consumptions_setInventory] at hd
    exact h.distinct d hd
  · rw [Store.consumptions_setInventory] at hd
    rw [Evident, hsame]
    exact h.evident d hd jobs hjobs j hj

theorem Good.receive {movement : ℕ} {change : ℚ} (h : Good opening s)
    (hs : s.receive b product change movement = some s') : Good opening s' := by
  unfold Store.receive at hs
  split at hs
  · cases hs
  · rename_i x hget
    obtain ⟨hx, -⟩ := Collection.get?_eq_some.mp hget
    split at hs
    · cases hs
    · rename_i q hq
      split at hs
      · cases hs
      · rename_i hnn
        obtain ⟨v', hbind, rfl⟩ := Option.map_eq_some_iff.mp hs
        obtain ⟨v, hset, hins⟩ := Option.bind_eq_some_iff.mp hbind
        refine h.of_inventory ((h.sound.balanced b).move hx hq hset hins rfl ?_ (not_lt.mp hnn)) fun ref => ?_
        · cases b <;> rfl
        · have hmov : v'.movements = (s.inventory b).movements ++ [⟨.other movement, none, x.id, false, change⟩] := by
            rw [(Inventory.insertMovement_eq_some hins).2, (Inventory.setQuantity_eq_some hset).1]
          rw [Inventory.count_append hmov ref, if_neg (by simp), Nat.add_zero]

theorem Good.setInactive {inactive : Bool} (h : Good opening s) :
    Good opening (s.setInactive b product inactive) := by
  refine h.of_inventory (fun y hy q hq => ?_) fun ref => rfl
  change y ∈ (s.inventory b).products.update product _ (Store.setInactive_id inactive) at hy
  obtain ⟨hy, -⟩ | ⟨x, hx, -, rfl⟩ := Collection.mem_update.mp hy
  · exact h.sound.balanced b y hy q hq
  · exact h.sound.balanced b x hx q hq

theorem Good.outside {x : Outside} (h : Good opening s) (hs : s.outside x = some s') : Good opening s' := by
  cases x with
  | consume id lines => exact h.consume hs
  | receive b product change movement => exact h.receive hs
  | setInactive b product inactive =>
    cases hs
    exact h.setInactive

/-! ### Over a run -/

theorem commit_cases {α : Type*} {tx : Transaction Store StockError α} {f : α → Pc}
    (h : commit s o tx f = (s', pc)) :
    (s' = s ∧ ∃ e, pc = .raised e) ∨ ∃ a, tx s = .ok (s', a) ∧ pc = f a := by
  unfold commit at h
  split at h
  · cases h
    exact .inl ⟨rfl, none, rfl⟩
  · split at h
    · rename_i hrun
      cases h
      exact .inr ⟨_, Transaction.run_eq_ok.mp hrun, rfl⟩
    · rename_i hrun
      cases h
      exact .inl ⟨Transaction.eq_of_run_error hrun, _, rfl⟩

/-- What a step of a call does. -/
structure Stepped (opening : Backend → ℕ → ℚ) (s : Store) (t : Thread) (s' : Store) (pc : Pc) : Prop where
  good : Good opening s → Good opening s'
  raised : ∀ e, pc = .raised e → s' = s
  bind : ∀ bindings, t.pc = .bind bindings → Good opening s → Linked t.consumption s s'

theorem advance_stepped (h : advance s t o = some (s', pc)) : Stepped opening s t s' pc := by
  unfold advance at h
  cases hpc : t.pc with
  | bind bindings =>
    rw [hpc] at h
    obtain ⟨rfl, e, rfl⟩ | ⟨n, hrun, rfl⟩ := commit_cases (Option.some.inj h)
    · exact ⟨id, fun _ _ => rfl, fun _ _ _ => ⟨fun _ => rfl, fun _ hd => .inl hd⟩⟩
    · refine ⟨fun hg => (reconcileBindings_good hg hrun).1, fun e he => (by cases he), fun _ _ hg => ?_⟩
      exact (reconcileBindings_good hg hrun).2
  | stock n =>
    rw [hpc] at h
    obtain ⟨rfl, e, rfl⟩ | ⟨jobs, hrun, rfl⟩ := commit_cases (Option.some.inj h)
    · exact ⟨id, fun _ _ => rfl, fun _ h => by rw [hpc] at h; cases h⟩
    · exact ⟨fun hg => runStock_good hg hrun, fun e he => (by cases he), fun _ h => by rw [hpc] at h; cases h⟩
  | returned n jobs =>
    rw [hpc] at h
    cases h
  | raised e =>
    rw [hpc] at h
    cases h

theorem step_stepped {t' : Thread} (h : (stockCalls opening).step k s t o = some (s', t')) :
    t' = { t with pc := t'.pc } ∧ Stepped opening s t s' t'.pc := by
  obtain ⟨⟨s₁, pc⟩, hadv, heq⟩ := Option.map_eq_some_iff.mp h
  obtain ⟨rfl, rfl⟩ := Prod.mk.inj heq
  exact ⟨rfl, advance_stepped hadv⟩

theorem good_of_reachable (hp : (stockCalls opening).machine.Reachable p) : Good opening p.store := by
  refine hp.invariant (fun p => Good opening p.store) (fun p h₀ => And.left h₀) fun p a p' h _ hs => ?_
  cases a with
  | env x => exact h.outside (next_env hs).1
  | call i =>
    obtain ⟨t, -, hst, -⟩ := next_call hs
    rw [hst]
    exact h
  | step k o =>
    obtain ⟨t, t', -, hst, -⟩ := next_step hs
    exact (step_stepped hst).2.good h

/-- Each line has one movement at most, a job is done exactly if it is linked and that movement
exists, and quantities are the opening with the signed movements. A transaction that raises leaves
the store; the first one of a reconciliation, which stays when the second raises, links jobs and
leaves them pending. -/
theorem minibar_stock_depleted_once (hp : (stockCalls opening).machine.Reachable p) :
    (∀ ref, p.store.count ref ≤ 1) ∧
    (∀ d ∈ p.store.consumptions, ∀ jobs, d.jobs = some jobs → ∀ j ∈ jobs,
      (j.isDone = true ↔ j.product.isSome = true ∧ p.store.count ⟨d.id, j.lineNo⟩ = 1)) ∧
    (∀ b, ∀ x ∈ (p.store.inventory b).products, ∀ q, x.quantity = some q →
      q = opening b x.id + (p.store.inventory b).signedSum b x.id ∧ 0 ≤ q) ∧
    ∀ (k : ℕ) (t : Thread) o p', p.threads[k]? = some t →
      (stockCalls opening).machine.step p (.step k o) = some p' →
        (∀ e, p'.threads[k]? = some { t with pc := .raised e } → p'.store = p.store) ∧
        ∀ bindings, t.pc = .bind bindings → Linked t.consumption p.store p'.store := by
  have hgood := good_of_reachable hp
  refine ⟨hgood.sound.single, hgood.evident, hgood.sound.balanced, fun k t o p' ht hs => ?_⟩
  obtain ⟨u, u', hu, hst, hset⟩ := next_step hs
  obtain rfl : u = t := Option.some.inj (hu.symm.trans ht)
  obtain ⟨hpc, hstepped⟩ := step_stepped hst
  refine ⟨fun e he => hstepped.raised e ?_, fun bindings hbind => hstepped.bind bindings hbind hgood⟩
  rw [hset, List.getElem?_set_self (List.getElem?_eq_some_iff.mp ht).1] at he
  rw [Option.some.inj he]

/-! ### Runs -/

/-- A product with an opening of 11, an old consumption of two lines, the first with a movement. -/
def oldStore : Store where
  accounting := ⟨⟨[⟨5, some 10, false⟩], by decide⟩, [⟨.other 0, some ⟨1, 0⟩, 5, true, 1⟩]⟩
  legacy := ⟨.empty, []⟩
  consumptions := ⟨[⟨1, [{ item := 8, quantity := some 1 }, { item := 9, quantity := some 2 }], none⟩], by decide⟩

theorem good_oldStore : Good (fun _ _ => 11) oldStore := by
  refine ⟨⟨fun ref => ?_, fun b => ?_⟩, fun d hd => ?_, fun d hd jobs hjobs => ?_⟩
  · have hle := countP_le_length (p := fun m : Movement => m.source = some ref)
      (l := oldStore.accounting.movements)
    exact hle
  · intro y hy q hq
    cases b with
    | accounting =>
      rw [mem_singleton.mp hy] at hq ⊢
      cases hq
      decide +kernel
    | legacy => exact absurd hy Collection.not_mem_empty
  · rw [mem_singleton.mp hd]
    decide
  · rw [mem_singleton.mp hd] at hjobs
    cases hjobs

/-- Two lines draw on one product, and the second waits for a delivery. -/
def retried : List (Act Outside Call Chance) :=
  [.env (.consume 2 [{ item := 8, quantity := some 3, product := some 5, source := some (.known .accounting) },
      { item := 9, quantity := some 8, product := some 5, source := some (.known .accounting) }]),
    .call (.runStock 2), .step 0 {}, .env (.receive .accounting 5 5 1), .call (.runStock 2), .step 1 {}]

theorem minibar_stock_depleted_once_retried : ∃ p, (stockCalls fun _ _ => 11).machine.Reachable p ∧
    p.store.accounting.products.rows = [⟨5, some 4, false⟩] ∧
    (∀ ref, p.store.count ref ≤ 1) ∧
    ∀ x ∈ p.store.accounting.products, ∀ q, x.quantity = some q →
      q = 11 + p.store.accounting.signedSum .accounting x.id ∧ 0 ≤ q := by
  obtain ⟨p, hp, hrows⟩ := Machine.exists_reachable_of_run (M := (stockCalls fun _ _ => 11).machine)
    (s := ⟨oldStore, []⟩) (f := fun p => p.store.accounting.products.rows) (v := [⟨5, some 4, false⟩])
    retried ⟨good_oldStore, rfl⟩ (by decide +kernel)
  obtain ⟨hsingle, -, hbalanced, -⟩ := minibar_stock_depleted_once hp
  exact ⟨p, hp, hrows, hsingle, hbalanced .accounting⟩

/-- A reconciliation raises in its stock work, and its line stays linked; the other line has an
old movement and is not done. -/
theorem reconcile_raises_after_binding : ∃ p q, (stockCalls fun _ _ => 11).machine.Reachable p ∧
    p.threads = [(Call.reconcile 1 [⟨1, 5, .accounting⟩]).thread] ∧
    (stockCalls fun _ _ => 11).machine.run p [.step 0 {}, .step 0 { fails := true }] = some q ∧
    q.threads = [⟨1, .raised none⟩] ∧
    q.store.consumptions.rows.map Consumption.jobs ≠ p.store.consumptions.rows.map Consumption.jobs ∧
    ∃ d ∈ q.store.consumptions.rows, ∃ j ∈ d.jobs.getD [], j.isDone = false ∧ q.store.count ⟨d.id, j.lineNo⟩ = 1 := by
  have h₀ : (stockCalls fun _ _ => 11).machine.init ⟨oldStore, []⟩ := ⟨good_oldStore, rfl⟩
  have hp : (stockCalls fun _ _ => 11).machine.Reachable
      ⟨oldStore, [(Call.reconcile 1 [⟨1, 5, .accounting⟩]).thread]⟩ :=
    Machine.Reach.tail (.start h₀) ⟨.call (.reconcile 1 [⟨1, 5, .accounting⟩]), trivial, rfl⟩
  have hrun : ((stockCalls fun _ _ => 11).machine.run ⟨oldStore, [(Call.reconcile 1 [⟨1, 5, .accounting⟩]).thread]⟩
      [.step 0 {}, .step 0 { fails := true }]).map (fun q => (q.threads, decide
        (q.store.consumptions.rows.map Consumption.jobs ≠ oldStore.consumptions.rows.map Consumption.jobs),
        q.store.consumptions.rows.any fun d => (d.jobs.getD []).any fun j =>
          !j.isDone && q.store.count ⟨d.id, j.lineNo⟩ = 1)) = some ([⟨1, .raised none⟩], true, true) := by
    decide +kernel
  obtain ⟨q, hq, hv⟩ := Option.map_eq_some_iff.mp hrun
  obtain ⟨hthreads, hv⟩ := Prod.mk.inj hv
  obtain ⟨hjobs, hany⟩ := Prod.mk.inj hv
  obtain ⟨d, hd, hany⟩ := any_eq_true.mp hany
  obtain ⟨j, hj, hone⟩ := any_eq_true.mp hany
  refine ⟨_, q, hp, rfl, hq, hthreads, of_decide_eq_true hjobs, d, hd, j, hj, ?_⟩
  simpa using hone

end SyrocePms.MinibarStock
