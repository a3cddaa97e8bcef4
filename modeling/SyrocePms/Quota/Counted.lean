import Mathlib.Algebra.Order.Ring.Int
import Mathlib.Data.List.Nodup
import SyrocePms.Lib.Threads

/-! The quota of one tenant, module and metric: a counter beside the set of the reserved
resources. Reservations and releases change both in one update. The bootstrap adds to the set, and
writes the counter by a second update from what the first has returned. -/

namespace SyrocePms.Quota

open Lib

variable {l : List ℕ}

/-- `$addToSet` of one value. -/
def addToSet (l : List ℕ) (r : ℕ) : List ℕ := if r ∈ l then l else l ++ [r]

/-- `$addToSet` with `$each`. -/
def addEach (l rs : List ℕ) : List ℕ := rs.foldl addToSet l

theorem nodup_addToSet (h : l.Nodup) (r : ℕ) : (addToSet l r).Nodup := by
  unfold addToSet
  split
  · exact h
  · rw [List.nodup_append]
    refine ⟨h, List.nodup_singleton r, fun x hx y hy hxy => ?_⟩
    rw [List.mem_singleton] at hy
    exact absurd (hy ▸ hxy ▸ hx) ‹_›

theorem nodup_addEach (h : l.Nodup) (rs : List ℕ) : (addEach l rs).Nodup := by
  induction rs generalizing l with
  | nil => exact h
  | cons r rs ih => exact ih (nodup_addToSet h r)

/-- A row of `entitlement_quota_usage`. -/
structure Usage where
  used : ℤ := 0
  resources : List ℕ := []
  distinct : resources.Nodup := by exact List.nodup_nil

namespace Usage

variable (u : Usage)

def count : ℤ := u.resources.length

/-- The filter of `reserve_quota`. -/
def accepts (r : ℕ) (limit : ℤ) : Bool := r ∉ u.resources && u.used < limit

def reserve (r : ℕ) : Usage := ⟨u.used + 1, addToSet u.resources r, nodup_addToSet u.distinct r⟩

/-- The filter of `release_quota`. -/
def isReleasable (r : ℕ) : Bool := r ∈ u.resources && 0 < u.used

/-- `$pull`. -/
def release (r : ℕ) : Usage := ⟨u.used - 1, u.resources.filter (fun x => x ≠ r), u.distinct.filter _⟩

def addStaff (ids : List ℕ) : Usage := ⟨u.used, addEach u.resources ids, nodup_addEach u.distinct ids⟩

end Usage

/-- `isMarked` is the row of `entitlement_quota_bootstrap`. -/
structure Store where
  usage : Option Usage := none
  isMarked : Bool := false

namespace Store

variable (s : Store)

/-- `_ensure_quota_doc`. -/
def ensure : Store := { s with usage := some (s.usage.getD {}) }

def update (p : Usage → Bool) (f : Usage → Usage) : Store :=
  { s with usage := s.usage.map fun u => if p u then f u else u }

def count : ℤ := (s.usage.map Usage.count).getD 0

end Store

/-! ### Calls -/

inductive ReservePc
  | check
  | ensure
  | update
  | recheck
  | returned (isReserved : Bool)
  deriving DecidableEq

inductive BootstrapPc
  | marker
  | staff
  | ensure (ids : List ℕ)
  | add (ids : List ℕ)
  | recount (n : ℤ)
  | mark
  | returned
  deriving DecidableEq

inductive Thread
  | reserve (r : ℕ) (limit : ℤ) (pc : ReservePc)
  | release (r : ℕ) (isDone : Bool)
  | bootstrap (pc : BootstrapPc)
  deriving DecidableEq

inductive Request
  | reserve (r : ℕ) (limit : ℤ)
  | release (r : ℕ)
  | bootstrap

def start : Request → Thread
  | .reserve r limit => .reserve r limit .check
  | .release r => .release r false
  | .bootstrap => .bootstrap .marker

def reserveStep (s : Store) (r : ℕ) (limit : ℤ) : ReservePc → Option (Store × ReservePc)
  | .check => some (s, if limit ≤ 0 then .returned false else .ensure)
  | .ensure => some (s.ensure, .update)
  | .update =>
    some (s.update (fun u => u.accepts r limit) (fun u => u.reserve r),
      if s.usage.any fun u => u.accepts r limit then .returned true else .recheck)
  | .recheck => some (s, .returned (s.usage.any fun u => r ∈ u.resources))
  | .returned _ => none

/-- `staff` are the active staff members that the query finds. -/
def bootstrapStep (s : Store) (staff : List ℕ) : BootstrapPc → Option (Store × BootstrapPc)
  | .marker => some (s, if s.isMarked then .returned else .staff)
  | .staff => some (s, if staff = [] then .mark else .ensure staff)
  | .ensure ids => some (s.ensure, .add ids)
  | .add ids =>
    some (s.update (fun _ => true) (fun u => u.addStaff ids),
      match s.usage.map fun u => u.addStaff ids with
      | some u => if u.used = u.count then .mark else .recount u.count
      | none => .mark)
  | .recount n => some (s.update (fun _ => true) (fun u => { u with used := n }), .mark)
  | .mark => some ({ s with isMarked := true }, .returned)
  | .returned => none

def step (s : Store) (staff : List ℕ) : Thread → Option (Store × Thread)
  | .reserve r limit pc => (reserveStep s r limit pc).map fun x => (x.1, .reserve r limit x.2)
  | .release r isDone =>
    if isDone then none else some (s.update (fun u => u.isReleasable r) (fun u => u.release r), .release r true)
  | .bootstrap pc => (bootstrapStep s staff pc).map fun x => (x.1, .bootstrap x.2)

def Thread.isReturned : Thread → Bool
  | .reserve _ _ (.returned _) | .release _ true | .bootstrap .returned => true
  | _ => false

/-- The counter is the number of the resources. -/
def Store.Counted (s : Store) : Prop := ∀ u, s.usage = some u → u.used = u.count

/-- Calls on a quota whose counter is right, or that has no row yet. -/
def quota : Program Store Thread Empty Request (List ℕ) where
  init := Store.Counted
  env _ e := e.elim
  call _ r := some (start r)
  step _ s t staff := step s staff t

end SyrocePms.Quota

/-! The counter over whole runs. It is the number of the resources unless a bootstrap has added to
the set and not yet written it, as long as that write finds the number that it has read. -/

namespace SyrocePms.Quota

open Lib Program Machine

variable {s s' : Store} {t t' : Thread} {staff : List ℕ} {r : ℕ} {limit : ℤ} {u : Usage} {pc pc' : ReservePc}
  {bpc bpc' : BootstrapPc} {p p' : Pool Store Thread} {a : Act Empty Request (List ℕ)}

/-! ### Updates -/

theorem Usage.count_reserve (h : r ∉ u.resources) : (u.reserve r).count = u.count + 1 := by
  simp [Usage.count, Usage.reserve, addToSet, h]

theorem Usage.count_release (h : r ∈ u.resources) : (u.release r).count = u.count - 1 := by
  have hlength : (u.resources.filter fun x => x ≠ r).length = u.resources.length - 1 := by
    rw [← List.length_erase_of_mem h, u.distinct.erase_eq_filter]
    congr 1
    refine List.filter_congr fun x _ => ?_
    simp [bne, decide_not, ← Bool.beq_eq_decide_eq]
  have hpos : 0 < u.resources.length := List.length_pos_of_mem h
  simp only [Usage.count, Usage.release, hlength]
  omega

theorem Store.Counted.update {f : Usage → Usage} {q : Usage → Bool} (h : s.Counted)
    (hf : ∀ u, q u = true → u.used = u.count → (f u).used = (f u).count) : (s.update q f).Counted := by
  intro v hv
  obtain ⟨u, hu, rfl⟩ := Option.map_eq_some_iff.mp hv
  split
  · exact hf u ‹_› (h u hu)
  · exact h u hu

theorem Store.Counted.ensure (h : s.Counted) : s.ensure.Counted := by
  intro u hu
  cases hs : s.usage with
  | some v =>
    simp only [Store.ensure, hs, Option.getD_some, Option.some.injEq] at hu
    exact hu ▸ h v hs
  | none =>
    simp only [Store.ensure, hs, Option.getD_none, Option.some.injEq] at hu
    rw [← hu]
    rfl

/-! ### Steps -/

def Thread.isCounting : Thread → Bool
  | .bootstrap (.recount _) => true
  | _ => false

/-- The write of a counter finds as many resources as were counted, and a reservation that goes
through finds the counter right. -/
def Thread.isSound (s : Store) : Thread → Bool
  | .bootstrap (.recount n) => s.usage.all fun u => u.count = n
  | .reserve r limit .update => s.usage.all fun u => !u.accepts r limit || u.used = u.count
  | _ => true

theorem reserveStep_counted (h : s.Counted) (hs : reserveStep s r limit pc = some (s', pc')) : s'.Counted := by
  cases pc <;> cases hs
  case check => exact h
  case ensure => exact h.ensure
  case recheck => exact h
  case update =>
    refine h.update fun u hu heq => ?_
    simp only [Usage.accepts, Bool.and_eq_true, decide_eq_true_eq] at hu
    rw [Usage.count_reserve hu.1, ← heq]
    rfl

theorem release_counted (h : s.Counted) : (s.update (fun u => u.isReleasable r) (fun u => u.release r)).Counted := by
  refine h.update fun u hu heq => ?_
  simp only [Usage.isReleasable, Bool.and_eq_true, decide_eq_true_eq] at hu
  rw [Usage.count_release hu.1, ← heq]
  rfl

/-- A write of the number of the resources. -/
theorem recount_counted {n : ℤ} (h : (s.usage.all fun u => u.count = n) = true) :
    (s.update (fun _ => true) (fun u => { u with used := n })).Counted := by
  intro v hv
  obtain ⟨u, hu, rfl⟩ := Option.map_eq_some_iff.mp hv
  rw [hu] at h
  simpa [Usage.count, eq_comm] using h

/-- The bootstrap leaves the counter right, or its write is due. -/
theorem bootstrapStep_counted (h : s.Counted) (hc : (Thread.bootstrap bpc).isCounting = false)
    (hs : bootstrapStep s staff bpc = some (s', bpc')) : s'.Counted ∨ (Thread.bootstrap bpc').isCounting = true := by
  cases bpc with
  | marker =>
    cases hs
    exact .inl h
  | staff =>
    cases hs
    exact .inl h
  | ensure ids =>
    cases hs
    exact .inl h.ensure
  | add ids =>
    cases hs
    split
    · rename_i v hv
      split
      · rename_i heq
        left
        intro w hw
        simp only [Store.update, if_true] at hw
        rw [hv] at hw
        cases hw
        exact heq
      · exact .inr rfl
    · rename_i hv
      left
      intro w hw
      simp only [Store.update, if_true] at hw
      rw [hv] at hw
      cases hw
  | recount n => cases hc
  | mark =>
    cases hs
    exact .inl h
  | returned => cases hs

theorem step_counted (h : s.Counted) (hc : t.isCounting = false) (hs : step s staff t = some (s', t')) :
    s'.Counted ∨ t'.isCounting = true := by
  cases t with
  | reserve r limit pc =>
    obtain ⟨x, hx, heq⟩ := Option.map_eq_some_iff.mp hs
    cases heq
    exact .inl (reserveStep_counted h hx)
  | release r isDone =>
    cases isDone <;> cases hs
    exact .inl (release_counted h)
  | bootstrap bpc =>
    obtain ⟨x, hx, heq⟩ := Option.map_eq_some_iff.mp hs
    cases heq
    exact bootstrapStep_counted h hc hx

/-- A due write that finds what it counted makes the counter right. -/
theorem counting_counted (hc : t.isCounting = true) (hsound : t.isSound s = true) (hs : step s staff t = some (s', t')) :
    s'.Counted := by
  cases t with
  | reserve r limit pc => cases hc
  | release r isDone => cases hc
  | bootstrap bpc =>
    cases bpc <;> cases hc
    cases hs
    exact recount_counted hsound

/-! ### Runs -/

def isSound (p : Pool Store Thread) : Act Empty Request (List ℕ) → Bool
  | .step k _ => (p.threads[k]?).all fun t => t.isSound p.store
  | _ => true

/-- The counter is right, or a write of it is due. -/
def Balanced (p : Pool Store Thread) : Prop := p.store.Counted ∨ ∃ t ∈ p.threads, t.isCounting = true

theorem balanced_next (h : Balanced p) (hsound : isSound p a = true) (hs : quota.machine.step p a = some p') : Balanced p' := by
  cases a with
  | env e => exact e.elim
  | call r =>
    obtain ⟨t, -, hstore, hthreads⟩ := next_call hs
    obtain h | ⟨u, hu, hc⟩ := h
    · exact .inl (hstore ▸ h)
    · exact .inr ⟨u, hthreads ▸ List.mem_append_left _ hu, hc⟩
  | step k staff =>
    obtain ⟨t, t', ht, hstep, hthreads⟩ := next_step hs
    cases hc : t.isCounting with
    | true =>
      simp only [isSound, ht, Option.all_some] at hsound
      exact .inl (counting_counted hc hsound hstep)
    | false =>
      obtain h | ⟨u, hu, huc⟩ := h
      · obtain h | h := step_counted h hc hstep
        · exact .inl h
        · exact .inr ⟨t', hthreads ▸ self_mem_set ht t', h⟩
      · obtain rfl | hu := eq_or_mem_set ht hu t'
        · rw [hc] at huc
          cases huc
        · exact .inr ⟨u, hthreads ▸ hu, huc⟩

/-- A reservation that adds a resource stays within its limit. -/
def GrantsWithin (p : Pool Store Thread) (a : Act Empty Request (List ℕ)) (p' : Pool Store Thread) : Prop :=
  ∀ k staff r limit pc, a = .step k staff → p.threads[k]? = some (.reserve r limit pc) →
    p.store.count < p'.store.count → p'.store.count ≤ limit

theorem Store.count_ensure : s.ensure.count = s.count := by
  cases hs : s.usage <;> simp [Store.ensure, Store.count, Usage.count, hs]

/-- A reservation that goes through where the counter is right. -/
theorem count_reserve_le (hsound : (s.usage.all fun u => !u.accepts r limit || u.used = u.count) = true)
    (hlt : s.count < (s.update (fun u => u.accepts r limit) (fun u => u.reserve r)).count) :
    (s.update (fun u => u.accepts r limit) (fun u => u.reserve r)).count ≤ limit := by
  cases hu : s.usage with
  | none => simp [Store.update, Store.count, hu] at hlt
  | some u =>
    cases ha : u.accepts r limit with
    | false => simp [Store.update, Store.count, hu, ha] at hlt
    | true =>
      have hcount : u.used = u.count := by simpa [hu, ha] using hsound
      simp only [Usage.accepts, Bool.and_eq_true, decide_eq_true_eq] at ha
      have hreserve := Usage.count_reserve ha.1
      simp only [Store.update, Store.count, hu, Option.map_some, Option.getD_some, Usage.accepts, ha.1, ha.2,
        not_false_eq_true, decide_true, Bool.and_self, if_true]
      omega

theorem grants_within (hsound : isSound p a = true) (hs : quota.machine.step p a = some p') : GrantsWithin p a p' := by
  rintro k staff r limit pc rfl hk hlt
  obtain ⟨t, t', ht, hstep, -⟩ := next_step hs
  obtain rfl := Option.some.inj (ht.symm.trans hk)
  simp only [isSound, ht, Option.all_some] at hsound
  obtain ⟨⟨s', pc'⟩, hx, heq⟩ := Option.map_eq_some_iff.mp hstep
  have hstore : s' = p'.store := congrArg Prod.fst heq
  rw [← hstore] at hlt ⊢
  cases pc <;> cases hx
  case check => exact absurd hlt (lt_irrefl _)
  case ensure =>
    rw [← Store.count_ensure] at hlt
    exact absurd hlt (lt_irrefl _)
  case update => exact count_reserve_le hsound hlt
  case recheck => exact absurd hlt (lt_irrefl _)

/-- In runs whose counter writes find what they counted and whose reservations go through on a right
counter, the counter is the number of the resources when all calls have returned, and a reservation
that adds a resource stays within its limit. -/
theorem quotas_counted (hp : quota.machine.Reach (fun p a => isSound p a = true) p) :
    ((∀ t ∈ p.threads, t.isReturned = true) → p.store.Counted) ∧
      ∀ a p', isSound p a = true → quota.machine.step p a = some p' → GrantsWithin p a p' := by
  have hinit (q : Pool Store Thread) (h : quota.machine.init q) : Balanced q := .inl h.1
  have hbalanced : Balanced p := hp.invariant Balanced hinit fun _ _ _ h hc hs => balanced_next h hc hs
  refine ⟨fun hret => ?_, fun a p' hsound hs => grants_within hsound hs⟩
  obtain h | ⟨t, ht, hc⟩ := hbalanced
  · exact h
  · have hret := hret t ht
    unfold Thread.isCounting at hc
    split at hc
    · cases hret
    · cases hc

/-- The counter, the resources, and whether all calls have returned. -/
def outcome (p : Pool Store Thread) : Option (ℤ × List ℕ) × Bool :=
  (p.store.usage.map fun u => (u.used, u.resources), p.threads.all Thread.isReturned)

/-- A bootstrap with two members of staff, a reservation, and a release. -/
def orderly : List (Act Empty Request (List ℕ)) :=
  [.call .bootstrap, .call (.reserve 3 3), .step 0 [], .step 0 [1, 2], .step 0 [], .step 0 [], .step 1 [], .step 1 [],
    .step 0 [], .step 0 [], .step 1 [], .call (.release 1), .step 2 []]

theorem empty_counted : Store.Counted {} := fun u hu => by cases hu

theorem quotas_counted_orderly : ∃ p, quota.machine.Reach (fun p a => isSound p a = true) p ∧
    outcome p = (some (2, [2, 3]), true) ∧ p.store.Counted := by
  obtain ⟨p, hp, hv⟩ := exists_reach_of_runUnder (C := fun p a => isSound p a = true) (f := outcome)
    (v := (some (2, [2, 3]), true)) (M := quota.machine) (s := ⟨{}, []⟩) orderly ⟨empty_counted, rfl⟩ (by decide +kernel)
  refine ⟨p, hp, hv, (quotas_counted hp).1 fun t ht => ?_⟩
  have hret : p.threads.all Thread.isReturned = true := congrArg Prod.snd hv
  exact List.all_eq_true.mp hret t ht

/-- The reservation falls between the two updates of the bootstrap. -/
def between : List (Act Empty Request (List ℕ)) :=
  [.call .bootstrap, .call (.reserve 3 2), .step 0 [], .step 0 [1, 2], .step 0 [], .step 0 [], .step 1 [], .step 1 []]

/-- The reservation is the third resource where two are allowed, and the bootstrap then counts two. -/
theorem reservation_not_counted :
    (∃ p a p', quota.machine.Reachable p ∧ quota.machine.step p a = some p' ∧ ¬ GrantsWithin p a p') ∧
      ∃ p, quota.machine.Reachable p ∧ (∀ t ∈ p.threads, t.isReturned = true) ∧ ¬ p.store.Counted := by
  constructor
  · obtain ⟨p, p', hp, hs, hv, hv'⟩ := exists_step_of_run (M := quota.machine) (s := ⟨{}, []⟩)
      (f := fun p => (p.threads[1]?, p.store.count)) (v := (some (.reserve 3 2 .update), 2))
      (w := (some (.reserve 3 2 (.returned true)), 3)) between (.step 1 []) ⟨empty_counted, rfl⟩ (by decide +kernel)
      (by decide +kernel)
    obtain ⟨hthread, hcount⟩ := Prod.mk.inj hv
    obtain ⟨-, hcount'⟩ := Prod.mk.inj hv'
    refine ⟨p, _, p', hp, hs, fun h => ?_⟩
    have hle := h 1 [] 3 2 .update rfl hthread (by omega)
    omega
  · obtain ⟨p, hp, hv⟩ := exists_reachable_of_run (M := quota.machine) (s := ⟨{}, []⟩) (f := outcome)
      (v := (some (2, [1, 2, 3]), true)) (List.flatten [between, [.step 1 [], .step 0 [],
        .step 0 []]]) ⟨empty_counted, rfl⟩
      (by decide +kernel)
    obtain ⟨husage, hret⟩ := Prod.mk.inj hv
    refine ⟨p, hp, fun t ht => List.all_eq_true.mp hret t ht, fun h => ?_⟩
    obtain ⟨u, hu, heq⟩ := Option.map_eq_some_iff.mp husage
    obtain ⟨hused, hresources⟩ := Prod.mk.inj heq
    have hcounted := h u hu
    rw [Usage.count, hused, hresources] at hcounted
    cases hcounted

end SyrocePms.Quota
