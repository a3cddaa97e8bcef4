import SyrocePms.RoomLocks.Rows

/-! The repair of nights with several locks: `list_room_night_lock_duplicate_groups` plans it
from the owners of the rows, and `resolve_room_night_lock_duplicates` deletes the rows of the
nights that the plan calls safe. -/

namespace SyrocePms.RoomLocks

open Atomic Reservation List

variable {rows : Rows} {key : NightKey}

/-- The fields of a booking that the classification reads. Its status is that of the text in
lower case, and `none` is a text that is no status of the list. -/
structure OwnerDoc where
  status : Option BookingStatus
  createdAt : Option ℕ := none
  checkIn : Option Stamp := none
  checkOut : Option Stamp := none

/-- The lookup in `bookings`, by tenant and identifier. -/
abbrev OwnerDocs := ℕ → ℕ → Option OwnerDoc

inductive OwnerKind where
  | block
  | active
  | terminal
  | missing
  | unknown
  deriving DecidableEq

/-- A terminal status, or any other: those outside both lists count as active. -/
def OwnerDoc.kind (doc : OwnerDoc) : OwnerKind :=
  if doc.status.any BookingStatus.terminal then .terminal else .active

/-- `_classify_lock_owner` with the document that it found. `answers` is false when the lookup
raises. -/
def classifyLockOwner (docs : OwnerDocs) (answers : Bool) (tenant : ℕ) :
    Holder → OwnerKind × Option OwnerDoc
  | .absent | .empty => (.missing, none)
  | .named (.block _) => (.block, none)
  | .named (.booking id) =>
    if answers then ((docs tenant id).elim .missing OwnerDoc.kind, docs tenant id)
    else (.unknown, none)

def ownerKind (docs : OwnerDocs) (r : LockRow) : OwnerKind :=
  (classifyLockOwner docs true r.key.tenant r.holder).1

def OwnerKind.live : OwnerKind → Bool
  | .block | .active => true
  | _ => false

/-- The kinds whose lock may be retired. -/
def OwnerKind.inactive : OwnerKind → Bool
  | .terminal | .missing => true
  | _ => false

/-- A row as the plan describes it. -/
structure Owner where
  holder : Holder
  lockType : Option LockType
  lockCreatedAt : Option ℕ
  kind : OwnerKind
  doc : Option OwnerDoc

/-- The key of the order by creation: of the lock, then of the booking. -/
def Owner.created (o : Owner) : ℕ × ℕ :=
  (o.lockCreatedAt.getD 0, (o.doc.bind OwnerDoc.createdAt).getD 0)

/-- `o` was created before `o'` or with it. -/
def Owner.notAfter (o o' : Owner) : Prop :=
  o.created.1 < o'.created.1 ∨ (o.created.1 = o'.created.1 ∧ o.created.2 ≤ o'.created.2)

instance (o o' : Owner) : Decidable (o.notAfter o') := inferInstanceAs (Decidable (_ ∨ _))

inductive Recommendation where
  | autoSafe
  | autoSafeAllInactive
  | manualRequired
  deriving DecidableEq

inductive PlanReason where
  | classificationFailed
  | singleKeeper
  | severalKeepers
  | allInactive
  | noPattern

/-- The recommendation for a night, with its keeper and the owners to retire. -/
structure Advice where
  recommendation : Recommendation
  reason : PlanReason
  keep : Option Holder
  retire : List Holder

def Advice.manual (reason : PlanReason) : Advice := ⟨.manualRequired, reason, none, []⟩

/-- `sorted(…, reverse=True)`: the owners from the last created one on, those of one time in
their order. -/
def newestFirst (owners : List Owner) : List Owner :=
  owners.insertionSort fun o o' => o'.notAfter o

/-- Every owner is inactive: the newest lock is kept. -/
def adviseInactive (owners : List Owner) : Advice :=
  match newestFirst owners with
  | [] => .manual .noPattern
  | o :: rest => ⟨.autoSafeAllInactive, .allInactive, some o.holder, rest.map Owner.holder⟩

def advise (owners : List Owner) : Advice :=
  let inactive := owners.filter fun o => o.kind.inactive
  if owners.any fun o => o.kind = .unknown then .manual .classificationFailed
  else
    match owners.filter fun o => o.kind.live with
    | [] => adviseInactive inactive
    | [k] =>
      if inactive.isEmpty then .manual .noPattern
      else ⟨.autoSafe, .singleKeeper, some k.holder, inactive.map Owner.holder⟩
    | _ :: _ :: _ => .manual .severalKeepers

/-- How a deletion ends: it is answered, its answer is lost, or it fails before it. -/
inductive DeleteReply where
  | answered
  | lost
  | failed
  deriving DecidableEq

/-- The answers of the database for one night: of the read of its rows, of the lookup of the
owner of each row, of the deletion, and of the count, the audit insert and the timeline. -/
structure Replies where
  fetch : Bool := true
  lookup : ℕ → Bool := fun _ => true
  delete : DeleteReply := .answered
  count : Bool := true
  audit : Bool := true
  timeline : Bool := true

def readOwners (docs : OwnerDocs) (rows : Rows) (key : NightKey) (a : Replies) : List Owner :=
  let read := if a.fetch then (group rows key).take 100 else []
  read.mapIdx fun i r =>
    let found := classifyLockOwner docs (a.lookup i) key.tenant r.holder
    ⟨r.holder, r.lockType, r.createdAt, found.1, found.2⟩

structure Plan where
  key : NightKey
  count : ℕ
  owners : List Owner
  advice : Advice

def Plan.isSafe (p : Plan) : Bool := p.advice.recommendation != .manualRequired

def planGroup (docs : OwnerDocs) (rows : Rows) (key : NightKey) (a : Replies) : Plan :=
  let owners := readOwners docs rows key a
  { key := key
    count := (group rows key).length
    owners := owners
    advice := advise owners }

/-- The answer of `scan_room_night_lock_duplicates`: nights with more than one row, in any
order and no more than the limit. A scan that raises answers none. -/
structure Scan (rows : Rows) (limit : ℕ) where
  keys : List NightKey
  nodup : keys.Nodup
  several : ∀ key ∈ keys, 1 < (group rows key).length
  length_le : keys.length ≤ limit

def listDuplicateGroups (docs : OwnerDocs) {rows : Rows} {limit : ℕ} (scan : Scan rows limit)
    (replies : NightKey → Replies) : List Plan :=
  scan.keys.map fun key => planGroup docs rows key (replies key)

/-! ### `resolve_room_night_lock_duplicates` -/

structure Actor where
  id : ℕ
  name : ℕ
  role : ℕ

/-- Why the rows were retired: by the plan, with the owners that it found, or by an operator,
with the rows that were read. -/
inductive Decision where
  | auto (recommendation : Recommendation) (reason : PlanReason) (owners : List Owner)
  | manual (ownersBefore : Rows)

/-- The row of `audit_logs`. -/
structure RepairRecord where
  key : NightKey
  decision : Decision
  keep : Option Holder
  retired : List Holder
  deletedCount : ℕ
  actor : Actor

/-- The event `lock_duplicate_resolved` of the timeline. -/
structure RepairEvent where
  key : NightKey
  recommendation : Option Recommendation
  keep : Option Holder
  retired : List Holder
  deletedCount : ℕ
  actorId : ℕ

def RepairRecord.event (r : RepairRecord) : RepairEvent where
  key := r.key
  recommendation :=
    match r.decision with
    | .auto recommendation _ _ => some recommendation
    | .manual _ => none
  keep := r.keep
  retired := r.retired
  deletedCount := r.deletedCount
  actorId := r.actor.id

structure Store where
  rows : Rows
  audit : List RepairRecord := []
  timeline : List RepairEvent := []

def isRetired (key : NightKey) (retire : List Holder) (r : LockRow) : Bool :=
  r.key = key && retire.contains r.holder

/-- The deletion and the count of the rows that remain, or `none` when one of them raises. -/
def retireRows (s : Store) (key : NightKey) (retire : List Holder) (a : Replies) :
    Store × Option (ℕ × ℕ) :=
  let gone := deleteMany s.rows (isRetired key retire)
  match a.delete with
  | .failed => (s, none)
  | .lost => ({ s with rows := gone }, none)
  | .answered =>
    ({ s with rows := gone },
      if a.count then some ((s.rows.filter (isRetired key retire)).length, (group gone key).length)
      else none)

/-- The audit row and the event. What raises here is only logged. -/
def Store.record (s : Store) (a : Replies) (r : RepairRecord) : Store where
  rows := s.rows
  audit := if a.audit then s.audit ++ [r] else s.audit
  timeline := if a.timeline then s.timeline ++ [r.event] else s.timeline

inductive SkipReason where
  | advised (reason : PlanReason)
  | nothingToRetire
  | deleteError
  | postCheck (rows : ℕ)

inductive RepairOutcome where
  | skipped (reason : SkipReason)
  | planned
  | applied (deletedCount : ℕ)

def resolveGroup (apply : Bool) (actor : Actor) (s : Store) (p : Plan) (a : Replies) :
    Store × RepairOutcome :=
  if !p.isSafe then (s, .skipped (.advised p.advice.reason))
  else if p.advice.retire.isEmpty then (s, .skipped .nothingToRetire)
  else if !apply then (s, .planned)
  else
    match retireRows s p.key p.advice.retire a with
    | (s', none) => (s', .skipped .deleteError)
    | (s', some (deleted, remaining)) =>
      if remaining = 1 then
        (s'.record a ⟨p.key, .auto p.advice.recommendation p.advice.reason p.owners, p.advice.keep,
          p.advice.retire, deleted, actor⟩, .applied deleted)
      else (s', .skipped (.postCheck remaining))

def resolvePlan (apply : Bool) (actor : Actor) (replies : NightKey → Replies) :
    List Plan → Store → Store × List (Plan × RepairOutcome)
  | [], s => (s, [])
  | p :: ps, s =>
    let r := resolveGroup apply actor s p (replies p.key)
    let rest := resolvePlan apply actor replies ps r.1
    (rest.1, (p, r.2) :: rest.2)

structure RepairReport where
  applied : Bool
  scanned : ℕ
  outcomes : List (Plan × RepairOutcome)

def resolveDuplicates (docs : OwnerDocs) (s : Store) {limit : ℕ} (scan : Scan s.rows limit)
    (replies : NightKey → Replies) (apply : Bool) (actor : Actor) : Store × RepairReport :=
  let plan := listDuplicateGroups docs scan replies
  let r := resolvePlan apply actor replies plan s
  (r.1, ⟨apply, plan.length, r.2⟩)

/-! ### The advice -/

theorem newestFirst_perm (owners : List Owner) : (newestFirst owners).Perm owners :=
  perm_insertionSort _ owners

/-- What a safe advice says of the owners that were read: the keeper is one of them, and the
others are retired, each of them inactive. -/
structure Advice.Splits (adv : Advice) (owners : List Owner) (k : Holder) : Prop where
  keep : adv.keep = some k
  perm : (owners.map Owner.holder).Perm (k :: adv.retire)
  inactive : ∀ h ∈ adv.retire, ∃ o ∈ owners, o.holder = h ∧ o.kind.inactive = true

/-- The advice for `owners`: an operator decides and nothing is retired, or it is safe. -/
def Advice.Fits (adv : Advice) (owners : List Owner) : Prop :=
  (∃ reason, adv = .manual reason) ∨
    (adv.recommendation ≠ .manualRequired ∧ ∃ k, adv.Splits owners k)

theorem adviseInactive_fits {owners : List Owner}
    (hin : ∀ o ∈ owners, o.kind.inactive = true) : (adviseInactive owners).Fits owners := by
  have hperm := newestFirst_perm owners
  unfold adviseInactive
  cases hn : newestFirst owners with
  | nil => exact .inl ⟨_, rfl⟩
  | cons o rest =>
    rw [hn] at hperm
    refine .inr ⟨by simp, o.holder, rfl, (hperm.map Owner.holder).symm, ?_⟩
    intro x hx
    obtain ⟨o', ho', rfl⟩ := mem_map.mp hx
    have hmem : o' ∈ owners := hperm.mem_iff.mp (mem_cons_of_mem _ ho')
    exact ⟨o', hmem, rfl, hin o' hmem⟩

theorem OwnerKind.inactive_eq_not_live {kind : OwnerKind} (h : kind ≠ .unknown) :
    kind.inactive = !kind.live := by
  cases kind <;> simp_all [OwnerKind.inactive, OwnerKind.live]

theorem advise_fits (owners : List Owner) : (advise owners).Fits owners := by
  unfold advise
  by_cases hun : (owners.any fun o => o.kind = .unknown) = true
  · rw [if_pos hun]
    exact .inl ⟨_, rfl⟩
  · rw [if_neg hun]
    have hkind : ∀ o ∈ owners, o.kind.inactive = !o.kind.live := by
      intro o ho
      apply OwnerKind.inactive_eq_not_live
      intro hk
      exact hun (any_eq_true.mpr ⟨o, ho, by simp [hk]⟩)
    have hin : (owners.filter fun o => o.kind.inactive) = owners.filter fun o => !o.kind.live :=
      filter_congr hkind
    have hperm := filter_append_perm (fun o : Owner => o.kind.live) owners
    rw [← hin] at hperm
    have hmem : ∀ o ∈ owners.filter (fun o => o.kind.inactive),
        o ∈ owners ∧ o.kind.inactive = true := fun o ho => mem_filter.mp ho
    cases hlive : owners.filter fun o => o.kind.live with
    | nil =>
      rw [hlive, nil_append] at hperm
      obtain hm | ⟨hne, k, hk⟩ := adviseInactive_fits fun o ho => (hmem o ho).2
      · exact .inl hm
      · refine .inr ⟨hne, k, hk.keep, (hperm.map Owner.holder).symm.trans hk.perm, ?_⟩
        intro x hx
        obtain ⟨o, ho, hox⟩ := hk.inactive x hx
        exact ⟨o, (hmem o ho).1, hox⟩
    | cons k rest =>
      cases rest with
      | nil =>
        rw [hlive] at hperm
        by_cases he : (owners.filter fun o => o.kind.inactive).isEmpty = true
        · simp only [if_pos he]
          exact .inl ⟨_, rfl⟩
        · simp only [if_neg he]
          refine .inr ⟨by simp, k.holder, rfl, (hperm.map Owner.holder).symm, ?_⟩
          intro x hx
          obtain ⟨o, ho, rfl⟩ := mem_map.mp hx
          exact ⟨o, (hmem o ho).1, rfl, (hmem o ho).2⟩
      | cons k' rest' => exact .inl ⟨_, rfl⟩

/-! ### The plan of a night -/

variable {a : Replies}

theorem readOwners_holders (docs : OwnerDocs) (rows : Rows) (key : NightKey) (h : a.fetch = true) :
    (readOwners docs rows key a).map Owner.holder =
      ((group rows key).take 100).map LockRow.holder := by
  simp only [readOwners, if_pos h]
  rw [mapIdx_eq_zipIdx_map, map_map]
  conv_rhs => rw [← zipIdx_map_fst 0 ((group rows key).take 100), map_map]
  rfl

variable {docs : OwnerDocs}

/-- A lookup that answers, or one that raises, never calls a live owner inactive. -/
theorem classifyLockOwner_inactive {answers : Bool} {tenant : ℕ} {holder : Holder}
    (h : (classifyLockOwner docs answers tenant holder).1.inactive = true) :
    (classifyLockOwner docs true tenant holder).1.inactive = true := by
  unfold classifyLockOwner at h ⊢
  cases holder with
  | absent | empty => exact h
  | named owner =>
    cases owner with
    | block id => exact h
    | booking id =>
      cases answers with
      | false => cases h
      | true => exact h

/-- The owners that a safe plan retires are inactive, whatever lookups raise. -/
theorem planGroup_retire_inactive {h : Holder} (hh : h ∈ (planGroup docs rows key a).advice.retire) :
    (classifyLockOwner docs true key.tenant h).1.inactive = true := by
  obtain ⟨reason, hm⟩ | ⟨-, k, hk⟩ := advise_fits (readOwners docs rows key a)
  · have hnil : (planGroup docs rows key a).advice.retire = [] := by
      show (advise (readOwners docs rows key a)).retire = []
      rw [hm]
      rfl
    rw [hnil] at hh
    cases hh
  · obtain ⟨o, ho, rfl, hin⟩ := hk.inactive h hh
    simp only [readOwners, mem_mapIdx] at ho
    obtain ⟨i, hi, rfl⟩ := ho
    exact classifyLockOwner_inactive hin

theorem planGroup_fetch (h : (planGroup docs rows key a).isSafe = true) : a.fetch = true := by
  by_contra hf
  simp [planGroup, readOwners, hf, Plan.isSafe, advise, adviseInactive, newestFirst,
    Advice.manual] at h

theorem planGroup_perm (h : (planGroup docs rows key a).isSafe = true) :
    ∃ k, (planGroup docs rows key a).advice.keep = some k ∧
      (((group rows key).take 100).map LockRow.holder).Perm
        (k :: (planGroup docs rows key a).advice.retire) := by
  rw [← readOwners_holders docs rows key (planGroup_fetch h)]
  obtain ⟨reason, hm⟩ | ⟨-, k, hk⟩ := advise_fits (readOwners docs rows key a)
  · simp [planGroup, Plan.isSafe, hm, Advice.manual] at h
  · exact ⟨k, hk.keep, hk.perm⟩

/-! ### What the repair deletes -/

def Plan.deletes (p : Plan) (a : Replies) (r : LockRow) : Bool :=
  p.isSafe && a.delete != .failed && isRetired p.key p.advice.retire r

theorem retireRows_rows (s : Store) (key : NightKey) (retire : List Holder) (a : Replies) :
    (retireRows s key retire a).1.rows =
      deleteMany s.rows fun r => a.delete != .failed && isRetired key retire r := by
  unfold retireRows
  cases a.delete with
  | failed => exact (deleteMany_eq_self.mpr fun r _ => rfl).symm
  | lost | answered => rfl

@[simp] theorem record_rows (s : Store) (a : Replies) (r : RepairRecord) :
    (s.record a r).rows = s.rows := rfl

theorem resolveGroup_rows (actor : Actor) (s : Store) (p : Plan) (a : Replies) :
    (resolveGroup true actor s p a).1.rows = deleteMany s.rows (p.deletes a) := by
  unfold resolveGroup
  cases hsafe : p.isSafe with
  | false => exact (deleteMany_eq_self.mpr fun r _ => by simp [Plan.deletes, hsafe]).symm
  | true =>
    by_cases hr : p.advice.retire.isEmpty = true
    · have hnil : p.advice.retire = [] := isEmpty_iff.mp hr
      simp only [Bool.not_true, Bool.false_eq_true, if_false, if_pos hr]
      exact (deleteMany_eq_self.mpr fun r _ => by
        simp [Plan.deletes, isRetired, hnil]).symm
    · have hrows := retireRows_rows s p.key p.advice.retire a
      have hdel : p.deletes a =
          fun r => a.delete != .failed && isRetired p.key p.advice.retire r := by
        funext r
        simp only [Plan.deletes, hsafe, Bool.true_and]
      rw [hdel, ← hrows]
      simp only [Bool.not_true, Bool.false_eq_true, if_false, if_neg hr]
      split
      · rename_i h
        rw [h]
      · rename_i h
        rw [h]
        split <;> rfl

theorem resolvePlan_other (actor : Actor) (replies : NightKey → Replies) (ps : List Plan)
    (s : Store) (h : ∀ p ∈ ps, p.isSafe = true → p.key ≠ key) :
    group (resolvePlan true actor replies ps s).1.rows key = group s.rows key := by
  induction ps generalizing s with
  | nil => rfl
  | cons p ps ih =>
    simp only [resolvePlan]
    rw [ih _ fun q hq => h q (mem_cons_of_mem _ hq), resolveGroup_rows]
    apply group_deleteMany_of_forall
    intro r hr hkey
    simp only [Plan.deletes, isRetired, Bool.and_eq_true, decide_eq_true_eq] at hr
    exact h p mem_cons_self hr.1.1 (hr.2.1.symm.trans hkey)

theorem resolvePlan_group (actor : Actor) (replies : NightKey → Replies) {p : Plan}
    {ps : List Plan} (s : Store) (hps : (ps.map Plan.key).Nodup) (hp : p ∈ ps) :
    group (resolvePlan true actor replies ps s).1.rows p.key =
      deleteMany (group s.rows p.key) (p.deletes (replies p.key)) := by
  induction ps generalizing s with
  | nil => cases hp
  | cons q ps ih =>
    rw [map_cons, nodup_cons] at hps
    simp only [resolvePlan]
    rcases mem_cons.mp hp with rfl | hmem
    · rw [resolvePlan_other, resolveGroup_rows, group_deleteMany]
      intro q hq _ hkey
      exact hps.1 (hkey ▸ mem_map_of_mem hq)
    · rw [ih _ hps.2 hmem, resolveGroup_rows, group_deleteMany_of_forall]
      intro r hr hkey
      simp only [Plan.deletes, isRetired, Bool.and_eq_true, decide_eq_true_eq] at hr
      exact hps.1 (hr.2.1.symm.trans hkey ▸ mem_map_of_mem hmem)

theorem resolvePlan_filter (actor : Actor) (replies : NightKey → Replies) {keep : LockRow → Bool}
    (ps : List Plan) (s : Store)
    (h : ∀ p ∈ ps, ∀ r, r.key = p.key → r.holder ∈ p.advice.retire → keep r = false) :
    (resolvePlan true actor replies ps s).1.rows.filter keep = s.rows.filter keep := by
  induction ps generalizing s with
  | nil => rfl
  | cons p ps ih =>
    simp only [resolvePlan]
    rw [ih _ fun q hq => h q (mem_cons_of_mem _ hq), resolveGroup_rows, deleteMany,
      filter_filter]
    apply filter_congr
    intro r _
    cases hk : keep r with
    | false => simp
    | true =>
      have hdel : p.deletes (replies p.key) r = false := by
        by_contra hd
        simp only [Bool.not_eq_false, Plan.deletes, isRetired, Bool.and_eq_true,
          decide_eq_true_eq, contains_iff_mem] at hd
        rw [h p mem_cons_self r hd.2.1 hd.2.2] at hk
        cases hk
      simp [hdel]

/-! ### When the repair is safe -/

/-- The condition for one night: the deletion is carried out, the keeper has one row of the
night, and the owner of every row is among the owners of the first hundred. -/
structure Plan.Exact (p : Plan) (rows : Rows) (a : Replies) : Prop where
  deleted : a.delete ≠ .failed
  once : ((group rows p.key).filter fun r => p.advice.keep = some r.holder).length = 1
  read : ∀ r ∈ group rows p.key, ∃ r' ∈ (group rows p.key).take 100, r'.holder = r.holder

theorem deleteMany_retired_iff {g read : Rows} {k : Holder} {retire : List Holder}
    (hsub : read.Sublist g) (hperm : (read.map LockRow.holder).Perm (k :: retire)) :
    (∃ r, deleteMany g (fun r => retire.contains r.holder) = [r] ∧ some k = some r.holder) ↔
      (g.filter fun r => some k = some r.holder).length = 1 ∧
        ∀ r ∈ g, ∃ r' ∈ read, r'.holder = r.holder := by
  have hread : ∀ h, h ∈ k :: retire ↔ ∃ r' ∈ read, r'.holder = h := by
    intro h
    rw [← hperm.mem_iff, mem_map]
  constructor
  · rintro ⟨r, hr, hk⟩
    have hmem : ∀ x, x ∈ [r] ↔ x ∈ g ∧ retire.contains x.holder = false := by
      intro x
      rw [← hr, mem_deleteMany]
    have hself := (hmem r).mp (mem_singleton.mpr rfl)
    constructor
    · have honly : (g.filter fun r => some k = some r.holder) =
          [r].filter fun r => some k = some r.holder := by
        rw [← hr, deleteMany, filter_filter]
        apply filter_congr
        intro x _
        by_cases hx : some k = some x.holder
        · have hout : retire.contains x.holder = false := by
            rw [← Option.some.inj hx, Option.some.inj hk]
            exact hself.2
          simp only [hx, hout, decide_true, Bool.not_false, Bool.and_self]
        · simp only [hx, decide_false, Bool.false_and]
      rw [honly]
      simp [hk]
    · intro x hx
      by_cases hin : retire.contains x.holder = true
      · exact (hread x.holder).mp (mem_cons_of_mem _ (contains_iff_mem.mp hin))
      · have hxr := (hmem x).mpr ⟨hx, by simpa using hin⟩
        rw [mem_singleton.mp hxr, ← Option.some.inj hk]
        exact (hread k).mp mem_cons_self
  · rintro ⟨honce, hall⟩
    have hk : k ∉ retire := by
      have hcount : (read.map LockRow.holder).count k ≤ (g.map LockRow.holder).count k :=
        (hsub.map LockRow.holder).count_le k
      have hone : (g.map LockRow.holder).count k = 1 := by
        rw [← honce, List.count, countP_map, countP_eq_length_filter]
        congr 1
        apply filter_congr
        intro r _
        rw [Bool.eq_iff_iff]
        simp only [Function.comp_apply, beq_iff_eq, Option.some.injEq, decide_eq_true_eq]
        exact eq_comm
      rw [hperm.count_eq, count_cons_self, hone] at hcount
      have hzero : retire.count k = 0 := by omega
      exact count_eq_zero.mp hzero
    have hdel : deleteMany g (fun r => retire.contains r.holder) =
        g.filter fun r => some k = some r.holder := by
      apply filter_congr
      intro r hr
      rw [Bool.eq_iff_iff]
      simp only [Bool.not_eq_true', contains_eq_mem, decide_eq_false_iff_not,
        decide_eq_true_eq, Option.some.injEq]
      have hmem := (hread r.holder).mpr (hall r hr)
      constructor
      · intro hout
        rcases mem_cons.mp hmem with h | h
        · exact h.symm
        · exact absurd h hout
      · rintro rfl
        exact hk
    obtain ⟨r, hr⟩ := length_eq_one_iff.mp honce
    refine ⟨r, hdel.trans hr, ?_⟩
    have hmem : r ∈ g.filter fun r => some k = some r.holder := hr ▸ mem_singleton.mpr rfl
    simpa using (mem_filter.mp hmem).2

def isLive (docs : OwnerDocs) (r : LockRow) : Bool := (ownerKind docs r).live

/-- A repair is safe: each night that the plan calls safe has one row left, that of its keeper,
the row of no live owner is deleted, and the other nights are as before. -/
structure SafeRepair (docs : OwnerDocs) (before after : Rows) (plans : List Plan) : Prop where
  kept : ∀ p ∈ plans, p.isSafe = true →
    ∃ r, group after p.key = [r] ∧ p.advice.keep = some r.holder
  live : after.filter (isLive docs) = before.filter (isLive docs)
  other : ∀ key, (∀ p ∈ plans, p.isSafe = true → p.key ≠ key) →
    group after key = group before key

/-- The repair of a night with several rows leaves the row of the keeper exactly under the
condition. -/
theorem deletes_keeps_iff (hlen : 1 < (group rows key).length)
    (hsafe : (planGroup docs rows key a).isSafe = true) :
    (∃ r, deleteMany (group rows key) ((planGroup docs rows key a).deletes a) = [r] ∧
      (planGroup docs rows key a).advice.keep = some r.holder) ↔
      (planGroup docs rows key a).Exact rows a := by
  obtain ⟨k, hk, hperm⟩ := planGroup_perm hsafe
  have hkey : (planGroup docs rows key a).key = key := rfl
  by_cases hd : a.delete = .failed
  · have hself : deleteMany (group rows key) ((planGroup docs rows key a).deletes a) =
        group rows key := deleteMany_eq_self.mpr fun r _ => by simp [Plan.deletes, hd]
    rw [hself]
    constructor
    · rintro ⟨r, hr, -⟩
      rw [hr] at hlen
      exact absurd hlen (by simp)
    · exact fun h => absurd hd h.deleted
  · have hdel : deleteMany (group rows key) ((planGroup docs rows key a).deletes a) =
        deleteMany (group rows key) fun r =>
          (planGroup docs rows key a).advice.retire.contains r.holder := by
      rw [deleteMany_congr]
      intro r hr
      simp only [Plan.deletes, hsafe, isRetired, hkey, (mem_group.mp hr).2, decide_true,
        Bool.true_and, Bool.and_eq_right_iff_imp, bne_iff_ne]
      exact fun _ => hd
    rw [hdel, hk, deleteMany_retired_iff (take_sublist 100 _) hperm]
    constructor
    · rintro ⟨honce, hread⟩
      exact ⟨hd, by rw [hkey, hk]; exact honce, by rw [hkey]; exact hread⟩
    · rintro ⟨-, honce, hread⟩
      rw [hkey, hk] at honce
      rw [hkey] at hread
      exact ⟨honce, hread⟩

/-- The repair never deletes the row of a live owner and never touches another night. A night
that it calls safe keeps exactly the row of its keeper when the keeper has one row there and
the plan has seen every owner of the night. -/
theorem resolveDuplicates_safe_iff (docs : OwnerDocs) (s : Store) {limit : ℕ}
    (scan : Scan s.rows limit) (replies : NightKey → Replies) (actor : Actor) :
    SafeRepair docs s.rows (resolveDuplicates docs s scan replies true actor).1.rows
        (listDuplicateGroups docs scan replies) ↔
      ∀ p ∈ listDuplicateGroups docs scan replies, p.isSafe = true →
        p.Exact s.rows (replies p.key) := by
  have hkeys : (listDuplicateGroups docs scan replies).map Plan.key = scan.keys := by
    simp only [listDuplicateGroups, map_map]
    exact map_id' scan.keys
  have hnodup := hkeys.symm ▸ scan.nodup
  have hiff : ∀ p ∈ listDuplicateGroups docs scan replies, p.isSafe = true →
      ((∃ r, group (resolveDuplicates docs s scan replies true actor).1.rows p.key = [r] ∧
        p.advice.keep = some r.holder) ↔ p.Exact s.rows (replies p.key)) := by
    intro p hp hsafe
    have hgroup : group (resolveDuplicates docs s scan replies true actor).1.rows p.key =
        deleteMany (group s.rows p.key) (p.deletes (replies p.key)) :=
      resolvePlan_group actor replies s hnodup hp
    rw [hgroup]
    obtain ⟨key, hkey, rfl⟩ := mem_map.mp hp
    exact deletes_keeps_iff (scan.several key hkey) hsafe
  constructor
  · intro h p hp hsafe
    exact (hiff p hp hsafe).mp (h.kept p hp hsafe)
  · intro h
    refine ⟨fun p hp hsafe => (hiff p hp hsafe).mpr (h p hp hsafe), ?_, ?_⟩
    · apply resolvePlan_filter
      intro p hp r hr hretire
      obtain ⟨key, hkey, rfl⟩ := mem_map.mp hp
      have hin := planGroup_retire_inactive hretire
      have htenant : r.key.tenant = key.tenant := congrArg NightKey.tenant hr
      unfold isLive ownerKind
      rw [htenant]
      cases hc : (classifyLockOwner docs true key.tenant r.holder).1 <;> rw [hc] at hin <;>
        first | rfl | cases hin
    · intro key hkey
      exact resolvePlan_other actor replies _ s hkey

def repeatedRows : Rows :=
  [⟨⟨1, 7, 20⟩, .named (.booking 4), some .booking, some 1⟩,
    ⟨⟨1, 7, 20⟩, .named (.booking 4), some .booking, some 2⟩]

def repeatedScan : Scan repeatedRows 100 where
  keys := [⟨1, 7, 20⟩]
  nodup := by decide
  several := by decide
  length_le := by decide

/-- The booking is cancelled: the plan keeps its identifier and retires it, so that no row of
the night is left. -/
theorem not_safeRepair_repeated : ¬ SafeRepair (fun _ _ => some ⟨some .cancelled, none, none, none⟩)
    repeatedRows
    (resolveDuplicates (fun _ _ => some ⟨some .cancelled, none, none, none⟩) ⟨repeatedRows, [], []⟩
      repeatedScan (fun _ => {}) true ⟨0, 0, 0⟩).1.rows
    (listDuplicateGroups (fun _ _ => some ⟨some .cancelled, none, none, none⟩) repeatedScan
      fun _ => {}) := by
  intro h
  obtain ⟨r, hr, -⟩ := h.kept _ (mem_singleton.mpr rfl) (by decide +kernel)
  have hnil : ([] : Rows) = [r] := Eq.trans (by decide +kernel) hr
  cases hnil

end SyrocePms.RoomLocks
