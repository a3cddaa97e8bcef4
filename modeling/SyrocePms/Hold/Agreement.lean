import SyrocePms.Hold.Service

/-! Confirmation and expiry of a hold. A confirmation answers with success whatever it
finds, and the sweep marks the booking whatever it deletes, so the two agree only while a
confirmation comes before the sweep has found the locks or does not come at all. -/

namespace SyrocePms.Hold

open Reservation Lib List Collection

variable {h l l' : Lock} {s s' : Store} {a : HoldArgs} {expiresAt night now : ℤ}
  {booking pick released : ℕ} {found : List Lock} {t t' : Thread} {done : List ℕ}
  {todo : List (ℕ × List Lock)}

def Lock.Later (l l' : Lock) : Prop := l' = l ∨ (l.kind = .hold ∧ l' = l.upgraded)

/-- The lock of a hold, which may be upgraded by now. -/
structure Lock.Same (l h : Lock) : Prop where
  id : l.id = h.id
  cell : l.cell = h.cell
  booking : l.booking = h.booking
  kind : l.kind = .hold ∨ l.kind = .booking

def Store.Confirmed (s : Store) (h : Lock) : Prop := ∃ l ∈ s.locks, l.Same h ∧ l.kind = .booking

/-- The lock of a hold stands, or a sweep has deleted it. -/
def Store.Kept (s : Store) (h : Lock) : Prop := h.id ∈ s.swept ∨ ∃ l ∈ s.locks, l.Same h

/-- The locks that a sweep found for a booking are holds that are over, or upgraded. -/
def FoundOk (s : Store) (now : ℤ) (booking : ℕ) (found : List Lock) : Prop :=
  ∀ f ∈ found, f.id < s.nextId ∧ ∀ l ∈ s.locks, l.id = f.id →
    l.expiredOf booking now = true ∨ l.kind = .booking

def FoundDone (s : Store) (found : List Lock) : Prop :=
  ∀ f ∈ found, f.id < s.nextId ∧ ∀ l ∈ s.locks, l.id = f.id → l.kind = .booking

/-- The locks of a creation in flight are in no hold yet. -/
def Unheld (s : Store) (claimed : List Lock) : Prop :=
  ∀ c ∈ claimed, c.id < s.nextId ∧ (∀ h ∈ s.held, h.id ≠ c.id) ∧ ∀ h ∈ s.confirmed, h.id ≠ c.id

structure LocksOk (s : Store) : Prop where
  ids : (s.locks.rows.map Lock.id).Nodup
  fresh : ∀ l ∈ s.locks, l.id < s.nextId

structure HoldOk (s : Store) : Prop extends LocksOk s where
  held : ∀ h ∈ s.held, h.id < s.nextId ∧ s.Kept h
  confirmed : ∀ h ∈ s.confirmed, h.id < s.nextId ∧ s.Confirmed h
  marked : ∀ ids ∈ s.marked, ∀ i ∈ ids, i < s.nextId ∧ ∀ l ∈ s.locks, l.id ≠ i

def Thread.claimed : Thread → List Lock
  | .claiming _ _ claimed _ | .rollback _ claimed _ => claimed
  | _ => []

def ThreadOk (s : Store) (t : Thread) : Prop :=
  Unheld s t.claimed ∧
    match t with
    | .claiming a _ claimed _ => ∀ c ∈ claimed, c.booking = a.booking ∧ s.Kept c
    | .sweeping now _ _ todo => ∀ g ∈ todo, FoundOk s now g.1 g.2
    | .marking now _ _ _ found todo => FoundDone s found ∧ ∀ g ∈ todo, FoundOk s now g.1 g.2
    | _ => True

/-- A lock belongs to one creation. -/
def ClaimsApart (t u : Thread) : Prop := ∀ c ∈ t.claimed, ∀ d ∈ u.claimed, c.id ≠ d.id

/-! ### How the locks evolve -/

/-- What an operation does to the locks: it inserts new ones, upgrades holds, deletes locks
that are its own, and deletes holds in the name of a sweep. -/
structure Evolves (own : List ℕ) (s s' : Store) : Prop extends LocksOk s' where
  back : ∀ l' ∈ s'.locks, s.nextId ≤ l'.id ∨ ∃ l ∈ s.locks, l.Later l'
  forth : ∀ l ∈ s.locks, l.id ∈ own ∨ (l.kind = .hold ∧ l.id ∈ s'.swept) ∨
    ∃ l' ∈ s'.locks, l.Later l'
  nextId : s.nextId ≤ s'.nextId
  swept : ∀ i ∈ s.swept, i ∈ s'.swept

theorem Lock.Later.id (h : l.Later l') : l'.id = l.id := by
  obtain rfl | ⟨-, rfl⟩ := h <;> rfl

theorem Lock.Later.kind (h : l.Later l') (hk : l.kind = .booking) : l' = l := by
  obtain rfl | ⟨hh, -⟩ := h
  · rfl
  · rw [hk] at hh
    cases hh

theorem Lock.Later.same (hl : l.Later l') (hs : l.Same h) : l'.Same h := by
  obtain rfl | ⟨-, rfl⟩ := hl
  · exact hs
  · exact ⟨hs.id, hs.cell, hs.booking, .inr rfl⟩

theorem LocksOk.eq_of_id (h : LocksOk s) (hl : l ∈ s.locks) (hl' : l' ∈ s.locks)
    (hid : l.id = l'.id) : l = l' :=
  inj_on_of_nodup_map h.ids hl hl' hid

theorem Evolves.of_eq (h : LocksOk s) (hl : s'.locks = s.locks) (hn : s'.nextId = s.nextId)
    (hs : s'.swept = s.swept) : Evolves [] s s' where
  ids := hl ▸ h.ids
  fresh l hmem := by
    rw [hl] at hmem
    exact hn ▸ h.fresh l hmem
  back l hmem := by
    rw [hl] at hmem
    exact .inr ⟨l, hmem, .inl rfl⟩
  forth l hmem := .inr (.inr ⟨l, hl ▸ hmem, .inl rfl⟩)
  nextId := hn.ge
  swept i hi := hs ▸ hi

theorem Evolves.insert (h : LocksOk s) {locks : Collection Lock Lock.cell}
    (hi : s.locks.insertOne (s.newLock a expiresAt night) = some locks) :
    Evolves [] s { s with locks := locks, nextId := s.nextId + 1 } where
  ids := by
    rw [(insertOne_eq_some hi).2, map_append, nodup_append]
    refine ⟨h.ids, nodup_singleton _, fun i hi j hj hij => ?_⟩
    obtain ⟨l, hl, rfl⟩ := mem_map.mp hi
    rw [map_singleton, mem_singleton] at hj
    have hlt : l.id < s.nextId := h.fresh l hl
    have hnew : (s.newLock a expiresAt night).id = s.nextId := rfl
    omega
  fresh l hmem := by
    obtain hmem | rfl := (mem_insertOne hi).mp hmem
    · exact Nat.lt_succ_of_lt (h.fresh l hmem)
    · exact Nat.lt_succ_self _
  back l hmem := by
    obtain hmem | rfl := (mem_insertOne hi).mp hmem
    · exact .inr ⟨l, hmem, .inl rfl⟩
    · exact .inl le_rfl
  forth l hmem := .inr (.inr ⟨l, (mem_insertOne hi).mpr (.inl hmem), .inl rfl⟩)
  nextId := Nat.le_succ _
  swept _ hi := hi

theorem mem_delete {id : ℕ} : l ∈ (s.delete id).locks ↔ l ∈ s.locks ∧ l.id ≠ id := by
  simp [Store.delete]

theorem LocksOk.delete (h : LocksOk s) (id : ℕ) : LocksOk (s.delete id) where
  ids := h.ids.sublist (filter_sublist.map _)
  fresh l hl := h.fresh l (mem_delete.mp hl).1

theorem Evolves.delete (h : LocksOk s) (id : ℕ) : Evolves [id] s (s.delete id) where
  toLocksOk := h.delete id
  back l hl := .inr ⟨l, (mem_delete.mp hl).1, .inl rfl⟩
  forth l hl := by
    by_cases hid : l.id = id
    · exact .inl (by simp [hid])
    · exact .inr (.inr ⟨l, mem_delete.mpr ⟨hl, hid⟩, .inl rfl⟩)
  nextId := le_rfl
  swept _ hi := hi

theorem Evolves.sweep (h : LocksOk s) (hl : l ∈ s.locks) (hk : l.kind = .hold) :
    Evolves [] s { s.delete l.id with swept := l.id :: s.swept } where
  ids := (h.delete l.id).ids
  fresh := (h.delete l.id).fresh
  back x hx := .inr ⟨x, (mem_delete.mp hx).1, .inl rfl⟩
  forth x hx := by
    by_cases hid : x.id = l.id
    · rw [h.eq_of_id hx hl hid]
      exact .inr (.inl ⟨hk, mem_cons_self⟩)
    · exact .inr (.inr ⟨x, mem_delete.mpr ⟨hx, hid⟩, .inl rfl⟩)
  nextId := le_rfl
  swept _ hi := mem_cons_of_mem _ hi

theorem mem_upgrade {id : ℕ} : l ∈ (s.upgrade id).locks ↔
    ∃ x ∈ s.locks, l = if x.id = id then x.upgraded else x := by
  unfold Store.upgrade
  rw [mem_updateMany]
  simp only [decide_eq_true_eq]

theorem Evolves.upgrade (h : LocksOk s) (hl : l ∈ s.locks) (hk : l.kind = .hold) :
    Evolves [] s (s.upgrade l.id) where
  ids := by
    have hmap : (s.upgrade l.id).locks.rows.map Lock.id = s.locks.rows.map Lock.id := by
      simp only [Store.upgrade, Collection.updateMany, map_map]
      refine map_congr_left fun x _ => ?_
      simp only [Function.comp]
      split <;> rfl
    rw [hmap]
    exact h.ids
  fresh x hx := by
    obtain ⟨y, hy, rfl⟩ := mem_upgrade.mp hx
    have hlt : y.id < s.nextId := h.fresh y hy
    split <;> exact hlt
  back x hx := by
    obtain ⟨y, hy, rfl⟩ := mem_upgrade.mp hx
    refine .inr ⟨y, hy, ?_⟩
    split
    · rename_i hid
      rw [h.eq_of_id hy hl hid]
      exact .inr ⟨hk, rfl⟩
    · exact .inl rfl
  forth x hx := by
    refine .inr (.inr ⟨_, mem_upgrade.mpr ⟨x, hx, rfl⟩, ?_⟩)
    split
    · rename_i hid
      rw [h.eq_of_id hx hl hid]
      exact .inr ⟨hk, rfl⟩
    · exact .inl rfl
  nextId := le_rfl
  swept _ hi := hi

/-! ### Frames -/

section Frames

variable {own : List ℕ} {s s' : Store} (he : Evolves own s s')
include he

theorem Evolves.kept (hk : s.Kept h) (hown : h.id ∉ own) : s'.Kept h := by
  obtain hs | ⟨l, hl, hsame⟩ := hk
  · exact .inl (he.swept _ hs)
  · obtain ho | ⟨-, hs⟩ | ⟨l', hl', hlater⟩ := he.forth l hl
    · exact absurd (hsame.id ▸ ho) hown
    · exact .inl (hsame.id ▸ hs)
    · exact .inr ⟨l', hl', hlater.same hsame⟩

theorem Evolves.confirmed (hc : s.Confirmed h) (hown : h.id ∉ own) : s'.Confirmed h := by
  obtain ⟨l, hl, hsame, hk⟩ := hc
  obtain ho | ⟨hh, -⟩ | ⟨l', hl', hlater⟩ := he.forth l hl
  · exact absurd (hsame.id ▸ ho) hown
  · rw [hk] at hh
    cases hh
  · exact ⟨l, hlater.kind hk ▸ hl', hsame, hk⟩

theorem Evolves.earlier (hl' : l' ∈ s'.locks) (hid : l'.id < s.nextId) :
    ∃ l ∈ s.locks, l.Later l' := by
  obtain hge | h := he.back l' hl'
  · omega
  · exact h

theorem Evolves.foundOk (hf : FoundOk s now booking found) : FoundOk s' now booking found := by
  intro f hmem
  obtain ⟨hlt, hall⟩ := hf f hmem
  refine ⟨hlt.trans_le he.nextId, fun l' hl' hid => ?_⟩
  obtain ⟨l, hl, hlater⟩ := he.earlier hl' (hid ▸ hlt)
  have hold := hall l hl (hlater.id ▸ hid)
  obtain rfl | ⟨-, rfl⟩ := hlater
  · exact hold
  · exact .inr rfl

theorem Evolves.foundDone (hf : FoundDone s found) : FoundDone s' found := by
  intro f hmem
  obtain ⟨hlt, hall⟩ := hf f hmem
  refine ⟨hlt.trans_le he.nextId, fun l' hl' hid => ?_⟩
  obtain ⟨l, hl, hlater⟩ := he.earlier hl' (hid ▸ hlt)
  have hk := hall l hl (hlater.id ▸ hid)
  rw [hlater.kind hk]
  exact hk

theorem Evolves.marked {i : ℕ} (hlt : i < s.nextId) (hm : ∀ l ∈ s.locks, l.id ≠ i) :
    i < s'.nextId ∧ ∀ l ∈ s'.locks, l.id ≠ i := by
  refine ⟨hlt.trans_le he.nextId, fun l' hl' hid => ?_⟩
  obtain ⟨l, hl, hlater⟩ := he.earlier hl' (hid ▸ hlt)
  exact hm l hl (hlater.id ▸ hid)

/-- An operation that leaves the promises alone, and the locks that were promised. -/
theorem Evolves.holdOk (hs : HoldOk s) (hheld : s'.held = s.held)
    (hconf : s'.confirmed = s.confirmed) (hmark : s'.marked = s.marked)
    (hown : ∀ i ∈ own, (∀ h ∈ s.held, h.id ≠ i) ∧ ∀ h ∈ s.confirmed, h.id ≠ i) : HoldOk s' where
  toLocksOk := he.toLocksOk
  held h hmem := by
    rw [hheld] at hmem
    obtain ⟨hlt, hk⟩ := hs.held h hmem
    exact ⟨hlt.trans_le he.nextId, he.kept hk fun hi => (hown _ hi).1 h hmem rfl⟩
  confirmed h hmem := by
    rw [hconf] at hmem
    obtain ⟨hlt, hk⟩ := hs.confirmed h hmem
    exact ⟨hlt.trans_le he.nextId, he.confirmed hk fun hi => (hown _ hi).2 h hmem rfl⟩
  marked ids hids i hi := by
    rw [hmark] at hids
    obtain ⟨hlt, hm⟩ := hs.marked ids hids i hi
    exact he.marked hlt hm

theorem Evolves.threadOk (ht : ThreadOk s t)
    (hheld : ∀ h ∈ s'.held, h ∈ s.held ∨ ∀ c ∈ t.claimed, h.id ≠ c.id)
    (hconf : ∀ h ∈ s'.confirmed, h ∈ s.confirmed ∨ h ∈ s.held) (hown : ∀ c ∈ t.claimed, c.id ∉ own) :
    ThreadOk s' t := by
  obtain ⟨hun, hrest⟩ := ht
  refine ⟨fun c hc => ?_, ?_⟩
  · obtain ⟨hlt, hnh, hnc⟩ := hun c hc
    refine ⟨hlt.trans_le he.nextId, fun h hh => ?_, fun h hh => ?_⟩
    · obtain hh | hne := hheld h hh
      · exact hnh h hh
      · exact hne c hc
    · obtain hh | hh := hconf h hh
      · exact hnc h hh
      · exact hnh h hh
  · cases t with
    | claiming a e claimed rest =>
      exact fun c hc => ⟨(hrest c hc).1, he.kept (hrest c hc).2 (hown c hc)⟩
    | sweeping now r d todo => exact fun g hg => he.foundOk (hrest g hg)
    | marking now r d b found todo =>
      exact ⟨he.foundDone hrest.1, fun g hg => he.foundOk (hrest.2 g hg)⟩
    | _ => trivial

end Frames

/-! ### One operation -/

def Thread.Keeps (s : Store) (pick : ℕ) : Thread → Prop
  | .rollback a claimed _ =>
    ∀ l ∈ s.locks.rows, ofRollback a claimed l = true → l.id ∈ claimed.map Lock.id
  | .confirming booking _ => s.next (Lock.holdOf booking) pick = none →
    ∀ h ∈ s.held, h.booking = booking → h.id ∉ s.swept
  | .marking _ _ _ booking found _ => s.awaits booking = true →
    ∀ l ∈ s.locks.rows, l.id ∈ found.map Lock.id → l.kind ≠ .booking
  | _ => True

/-- What an operation of `t` guarantees to the other calls. -/
structure Guarantee (s s' : Store) (t t' : Thread) : Prop where
  evolves : ∃ own, Evolves own s s' ∧ ∀ i ∈ own, i ∈ t.claimed.map Lock.id
  held : ∀ h ∈ s'.held, h ∈ s.held ∨ h ∈ t.claimed
  confirmed : ∀ h ∈ s'.confirmed, h ∈ s.confirmed ∨ h ∈ s.held
  claimed : ∀ c ∈ t'.claimed, c ∈ t.claimed ∨ s.nextId ≤ c.id

/-- The operation keeps the invariant. -/
structure Sound (s s' : Store) (t t' : Thread) : Prop where
  store : HoldOk s'
  thread : ThreadOk s' t'
  guarantee : Guarantee s s' t t'

theorem Guarantee.of_evolves (he : Evolves [] s s') (hheld : s'.held = s.held)
    (hconf : s'.confirmed = s.confirmed) (hcl : ∀ c ∈ t'.claimed, c ∈ t.claimed ∨ s.nextId ≤ c.id) :
    Guarantee s s' t t' where
  evolves := ⟨[], he, fun _ hi => nomatch hi⟩
  held _ hh := .inl (hheld ▸ hh)
  confirmed _ hh := .inl (hconf ▸ hh)
  claimed := hcl

/-- An operation that writes nothing. -/
theorem Sound.idle (hs : HoldOk s) (ht : ThreadOk s t') (hcl : ∀ c ∈ t'.claimed, c ∈ t.claimed) :
    Sound s s t t' :=
  ⟨hs, ht, .of_evolves (.of_eq hs.toLocksOk rfl rfl rfl) rfl rfl fun c hc => .inl (hcl c hc)⟩

theorem threadOk_idle (hcl : t.claimed = []) (h : match t with
      | .sweeping now _ _ todo => ∀ g ∈ todo, FoundOk s now g.1 g.2
      | .marking now _ _ _ found todo => FoundDone s found ∧ ∀ g ∈ todo, FoundOk s now g.1 g.2
      | _ => True) : ThreadOk s t := by
  refine ⟨fun c hc => ?_, ?_⟩
  · rw [hcl] at hc
    cases hc
  · cases t with
    | claiming a e claimed rest =>
      have hnil : claimed = [] := hcl
      subst hnil
      exact fun c hc => nomatch hc
    | sweeping | marking => exact h
    | _ => trivial

theorem claim_sound {claimed : List Lock} {rest : List ℤ} (hs : HoldOk s)
    (ht : ThreadOk s (.claiming a expiresAt claimed (night :: rest)))
    (h : claimStep s a expiresAt claimed night rest = (s', t')) :
    Sound s s' (.claiming a expiresAt claimed (night :: rest)) t' := by
  unfold claimStep at h
  simp only at h
  split at h
  · rename_i locks hi
    cases h
    have he := Evolves.insert hs.toLocksOk hi
    have hok := he.threadOk ht (fun h hh => .inl hh) (fun h hh => .inl hh) fun c _ hc => nomatch hc
    have hnew : s.newLock a expiresAt night ∈ locks := (mem_insertOne hi).mpr (.inr rfl)
    refine ⟨he.holdOk hs rfl rfl rfl fun i hi => (nomatch hi), ⟨fun c hc => ?_, fun c hc => ?_⟩,
      .of_evolves he rfl rfl fun c hc => ?_⟩
    · obtain hc | hc := mem_append.mp hc
      · exact hok.1 c hc
      · rw [mem_singleton.mp hc]
        have hid : (s.newLock a expiresAt night).id = s.nextId := rfl
        refine ⟨Nat.lt_succ_self _, fun h hh => ?_, fun h hh => ?_⟩
        · have hlt : h.id < s.nextId := (hs.held h hh).1
          omega
        · have hlt : h.id < s.nextId := (hs.confirmed h hh).1
          omega
    · obtain hc | hc := mem_append.mp hc
      · exact hok.2 c hc
      · rw [mem_singleton.mp hc]
        exact ⟨rfl, .inr ⟨_, hnew, rfl, rfl, rfl, .inl rfl⟩⟩
    · obtain hc | hc := mem_append.mp hc
      · exact .inl hc
      · exact .inr (mem_singleton.mp hc ▸ le_rfl)
  · cases h
    split
    · exact .idle hs (threadOk_idle rfl trivial) fun c hc => nomatch hc
    · exact .idle hs ⟨ht.1, trivial⟩ fun c hc => hc

/-- The creation returns: the nights that are held from now on are its own, and nights that
were held before. -/
theorem hold_sound {claimed : List Lock} {answer : Answer} (hs : HoldOk s)
    (ht : ThreadOk s (.claiming a expiresAt claimed [])) :
    Sound s (s.hold a claimed) (.claiming a expiresAt claimed []) (.returned answer) := by
  have he : Evolves [] s (s.hold a claimed) := .of_eq hs.toLocksOk rfl rfl rfl
  have hmem {h : Lock} (hh : h ∈ (s.hold a claimed).held) : h ∈ s.held ∨ h ∈ claimed := by
    obtain hh | hh := mem_append.mp hh
    · exact .inl (mem_filter.mp hh).1
    · exact .inr hh
  refine ⟨⟨he.toLocksOk, fun h hh => ?_, hs.confirmed, hs.marked⟩, threadOk_idle rfl trivial,
    ⟨⟨[], he, fun _ hi => nomatch hi⟩, fun h hh => hmem hh, fun h hh => .inl hh, fun c hc => nomatch hc⟩⟩
  obtain hh | hh := hmem hh
  · exact hs.held h hh
  · exact ⟨(ht.1 h hh).1, (ht.2 h hh).2⟩

theorem rollback_sound {claimed : List Lock} (hs : HoldOk s)
    (ht : ThreadOk s (.rollback a claimed night))
    (hc : Thread.Keeps s pick (.rollback a claimed night))
    (h : advance s pick (.rollback a claimed night) = some (s', t')) :
    Sound s s' (.rollback a claimed night) t' := by
  simp only [advance] at h
  split at h
  · rename_i l hl
    cases h
    obtain ⟨hmem, hp⟩ := Store.mem_of_next hl
    have hid : l.id ∈ claimed.map Lock.id := hc l hmem hp
    have he := Evolves.delete hs.toLocksOk l.id
    refine ⟨he.holdOk hs rfl rfl rfl fun i hi => ?_, ⟨fun c hc => ?_, trivial⟩,
      ⟨⟨_, he, fun i hi => ?_⟩, fun h hh => .inl hh, fun h hh => .inl hh, fun c hc => .inl hc⟩⟩
    · obtain ⟨c, hc, hci⟩ := mem_map.mp hid
      rw [mem_singleton.mp hi, ← hci]
      exact (ht.1 c hc).2
    · exact ht.1 c hc
    · rw [mem_singleton.mp hi]
      exact hid
  · cases h
    exact .idle hs (threadOk_idle rfl trivial) fun c hc => nomatch hc

/-- A confirmation upgrades the holds one by one, and when it returns every held night that
was not swept is locked by a booking lock. -/
theorem confirm_sound {count : ℕ} (hs : HoldOk s)
    (hc : Thread.Keeps s pick (.confirming booking count))
    (h : advance s pick (.confirming booking count) = some (s', t')) :
    Sound s s' (.confirming booking count) t' := by
  simp only [advance] at h
  split at h
  · rename_i l hl
    cases h
    obtain ⟨hmem, hp⟩ := Store.mem_of_next hl
    have hk : l.kind = .hold := by
      simp only [Lock.holdOf, Bool.and_eq_true, beq_iff_eq] at hp
      exact hp.2
    have he := Evolves.upgrade hs.toLocksOk hmem hk
    exact ⟨he.holdOk hs rfl rfl rfl fun i hi => (nomatch hi), threadOk_idle rfl trivial,
      .of_evolves he rfl rfl fun c hc => nomatch hc⟩
  · rename_i hnone
    cases h
    have he : Evolves [] s (s.confirm booking) := .of_eq hs.toLocksOk rfl rfl rfl
    have hheld {h : Lock} (hh : h ∈ (s.confirm booking).confirmed) :
        h ∈ s.confirmed ∨ (h ∈ s.held ∧ h.booking = booking) := by
      obtain hh | hh := mem_append.mp hh
      · obtain ⟨hh, hb⟩ := mem_filter.mp hh
        exact .inr ⟨hh, by simpa using hb⟩
      · exact .inl hh
    refine ⟨⟨he.toLocksOk, hs.held, fun h hh => ?_, hs.marked⟩, threadOk_idle rfl trivial,
      ⟨⟨[], he, fun _ hi => nomatch hi⟩, fun h hh => .inl hh, fun h hh => (hheld hh).imp_right And.left,
        fun c hc => nomatch hc⟩⟩
    obtain hh | ⟨hh, hb⟩ := hheld hh
    · exact hs.confirmed h hh
    · obtain ⟨hlt, hkept⟩ := hs.held h hh
      refine ⟨hlt, ?_⟩
      obtain hsw | ⟨l, hl, hsame⟩ := hkept
      · exact absurd hsw (hc hnone h hh hb)
      · refine ⟨l, hl, hsame, hsame.kind.resolve_left fun hk => ?_⟩
        refine Store.not_of_next hnone hl ?_
        simp [Lock.holdOf, hk, hsame.booking, hb]

theorem find_foundOk (h : LocksOk s) (now : ℤ) :
    ∀ g ∈ grouped ((s.locks.rows.filter (Lock.expired now)).take 10000),
      FoundOk s now g.1 g.2 := by
  intro g hg f hf
  obtain ⟨b, -, rfl⟩ := mem_map.mp hg
  obtain ⟨hf, hfb⟩ := mem_filter.mp hf
  obtain ⟨hmem, hexp⟩ := mem_filter.mp (mem_of_mem_take hf)
  refine ⟨h.fresh f hmem, fun l hl hid => ?_⟩
  rw [h.eq_of_id hl hmem hid]
  left
  simp [Lock.expiredOf, hexp, hfb]

theorem sweep_sound (hs : HoldOk s) (ht : ThreadOk s (.sweeping now released done todo))
    (h : advance s pick (.sweeping now released done todo) = some (s', t')) :
    Sound s s' (.sweeping now released done todo) t' := by
  cases todo with
  | nil =>
    cases h
    exact .idle hs (threadOk_idle rfl trivial) fun c hc => nomatch hc
  | cons g todo =>
    obtain ⟨booking, found⟩ := g
    simp only [advance] at h
    split at h
    · rename_i l hl
      cases h
      obtain ⟨hmem, hp⟩ := Store.mem_of_next hl
      have hk : l.kind = .hold := by
        simp only [Lock.expiredOf, Lock.expired, Bool.and_eq_true, beq_iff_eq] at hp
        exact hp.2.1
      have he := Evolves.sweep hs.toLocksOk hmem hk
      exact ⟨he.holdOk hs rfl rfl rfl fun i hi => (nomatch hi),
        threadOk_idle rfl fun g hg => he.foundOk (ht.2 g hg),
        .of_evolves he rfl rfl fun c hc => nomatch hc⟩
    · rename_i hnone
      cases h
      refine .idle hs (threadOk_idle rfl ⟨fun f hf => ?_, fun g hg => ?_⟩) fun c hc => nomatch hc
      · obtain ⟨hlt, hall⟩ := ht.2 (booking, found) mem_cons_self f hf
        exact ⟨hlt, fun l hl hid => (hall l hl hid).resolve_left (Store.not_of_next hnone hl)⟩
      · exact ht.2 g (mem_cons_of_mem _ hg)

theorem mark_sound (hs : HoldOk s) (ht : ThreadOk s (.marking now released done booking found todo))
    (hc : Thread.Keeps s pick (.marking now released done booking found todo))
    (h : advance s pick (.marking now released done booking found todo) = some (s', t')) :
    Sound s s' (.marking now released done booking found todo) t' := by
  cases h
  obtain ⟨-, hdone, htodo⟩ := ht
  have he : Evolves [] s { s.expireBooking booking now with
      marked := if s.awaits booking then found.map Lock.id :: s.marked else s.marked } :=
    .of_eq hs.toLocksOk rfl rfl rfl
  refine ⟨⟨he.toLocksOk, hs.held, hs.confirmed, fun ids hids i hi => ?_⟩,
    threadOk_idle rfl fun g hg => he.foundOk (htodo g hg),
    .of_evolves he rfl rfl fun c hc => nomatch hc⟩
  simp only at hids
  split at hids
  · rename_i haw
    obtain rfl | hids := mem_cons.mp hids
    · obtain ⟨f, hf, rfl⟩ := mem_map.mp hi
      obtain ⟨hlt, hall⟩ := hdone f hf
      exact ⟨hlt, fun l hl hid => hc haw l hl (hid ▸ hi) (hall l hl hid)⟩
    · exact hs.marked ids hids i hi
  · exact hs.marked ids hids i hi

/-- An operation of a call that meets the condition. -/
theorem advance_sound (hs : HoldOk s) (ht : ThreadOk s t) (hc : t.Keeps s pick)
    (h : advance s pick t = some (s', t')) : Sound s s' t t' := by
  cases t with
  | create a =>
    cases h
    refine .idle hs ?_ fun c hc => ?_
    · split <;> exact threadOk_idle rfl trivial
    · split at hc <;> cases hc
  | claiming a expiresAt claimed rest =>
    cases rest with
    | nil =>
      cases h
      exact hold_sound hs ht
    | cons night rest => exact claim_sound hs ht (Option.some.inj h)
  | rollback a claimed night => exact rollback_sound hs ht hc h
  | confirming booking count => exact confirm_sound hs hc h
  | sweep =>
    cases h
    exact .idle hs (threadOk_idle rfl trivial) fun c hc => nomatch hc
  | sweepFind now =>
    cases h
    exact .idle hs (threadOk_idle rfl (find_foundOk hs.toLocksOk now)) fun c hc => nomatch hc
  | sweeping now released done todo => exact sweep_sound hs ht h
  | marking now released done booking found todo => exact mark_sound hs ht hc h
  | returned a => cases h

theorem Sound.returned (h : Sound s s' t t') (a : Answer) : Sound s s' t (.returned a) :=
  ⟨h.store, threadOk_idle rfl trivial, h.guarantee.evolves, h.guarantee.held, h.guarantee.confirmed,
    fun _ hc => nomatch hc⟩

/-! ### Every run -/

def Move.pick? : Move → Option ℕ
  | .advance pick | .lost pick => some pick
  | .stop => none

def HoldsKept (p : Pool Store Thread) : Act Env Call Move → Prop
  | .step k m => ∀ t ∈ p.threads[k]?, ∀ pick ∈ m.pick?, t.Keeps p.store pick
  | _ => True

instance (s : Store) (pick : ℕ) (t : Thread) : Decidable (t.Keeps s pick) := by
  cases t <;> unfold Thread.Keeps <;> infer_instance

instance (p : Pool Store Thread) (a : Act Env Call Move) : Decidable (HoldsKept p a) := by
  cases a <;> unfold HoldsKept <;> infer_instance

theorem step_sound {m : Move} (hs : HoldOk s) (ht : ThreadOk s t)
    (hc : ∀ pick ∈ m.pick?, t.Keeps s pick) (h : t.step s m = some (s', t')) : Sound s s' t t' := by
  cases m with
  | advance pick => exact advance_sound hs ht (hc pick rfl) h
  | lost pick =>
    obtain ⟨⟨s₁, t₁⟩, hadv, heq⟩ := Option.map_eq_some_iff.mp h
    cases heq
    exact (advance_sound hs ht (hc pick rfl) hadv).returned .failed
  | stop =>
    cases h
    exact .idle hs (threadOk_idle rfl trivial) fun c hc => nomatch hc

/-- What the other calls rely on. -/
theorem Guarantee.threadOk {u : Thread} (hg : Guarantee s s' t t') (hu : ThreadOk s u)
    (hap : ClaimsApart t u) : ThreadOk s' u ∧ ClaimsApart t' u := by
  obtain ⟨own, he, hown⟩ := hg.evolves
  refine ⟨he.threadOk hu (fun h hh => ?_) hg.confirmed fun c hc hi => ?_, fun c hc d hd => ?_⟩
  · exact (hg.held h hh).imp_right fun hmem c hc => hap h hmem c hc
  · obtain ⟨x, hx, hid⟩ := mem_map.mp (hown _ hi)
    exact hap x hx c hc hid
  · obtain hc | hge := hg.claimed c hc
    · exact hap c hc d hd
    · have hlt : d.id < s.nextId := (hu.1 d hd).1
      omega

theorem preserves_holds : calls.Preserves HoldsKept HoldOk (fun s _ t => ThreadOk s t) ClaimsApart where
  symm t u h c hc d hd hid := h d hd c hc hid.symm
  init s h := by
    obtain ⟨hheld, hconf, -, hmark, hids, hfresh⟩ := h
    refine ⟨⟨hids, hfresh⟩, ?_, ?_, ?_⟩
    · simp [hheld]
    · simp [hconf]
    · simp [hmark]
  env p e s' hi _ h := by
    cases h
    have he : Evolves [] p.store (p.store.env e) := by
      cases e <;> exact .of_eq hi.store.toLocksOk rfl rfl rfl
    have hsame : (p.store.env e).held = p.store.held ∧
        (p.store.env e).confirmed = p.store.confirmed ∧ (p.store.env e).marked = p.store.marked := by
      cases e <;> exact ⟨rfl, rfl, rfl⟩
    obtain ⟨hheld, hconf, hmark⟩ := hsame
    refine ⟨he.holdOk hi.store hheld hconf hmark fun i hi => (nomatch hi), fun k t ht => ?_⟩
    exact he.threadOk (hi.thread k t ht) (fun h hh => .inl (hheld ▸ hh))
      (fun h hh => .inl (hconf ▸ hh)) fun c _ hc => nomatch hc
  call p c t _ _ h := by
    cases h
    have hcl : (Thread.start c).claimed = [] := by cases c <;> rfl
    refine ⟨threadOk_idle hcl (by cases c <;> trivial), fun u _ c hc => ?_⟩
    rw [hcl] at hc
    cases hc
  step p k m t s' t' hi hc ht h := by
    have hsound := step_sound hi.store (hi.thread k t ht) (fun pick hp => hc t ht pick hp) h
    exact ⟨hsound.store, hsound.thread, fun j u hjk hu =>
      hsound.guarantee.threadOk (hi.thread j u hu) (hi.apart k j t u (Ne.symm hjk) ht hu)⟩

def sampleStore : Store where
  locks := .empty
  bookings := ⟨[⟨1, .pending, none⟩, ⟨2, .pending, none⟩], by decide⟩
  now := 0
  nextId := 0

theorem sampleStore_init : calls.machine.init ⟨sampleStore, []⟩ :=
  ⟨⟨rfl, rfl, rfl, rfl, nodup_nil, fun _ hl => absurd hl not_mem_empty⟩, rfl⟩

def operations (k n : ℕ) : List (Act Env Call Move) := .replicate n (.step k (.advance 0))

/-- A hold of two nights for the booking in the room of the same number. -/
def held (k booking : ℕ) : List (Act Env Call Move) :=
  .call (.create ⟨booking, booking, ⟨1, none⟩, ⟨3, none⟩, none⟩) :: operations k 4

/-- The locks, the bookings that are expired, the nights that a confirmation answered for
and the locks for which a booking was marked. -/
structure HoldsSeen where
  locks : List (ℕ × ℕ × ℤ × LockKind)
  expired : List ℕ
  confirmed : List (ℕ × ℤ)
  marked : List (List ℕ)
  deriving DecidableEq

def holdsSeen (p : Pool Store Thread) : HoldsSeen where
  locks := p.store.locks.rows.map fun l => (l.id, l.booking, l.night, l.kind)
  expired := (p.store.bookings.rows.filter fun b => b.status == .other "hold_expired").map Booking.id
  confirmed := p.store.confirmed.map fun l => (l.booking, l.night)
  marked := p.store.marked

end SyrocePms.Hold
