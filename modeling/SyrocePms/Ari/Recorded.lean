import SyrocePms.Ari.Repository

/-! What the calls keep in every run. Each row has the content of one published update, no
two rows have the same, and what the providers have taken is part of what was published.
What a cycle has read was published too, though the row may have moved on. -/

namespace SyrocePms.Ari

open Lib List

variable {E : Extranet} {s s' : Store}
variable {x : ChangeSet} {j k : ℕ} {d : Draft} {rest xs : List Snapshot} {o : Chance}

/-! ### The store -/

structure Recorded (E : Extranet) (s : Store) : Prop where
  versioned : Versioned s.published
  fresh : ∀ u ∈ s.published, u.version < s.published.length
  rows : ∀ (k : ℕ) x, s.sets[k]? = some x → x.update E ∈ s.published
  distinct : ∀ (j k : ℕ) x y, s.sets[j]? = some x → s.sets[k]? = some y → x.version = y.version → j = k
  taken : ∀ d ∈ s.delivered, ∃ u ∈ s.published, d.PartOf u

/-- What every step keeps: the logs, and the keys of the rows. -/
structure Grows (s s' : Store) : Prop where
  published : ∀ u ∈ s.published, u ∈ s'.published
  delivered : ∀ d ∈ s.delivered, d ∈ s'.delivered
  keys : ∀ (k : ℕ) x, s.sets[k]? = some x → ∃ x', s'.sets[k]? = some x' ∧ x'.key = x.key

theorem Grows.refl (s : Store) : Grows s s := ⟨fun _ h => h, fun _ h => h, fun _ x h => ⟨x, h, rfl⟩⟩

def ChangeSet.content (x : ChangeSet) : Key × Payload × ℕ := (x.key, x.payload, x.version)

theorem ChangeSet.update_of_content {y : ChangeSet} (h : x.content = y.content) :
    x.update E = y.update E := by
  simp only [content, Prod.mk.injEq] at h
  simp only [update, h.1, h.2.1, h.2.2]

theorem connection_of_mem_cells {c : Cell} (h : c ∈ (x.update E).cells) :
    c.connection = x.key.connection := by
  obtain ⟨⟨c', v⟩, hmem, rfl⟩ := mem_map.mp h
  obtain ⟨fields, -, y, -, -, hcon, -⟩ := (E.mem_writes).mp hmem
  exact hcon

/-- A step that changes no content. -/
structure SameContent (s s' : Store) : Prop where
  published : s'.published = s.published
  delivered : s'.delivered = s.delivered
  rows : ∀ k : ℕ, (s'.sets[k]?).map ChangeSet.content = (s.sets[k]?).map ChangeSet.content

namespace SameContent

theorem row (h : SameContent s s') {x' : ChangeSet} (hx : s'.sets[k]? = some x') :
    ∃ x, s.sets[k]? = some x ∧ x'.content = x.content := by
  have hrow := h.rows k
  rw [hx, Option.map_some] at hrow
  obtain ⟨x, hget, hcontent⟩ := Option.map_eq_some_iff.mp hrow.symm
  exact ⟨x, hget, hcontent.symm⟩

theorem symm (h : SameContent s s') : SameContent s' s :=
  ⟨h.published.symm, h.delivered.symm, fun k => (h.rows k).symm⟩

theorem grows (h : SameContent s s') : Grows s s' where
  published u hu := h.published ▸ hu
  delivered d hd := h.delivered ▸ hd
  keys k x hx := by
    obtain ⟨x', hx', hcontent⟩ := h.symm.row hx
    exact ⟨x', hx', (congrArg Prod.fst hcontent).symm⟩

end SameContent

theorem Recorded.sameContent (hr : Recorded E s) (h : SameContent s s') : Recorded E s' where
  versioned := h.published ▸ hr.versioned
  fresh := h.published ▸ hr.fresh
  rows k x' hx' := by
    obtain ⟨x, hx, hcontent⟩ := h.row hx'
    rw [h.published, ChangeSet.update_of_content hcontent]
    exact hr.rows k x hx
  distinct j k x' y' hx' hy' hver := by
    obtain ⟨x, hx, hcx⟩ := h.row hx'
    obtain ⟨y, hy, hcy⟩ := h.row hy'
    refine hr.distinct j k x y hx hy ?_
    rw [← (Prod.mk.inj (Prod.mk.inj hcx).2).2, ← (Prod.mk.inj (Prod.mk.inj hcy).2).2, hver]
  taken := h.delivered ▸ h.published ▸ hr.taken

theorem getElem?_updateStatus {st : SetStatus} {inc : Bool} : (s.updateStatus k st inc).sets[j]? =
      (s.sets[j]?).map fun x => if k = j then x.setStatus s.clock st inc else x := by
  simp only [Store.updateStatus, getElem?_modify, Option.map_eq_map]

theorem getElem?_mergeSet : (s.mergeSet E k d).sets[j]? =
      (s.sets[j]?).map fun x => if k = j then x.merge d s.published.length else x := by
  simp only [Store.mergeSet, getElem?_modify, Option.map_eq_map]

theorem updateStatus_sameContent (k : ℕ) (st : SetStatus) (inc : Bool) :
    SameContent s (s.updateStatus k st inc) := by
  refine ⟨rfl, rfl, fun j => ?_⟩
  rw [getElem?_updateStatus, Option.map_map]
  congr 1
  funext x
  simp only [Function.comp]
  split <;> rfl

theorem releaseQuarantine_sameContent (tenant room : ℕ) (plan : Option ℕ) (provider : Option Provider) :
    SameContent s (s.releaseQuarantine tenant room plan provider) := by
  refine ⟨rfl, rfl, fun j => ?_⟩
  rw [Store.releaseQuarantine, getElem?_map, Option.map_map]
  congr 1
  funext x
  simp only [Function.comp]
  split <;> rfl

theorem Recorded.versioned_publish (hr : Recorded E s) (d : Draft) :
    Versioned (s.publish E d).published ∧
      ∀ u ∈ (s.publish E d).published, u.version < (s.publish E d).published.length := by
  refine ⟨pairwise_cons.mpr ⟨hr.fresh, hr.versioned⟩, fun u hu => ?_⟩
  rw [Store.publish, length_cons]
  obtain rfl | hu := mem_cons.mp hu
  · exact Nat.lt_succ_self _
  · exact (hr.fresh u hu).trans (Nat.lt_succ_self _)

theorem Recorded.version_lt (hr : Recorded E s) (hx : s.sets[k]? = some x) :
    x.version < s.published.length := hr.fresh _ (hr.rows k x hx)

theorem Recorded.taken_publish (hr : Recorded E s) (d : Draft) :
    ∀ x ∈ s.delivered, ∃ u ∈ (s.publish E d).published, x.PartOf u := fun x hx =>
  let ⟨u, hu, hpart⟩ := hr.taken x hx
  ⟨u, mem_cons_of_mem _ hu, hpart⟩

theorem Recorded.insertSet (hr : Recorded E s) (d : Draft) (createdAt : ℤ) :
    Recorded E (s.insertSet E d createdAt) where
  versioned := (hr.versioned_publish d).1
  fresh := (hr.versioned_publish d).2
  rows k x hx := by
    obtain hx | ⟨-, rfl⟩ := Program.getElem?_append_one hx
    · exact mem_cons_of_mem _ (hr.rows k x hx)
    · exact mem_cons_self
  distinct j k x y hx hy hver := by
    obtain hx | ⟨hj, rfl⟩ := Program.getElem?_append_one hx <;>
      obtain hy | ⟨hk, rfl⟩ := Program.getElem?_append_one hy
    · exact hr.distinct j k x y hx hy hver
    · exact absurd hver (hr.version_lt hx).ne
    · exact absurd hver (hr.version_lt hy).ne'
    · omega
  taken := hr.taken_publish d

theorem Recorded.mergeSet (hr : Recorded E s) (hkey : ∃ x, s.sets[k]? = some x ∧ x.key = d.key) :
    Recorded E (s.mergeSet E k d) where
  versioned := (hr.versioned_publish d).1
  fresh := (hr.versioned_publish d).2
  rows j x hx := by
    rw [getElem?_mergeSet] at hx
    obtain ⟨y, hy, rfl⟩ := Option.map_eq_some_iff.mp hx
    split
    · subst j
      obtain ⟨z, hz, hd⟩ := hkey
      rw [hy] at hz
      obtain rfl := Option.some.inj hz
      rw [ChangeSet.update, ChangeSet.merge, hd]
      exact mem_cons_self
    · exact mem_cons_of_mem _ (hr.rows j y hy)
  distinct i j x y hx hy hver := by
    rw [getElem?_mergeSet] at hx hy
    obtain ⟨x₀, hx₀, rfl⟩ := Option.map_eq_some_iff.mp hx
    obtain ⟨y₀, hy₀, rfl⟩ := Option.map_eq_some_iff.mp hy
    by_cases hi : k = i <;> by_cases hj : k = j
    · omega
    · rw [if_pos hi, if_neg hj] at hver
      exact absurd hver (hr.version_lt hy₀).ne'
    · rw [if_neg hi, if_pos hj] at hver
      exact absurd hver (hr.version_lt hx₀).ne
    · rw [if_neg hi, if_neg hj] at hver
      exact hr.distinct i j x₀ y₀ hx₀ hy₀ hver
  taken := hr.taken_publish d

theorem Recorded.deliver (hr : Recorded E s) (hx : x.update E ∈ s.published) (missed : List Cell) :
    Recorded E (s.deliver E x missed) where
  versioned := hr.versioned
  fresh := hr.fresh
  rows := hr.rows
  distinct := hr.distinct
  taken d hd := by
    obtain rfl | hd := mem_cons.mp hd
    · exact ⟨_, hx, Update.without_partOf _ missed⟩
    · exact hr.taken d hd

theorem insertSet_grows (d : Draft) (createdAt : ℤ) : Grows s (s.insertSet E d createdAt) where
  published _ hu := mem_cons_of_mem _ hu
  delivered _ hd := hd
  keys _ x hx := ⟨x, by
    rw [Store.insertSet, List.getElem?_append_left (List.getElem?_eq_some_iff.mp hx).1, hx], rfl⟩

theorem mergeSet_grows (k : ℕ) (d : Draft) : Grows s (s.mergeSet E k d) where
  published _ hu := mem_cons_of_mem _ hu
  delivered _ hd := hd
  keys j x hx := by
    refine ⟨if k = j then x.merge d s.published.length else x, ?_, ?_⟩
    · rw [getElem?_mergeSet, hx, Option.map_some]
    · split <;> rfl

theorem deliver_grows (x : ChangeSet) (missed : List Cell) : Grows s (s.deliver E x missed) where
  published _ hu := hu
  delivered _ hd := mem_cons_of_mem _ hd
  keys _ x hx := ⟨x, hx, rfl⟩

/-! ### The calls -/

def Read (E : Extranet) (s : Store) (xs : List Snapshot) : Prop :=
  ∀ x ∈ xs, x.set.update E ∈ s.published

def Taken (E : Extranet) (s : Store) (x : ChangeSet) : Prop :=
  ∀ c ∈ (x.update E).cells, ∃ d ∈ s.delivered, d.version = x.version ∧ c ∈ d.cells

def InHand (E : Extranet) (s : Store) : Pc → Prop
  | .write (some k) d _ _ => ∃ x, s.sets[k]? = some x ∧ x.key = d.key
  | .gate x rest | .check x rest | .conflict x _ rest | .skip x rest | .mark x rest
  | .deliver x rest => Read E s (x :: rest)
  | .answer x r rest => Read E s (x :: rest) ∧ (r.isConfirmed = true → Taken E s x.set)
  | _ => True

theorem Read.grows (h : Read E s xs) (hg : Grows s s') : Read E s' xs :=
  fun x hx => hg.published _ (h x hx)

theorem Taken.grows (h : Taken E s x) (hg : Grows s s') : Taken E s' x := fun c hc =>
  let ⟨d, hd, hdc⟩ := h c hc
  ⟨d, hg.delivered d hd, hdc⟩

theorem InHand.grows {pc : Pc} (h : InHand E s pc) (hg : Grows s s') : InHand E s' pc := by
  cases pc with
  | write found d createdAt drafts =>
    cases found with
    | none => trivial
    | some k =>
      obtain ⟨x, hx, hkey⟩ := h
      obtain ⟨x', hx', hkey'⟩ := hg.keys k x hx
      exact ⟨x', hx', hkey'.trans hkey⟩
  | answer x r rest => exact ⟨h.1.grows hg, fun hr => (h.2 hr).grows hg⟩
  | find _ | read _ _ _ | returned => trivial
  | _ => exact Read.grows h hg

theorem inHand_batch (h : Read E s xs) : InHand E s (nextSet xs) := by
  cases xs with
  | nil => trivial
  | cons x rest => exact h

theorem inHand_nextSet {x : Snapshot} (h : Read E s (x :: rest)) : InHand E s (nextSet rest) := inHand_batch fun y hy => h y (mem_cons_of_mem _ hy)

theorem read_getPendingChangeSets (hr : Recorded E s) (tenant : ℕ) (provider : Option Provider) (limit : ℕ) :
    Read E s (s.getPendingChangeSets tenant provider limit) := by
  intro x hx
  have hmem := mem_of_mem_take hx
  rw [mem_insertionSort] at hmem
  obtain ⟨⟨y, k⟩, hy, rfl⟩ := mem_map.mp hmem
  have hget := mem_zipIdx_iff_getElem?.mp (mem_filter.mp hy).1
  exact hr.rows k y hget

theorem inHand_check {x : Snapshot} (h : Read E s (x :: rest)) :
    InHand E s (checkOutboundIdempotency E s x rest) := by
  simp only [checkOutboundIdempotency]
  (repeat' split) <;> first | exact h | trivial

/-- What one operation keeps. -/
theorem advance_recorded {t : Thread} {pc' : Pc} (hr : Recorded E s) (h : InHand E s t.pc)
    (hadv : advance E s t o = some (s', pc')) : Recorded E s' ∧ Grows s s' ∧ InHand E s' pc' := by
  have hstatus : ∀ (x : Snapshot) (st : SetStatus) (inc : Bool),
      Recorded E (s.updateStatus x.id st inc) ∧ Grows s (s.updateStatus x.id st inc) := fun x st inc =>
    ⟨hr.sameContent (updateStatus_sameContent _ _ _), (updateStatus_sameContent _ _ _).grows⟩
  have hnext : ∀ {x : Snapshot} {rest : List Snapshot}, Read E s (x :: rest) → Grows s s' →
      InHand E s' (nextSet rest) := fun hread hg => (inHand_nextSet hread).grows hg
  simp only [advance] at hadv
  cases hpc : t.pc <;> simp only [hpc] at hadv h
  case find drafts =>
    cases drafts with
    | nil =>
      cases hadv
      exact ⟨hr, .refl _, trivial⟩
    | cons d drafts =>
      cases hadv
      refine ⟨hr, .refl _, ?_⟩
      cases hfind : s.findMergeable d.key with
      | none => trivial
      | some k =>
        obtain ⟨hlt, hk, -⟩ := findIdx?_eq_some_iff_getElem.mp hfind
        simp only [Bool.and_eq_true, decide_eq_true_eq] at hk
        exact ⟨s.sets[k], getElem?_eq_getElem hlt, hk.1⟩
  case write found d createdAt drafts =>
    cases found with
    | none =>
      cases hadv
      exact ⟨hr.insertSet d createdAt, insertSet_grows d createdAt, trivial⟩
    | some k =>
      cases hadv
      exact ⟨hr.mergeSet h, mergeSet_grows k d, trivial⟩
  case read tenant provider limit =>
    cases hadv
    exact ⟨hr, .refl _, inHand_batch (read_getPendingChangeSets hr tenant provider limit)⟩
  case gate x rest =>
    split at hadv <;> cases hadv
    · exact ⟨hr, .refl _, h⟩
    · exact ⟨(hstatus x _ _).1, (hstatus x _ _).2, hnext h (hstatus x _ _).2⟩
  case check x rest =>
    cases hadv
    exact ⟨hr, .refl _, inHand_check h⟩
  case conflict x since rest =>
    cases hadv
    refine ⟨hr, .refl _, ?_⟩
    split <;> exact h
  case skip x rest =>
    cases hadv
    exact ⟨(hstatus x _ _).1, (hstatus x _ _).2, hnext h (hstatus x _ _).2⟩
  case mark x rest =>
    split at hadv
    · cases hadv
      exact ⟨hr, .refl _, inHand_nextSet h⟩
    · split at hadv <;> cases hadv
      · exact ⟨(hstatus x _ _).1, (hstatus x _ _).2, hnext h (hstatus x _ _).2⟩
      · exact ⟨(hstatus x _ _).1, (hstatus x _ _).2, Read.grows h (hstatus x _ _).2⟩
  case deliver x rest =>
    split at hadv
    · cases hadv
      exact ⟨(hstatus x _ _).1, (hstatus x _ _).2, hnext h (hstatus x _ _).2⟩
    · split at hadv <;> cases hadv
      rename_i hconfirms
      have hx : x.set.update E ∈ s.published := h x mem_cons_self
      refine ⟨hr.deliver hx o.missed, deliver_grows x.set o.missed,
        Read.grows h (deliver_grows x.set o.missed), fun hconf c hc => ?_⟩
      by_cases hm : c ∈ o.missed
      · obtain ⟨d, hd, hdc⟩ := hconfirms hconf c hc hm
        exact ⟨d, mem_cons_of_mem _ hd, hdc⟩
      · exact ⟨_, mem_cons_self, rfl, Update.mem_cells_without.mpr ⟨hc, hm⟩⟩
  case answer x r rest =>
    cases hadv
    exact ⟨(hstatus x _ _).1, (hstatus x _ _).2, hnext h.1 (hstatus x _ _).2⟩
  case returned => cases hadv

theorem env_sameContent {e : Env} (hs : (calls E).env s e = some s') : SameContent s s' := by
  cases e with
  | tick d =>
    cases hs
    exact ⟨rfl, rfl, fun _ => rfl⟩
  | releaseQuarantine tenant room plan provider =>
    cases hs
    exact releaseQuarantine_sameContent tenant room plan provider

theorem inHand_begin (c : Call) : InHand E s (Thread.begin c).pc := by
  cases c <;> trivial

theorem recorded_init (hs : (calls E).init s) : Recorded E s := by
  obtain ⟨hsets, hpub, hdel⟩ := hs
  refine ⟨hpub ▸ .nil, ?_, ?_, ?_, ?_⟩ <;> simp [hsets, hpub, hdel]

/-! ### The fence -/

/-- The row still has the content that was read, and a status of the kind. -/
def Stands (s : Store) (x : Snapshot) (p : SetStatus → Bool) : Bool :=
  (s.sets[x.id]?).any fun r => r.version = x.set.version && p r.status

def SetStatus.inFlight (st : SetStatus) : Bool := st = .pushed

/-- A cycle writes to a row that is as the cycle has left it, and a publish merges into a
row that is still to be pushed. -/
def Fenced (s : Store) (pc : Pc) (o : Chance) : Bool :=
  match pc with
  | .write (some k) _ _ _ => (s.sets[k]?).any fun r => r.status.waiting
  | .gate x _ => o.mapped || Stands s x SetStatus.waiting
  | .skip x _ => Stands s x SetStatus.waiting
  | .mark x _ => !o.allowed || Stands s x SetStatus.waiting
  | .deliver x _ => Stands s x SetStatus.inFlight
  | .answer x _ _ => Stands s x SetStatus.inFlight
  | _ => true

theorem row_of_stands {x : Snapshot} {p : SetStatus → Bool} (hr : Recorded E s)
    (hread : x.set.update E ∈ s.published) (h : Stands s x p = true) :
    ∃ r, s.sets[x.id]? = some r ∧ p r.status = true ∧ r.update E = x.set.update E := by
  cases hget : s.sets[x.id]? with
  | none => simp [Stands, hget] at h
  | some r =>
    simp only [Stands, hget, Option.any_some, Bool.and_eq_true, decide_eq_true_eq] at h
    exact ⟨r, rfl, h.2, hr.versioned.eq_of_version (hr.rows _ r hget) hread h.1⟩

/-- A row that is put aside, because it is not mapped, is still to be pushed. -/
theorem waiting_of_unmapped {x : Snapshot} (h : Fenced s (.gate x rest) o = true)
    (ho : ¬ o.mapped = true) : Stands s x SetStatus.waiting = true := by
  simpa [Fenced, ho] using h

/-- And so is one that the rate limit lets through. -/
theorem waiting_of_allowed {x : Snapshot} (h : Fenced s (.mark x rest) o = true)
    (ho : ¬ (!o.allowed) = true) : Stands s x SetStatus.waiting = true := by
  have hallowed : o.allowed = true := by simpa using ho
  simpa [Fenced, hallowed] using h

/-! ### One room on one day -/

def sampleExtranet : Extranet where
  hash d := (d.payload.availability.getD 0).natAbs
  perPlan _ _ := true
  occupancies _ := [2]
  exely_perPlan _ _ := rfl

def available (n : ℤ) : Event where
  tenant := 1
  property := 1
  type := .availability
  room := 7
  ratePlan := some 3
  dateFrom := 10
  dateTo := 10
  payload := { availability := some n }

def dayTen (provider : Provider) : Cell := ⟨⟨1, 1, provider⟩, 7, some 3, 10, .availability⟩

theorem calls_init : (calls E).machine.init ⟨{}, []⟩ := ⟨⟨rfl, rfl, rfl⟩, rfl⟩

def steps (k n : ℕ) : List (Act Env Call Move) := List.replicate n (.step k (.advance {}))

def publishing (k : ℕ) (n : ℤ) (provider : Provider) : List (Act Env Call Move) :=
  .call (.publish (available n) [provider]) :: steps k 3

def pushing : Act Env Call Move := .call (.push .pushLoop 1 none 50)

end SyrocePms.Ari
