import SyrocePms.Ari.Recorded

/-! Suppression of change sets whose value the provider has. The check looks at what was
acknowledged and when. That says what the provider has only as far as the last delivery to
a cell is one that was acknowledged, with the content that was sent, before the next. -/

namespace SyrocePms.Ari

open Lib List

variable {E : Extranet} {s s' : Store}
variable {provider : Provider} {p : Payload} {op : Operation} {y : Field × Value} {r x : ChangeSet}
  {since : ℤ} {j k : ℕ} {st : SetStatus} {inc : Bool} {rest : List Snapshot} {t : Thread}
  {o : Chance}

/-! ### The condition -/

def LastAcked (E : Extranet) (s : Store) (x : ChangeSet) : Prop :=
  ∀ c ∈ (x.update E).cells, ∀ d ∈ newest s.delivered c,
    ∃ r ∈ s.sets, r.version = d.version ∧ r.status = .acked

/-- The last delivery of each cell of the set is its own. -/
def LastOwn (E : Extranet) (s : Store) (x : ChangeSet) : Prop :=
  ∀ c ∈ (x.update E).cells, ∀ d ∈ newest s.delivered c, d.version = x.version

def NoCollision (E : Extranet) (s : Store) (x : ChangeSet) : Prop :=
  ∀ r ∈ s.sets, r.status = .acked → r.deltaHash E = x.deltaHash E →
    Extranet.digest r.key r.payload = Extranet.digest x.key x.payload

/-- An acknowledged set that the check of the other providers finds is of the tenant and
the scope of the set, and what was acknowledged with it or after it for one of the cells
has the same hash and scope. -/
def EqualIsLatest (E : Extranet) (s : Store) (x : ChangeSet) : Prop :=
  ∃ r ∈ s.sets, s.equalAcked E x r = true ∧ r.key.tenant = x.key.tenant ∧ r.key.scope = x.key.scope ∧
    ∀ y ∈ s.sets, y.status = .acked → (y.update E).Meets (x.update E) →
      r.ackedAt.getD 0 ≤ y.ackedAt.getD 0 → y.deltaHash E = x.deltaHash E ∧ y.key.scope = x.key.scope

instance (s : Store) (x : ChangeSet) : Decidable (LastAcked E s x) := by
  unfold LastAcked
  infer_instance

instance (s : Store) (x : ChangeSet) : Decidable (LastOwn E s x) := by
  unfold LastOwn
  infer_instance

instance (s : Store) (x : ChangeSet) : Decidable (NoCollision E s x) := by
  unfold NoCollision
  infer_instance

instance (s : Store) (x : ChangeSet) : Decidable (EqualIsLatest E s x) := by
  unfold EqualIsLatest
  infer_instance

/-- A step acts on rows that are as they were left, an acknowledgement is written before
the next delivery of a cell, and where the check reports a duplicate, the last deliveries
are acknowledged. -/
def Careful (E : Extranet) (s : Store) (pc : Pc) (o : Chance) : Prop :=
  Fenced s pc o = true ∧ match pc with
  | .check x rest => checkOutboundIdempotency E s x rest = .skip x rest →
    NoCollision E s x.set ∧ LastAcked E s x.set ∧ EqualIsLatest E s x.set
  | .conflict x since _ => s.exelyConflict E x.set since = false →
    NoCollision E s x.set ∧ LastAcked E s x.set
  | .answer x r _ => r.isConfirmed = true → LastOwn E s x.set
  | _ => True

instance (s : Store) (pc : Pc) (o : Chance) : Decidable (Careful E s pc o) := by
  rcases pc with _ | _ <;> unfold Careful <;> infer_instance

def AcksLastDelivery (E : Extranet) (p : Pool Store Thread) : Act Env Call Move → Prop
  | .step k (.advance o) => ∀ t ∈ p.threads[k]?, Careful E p.store t.pc o
  | _ => True

instance (p : Pool Store Thread) (a : Act Env Call Move) : Decidable (AcksLastDelivery E p a) := by
  rcases a with _ | _ | ⟨_, _ | _⟩ <;> unfold AcksLastDelivery <;> infer_instance

/-! ### The query of Exely -/

def Field.scope : Field → Scope
  | .availability => .availability
  | .rate _ => .rate
  | _ => .restriction

theorem Extranet.scope_of_mem_places {f g : Field} (h : f ∈ E.places provider g) :
    f.scope = g.scope := by
  cases g with
  | rate guests =>
    cases guests with
    | none =>
      obtain ⟨n, -, rfl⟩ := mem_map.mp h
      rfl
    | some n => rw [mem_singleton.mp h]
  | _ => rw [mem_singleton.mp h]

theorem restrictionValue_scope (h : restrictionValue p op = some y) : y.1.scope = .restriction := by
  cases op <;> cases h <;> rfl

theorem restrictionValue_inj {p' : Payload} {op' : Operation} {y' : Field × Value}
    (h : restrictionValue p op = some y) (h' : restrictionValue p' op' = some y') (hf : y.1 = y'.1) :
    op = op' := by
  cases op <;> cases h <;> cases op' <;> cases h' <;> first | rfl | cases hf

theorem places_restriction (h : restrictionValue p op = some y) : E.places provider y.1 = [y.1] := by
  cases op <;> cases h <;> rfl

theorem compileDeltaExely_scope {scope : Scope} {fields : List (Field × Value)}
    (h : compileDeltaExely scope p = some fields) (hy : y ∈ fields) : y.1.scope = scope := by
  cases scope with
  | availability =>
    cases h
    rw [mem_singleton.mp hy]
    rfl
  | rate =>
    cases h
    rw [mem_singleton.mp hy]
    rfl
  | restriction =>
    obtain ⟨z, hz, rfl⟩ := Option.map_eq_some_iff.mp h
    obtain ⟨op, -, hop⟩ := Option.bind_eq_some_iff.mp hz
    rw [mem_singleton.mp hy]
    exact restrictionValue_scope hop

theorem exely_cell {c : Cell} (hprov : x.key.provider = .exely) (hc : c ∈ (x.update E).cells) :
    c.connection = x.key.connection ∧ c.room = x.key.room ∧
      c.ratePlan = E.planOf x.key ∧ (x.key.dateFrom ≤ c.day ∧ c.day ≤ x.key.dateTo) ∧
      ∃ fields, compileDeltaExely x.key.scope x.payload = some fields ∧
        ∃ y ∈ fields, c.field ∈ E.places .exely y.1 := by
  obtain ⟨⟨c', v⟩, hmem, rfl⟩ := mem_map.mp hc
  obtain ⟨fields, hcomp, y, hy, -, hcon, hroom, hplan, hday, hfield⟩ := (E.mem_writes).mp hmem
  rw [hprov] at hcomp hfield
  exact ⟨hcon, hroom, hplan, Key.mem_days.mp hday, fields, hcomp, y, hy, hfield⟩

/-- The query finds every acknowledged set that has a cell of the set. -/
theorem exelyQuery_of_meets (hprov : x.key.provider = .exely)
    (hmeets : (r.update E).Meets (x.update E)) (hst : r.status = .acked)
    (hat : r.ackedAt.any (since ≤ ·) = true) : Store.exelyQuery x since r = true := by
  obtain ⟨c, hrc, hxc⟩ := hmeets
  obtain ⟨hcon, hroom, hplan, hday, fields, hcomp, y, hy, hfield⟩ := exely_cell hprov hxc
  have hrprov : r.key.provider = .exely := by
    have hconr : c.connection = r.key.connection := by
      obtain ⟨⟨c', v⟩, hmem, rfl⟩ := mem_map.mp hrc
      obtain ⟨-, -, -, -, -, h, -⟩ := (E.mem_writes).mp hmem
      exact h
    rw [← hprov]
    exact congrArg Connection.provider (hconr.symm.trans hcon)
  obtain ⟨hcon', hroom', hplan', hday', fields', hcomp', y', hy', hfield'⟩ := exely_cell hrprov hrc
  have hscope : r.key.scope = x.key.scope := by
    rw [← compileDeltaExely_scope hcomp hy, ← compileDeltaExely_scope hcomp' hy',
      ← E.scope_of_mem_places hfield, ← E.scope_of_mem_places hfield']
  have hplans : x.key.scope = .availability ∨ r.key.ratePlan = x.key.ratePlan := by
    by_cases hav : x.key.scope = .availability
    · exact .inl hav
    · refine .inr ?_
      rw [hplan, Extranet.planOf, Extranet.planOf, hprov, hrprov, hscope, E.exely_perPlan _ hav,
        if_pos rfl, if_pos rfl] at hplan'
      exact hplan'.symm
  have hops : x.key.scope = .restriction → r.payload.operation = x.payload.operation := by
    intro hres
    rw [hres] at hcomp
    rw [hscope, hres] at hcomp'
    obtain ⟨z, hz, rfl⟩ := Option.map_eq_some_iff.mp hcomp
    obtain ⟨z', hz', rfl⟩ := Option.map_eq_some_iff.mp hcomp'
    obtain ⟨op, hop, hval⟩ := Option.bind_eq_some_iff.mp hz
    obtain ⟨op', hop', hval'⟩ := Option.bind_eq_some_iff.mp hz'
    rw [mem_singleton.mp hy, places_restriction hval, mem_singleton] at hfield
    rw [mem_singleton.mp hy', places_restriction hval', mem_singleton] at hfield'
    rw [hop, hop', restrictionValue_inj hval' hval (hfield'.symm.trans hfield)]
  have hguests : x.key.scope = .rate → x.payload.numberOfGuests = none ∨
      r.payload.numberOfGuests = x.payload.numberOfGuests ∨ r.payload.numberOfGuests = none := by
    intro hrate
    rw [hrate] at hcomp
    rw [hscope, hrate] at hcomp'
    cases hcomp
    cases hcomp'
    rw [mem_singleton.mp hy] at hfield
    rw [mem_singleton.mp hy'] at hfield'
    cases hg : x.payload.numberOfGuests with
    | none => exact .inl rfl
    | some g =>
      cases hg' : r.payload.numberOfGuests with
      | none => exact .inr (.inr rfl)
      | some g' =>
        rw [hg] at hfield
        rw [hg'] at hfield'
        have hf : c.field = .rate (some g) := mem_singleton.mp hfield
        have hf' : c.field = .rate (some g') := mem_singleton.mp hfield'
        rw [hf] at hf'
        cases hf'
        exact .inr (.inl rfl)
  have hconn : r.key.connection = x.key.connection := hcon'.symm.trans hcon
  have hrooms : r.key.room = x.key.room := hroom'.symm.trans hroom
  have hfrom : r.key.dateFrom ≤ x.key.dateTo := by omega
  have hto : x.key.dateFrom ≤ r.key.dateTo := by omega
  simp only [Store.exelyQuery, hconn, hrooms, hscope, hfrom, hto, hst, hat, decide_true, Bool.and_true,
    Bool.and_eq_true, Bool.or_eq_true, decide_eq_true_eq, ne_eq]
  refine ⟨⟨⟨trivial, hplans⟩, ?_⟩, ?_⟩
  · by_cases hres : x.key.scope = .restriction
    · exact .inl (.inr (hops hres))
    · exact .inl (.inl hres)
  · by_cases hrate : x.key.scope = .rate
    · obtain h | h | h := hguests hrate
      · exact .inl (.inl (.inr h))
      · exact .inl (.inr h)
      · exact .inr h
    · exact .inl (.inl (.inl hrate))

/-! ### Acknowledged sets -/

def Acked (s : Store) (k : ℕ) (r : ChangeSet) : Prop := s.sets[k]? = some r ∧ r.status = .acked

/-- What is acknowledged was taken, and where the last delivery of a cell is acknowledged,
no set of the cell was acknowledged later. -/
structure Acknowledged (E : Extranet) (s : Store) : Prop where
  clock : ∀ (k : ℕ) r, Acked s k r → ∃ t, r.ackedAt = some t ∧ t ≤ s.clock
  taken : ∀ (k : ℕ) r, Acked s k r → Taken E s r
  latest : ∀ (c : Cell) d, newest s.delivered c = some d → ∀ (j : ℕ) r, Acked s j r → r.version = d.version →
    ∀ (k : ℕ) h, Acked s k h → c ∈ (h.update E).cells → h.ackedAt.getD 0 ≤ r.ackedAt.getD 0

theorem Acknowledged.quiet (h : Acknowledged E s) (hacked : ∀ (k : ℕ) r, Acked s' k r → Acked s k r)
    (hdel : s'.delivered = s.delivered) (hclock : s.clock ≤ s'.clock) : Acknowledged E s' where
  clock k r hr := by
    obtain ⟨t, ht, hle⟩ := h.clock k r (hacked k r hr)
    exact ⟨t, ht, hle.trans hclock⟩
  taken k r hr c hc := hdel ▸ h.taken k r (hacked k r hr) c hc
  latest c d hd j r hr hver k y hy hc :=
    h.latest c d (hdel ▸ hd) j r (hacked j r hr) hver k y (hacked k y hy) hc

theorem Acknowledged.deliver (h : Acknowledged E s) (hr : Recorded E s) (hget : s.sets[k]? = some r)
    (hst : r.status ≠ .acked) (hver : r.version = x.version) (missed : List Cell) :
    Acknowledged E (s.deliver E x missed) where
  clock := h.clock
  taken k y hy c hc :=
    let ⟨d, hd, hdc⟩ := h.taken k y hy c hc
    ⟨d, mem_cons_of_mem _ hd, hdc⟩
  latest c d hd j y hy hyd i z hz hc := by
    by_cases hmem : c ∈ ((x.update E).without missed).cells
    · -- the set that was sent is not acknowledged
      rw [Store.deliver, newest_cons_of_mem hmem] at hd
      have hdx : d.version = x.version := by rw [← Option.some.inj hd]; rfl
      obtain rfl := hr.distinct j k y r hy.1 hget (by omega)
      have hyr : s.sets[j]? = some y := hy.1
      rw [hget] at hyr
      obtain rfl := Option.some.inj hyr
      exact absurd hy.2 hst
    · rw [Store.deliver, newest_cons_of_not_mem hmem] at hd
      exact h.latest c d hd j y hy hyd i z hz hc

theorem acked_updateStatus {y : ChangeSet} (hget : s.sets[k]? = some r)
    (hy : Acked (s.updateStatus k st inc) j y) :
    (k = j ∧ st = .acked ∧ y = r.setStatus s.clock st inc) ∨ (k ≠ j ∧ Acked s j y) := by
  obtain ⟨hy, hst⟩ := hy
  rw [getElem?_updateStatus] at hy
  obtain ⟨y₀, hy₀, rfl⟩ := Option.map_eq_some_iff.mp hy
  by_cases hkj : k = j
  · subst j
    rw [hget] at hy₀
    obtain rfl := Option.some.inj hy₀
    rw [if_pos rfl] at hst ⊢
    exact .inl ⟨rfl, hst, rfl⟩
  · rw [if_neg hkj] at hst ⊢
    exact .inr ⟨hkj, hy₀, hst⟩

/-- A row whose status is written was not acknowledged, so that the others stay. -/
theorem acked_keep {y : ChangeSet} (hget : s.sets[k]? = some r) (hst : r.status ≠ .acked)
    (hy : Acked s j y) : Acked (s.updateStatus k st inc) j y := by
  have hkj : k ≠ j := by
    rintro rfl
    rw [Acked, hget] at hy
    exact hst (Option.some.inj hy.1 ▸ hy.2)
  refine ⟨?_, hy.2⟩
  rw [getElem?_updateStatus, hy.1, Option.map_some, if_neg hkj]

theorem Acknowledged.updateStatus (h : Acknowledged E s) (hget : s.sets[k]? = some r)
    (hst : st ≠ .acked) : Acknowledged E (s.updateStatus k st inc) := by
  refine h.quiet (fun j y hy => ?_) rfl le_rfl
  obtain ⟨-, hacked, -⟩ | ⟨-, hy⟩ := acked_updateStatus hget hy
  · exact absurd hacked hst
  · exact hy

theorem Acknowledged.acknowledge (h : Acknowledged E s) (hr : Recorded E s)
    (hget : s.sets[k]? = some r) (hrx : r.update E = x.update E) (htaken : Taken E s x)
    (hown : LastOwn E s x) : Acknowledged E (s.updateStatus k .acked inc) := by
  have hver : r.version = x.version := congrArg Update.version hrx
  have hother : ∀ {j : ℕ} {y : ChangeSet}, Acked (s.updateStatus k .acked inc) j y →
      (j = k ∧ y = r.setStatus s.clock .acked inc) ∨ (k ≠ j ∧ Acked s j y) := fun hy =>
    (acked_updateStatus hget hy).imp (fun hy => ⟨hy.1.symm, hy.2.2⟩) id
  refine ⟨fun j y hy => ?_, fun j y hy => ?_, fun c d hd j y hy hyd i z hz hc => ?_⟩
  · obtain ⟨-, rfl⟩ | ⟨-, hy⟩ := hother hy
    · exact ⟨s.clock, rfl, le_rfl⟩
    · exact h.clock j y hy
  · obtain ⟨-, rfl⟩ | ⟨-, hy⟩ := hother hy
    · intro c hc
      have hcx : c ∈ (x.update E).cells := hrx ▸ hc
      obtain ⟨d, hd, hdv, hdc⟩ := htaken c hcx
      exact ⟨d, hd, hdv.trans hver.symm, hdc⟩
    · exact h.taken j y hy
  · obtain ⟨-, rfl⟩ | ⟨hkj, hy⟩ := hother hy
    · -- the set that is acknowledged now is acknowledged last
      obtain ⟨-, rfl⟩ | ⟨-, hz⟩ := hother hz
      · exact le_rfl
      · obtain ⟨t, ht, hle⟩ := h.clock i z hz
        simpa [ht, ChangeSet.setStatus] using hle
    · obtain ⟨-, rfl⟩ | ⟨-, hz⟩ := hother hz
      · -- the last delivery of its cells is its own, and another set has another content
        have hcx : c ∈ (x.update E).cells := hrx ▸ hc
        have hdx := hown c hcx d hd
        exact absurd (hr.distinct k j r y hget hy.1 (by omega)) hkj
      · exact h.latest c d hd j y hy hyd i z hz hc

theorem Acknowledged.current_eq (h : Acknowledged E s) (hr : Recorded E s) {y : ChangeSet}
    (hy : Acked s k y) (hyx : E.writes y.key y.payload = E.writes x.key x.payload)
    (hlast : LastAcked E s x) (hlater : ∀ (j : ℕ) r, Acked s j r → (r.update E).Meets (x.update E) →
      y.ackedAt.getD 0 ≤ r.ackedAt.getD 0 → E.writes r.key r.payload = E.writes x.key x.payload) :
    ∀ c ∈ (x.update E).cells, current s.delivered c = (x.update E).valueAt c := by
  intro c hc
  have hcy : c ∈ (y.update E).cells := by
    rw [Update.cells, ChangeSet.update, hyx]
    exact hc
  obtain ⟨w, hw, -, hwc⟩ := h.taken k y hy c hcy
  obtain ⟨d, hd, hdc, hnewest⟩ := exists_newest hw hwc
  obtain ⟨r, hmem, hver, hst⟩ := hlast c hc d hnewest
  obtain ⟨j, hj⟩ := mem_iff_getElem?.mp hmem
  -- the last delivery is of the content of an acknowledged set
  obtain ⟨u, hu, hpart⟩ := hr.taken d hd
  obtain ⟨huc, hval⟩ := hpart.2 c hdc
  have hur : u = r.update E :=
    hr.versioned.eq_of_version hu (hr.rows j r hj) (hpart.1.symm.trans hver.symm)
  have hrc : c ∈ (r.update E).cells := hur ▸ huc
  have hle := h.latest c d hnewest j r ⟨hj, hst⟩ hver k y hy hcy
  have hsame := hlater j r ⟨hj, hst⟩ ⟨c, hrc, hc⟩ hle
  rw [current_of_newest hnewest, hval, hur]
  simp only [Update.valueAt, ChangeSet.update, hsame]

/-! ### The steps -/

def Found (E : Extranet) (s : Store) : Pc → Prop
  | .conflict x since _ => x.set.key.provider = .exely ∧ ∃ k y, Acked s k y ∧ y.ackedAt = some since ∧
      Store.exelyQuery x.set since y = true ∧ y.deltaHash E = x.set.deltaHash E
  | _ => True

theorem Found.keep {pc : Pc} (h : Found E s pc) (hacked : ∀ (k : ℕ) r, Acked s k r → Acked s' k r) :
    Found E s' pc := by
  cases pc with
  | conflict x since rest =>
    obtain ⟨hprov, k, y, hy, hrest⟩ := h
    exact ⟨hprov, k, y, hacked k y hy, hrest⟩
  | _ => trivial

theorem found_nextSet (rest : List Snapshot) : Found E s (nextSet rest) := by
  cases rest <;> trivial

theorem exelyLatest_some {y : ChangeSet} (h : s.exelyLatest x = some y) :
    ∃ k t, Acked s k y ∧ y.ackedAt = some t ∧ Store.exelyQuery x t y = true := by
  have hmem := mem_of_head? h
  rw [mem_insertionSort, mem_filter] at hmem
  obtain ⟨k, hk⟩ := mem_iff_getElem?.mp hmem.1
  have hq := hmem.2
  simp only [Store.exelyQuery, Bool.and_eq_true, decide_eq_true_eq] at hq ⊢
  obtain ⟨⟨⟨⟨⟨⟨⟨⟨⟨hcon, hroom⟩, hscope⟩, hfrom⟩, hto⟩, hst⟩, hat⟩, hplan⟩, hop⟩, hguests⟩ := hq
  cases ht : y.ackedAt with
  | none => simp [ht] at hat
  | some t =>
    exact ⟨k, t, ⟨hk, hst⟩, rfl, ⟨⟨⟨⟨⟨⟨⟨⟨⟨hcon, hroom⟩, hscope⟩, hfrom⟩, hto⟩, hst⟩, by simp⟩, hplan⟩,
      hop⟩, hguests⟩⟩

theorem found_check {x : Snapshot} : Found E s (checkOutboundIdempotency E s x rest) := by
  cases hprov : x.set.key.provider with
  | exely =>
    simp only [checkOutboundIdempotency, hprov]
    split
    · cases hlatest : s.exelyLatest x.set with
      | none => trivial
      | some y =>
        simp only
        split
        · rename_i hhash
          obtain ⟨k, t, hacked, ht, hq⟩ := exelyLatest_some hlatest
          rw [ht, Option.getD_some]
          exact ⟨hprov, k, y, hacked, ht, hq, hhash⟩
        · trivial
    · trivial
  | _ =>
    simp only [checkOutboundIdempotency, hprov]
    split <;> trivial

def Keeps (s s' : Store) : Prop := ∀ (k : ℕ) r, Acked s k r → Acked s' k r

theorem not_acked_of_waiting (h : st.waiting = true) : st ≠ .acked := by
  rintro rfl
  cases h

theorem not_acked_of_inFlight (h : st.inFlight = true) : st ≠ .acked := by
  rintro rfl
  cases h

theorem Acknowledged.insertSet (h : Acknowledged E s) (d : Draft) (createdAt : ℤ) :
    Acknowledged E (s.insertSet E d createdAt) ∧ Keeps s (s.insertSet E d createdAt) := by
  refine ⟨h.quiet (fun j y hy => ?_) rfl le_rfl, fun j y hy => ⟨?_, hy.2⟩⟩
  · obtain hold | ⟨-, rfl⟩ := Program.getElem?_append_one hy.1
    · exact ⟨hold, hy.2⟩
    · cases hy.2
  · rw [Store.insertSet, List.getElem?_append_left (List.getElem?_eq_some_iff.mp hy.1).1, hy.1]

theorem Acknowledged.mergeSet (h : Acknowledged E s) {d : Draft}
    (hwaiting : (s.sets[k]?).any (fun r => r.status.waiting) = true) :
    Acknowledged E (s.mergeSet E k d) ∧ Keeps s (s.mergeSet E k d) := by
  refine ⟨h.quiet (fun j y hy => ?_) rfl le_rfl, fun j y hy => ⟨?_, hy.2⟩⟩
  · obtain ⟨hget, hst⟩ := hy
    rw [getElem?_mergeSet] at hget
    obtain ⟨y₀, hy₀, rfl⟩ := Option.map_eq_some_iff.mp hget
    by_cases hkj : k = j
    · rw [if_pos hkj] at hst
      cases hst
    · rw [if_neg hkj] at hst ⊢
      exact ⟨hy₀, hst⟩
  · have hkj : k ≠ j := by
      rintro rfl
      rw [hy.1, Option.any_some] at hwaiting
      exact not_acked_of_waiting hwaiting hy.2
    rw [getElem?_mergeSet, hy.1, Option.map_some, if_neg hkj]

theorem advance_acknowledged {pc' : Pc} (hr : Recorded E s) (hhand : InHand E s t.pc)
    (h : Acknowledged E s) (hc : Careful E s t.pc o) (hadv : advance E s t o = some (s', pc')) :
    Acknowledged E s' ∧ Keeps s s' ∧ Found E s' pc' := by
  obtain ⟨hfence, hc⟩ := hc
  have hwrite : ∀ (st : SetStatus) (inc : Bool) {x : Snapshot} {p : SetStatus → Bool}, st ≠ .acked →
      x.set.update E ∈ s.published → Stands s x p = true → (∀ st, p st = true → st ≠ .acked) →
      Acknowledged E (s.updateStatus x.id st inc) ∧ Keeps s (s.updateStatus x.id st inc) := by
    intro st inc x p hst hread hstands hp
    obtain ⟨r, hget, hrow, -⟩ := row_of_stands hr hread hstands
    exact ⟨h.updateStatus hget hst, fun _ _ hy => acked_keep hget (hp _ hrow) hy⟩
  simp only [advance] at hadv
  cases hpc : t.pc <;> simp only [hpc] at hadv hhand hfence hc
  case find drafts => cases drafts <;> cases hadv <;> exact ⟨h, fun _ _ hy => hy, trivial⟩
  case write found d createdAt drafts =>
    cases found with
    | none =>
      cases hadv
      exact ⟨(h.insertSet d createdAt).1, (h.insertSet d createdAt).2, trivial⟩
    | some k =>
      cases hadv
      exact ⟨(h.mergeSet hfence).1, (h.mergeSet hfence).2, trivial⟩
  case read tenant provider limit =>
    cases hadv
    exact ⟨h, fun _ _ hy => hy, found_nextSet _⟩
  case gate x rest =>
    split at hadv <;> cases hadv
    · exact ⟨h, fun _ _ hy => hy, trivial⟩
    · rename_i hmapped
      have hstands := waiting_of_unmapped hfence hmapped
      obtain ⟨hack, hkeep⟩ := hwrite .hardFail false (by decide) (hhand x mem_cons_self) hstands
        fun _ => not_acked_of_waiting
      exact ⟨hack, hkeep, found_nextSet _⟩
  case check x rest =>
    cases hadv
    exact ⟨h, fun _ _ hy => hy, found_check⟩
  case conflict x since rest =>
    cases hadv
    refine ⟨h, fun _ _ hy => hy, ?_⟩
    split <;> trivial
  case skip x rest =>
    cases hadv
    obtain ⟨hack, hkeep⟩ := hwrite .skipped false (by decide) (hhand x mem_cons_self) hfence
      fun _ => not_acked_of_waiting
    exact ⟨hack, hkeep, found_nextSet _⟩
  case mark x rest =>
    split at hadv
    · cases hadv
      exact ⟨h, fun _ _ hy => hy, found_nextSet _⟩
    · rename_i hallowed
      have hstands := waiting_of_allowed hfence hallowed
      split at hadv <;> cases hadv
      · obtain ⟨hack, hkeep⟩ := hwrite .manualReview false (by decide) (hhand x mem_cons_self)
          hstands fun _ => not_acked_of_waiting
        exact ⟨hack, hkeep, found_nextSet _⟩
      · obtain ⟨hack, hkeep⟩ := hwrite .pushed true (by decide) (hhand x mem_cons_self) hstands
          fun _ => not_acked_of_waiting
        exact ⟨hack, hkeep, trivial⟩
  case deliver x rest =>
    split at hadv
    · cases hadv
      have hst : noAdapterStatus t.call ≠ .acked := by
        unfold noAdapterStatus
        split <;> decide
      obtain ⟨hack, hkeep⟩ := hwrite _ false hst (hhand x mem_cons_self) hfence
        fun _ => not_acked_of_inFlight
      exact ⟨hack, hkeep, found_nextSet _⟩
    · split at hadv <;> cases hadv
      obtain ⟨r, hget, hst, hrx⟩ := row_of_stands hr (hhand x mem_cons_self) hfence
      have hver : r.version = x.set.version := congrArg Update.version hrx
      exact ⟨h.deliver hr hget (not_acked_of_inFlight hst) hver o.missed, fun _ _ hy => hy, trivial⟩
  case answer x r rest =>
    cases hadv
    obtain ⟨y, hget, hst, hrx⟩ := row_of_stands hr (hhand.1 x mem_cons_self) hfence
    refine ⟨?_, fun _ _ hy => acked_keep hget (not_acked_of_inFlight hst) hy, found_nextSet _⟩
    by_cases hconf : r.isConfirmed = true
    · rw [processAck_confirmed hconf]
      exact h.acknowledge hr hget hrx (hhand.2 hconf) (hc hconf)
    · exact h.updateStatus hget (processAck_not_acked (by simpa using hconf))
  case returned => cases hadv

theorem env_keeps {e : Env} (h : Acknowledged E s) (hs : (calls E).env s e = some s') :
    Acknowledged E s' ∧ Keeps s s' := by
  cases e with
  | tick d =>
    cases hs
    have hclock : s.clock ≤ s.clock + (d : ℤ) := by omega
    exact ⟨h.quiet (fun _ _ hy => hy) rfl hclock, fun _ _ hy => hy⟩
  | releaseQuarantine tenant room plan provider =>
    cases hs
    refine ⟨h.quiet (fun j y hy => ?_) rfl le_rfl, fun j y hy => ⟨?_, hy.2⟩⟩
    · obtain ⟨hget, hst⟩ := hy
      simp only [Store.releaseQuarantine, getElem?_map] at hget
      obtain ⟨y₀, hy₀, rfl⟩ := Option.map_eq_some_iff.mp hget
      split at hst
      · cases hst
      · rename_i hno
        rw [if_neg hno]
        exact ⟨hy₀, hst⟩
    · have hno : Store.isReleased tenant room plan provider y = false := by
        simp [Store.isReleased, hy.2]
      simp only [Store.releaseQuarantine, getElem?_map, hy.1, Option.map_some, hno,
        Bool.false_eq_true, if_false]

theorem acknowledged_preserves : (calls E).Preserves (AcksLastDelivery E)
    (fun s => Recorded E s ∧ Acknowledged E s) (fun s _ t => InHand E s t.pc ∧ Found E s t.pc)
    (fun _ _ => True) where
  symm _ _ _ := trivial
  init s hs := by
    refine ⟨recorded_init hs, ?_⟩
    have hnone : ∀ (k : ℕ) r, ¬ Acked s k r := fun k r hr => by
      have hget := hr.1
      simp [hs.1] at hget
    exact ⟨fun k r hr => absurd hr (hnone k r), fun k r hr => absurd hr (hnone k r),
      fun _ _ _ j r hr => absurd hr (hnone j r)⟩
  env p e s' hp _ hs := by
    have hsame := env_sameContent hs
    obtain ⟨hack, hkeep⟩ := env_keeps hp.store.2 hs
    exact ⟨⟨hp.store.1.sameContent hsame, hack⟩, fun k t ht =>
      ⟨(hp.thread k t ht).1.grows hsame.grows, (hp.thread k t ht).2.keep hkeep⟩⟩
  call p c t _ _ ht := by
    obtain rfl : Thread.begin c = t := Option.some.inj ht
    refine ⟨⟨inHand_begin c, ?_⟩, fun _ _ => trivial⟩
    cases c <;> trivial
  step p k m t s' t' hp hc ht hs := by
    cases m with
    | advance o =>
      obtain ⟨r, hadv, heq⟩ := Option.map_eq_some_iff.mp hs
      cases heq
      have hhand : InHand E p.store t.pc := (hp.thread k t ht).1
      obtain ⟨hrec, hgrows, hhand'⟩ := advance_recorded hp.store.1 hhand hadv
      obtain ⟨hack, hkeep, hfound⟩ := advance_acknowledged hp.store.1 hhand hp.store.2 (hc t ht) hadv
      exact ⟨⟨hrec, hack⟩, ⟨hhand', hfound⟩, fun j u _ hu =>
        ⟨⟨(hp.thread j u hu).1.grows hgrows, (hp.thread j u hu).2.keep hkeep⟩, trivial⟩⟩
    | stop =>
      cases hs
      exact ⟨hp.store, ⟨trivial, trivial⟩, fun j u _ hu => ⟨hp.thread j u hu, trivial⟩⟩

/-! ### Suppression -/

theorem nextSet_ne_skip {x : Snapshot} {xs : List Snapshot} : nextSet xs ≠ .skip x rest := by
  cases xs <;> simp [nextSet]

theorem check_of_skip {x : Snapshot} (h : advance E s t o = some (s', .skip x rest)) : s' = s ∧
      ((t.pc = .check x rest ∧ checkOutboundIdempotency E s x rest = .skip x rest) ∨
        ∃ since, t.pc = .conflict x since rest ∧ s.exelyConflict E x.set since = false) := by
  simp only [advance] at h
  cases hpc : t.pc <;> simp only [hpc] at h
  case find drafts => cases drafts <;> cases h
  case write found d createdAt drafts => cases found <;> cases h
  case read tenant provider limit => exact absurd (Prod.mk.inj (Option.some.inj h)).2 nextSet_ne_skip
  case gate y ys =>
    split at h
    · cases h
    · exact absurd (Prod.mk.inj (Option.some.inj h)).2 nextSet_ne_skip
  case check y ys =>
    obtain ⟨rfl, hskip⟩ := Prod.mk.inj (Option.some.inj h)
    have hxy : y = x ∧ ys = rest := by
      simp only [checkOutboundIdempotency] at hskip
      (repeat' split at hskip) <;> cases hskip
      all_goals exact ⟨rfl, rfl⟩
    obtain ⟨rfl, rfl⟩ := hxy
    exact ⟨rfl, .inl ⟨rfl, hskip⟩⟩
  case conflict y since ys =>
    obtain ⟨rfl, hskip⟩ := Prod.mk.inj (Option.some.inj h)
    split at hskip
    · cases hskip
    · rename_i hno
      cases hskip
      exact ⟨rfl, .inr ⟨since, rfl, by simpa using hno⟩⟩
  case skip y ys => exact absurd (Prod.mk.inj (Option.some.inj h)).2 nextSet_ne_skip
  case mark y ys =>
    split at h
    · exact absurd (Prod.mk.inj (Option.some.inj h)).2 nextSet_ne_skip
    · split at h
      · exact absurd (Prod.mk.inj (Option.some.inj h)).2 nextSet_ne_skip
      · cases h
  case deliver y ys =>
    split at h
    · exact absurd (Prod.mk.inj (Option.some.inj h)).2 nextSet_ne_skip
    · split at h <;> cases h
  case answer y r ys => exact absurd (Prod.mk.inj (Option.some.inj h)).2 nextSet_ne_skip
  case returned => cases h

theorem conflict_sound {x : Snapshot} (hr : Recorded E s) (h : Acknowledged E s)
    (hfound : Found E s (.conflict x since rest)) (hno : NoCollision E s x.set)
    (hlast : LastAcked E s x.set) (hconflict : s.exelyConflict E x.set since = false) :
    ∀ c ∈ (x.set.update E).cells, current s.delivered c = (x.set.update E).valueAt c := by
  obtain ⟨hprov, k, y, hy, hat, hq, hhash⟩ := hfound
  -- a set that the query finds and that has the hash sets the same
  have hsame : ∀ {r : ChangeSet}, r ∈ s.sets → Store.exelyQuery x.set since r = true →
      r.deltaHash E = x.set.deltaHash E → E.writes r.key r.payload = E.writes x.set.key x.set.payload := by
    intro r hmem hquery hrhash
    simp only [Store.exelyQuery, Bool.and_eq_true, decide_eq_true_eq] at hquery
    obtain ⟨⟨⟨⟨⟨⟨⟨⟨⟨hcon, -⟩, hscope⟩, -⟩, -⟩, hst⟩, -⟩, -⟩, -⟩, -⟩ := hquery
    exact E.writes_eq_of_digest (congrArg Connection.tenant hcon) hscope (hno r hmem hst hrhash)
  refine h.current_eq hr hy (hsame (mem_of_getElem? hy.1) hq hhash) hlast ?_
  intro j r hracked hmeets hle
  obtain ⟨t, ht, -⟩ := h.clock j r hracked
  rw [hat, ht, Option.getD_some, Option.getD_some] at hle
  have hquery := exelyQuery_of_meets hprov hmeets hracked.2
    (show r.ackedAt.any (since ≤ ·) = true by simpa [ht] using hle)
  have hmem := mem_of_getElem? hracked.1
  refine hsame hmem hquery ?_
  by_contra hne
  have hany : s.exelyConflict E x.set since = true :=
    any_eq_true.mpr ⟨r, hmem, by simp [hquery, hne]⟩
  rw [hconflict] at hany
  cases hany

/-- The check of the other providers, under the condition. -/
theorem equal_sound (hr : Recorded E s) (h : Acknowledged E s) (hno : NoCollision E s x)
    (hlast : LastAcked E s x) (hequal : EqualIsLatest E s x) :
    ∀ c ∈ (x.update E).cells, current s.delivered c = (x.update E).valueAt c := by
  obtain ⟨y, hmem, heq, htenant, hscope, hlater⟩ := hequal
  simp only [Store.equalAcked, Bool.and_eq_true, decide_eq_true_eq] at heq
  obtain ⟨⟨⟨-, hhash⟩, hst⟩, -⟩ := heq
  obtain ⟨k, hk⟩ := mem_iff_getElem?.mp hmem
  refine h.current_eq hr ⟨hk, hst⟩ (E.writes_eq_of_digest htenant hscope (hno y hmem hst hhash)) hlast ?_
  intro j r hracked hmeets hle
  have hrmem := mem_of_getElem? hracked.1
  obtain ⟨hrhash, hrscope⟩ := hlater r hrmem hracked.2 hmeets hle
  obtain ⟨c, hrc, hxc⟩ := hmeets
  have hcon : r.key.connection = x.key.connection :=
    (connection_of_mem_cells hrc).symm.trans (connection_of_mem_cells hxc)
  exact E.writes_eq_of_digest (congrArg Connection.tenant hcon) hrscope (hno r hrmem hracked.2 hrhash)

theorem current_deliver
    (h : ∀ c ∈ (x.update E).cells, current s.delivered c = (x.update E).valueAt c) (c : Cell) :
    current (s.deliver E x []).delivered c = current s.delivered c := by
  by_cases hc : c ∈ (x.update E).cells
  · have hmem : c ∈ ((x.update E).without []).cells :=
      Update.mem_cells_without.mpr ⟨hc, not_mem_nil⟩
    rw [Store.deliver, current_cons_of_mem hmem, h c hc]
    exact ((Update.without_partOf _ []).2 c hmem).2
  · have hno : c ∉ ((x.update E).without []).cells := fun hmem => hc (Update.mem_cells_without.mp hmem).1
    rw [Store.deliver, current_cons_of_not_mem hno]

/-- When the check reports that a set may be suppressed, the provider has its value in
each of its cells, and to deliver it would change nothing. -/
theorem suppressed_is_current {p p' : Pool Store Thread}
    (hp : (calls E).machine.Reach (AcksLastDelivery E) p) {k : ℕ} {o : Chance}
    (hc : AcksLastDelivery E p (.step k (.advance o)))
    (hs : (calls E).machine.step p (.step k (.advance o)) = some p') {t : Thread} {x : Snapshot}
    {rest : List Snapshot} (ht : p'.threads[k]? = some t) (hskip : t.pc = .skip x rest) :
    (∀ c ∈ (x.set.update E).cells, current p'.store.delivered c = (x.set.update E).valueAt c) ∧
      ∀ c, current (p'.store.deliver E x.set []).delivered c = current p'.store.delivered c := by
  obtain ⟨hr, hack⟩ := (acknowledged_preserves.reach hp).store
  obtain ⟨t₀, t', ht₀, hstep, hset⟩ := Program.next_step hs
  obtain ⟨r, hadv, heq⟩ := Option.map_eq_some_iff.mp hstep
  have hfound := ((acknowledged_preserves.reach hp).thread k t₀ ht₀).2
  have htt' : t = t' := by
    rw [hset] at ht
    obtain ⟨hne, -⟩ | ⟨-, h⟩ := Program.getElem?_set_some ht
    · exact absurd rfl hne
    · exact h
  have hrskip : r = (p'.store, .skip x rest) := by
    obtain ⟨hstore, hthread⟩ := Prod.mk.inj heq
    have hpc : r.2 = t.pc := by rw [htt', ← hthread]
    exact Prod.ext hstore (hpc.trans hskip)
  rw [hrskip] at hadv
  obtain ⟨hsame, hcheck⟩ := check_of_skip hadv
  obtain ⟨-, hcareful⟩ := hc t₀ ht₀
  rw [hsame]
  suffices h : ∀ c ∈ (x.set.update E).cells,
      current p.store.delivered c = (x.set.update E).valueAt c from ⟨h, current_deliver h⟩
  obtain ⟨hpc, hreport⟩ | ⟨since, hpc, hconflict⟩ := hcheck
  · simp only [hpc] at hcareful
    obtain ⟨hno, hlast, hequal⟩ := hcareful hreport
    exact equal_sound hr hack hno hlast hequal
  · simp only [hpc] at hcareful
    obtain ⟨hno, hlast⟩ := hcareful hconflict
    exact conflict_sound hr hack (hpc ▸ hfound) hno hlast hconflict

/-! ### Runs -/

def atCheck (k : ℕ) (c : Cell) (p : Pool Store Thread) : Option Pc × Option Value :=
  (p.threads[k]?.map Thread.pc, current p.store.delivered c)

def fiveRooms (id version : ℕ) (provider : Provider) : Snapshot :=
  ⟨id, ⟨coalescingKey (available 5) provider, { availability := some 5 }, version, .pending, 0, 0, none⟩⟩

/-- The availability that was acknowledged last is published again. -/
theorem suppressed_is_current_repeated : ∃ p, (calls sampleExtranet).machine.Reachable p ∧
    p.threads[3]?.map Thread.pc = some (.skip (fiveRooms 1 1 .exely) []) ∧
    current p.store.delivered (dayTen .exely) = some (.number (some 5)) := by
  let a : Act Env Call Move := .step 3 (.advance {})
  obtain ⟨p, hp, hv⟩ := Machine.exists_reach_of_runUnder (C := AcksLastDelivery sampleExtranet)
    (f := fun p => (decide (AcksLastDelivery sampleExtranet p a),
      ((calls sampleExtranet).machine.step p a).map (fun q => q.threads[3]?.map Thread.pc)))
    (v := (true, some (some (.skip (fiveRooms 1 1 .exely) []))))
    (publishing 0 5 .exely ++ [pushing] ++ steps 1 6 ++ publishing 2 5 .exely ++ [pushing] ++ steps 3 3)
    (calls_init (E := sampleExtranet)) (by decide +kernel)
  obtain ⟨hc, hstep⟩ := Prod.mk.inj hv
  obtain ⟨p', hs, hpc⟩ := Option.map_eq_some_iff.mp hstep
  obtain ⟨t, ht, hskip⟩ := Option.map_eq_some_iff.mp hpc
  have hreach : (calls sampleExtranet).machine.Reachable p' :=
    (hp.mono fun _ _ _ => trivial).tail ⟨a, trivial, hs⟩
  have hcurrent := suppressed_is_current hp (of_decide_eq_true hc) hs ht hskip
  exact ⟨p', hreach, hpc, hcurrent.1 (dayTen .exely) (by decide)⟩

/-- Five rooms, none, and five again. With HotelRunner both deliveries are confirmed; with
Exely the second is taken, but its answer is lost. -/
theorem suppressed_not_current :
    (∃ p, (calls sampleExtranet).machine.Reachable p ∧
      p.threads[5]?.map Thread.pc = some (.skip (fiveRooms 2 2 .hotelrunner) []) ∧
      current p.store.delivered (dayTen .hotelrunner) = some (.number (some 0))) ∧
    ∃ p, (calls sampleExtranet).machine.Reachable p ∧
      p.threads[5]?.map Thread.pc = some (.skip (fiveRooms 2 2 .exely) []) ∧
      current p.store.delivered (dayTen .exely) = some (.number (some 0)) := by
  refine ⟨?_, ?_⟩
  · obtain ⟨p, hp, hv⟩ := Machine.exists_reachable_of_run (f := atCheck 5 (dayTen .hotelrunner))
      (v := (some (.skip (fiveRooms 2 2 .hotelrunner) []), some (.number (some 0))))
      (publishing 0 5 .hotelrunner ++ [pushing] ++ steps 1 6 ++ publishing 2 0 .hotelrunner ++ [pushing] ++
        steps 3 6 ++ publishing 4 5 .hotelrunner ++ [pushing] ++ steps 5 3)
      (calls_init (E := sampleExtranet)) (by decide +kernel)
    exact ⟨p, hp, (Prod.mk.inj hv).1, (Prod.mk.inj hv).2⟩
  · obtain ⟨p, hp, hv⟩ := Machine.exists_reachable_of_run (f := atCheck 5 (dayTen .exely))
      (v := (some (.skip (fiveRooms 2 2 .exely) []), some (.number (some 0))))
      (List.flatten [publishing 0 5 .exely, [pushing], steps 1 6, publishing 2 0 .exely, [pushing],
        steps 3 4, [.step 3 (.advance { result := ⟨false, 0, some .timeout, .ambiguous⟩ }),
        .step 3 (.advance {})], publishing 4 5 .exely, [pushing], steps 5 4])
      (calls_init (E := sampleExtranet)) (by decide +kernel)
    exact ⟨p, hp, (Prod.mk.inj hv).1, (Prod.mk.inj hv).2⟩

end SyrocePms.Ari
