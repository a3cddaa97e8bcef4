import SyrocePms.Folio.ChargePartition

/-! The rows that a partition returns: their components are the parts of those of the charge,
and each of them can be partitioned again. -/

namespace SyrocePms.Folio.ChargePartition

open Lib List

/-! ### Reading what was written -/

@[simp] theorem cents_ofCents (c : ℤ) : cents (ofCents c) = some c := by
  have hscale : (c / 100 : ℚ) * 100 = c := by ring
  show (if ((c / 100 : ℚ) * 100).den = 1 then some ((c / 100 : ℚ) * 100).num else none) = some c
  rw [hscale]
  simp

@[simp] theorem ofCents_ne_null (c : ℤ) : ofCents c ≠ .null := by
  unfold ofCents
  exact Value.noConfusion

theorem acceptable_ofCents {c : ℤ} (h : 0 ≤ c) : acceptable (ofCents c) = true := by
  simp [acceptable, h]

def valueOf (o : Option ℤ) : Value := (o.map ofCents).getD .null

/-- The row has the components as its fields, those of one line. -/
structure Row.Shows (r : Row) (c : Components) : Prop where
  fields : ∀ k, r.get k = valueOf (c.fields k)
  quantity : r.quantity = some (.number 1)
  breakdown : r.breakdown.read = some c.taxes

variable {r : Row} {c : Components} {extra : Bool} {total : ℤ}
variable {k : Field} {v : Value} {a b t whole : ℤ} {pick : ℤ → ℤ} {tax : String → ℕ → ℕ}
  {d : Dict String Value}

theorem Row.Shows.has (h : r.Shows c) (k : Field) : r.has k = (c.fields k).isSome := by
  rw [Row.has, h.fields, valueOf]
  cases c.fields k <;> simp

theorem Row.Shows.cents_get (h : r.Shows c) {v : ℤ} (hv : c.fields k = some v) :
    cents (r.get k) = some v := by
  rw [h.fields, hv]
  exact cents_ofCents v

theorem Row.Shows.lineTotal (h : r.Shows c) (hc : c.fields .total = some total) : r.lineTotal = some total := by
  rw [Row.lineTotal, h.has, hc, Option.isSome_some, if_pos rfl, h.cents_get hc]

theorem Row.Shows.perLine (h : r.Shows c) (k : Field) : r.perLine extra k = some (valueOf (c.fields k)) := by
  unfold Row.perLine
  rw [h.has, h.fields, h.quantity]
  cases hv : c.fields k with
  | none => simp
  | some v =>
    cases extra with
    | false => rfl
    | true =>
      show some (Value.number ((v / 100 : ℚ) * 1)) = some (.number (v / 100))
      rw [mul_one]

theorem Row.Shows.normalized (h : r.Shows c) (hc : c.fields .total = some total) :
    r.normalized extra total = some fun k => valueOf (c.fields k) := by
  rw [Row.normalized, h.perLine, h.perLine, Option.bind_some, Option.map_some]
  congr 1
  funext k
  cases k <;> simp [h.fields]
  simp [hc, valueOf]

theorem Row.Shows.components (h : r.Shows c) (hc : Coherent c extra total) :
    r.components extra total = some c := by
  have hall : Field.all.all (fun k => acceptable (valueOf (c.fields k))) = true := by
    refine all_eq_true.mpr fun k _ => ?_
    cases hv : c.fields k with
    | none => rfl
    | some v => exact acceptable_ofCents (hc.nonneg k v hv)
  have hfields : (fun k => if valueOf (c.fields k) = .null then none else cents (valueOf (c.fields k))) =
      c.fields := by
    funext k
    cases hv : c.fields k with
    | none => rfl
    | some v => simp [valueOf]
  rw [Row.components, h.normalized hc.whole, Option.bind_some, if_pos hall, h.breakdown, Option.map_some, hfields]

theorem Row.Shows.partitionCombined_eq (h : r.Shows c) (hc : Coherent c extra total)
    (hv : cents v = some a) (ha : 0 < a) (hle : a ≤ total) :
    partitionCombined r v extra = some (r.write (c.left a total), r.write (c.right a total)) := by
  have hguard : ¬ (total ≤ 0 ∨ a ≤ 0 ∨ total < a) := by omega
  unfold partitionCombined
  rw [h.lineTotal hc.whole, hv]
  simp only
  rw [if_neg hguard, h.components hc, Option.bind_some, if_pos hc.fits]

/-! ### The components of a charge -/

theorem get_of_perLine_null (h : r.perLine extra k = some .null) : r.get k = .null := by
  unfold Row.perLine at h
  split at h
  · obtain ⟨unit, -, h⟩ := Option.bind_eq_some_iff.mp h
    obtain ⟨quantity, -, h⟩ := Option.map_eq_some_iff.mp h
    cases h
  · exact Option.some.inj h

theorem cents_of_acceptable (h : acceptable v = true) (hv : v ≠ .null) :
    ∃ c, cents v = some c ∧ 0 ≤ c := by
  simp only [acceptable, hv, decide_false, Bool.false_or] at h
  obtain ⟨c, hc, hnonneg⟩ := (Option.any_eq_true _ _).mp h
  exact ⟨c, hc, of_decide_eq_true hnonneg⟩

/-- What is read of a charge. -/
structure Row.Reads (r : Row) (extra : Bool) (total : ℤ) (c : Components) : Prop where
  whole : c.fields .total = some total
  nonneg : ∀ k v, c.fields k = some v → 0 ≤ v
  missing : ∀ k, c.fields k = none → r.get k = .null
  amount : r.has .amount = true → (r.perLine extra .amount).bind cents = c.fields .amount
  entered : r.has .enteredAmount = true → (r.perLine extra .enteredAmount).bind cents = c.fields .enteredAmount
  field : ∀ k, k ≠ .total → k ≠ .amount → k ≠ .enteredAmount → r.has k = true → cents (r.get k) = c.fields k
  breakdown : r.breakdown.read = some c.taxes

theorem component_cases (h : acceptable v = true) :
    v = .null ∧ (if v = .null then none else cents v) = none ∨
      v ≠ .null ∧ ∃ c, cents v = some c ∧ (if v = .null then none else cents v) = some c ∧ 0 ≤ c := by
  by_cases hv : v = .null
  · exact .inl ⟨hv, if_pos hv⟩
  · obtain ⟨c, hc, hnonneg⟩ := cents_of_acceptable h hv
    exact .inr ⟨hv, c, hc, by rw [if_neg hv, hc], hnonneg⟩

theorem reads_of_components (h : r.components extra total = some c) : r.Reads extra total c := by
  obtain ⟨N, hN, h⟩ := Option.bind_eq_some_iff.mp h
  obtain ⟨net, hnet, hN⟩ := Option.bind_eq_some_iff.mp hN
  obtain ⟨entered, hentered, hN⟩ := Option.map_eq_some_iff.mp hN
  split at h
  · rename_i hall
    obtain ⟨taxes, htaxes, rfl⟩ := Option.map_eq_some_iff.mp h
    have hacc : ∀ k, acceptable (N k) = true := by
      intro k
      exact all_eq_true.mp hall k (by cases k <;> decide)
    have hgiven : ∀ k, N k ≠ .null → cents (N k) = if N k = .null then none else cents (N k) := by
      intro k hk
      rw [if_neg hk]
    have hnull : ∀ k, N k = .null → r.get k = .null := by
      intro k hk
      rw [← hN] at hk
      cases k with
      | total => exact absurd hk (ofCents_ne_null total)
      | amount =>
        have hzero : net = .null := hk
        exact get_of_perLine_null (hzero ▸ hnet)
      | enteredAmount =>
        have hzero : entered = .null := hk
        exact get_of_perLine_null (hzero ▸ hentered)
      | _ => exact hk
    have hpresent : ∀ k, r.has k = true → N k ≠ .null := by
      intro k hk hnone
      simp [Row.has, hnull k hnone] at hk
    refine ⟨?_, fun k v hv => ?_, fun k hk => ?_, fun hk => ?_, fun hk => ?_, fun k ht ha he hk => ?_, htaxes⟩
    · rw [← hN]
      simp
    · change (if N k = .null then none else cents (N k)) = some v at hv
      rcases component_cases (hacc k) with ⟨-, hnone⟩ | ⟨-, c, -, hsome, hnonneg⟩
      · rw [hnone] at hv
        cases hv
      · rw [hsome] at hv
        cases hv
        exact hnonneg
    · change (if N k = .null then none else cents (N k)) = none at hk
      rcases component_cases (hacc k) with ⟨hk', -⟩ | ⟨-, c, -, hsome, -⟩
      · exact hnull k hk'
      · rw [hsome] at hk
        cases hk
    · rw [hnet, Option.bind_some]
      refine Eq.trans ?_ (hgiven .amount (hpresent _ hk))
      rw [← hN]
    · rw [hentered, Option.bind_some]
      refine Eq.trans ?_ (hgiven .enteredAmount (hpresent _ hk))
      rw [← hN]
    · refine Eq.trans ?_ (hgiven k (hpresent k hk))
      rw [← hN]
      cases k <;> first | exact absurd rfl ht | exact absurd rfl ha | exact absurd rfl he | rfl
  · cases h

theorem isSome_partOf (k : Field) :
    ((c.partOf pick tax).fields k).isSome = (c.fields k).isSome := by
  by_cases hvat : k = .vatAmount
  · subst hvat
    rw [vatAmount_partOf]
    split
    · rename_i hfollows
      unfold Components.vatFollows at hfollows
      split at hfollows
      · rename_i hv hx
        rw [hv, hx]
        rfl
      · cases hfollows
    · rw [Option.isSome_map]
  · cases hknown : c.netKnown with
    | false => rw [fields_partOf_of_unknown hknown hvat, Option.isSome_map]
    | true =>
      have hsome := Bool.and_eq_true_iff.mp hknown
      cases k <;> simp [Components.partOf, hknown, hsome.1] at hvat ⊢

theorem read_components (d : Dict String ℕ) :
    (Breakdown.components (d.mapValues fun _ v => ofCents v)).read = some (some d) := by
  have hall : (d.mapValues fun _ (v : ℕ) => ofCents v).entries.all (fun e => e.2 ≠ .null && acceptable e.2) = true := by
    refine all_eq_true.mpr fun e he => ?_
    obtain ⟨x, -, rfl⟩ := mem_map.mp he
    simp [acceptable_ofCents (Int.natCast_nonneg x.2)]
  rw [Breakdown.read, if_pos hall, Dict.mapValues_mapValues, Dict.mapValues_eq_self]
  intro e _
  simp

theorem Row.Reads.shows_write (h : r.Reads extra total c) :
    (r.write (c.partOf pick tax)).Shows (c.partOf pick tax) := by
  refine ⟨fun k => ?_, rfl, ?_⟩
  · cases hk : (c.partOf pick tax).fields k with
    | some v => simp [Row.write, Row.get, hk, valueOf]
    | none =>
      have hmissing : c.fields k = none := by
        have hsome : ((c.partOf pick tax).fields k).isSome = (c.fields k).isSome := isSome_partOf k
        rw [hk] at hsome
        exact Option.isNone_iff_eq_none.mp (by simpa using hsome.symm)
      have hnull := h.missing k hmissing
      simp only [Row.write, Row.get, hk, valueOf, Option.map_none, Option.none_or, Option.getD_none]
      exact hnull
  · cases hd : c.taxes with
    | some d => simp [Row.write, Components.partOf, hd, read_components]
    | none =>
      have hread := h.breakdown
      rw [hd] at hread
      simpa [Row.write, Components.partOf, hd] using hread

/-- What a partition returns when `tax_amount` is the whole tax. -/
theorem partitionCombined_cases {l ρ : Row} (h : partitionCombined r v extra = some (l, ρ)) :
    ∃ total a c, r.lineTotal = some total ∧ cents v = some a ∧ 0 < a ∧ a ≤ total ∧ r.Reads extra total c ∧
      Coherent c extra total ∧ l = r.write (c.left a total) ∧ ρ = r.write (c.right a total) := by
  unfold partitionCombined at h
  split at h
  · rename_i total a htotal ha
    split at h
    · cases h
    · rename_i hguard
      obtain ⟨c, hc, h⟩ := Option.bind_eq_some_iff.mp h
      split at h
      · rename_i hfits
        have hreads := reads_of_components hc
        cases h
        exact ⟨total, a, c, htotal, ha, by omega, by omega, hreads,
          coherent_of_fits hfits hreads.whole hreads.nonneg, rfl, rfl⟩
      · cases h
  · cases h

/-! ### VAT beside the tax -/

theorem components_of_read {b : Breakdown} {d' : Dict String ℕ} (h : b.read = some (some d')) :
    ∃ d, b = .components d ∧ d' = d.mapValues (fun _ v => ((cents v).getD 0).toNat) ∧
      ∀ e ∈ d.entries, e.2 ≠ .null ∧ cents e.2 = some ((((cents e.2).getD 0).toNat : ℕ) : ℤ) := by
  cases b with
  | none => cases h
  | other => cases h
  | components d =>
    simp only [Breakdown.read] at h
    split at h
    · rename_i hall
      refine ⟨d, rfl, (Option.some.inj (Option.some.inj h)).symm, fun e he => ?_⟩
      have hacc := all_eq_true.mp hall e he
      rw [Bool.and_eq_true, decide_eq_true_eq] at hacc
      obtain ⟨c, hc, hnonneg⟩ := cents_of_acceptable hacc.2 hacc.1
      refine ⟨hacc.1, ?_⟩
      rw [hc, Option.getD_some, Int.toNat_of_nonneg hnonneg]
    · cases h

theorem get?_of_read
    (h : ∀ e ∈ d.entries, e.2 ≠ .null ∧ cents e.2 = some ((((cents e.2).getD 0).toNat : ℕ) : ℤ))
    (key : String) : (d.get? key).bind cents =
      ((d.mapValues fun _ v => ((cents v).getD 0).toNat).get? key).map fun n : ℕ => (n : ℤ) := by
  rw [Dict.get?_mapValues]
  cases hv : d.get? key with
  | none => rfl
  | some v => exact (h (key, v) (Dict.get?_eq_some.mp hv)).2

theorem sum_of_read
    (h : ∀ e ∈ d.entries, e.2 ≠ .null ∧ cents e.2 = some ((((cents e.2).getD 0).toNat : ℕ) : ℤ)) :
    (d.entries.map fun e => (cents e.2).getD 0).sum =
      Components.taxTotal (d.mapValues fun _ v => ((cents v).getD 0).toNat) := by
  rw [Components.taxTotal, Apportion.total, Nat.cast_list_sum, Dict.mapValues, map_map, map_map]
  refine congrArg List.sum (map_congr_left fun e he => ?_)
  rw [(h e he).2]
  simp

theorem separateVat_eq {d : Dict String ℕ} (hread : r.breakdown.read = some (some d))
    (hvat : r.has .vatAmount = true) (htax : r.has .taxAmount = true) {v : ℤ}
    (hv : cents (r.get .vatAmount) = some v) (ht : cents (r.get .taxAmount) = some t) :
    r.separateVat = some (if v ≠ 0 ∧ (d.get? "vat").map (fun n : ℕ => (n : ℤ)) = some v then
      if t + v = Components.taxTotal d then some (Components.taxTotal d) else none else none) := by
  obtain ⟨x, hx, rfl, hall⟩ := components_of_read hread
  have hreadable : (x.entries.all fun e => e.2 ≠ .null && (cents e.2).isSome) = true := by
    refine all_eq_true.mpr fun e he => ?_
    have he' := hall e he
    rw [he'.2]
    simpa using he'.1
  rw [Row.separateVat, hx]
  simp only [hvat, htax, Bool.and_self, if_true, if_pos hreadable, hv, ht, Option.bind_some, sum_of_read hall,
    get?_of_read hall, Option.map_some]
  split <;> rfl

/-- A row whose `tax_amount` is the whole tax is taken as it is. -/
theorem Row.Shows.separateVat (h : r.Shows c) (hc : Coherent c extra total) : r.separateVat = some none := by
  cases hd : c.taxes with
  | none =>
    have hread := h.breakdown
    rw [hd] at hread
    unfold Row.separateVat
    split
    · rename_i d hcomp
      rw [hcomp, Breakdown.read] at hread
      split at hread <;> cases hread
    · rfl
  | some d =>
    have hread := h.breakdown
    rw [hd] at hread
    have htax := hc.taxes d hd
    cases hv : c.fields .vatAmount with
    | none =>
      have hhas : r.has .vatAmount = false := by rw [h.has, hv]; rfl
      unfold Row.separateVat
      split
      · simp [hhas]
      · rfl
    | some v =>
      rw [separateVat_eq hread (by rw [h.has, hv]; rfl) (by rw [h.has, htax]; rfl) (h.cents_get hv) (h.cents_get htax)]
      split
      · rename_i hcond
        rw [if_neg]
        omega
      · rfl

/-! ### Lines -/

def Row.line (r : Row) (extra : Bool) (k : Field) : Option ℤ :=
  match k with
  | .amount | .enteredAmount => (r.perLine extra k).bind cents
  | k => cents (r.get k)

def Row.vatBeside (r : Row) : Bool := r.separateVat.any Option.isSome

/-- Net and taxes of a line. -/
def Row.gross (r : Row) (vatBeside : Bool) : Option ℤ :=
  (r.line false .amount).bind fun net => (r.line false .taxAmount).bind fun tax =>
    if vatBeside then (r.line false .vatAmount).map fun vat => net + tax + vat else some (net + tax)

/-- The parts of a money field are nonnegative and come to that of the charge. -/
def Adds (r left right : Row) (extra : Bool) (k : Field) : Prop :=
  ∃ c l ρ, r.line extra k = some c ∧ (∀ e, left.line e k = some l) ∧ (∀ e, right.line e k = some ρ) ∧
    l + ρ = c ∧ 0 ≤ l ∧ 0 ≤ ρ

/-- The parts of each line of the tax breakdown are nonnegative and come to it. -/
def TaxesAdd (b left right : Breakdown) : Prop :=
  ∀ d, b = .components d → ∃ dl dr, left = .components dl ∧ right = .components dr ∧
    dl.entries.map Prod.fst = d.entries.map Prod.fst ∧ dr.entries.map Prod.fst = d.entries.map Prod.fst ∧
      ∀ key v, d.get? key = some v → ∃ c l ρ, cents v = some c ∧ (dl.get? key).bind cents = some l ∧
        (dr.get? key).bind cents = some ρ ∧ l + ρ = c ∧ 0 ≤ l ∧ 0 ≤ ρ

/-- The partition of a charge, `a` of which is moved: the parts come to the charge, their net and
taxes to their totals, and each is partitioned again. -/
structure Exact (r : Row) (extra : Bool) (a : ℤ) (left right : Row) : Prop where
  total : ∃ t, r.lineTotal = some t ∧ left.lineTotal = some (t - a) ∧ right.lineTotal = some a
  components : ∀ k, r.has k = true → Adds r left right extra k
  taxes : TaxesAdd r.breakdown left.breakdown right.breakdown
  net : r.has .amount = true → r.has .taxAmount = true →
    left.gross r.vatBeside = left.lineTotal ∧ right.gross r.vatBeside = right.lineTotal
  closed : ∀ p ∈ [left, right], ∀ e, (e = true → extra = true) → ∀ v b t, cents v = some b → 0 < b →
    p.lineTotal = some t → b ≤ t → (partition p v e).isSome = true

theorem Row.Shows.line (h : r.Shows c) {v : ℤ} (hv : c.fields k = some v) (e : Bool) :
    r.line e k = some v := by
  have hper : (r.perLine e k).bind cents = some v := by
    rw [h.perLine, hv]
    exact cents_ofCents v
  cases k <;> first | exact hper | exact h.cents_get hv

theorem Row.Reads.line (h : r.Reads extra total c) (htotal : r.lineTotal = some total)
    (hk : r.has k = true) : ∃ v, c.fields k = some v ∧ r.line extra k = some v := by
  have hsome : ∃ v, c.fields k = some v := by
    cases hv : c.fields k with
    | some v => exact ⟨v, rfl⟩
    | none => simp [Row.has, h.missing k hv] at hk
  obtain ⟨v, hv⟩ := hsome
  refine ⟨v, hv, ?_⟩
  cases k with
  | total =>
    rw [Row.lineTotal, if_pos hk] at htotal
    rw [h.whole] at hv
    exact htotal.trans hv
  | amount => exact (h.amount hk).trans hv
  | enteredAmount => exact (h.entered hk).trans hv
  | _ => exact (h.field _ (by decide) (by decide) (by decide) hk).trans hv

theorem taxesAdd_write (h : r.Reads extra total c) (hc : Coherent c extra total) (ha : 0 ≤ a)
    (hle : a ≤ total) (ht : 0 < total) :
    TaxesAdd r.breakdown (r.write (c.left a total)).breakdown (r.write (c.right a total)).breakdown := by
  intro d hd
  cases htaxes : c.taxes with
  | none =>
    have hread := h.breakdown
    rw [hd, htaxes] at hread
    simp only [Breakdown.read] at hread
    split at hread <;> cases hread
  | some d' =>
    have hread := h.breakdown
    rw [htaxes] at hread
    obtain ⟨x, hx, hd', hall⟩ := components_of_read hread
    cases hd.symm.trans hx
    refine ⟨_, _, by simp [Row.write, Components.left, Components.partOf, htaxes]; rfl,
      by simp [Row.write, Components.right, Components.partOf, htaxes]; rfl, ?_, ?_, fun key v hv => ?_⟩
    · rw [Dict.map_fst_mapValues, Dict.map_fst_mapValues, hd', Dict.map_fst_mapValues]
    · rw [Dict.map_fst_mapValues, Dict.map_fst_mapValues, hd', Dict.map_fst_mapValues]
    · have hcents : cents v = some ((((cents v).getD 0).toNat : ℕ) : ℤ) := (hall (key, v) (Dict.get?_eq_some.mp hv)).2
      have hget : d'.get? key = some ((cents v).getD 0).toNat := by rw [hd', Dict.get?_mapValues, hv]; rfl
      have hshare := hc.taxShare_le ha hle ht htaxes hget
      refine ⟨_, ((((cents v).getD 0).toNat - c.taxShare a total key ((cents v).getD 0).toNat : ℕ) : ℤ),
        (c.taxShare a total key ((cents v).getD 0).toNat : ℤ), hcents, ?_, ?_, ?_, Int.natCast_nonneg _,
        Int.natCast_nonneg _⟩
      · rw [Dict.get?_mapValues, Dict.get?_mapValues, hget, Option.map_some, Option.map_some, Option.bind_some,
          cents_ofCents]
      · rw [Dict.get?_mapValues, Dict.get?_mapValues, hget, Option.map_some, Option.map_some, Option.bind_some,
          cents_ofCents]
      · omega

theorem Row.Shows.gross (h : r.Shows c) (hc : Coherent c extra total) (hamount : (c.fields .amount).isSome = true)
    (htax : (c.fields .taxAmount).isSome = true) : r.gross false = r.lineTotal := by
  obtain ⟨n, hn⟩ := Option.isSome_iff_exists.mp hamount
  obtain ⟨t, ht⟩ := Option.isSome_iff_exists.mp htax
  rw [Row.gross, h.line hn, h.line ht, h.lineTotal hc.whole]
  simp [hc.net n t hn ht]

theorem Coherent.mono (hc : Coherent c extra total) {e : Bool} (he : e = true → extra = true) : Coherent c e total :=
  { hc with gross := fun h => hc.gross (he h) }

theorem Row.Shows.isSome_partition (h : r.Shows c) (hc : Coherent c extra total)
    (hv : cents v = some b) (hb : 0 < b) (ht : r.lineTotal = some t) (hle : b ≤ t) :
    (partition r v extra).isSome = true := by
  rw [h.lineTotal hc.whole] at ht
  cases ht
  simp only [partition, h.separateVat hc, h.partitionCombined_eq hc hv hb hle, Option.isSome_some]

theorem Row.Reads.add_parts (h : r.Reads extra total c) (htotal : r.lineTotal = some total)
    (hc : Coherent c extra total) (ha : 0 ≤ a) (hle : a ≤ total) (ht : 0 < total)
    (hk : r.has k = true) :
    Adds r (r.write (c.left a total)) (r.write (c.right a total)) extra k := by
  obtain ⟨v, hv, hline⟩ := h.line htotal hk
  obtain ⟨l, ρ, hl, hρ, hsum⟩ := hc.add_parts ha hle ht hv
  exact ⟨v, l, ρ, hline, h.shows_write.line hl, h.shows_write.line hρ, hsum, (hc.left ha hle ht).nonneg k l hl,
    (hc.right ha hle ht).nonneg k ρ hρ⟩

/-- The partition of a row whose `tax_amount` is the whole tax. -/
theorem exact_of_combined (h : r.Reads extra total c) (htotal : r.lineTotal = some total)
    (hc : Coherent c extra total) (hvat : r.vatBeside = false) (ha : 0 < a) (hle : a ≤ total) :
    Exact r extra a (r.write (c.left a total)) (r.write (c.right a total)) := by
  have ht : 0 < total := by omega
  have hleft := hc.left ha.le hle ht
  have hright := hc.right ha.le hle ht
  refine ⟨⟨total, htotal, h.shows_write.lineTotal hleft.whole, h.shows_write.lineTotal hright.whole⟩,
    fun k hk => h.add_parts htotal hc ha.le hle ht hk, taxesAdd_write h hc ha.le hle ht,
    fun hamount htax => ?_, fun p hp e he v b t hv hb hpt hbt => ?_⟩
  · obtain ⟨n, hn, -⟩ := h.line htotal hamount
    obtain ⟨t, htx, -⟩ := h.line htotal htax
    rw [hvat]
    constructor
    · refine h.shows_write.gross hleft ?_ ?_
      · exact (isSome_partOf _).trans (by rw [hn]; rfl)
      · exact (isSome_partOf _).trans (by rw [htx]; rfl)
    · refine h.shows_write.gross hright ?_ ?_
      · exact (isSome_partOf _).trans (by rw [hn]; rfl)
      · exact (isSome_partOf _).trans (by rw [htx]; rfl)
  · rcases mem_cons.mp hp with rfl | hp
    · exact h.shows_write.isSome_partition (hleft.mono he) hv hb hpt hbt
    · rw [mem_singleton.mp hp] at hpt ⊢
      exact h.shows_write.isSome_partition (hright.mono he) hv hb hpt hbt

/-! ### Rows with VAT beside the tax -/

theorem get_set (r : Row) (k k' : Field) (x : ℤ) :
    (r.set k x).get k' = if k' = k then ofCents x else r.get k' := by
  unfold Row.set Row.get
  split <;> simp_all

theorem has_set (h : r.has k = true) (x : ℤ) (k' : Field) : (r.set k x).has k' = r.has k' := by
  by_cases hk : k' = k
  · subst hk
    rw [h, Row.has, get_set, if_pos rfl]
    simp
  · rw [Row.has, get_set, if_neg hk, Row.has]

theorem set_set (r : Row) (k : Field) (x y : ℤ) : (r.set k x).set k y = r.set k y := by
  simp only [Row.set]
  congr 1
  funext k'
  split <;> rfl

theorem Row.Shows.set_eq_self (h : r.Shows c) {v : ℤ} (hv : c.fields k = some v) :
    r.set k v = r := by
  have hfield : r.fields k = some (ofCents v) := by
    have hget := h.fields k
    rw [hv] at hget
    unfold Row.get at hget
    cases hf : r.fields k with
    | some x =>
      rw [hf] at hget
      exact congrArg some hget
    | none =>
      rw [hf] at hget
      exact absurd hget.symm (ofCents_ne_null v)
  have hfields : (fun k' => if k' = k then some (ofCents v) else r.fields k') = r.fields := by
    funext k'
    split
    · rename_i hk
      rw [hk, hfield]
    · rfl
  rw [Row.set, hfields]

theorem line_set_of_ne {k' : Field} (h : k' ≠ k) (x : ℤ) (e : Bool) :
    (r.set k x).line e k' = r.line e k' := by
  have hget : (r.set k x).get k' = r.get k' := by rw [get_set, if_neg h]
  have hper : (r.set k x).perLine e k' = r.perLine e k' := by
    unfold Row.perLine Row.has
    rw [hget]
    rfl
  cases k' <;> simp only [Row.line, hper, hget]

theorem lineTotal_set_tax (r : Row) (x : ℤ) : (r.set .taxAmount x).lineTotal = r.lineTotal := by
  have hget : ∀ k, k ≠ .taxAmount → (r.set .taxAmount x).get k = r.get k := by
    intro k hk
    rw [get_set, if_neg hk]
  unfold Row.lineTotal Row.has
  rw [hget .total (by decide), hget .chargeAmount (by decide), hget .amount (by decide)]

theorem Coherent.vat (hc : Coherent c extra total) (hf : c.vatFollows = true) :
    ∃ (d : Dict String ℕ) (n : ℕ) (t : ℤ), c.taxes = some d ∧ d.get? "vat" = some n ∧
      c.fields .vatAmount = some (n : ℤ) ∧ c.fields .taxAmount = some t ∧ t = Components.taxTotal d ∧ n ≤ t := by
  unfold Components.vatFollows at hf
  cases hv : c.fields .vatAmount with
  | none => simp [hv] at hf
  | some v =>
    cases hd : c.taxes with
    | none => simp [hv, hd] at hf
    | some d =>
      cases hn : d.get? "vat" with
      | none => simp [hv, hd, hn] at hf
      | some n =>
        have heq : v = n := by simpa [hv, hd, hn] using hf
        have hle := Apportion.weight_le_total (Dict.get?_eq_some.mp hn)
        exact ⟨d, n, _, rfl, hn, by rw [heq], hc.taxes d hd, rfl, Int.ofNat_le.mpr hle⟩

theorem vatFollows_partOf (h : c.vatFollows = true) : (c.partOf pick tax).vatFollows = true := by
  have hvat : (c.partOf pick tax).fields .vatAmount =
      ((c.taxes.bind (·.get? "vat")).map (tax "vat")).map fun v : ℕ => (v : ℤ) := by
    rw [vatAmount_partOf, if_pos h]
  unfold Components.vatFollows at h ⊢
  rw [hvat]
  cases hd : c.taxes with
  | none => simp [hd] at h
  | some d =>
    cases hn : d.get? "vat" with
    | none =>
      rw [hd, Option.bind_some, hn] at h
      cases hv : c.fields .vatAmount <;> simp [hv] at h
    | some n => simp [Components.partOf, hd, hn, Dict.get?_mapValues]

theorem Row.Shows.withoutVat_eq (h : r.Shows c) {n : ℤ} (hn : c.fields .vatAmount = some n)
    (ht : c.fields .taxAmount = some t) : r.withoutVat = r.set .taxAmount (t - n) := by
  rw [Row.withoutVat, h.cents_get hn, h.cents_get ht]
  rfl

/-- Such a part is partitioned as the row with the whole tax. -/
theorem Row.Shows.isSome_partition_withoutVat (h : r.Shows c) (hc : Coherent c extra total)
    (hf : c.vatFollows = true) (hv : cents v = some b) (hb : 0 < b)
    (ht : r.withoutVat.lineTotal = some t) (hle : b ≤ t) :
    (partition r.withoutVat v extra).isSome = true := by
  obtain ⟨d, n, tax, hd, hn, hvat, htax, hsum, -⟩ := hc.vat hf
  have hwithout := h.withoutVat_eq hvat htax
  rw [hwithout, lineTotal_set_tax, h.lineTotal hc.whole] at ht
  cases ht
  have hcombined := h.partitionCombined_eq hc hv hb hle
  have hhas : r.has .taxAmount = true := by rw [h.has, htax]; rfl
  have hread : (r.set .taxAmount (tax - n)).breakdown.read = some (some d) := by rw [← hd]; exact h.breakdown
  have hseparate := separateVat_eq (v := n) (t := tax - n) hread
    (by rw [has_set hhas, h.has, hvat]; rfl) (by rw [has_set hhas, hhas])
    (by rw [get_set, if_neg (by decide), h.cents_get hvat]) (by rw [get_set, if_pos rfl, cents_ofCents])
  rw [hwithout]
  simp only [partition, hseparate, hn, Option.map_some]
  by_cases hzero : (n : ℤ) = 0
  · have hsame : r.set .taxAmount (tax - n) = r := by rw [hzero, sub_zero, h.set_eq_self htax]
    rw [if_neg (by simp [hzero])]
    simp only [hsame, hcombined, Option.isSome_some]
  · have hwhole : tax - n + n = Components.taxTotal d := by rw [← hsum]; ring
    have hback : (r.set .taxAmount (tax - n)).set .taxAmount (Components.taxTotal d) = r := by
      rw [set_set, ← hsum, h.set_eq_self htax]
    rw [if_pos ⟨hzero, trivial⟩, if_pos hwhole]
    simp only [hback, hcombined, Option.map_some, Option.isSome_some]

theorem separateVat_cases (h : r.separateVat = some (some whole)) :
    ∃ d vat tax, r.breakdown = .components d ∧ r.has .vatAmount = true ∧ r.has .taxAmount = true ∧
      cents (r.get .vatAmount) = some vat ∧ cents (r.get .taxAmount) = some tax ∧
        (d.get? "vat").bind cents = some vat ∧ tax + vat = whole := by
  unfold Row.separateVat at h
  split at h
  · rename_i d hd
    split at h
    · rename_i hhas
      split at h
      · obtain ⟨vat, hvat, h⟩ := Option.bind_eq_some_iff.mp h
        split at h
        · rename_i hcond
          obtain ⟨tax, htax, h⟩ := Option.map_eq_some_iff.mp h
          split at h
          · rename_i hwhole
            cases h
            obtain ⟨hv, ht⟩ := Bool.and_eq_true_iff.mp hhas
            exact ⟨d, vat, tax, hd, hv, ht, hvat, htax, hcond.2, hwhole⟩
          · cases h
        · cases h
      · cases h
    · cases h
  · cases h

theorem Row.Shows.gross_withoutVat (h : r.Shows c) (hc : Coherent c extra total) (hf : c.vatFollows = true)
    (hamount : (c.fields .amount).isSome = true) : r.withoutVat.gross true = r.withoutVat.lineTotal := by
  obtain ⟨d, n, tax, -, -, hvat, htax, -, -⟩ := hc.vat hf
  obtain ⟨net, hnet⟩ := Option.isSome_iff_exists.mp hamount
  have hline : (r.set .taxAmount (tax - n)).line false .taxAmount = some (tax - n) := by
    show cents ((r.set .taxAmount (tax - n)).get .taxAmount) = _
    rw [get_set, if_pos rfl, cents_ofCents]
  rw [h.withoutVat_eq hvat htax, Row.gross, lineTotal_set_tax, line_set_of_ne (by decide), h.line hnet, hline,
    line_set_of_ne (by decide), h.line hvat, h.lineTotal hc.whole]
  have hsum := hc.net net tax hnet htax
  simp only [Option.bind_some, if_true, Option.map_some, Option.some.injEq]
  omega

theorem exact_of_separate (hsep : r.separateVat = some (some whole))
    (h : (r.set .taxAmount whole).Reads extra total c)
    (htotal : (r.set .taxAmount whole).lineTotal = some total) (hc : Coherent c extra total)
    (ha : 0 < a) (hle : a ≤ total) :
    Exact r extra a ((r.set .taxAmount whole).write (c.left a total)).withoutVat
      ((r.set .taxAmount whole).write (c.right a total)).withoutVat := by
  have ht : 0 < total := by omega
  have hleft := hc.left ha.le hle ht
  have hright := hc.right ha.le hle ht
  obtain ⟨d, vat, tax, hd, hhasVat, hhasTax, hcentsVat, hcentsTax, hget, hwhole⟩ := separateVat_cases hsep
  have hbeside : r.vatBeside = true := by rw [Row.vatBeside, hsep]; rfl
  have hhas := has_set hhasTax whole
  -- the combined row has the VAT of its breakdown
  have hvat : c.fields .vatAmount = some vat := by
    rw [← h.field .vatAmount (by decide) (by decide) (by decide) (by rw [hhas]; exact hhasVat), get_set,
      if_neg (by decide), hcentsVat]
  have hf : c.vatFollows = true := by
    have hread := h.breakdown
    have hb : (r.set .taxAmount whole).breakdown = .components d := hd
    cases htaxes : c.taxes with
    | none =>
      rw [hb, htaxes] at hread
      simp only [Breakdown.read] at hread
      split at hread <;> cases hread
    | some d' =>
      rw [htaxes] at hread
      obtain ⟨x, hx, hd', hall⟩ := components_of_read hread
      cases hb.symm.trans hx
      have hvat' := get?_of_read hall "vat"
      rw [hget, ← hd'] at hvat'
      obtain ⟨n, hn, hcast⟩ := Option.map_eq_some_iff.mp hvat'.symm
      simp [Components.vatFollows, hvat, htaxes, hn, hcast]
  have hfl : (c.left a total).vatFollows = true := vatFollows_partOf hf
  have hfr : (c.right a total).vatFollows = true := vatFollows_partOf hf
  have hshowl : ((r.set .taxAmount whole).write (c.left a total)).Shows (c.left a total) := h.shows_write
  have hshowr : ((r.set .taxAmount whole).write (c.right a total)).Shows (c.right a total) := h.shows_write
  obtain ⟨-, nl, tl, -, -, hvl, htl, -, hlel⟩ := hleft.vat hfl
  obtain ⟨-, nr, tr, -, -, hvr, htr, -, hler⟩ := hright.vat hfr
  have htaxes := taxesAdd_write h hc ha.le hle ht
  refine ⟨⟨total, ?_, ?_, ?_⟩, fun k hk => ?_, htaxes, fun hamount _ => ?_,
    fun p hp e he v b t hv hb hpt hbt => ?_⟩
  · rw [← lineTotal_set_tax r whole, htotal]
  · rw [hshowl.withoutVat_eq hvl htl, lineTotal_set_tax, hshowl.lineTotal hleft.whole]
  · rw [hshowr.withoutVat_eq hvr htr, lineTotal_set_tax, hshowr.lineTotal hright.whole]
  · rw [hshowl.withoutVat_eq hvl htl, hshowr.withoutVat_eq hvr htr]
    by_cases htax : k = .taxAmount
    · subst htax
      have hwholeTax : c.fields .taxAmount = some whole := by
        rw [← h.field .taxAmount (by decide) (by decide) (by decide) (by rw [hhas]; exact hhasTax), get_set,
          if_pos rfl, cents_ofCents]
      obtain ⟨l, ρ, hl, hρ, hsum⟩ := hc.add_parts ha.le hle ht hwholeTax
      obtain ⟨l', ρ', hl', hρ', hsum'⟩ := hc.add_parts ha.le hle ht hvat
      cases hl.symm.trans htl
      cases hρ.symm.trans htr
      cases hl'.symm.trans hvl
      cases hρ'.symm.trans hvr
      have hset : ∀ (q : Row) (x : ℤ) (e : Bool), (q.set .taxAmount x).line e .taxAmount = some x := by
        intro q x e
        show cents ((q.set .taxAmount x).get .taxAmount) = some x
        rw [get_set, if_pos rfl, cents_ofCents]
      exact ⟨tax, _, _, hcentsTax, hset _ _, hset _ _, by omega, by omega, by omega⟩
    · obtain ⟨x, l, ρ, hx, hl, hρ, hadd⟩ := h.add_parts htotal hc ha.le hle ht (by rw [hhas]; exact hk)
      rw [line_set_of_ne htax] at hx
      exact ⟨x, l, ρ, hx, fun e => by rw [line_set_of_ne htax, hl e], fun e => by rw [line_set_of_ne htax, hρ e], hadd⟩
  · obtain ⟨n, hn, -⟩ := h.line htotal (k := .amount) (by rw [hhas]; exact hamount)
    rw [hbeside]
    constructor
    · exact hshowl.gross_withoutVat hleft hfl ((isSome_partOf _).trans (by rw [hn]; rfl))
    · exact hshowr.gross_withoutVat hright hfr ((isSome_partOf _).trans (by rw [hn]; rfl))
  · rcases mem_cons.mp hp with rfl | hp
    · exact hshowl.isSome_partition_withoutVat (hleft.mono he) hfl hv hb hpt hbt
    · rw [mem_singleton.mp hp] at hpt ⊢
      exact hshowr.isSome_partition_withoutVat (hright.mono he) hfr hv hb hpt hbt

def spaLine : Row where
  fields
    | .total => some (.number 120)
    | .amount => some (.number 100)
    | .vatAmount => some (.number 20)
    | .taxAmount => some (.number 0)
    | _ => none
  breakdown := .components ⟨[("vat", .number 20)], nodup_singleton _⟩

end SyrocePms.Folio.ChargePartition
