import SyrocePms.Folio.Allocation

/-! What an allocation of posted debt does to the ledgers. The two folios together owe what they
owed, and the source keeps a debt unless the last cent that is moved came from rounding. -/

namespace SyrocePms.Folio.Allocation

open Lib List Collection
open Department (Code Payment deduplicateReportPayments rounded)

variable {s s' : Store} {body : Request} {w : Windows} {p : Plan} {l l' : List Charge} {c : Charge}
  {α β : Type} {e : Refusal} {z : α} {source target : ℕ} {ids : List ChargeId} {code folioCode : Code}
variable {f : FolioDoc} {folioId : ℕ} {rows : List Charge} {a : Answer}

/-! ### Steps of a call -/

@[simp] theorem require_eq_ok {b : Bool} {u : Unit} : require b e = .ok u ↔ b = true := by
  cases b <;> simp [require]

@[simp] theorem found_eq_ok {x : Option α} : found x e = .ok z ↔ x = some z := by
  cases x <;> simp [found]

theorem bind_eq_ok {x : Except Refusal β} {f : β → Except Refusal α} :
    (x >>= f) = .ok z ↔ ∃ a, x = .ok a ∧ f a = .ok z := by
  cases x <;> simp [bind, Except.bind]

/-! ### Rounding -/

@[simp] theorem rounded_intCast (n : ℤ) : rounded (n : ℚ) = n := by
  have hfloor : ∀ m : ℤ, Decimal.halfUp (m : ℚ) = m := by
    intro m
    rw [Decimal.halfUp, Int.floor_eq_iff]
    constructor <;> linarith
  unfold rounded
  split
  · exact hfloor n
  · have h := hfloor (-n)
    push_cast at h
    rw [h, neg_neg]

theorem rounded_le (q : ℚ) : (rounded q : ℚ) ≤ q + 1 / 2 := by
  unfold rounded Decimal.halfUp
  split
  · exact Int.floor_le _
  · have h := Int.lt_floor_add_one (-q + 1 / 2)
    push_cast
    linarith

/-- Nothing above the debt passes as within the rounded debt, but the rounded debt itself. -/
theorem exceeds_iff {q : ℚ} {n : ℤ} (h : n ≤ rounded q) : 0 ≤ q - n ↔ ¬(q < n ∧ n = rounded q) := by
  have hle := rounded_le q
  constructor
  · rintro hq ⟨hlt, -⟩
    linarith
  · intro hnot
    by_contra hneg
    have hlt : q < n := by linarith
    refine hnot ⟨hlt, le_antisymm h ?_⟩
    have hcast : (rounded q : ℚ) < n + 1 := by linarith
    exact Int.lt_add_one_iff.mp (by exact_mod_cast hcast)

/-! ### The balance that is read -/

namespace Store

theorem before_eq {ids : List ℕ} {currency : Code} :
    s.before ids f currency = rounded (s.owed ids f currency currency) := by
  unfold before balanceByCurrency
  split
  · rfl
  · rename_i hcode
    simp only [folioCodes, mem_append, not_or, mem_map, not_exists, not_and] at hcode
    obtain ⟨⟨hcharges, hpayments⟩, hopening⟩ := hcode
    have h₁ : s.chargesIn f.id (s.folioCode f currency) currency = 0 := by
      refine Documents.sumOf_eq_zero fun c hc => ?_
      by_cases hposted : c.isPosted f.id = true
      · simp [hposted, hcharges c (mem_filter.mpr ⟨hc, hposted⟩)]
      · simp [hposted]
    have h₂ : s.paymentsIn ids f.id (s.folioCode f currency) currency = 0 := by
      refine Documents.sumOf_eq_zero fun x hx => ?_
      by_cases hfolio : x.folioId = some f.id
      · simp [hfolio, hpayments x (mem_filter.mpr ⟨hx, by simpa using hfolio⟩)]
      · simp [hfolio]
    have h₃ : f.openingIn (s.folioCode f currency) currency = 0 := by
      unfold FolioDoc.openingIn
      split
      · rename_i hcode
        by_contra hne
        simp [hne, hcode] at hopening
      · rfl
    have hzero : rounded (0 : ℚ) = 0 := by exact_mod_cast rounded_intCast 0
    rw [owed, h₁, h₂, h₃, sub_zero, add_zero, hzero]
    rfl

end Store

/-! ### What has been checked -/

theorem mem_of_selectBookingFolio {bookingId : ℕ}
    (h : s.selectBookingFolio bookingId folioId = .ok f) :
    s.folios.get? folioId = some f ∧ f.id = folioId ∧ f.bookingId = bookingId ∧ f.isOpen = true := by
  simp only [Store.selectBookingFolio, bind_eq_ok, found_eq_ok, require_eq_ok, exists_const] at h
  obtain ⟨g, hfind, hopen, hg⟩ := h
  cases hg
  obtain ⟨hmem, hkey⟩ := mem_of_findOne hfind
  simp only [Bool.and_eq_true, decide_eq_true_eq] at hkey
  exact ⟨get?_eq_some.mpr ⟨hmem, hkey.2⟩, hkey.2, hkey.1, hopen⟩

theorem FolioDoc.code_of_known {b : Booking} {fallback : Code}
    (h : b.currency.isSome = true ∨ f.currency.isSome = true) :
    f.code (some b) fallback = f.code (some b) .TRY := by
  unfold FolioDoc.code
  rw [Option.bind_some]
  cases hf : f.currency with
  | some => rfl
  | none =>
    cases hb : b.currency with
    | some => rfl
    | none => simp [hf, hb] at h

/-- The folios that are read, and their currency. -/
structure Windows.Fit (s : Store) (body : Request) (w : Windows) : Prop where
  source_get : s.folios.get? body.sourceFolioId = some w.source
  target_get : s.folios.get? body.targetFolioId = some w.target
  source_id : w.source.id = body.sourceFolioId
  target_id : w.target.id = body.targetFolioId
  source_open : w.source.isOpen = true
  target_open : w.target.isOpen = true
  source_code : ∀ fallback, s.folioCode w.source fallback = w.currency
  target_code : ∀ fallback, s.folioCode w.target fallback = w.currency

theorem fit_of_windows (h : s.windows body = .ok w) : w.Fit s body := by
  simp only [Store.windows, bind_eq_ok, found_eq_ok, require_eq_ok, exists_const, decide_eq_true_eq,
    Bool.or_eq_true, Bool.and_eq_true] at h
  obtain ⟨b, hb, f, hf, g, hg, hknown, hcode, -, -, day, -, hw⟩ := h
  cases hw
  obtain ⟨hget, hid, hbooking, hopen⟩ := mem_of_selectBookingFolio hf
  obtain ⟨hget', hid', hbooking', hopen'⟩ := mem_of_selectBookingFolio hg
  refine ⟨hget, hget', hid, hid', hopen, hopen', fun fallback => ?_, fun fallback => ?_⟩
  · rw [Store.folioCode, hbooking, hb]
    exact FolioDoc.code_of_known (hknown.imp id And.left)
  · rw [Store.folioCode, hbooking', hb]
    exact (FolioDoc.code_of_known (hknown.imp id And.right)).trans hcode.symm

/-- What is known of a plan when it is written. -/
structure Plan.Fit (s : Store) (body : Request) (p : Plan) : Prop extends p.toWindows.Fit s body where
  selected_eq : p.selected = s.selected p.source body.share.chargeIds
  movable : ∀ c ∈ p.selected, c.isMovable p.currency = true
  amount_eq : p.amount = body.share.asked
  amount_of : body.share.amountOf p.selected = some p.amount
  amount_le : p.amount ≤ rounded (s.owed body.folioIds p.source p.currency p.currency)
  sourceBefore_eq : p.sourceBefore = rounded (s.owed body.folioIds p.source p.currency p.currency)
  targetBefore_eq : p.targetBefore = rounded (s.owed body.folioIds p.target p.currency p.currency)

theorem asked_of_checks {amount : ℤ}
    (hids : (body.share.chargeIds.all fun i => (rows.map Charge.id).contains (some i)) = true)
    (hrows : ∀ c ∈ rows, c.id.any body.share.chargeIds.contains = true)
    (hamount : body.share.amountOf rows = some amount)
    (hexpected : rows.isEmpty = true ∨ body.share.expectedAmount.map (fun n => (n : ℤ)) = some amount) :
    amount = body.share.asked := by
  have hvalid := body.valid
  cases hshare : body.share with
  | items named expected =>
    rw [hshare] at hids hexpected hvalid
    rcases hexpected with hempty | hexpected
    · rw [List.isEmpty_iff] at hempty
      obtain ⟨i, hi⟩ := List.exists_mem_of_ne_nil named hvalid.1
      have := List.all_eq_true.mp hids i hi
      simp [hempty] at this
    · simpa [Share.expectedAmount, Share.asked, eq_comm] using hexpected
  | amount n =>
    rw [hshare] at hrows hamount
    cases rows with
    | nil => simpa [Share.amountOf, Share.amountField, Share.asked, eq_comm] using hamount
    | cons c rows =>
      have := hrows c mem_cons_self
      cases hc : c.id <;> simp [hc, Share.chargeIds] at this

theorem fit_of_plan (h : s.plan body = .ok p) : p.Fit s body := by
  simp only [Store.plan, bind_eq_ok, found_eq_ok, require_eq_ok, exists_const, Bool.and_eq_true,
    Bool.or_eq_true, decide_eq_true_eq] at h
  obtain ⟨w, hw, -, hids, hmovable, amount, hamount, hexpected, ⟨-, hle⟩, hp⟩ := h
  cases hp
  have hrows : ∀ c ∈ s.selected w.source body.share.chargeIds, c.id.any body.share.chargeIds.contains = true :=
    fun c hc => (mem_filter.mp hc).2
  refine ⟨fit_of_windows hw, rfl, List.all_eq_true.mp hmovable, ?_, hamount, ?_, ?_, ?_⟩
  · exact asked_of_checks hids hrows hamount hexpected
  · exact Store.before_eq ▸ hle
  · exact Store.before_eq
  · exact Store.before_eq

/-! ### Charges that are moved -/

def isNamed (source : ℕ) (ids : List ChargeId) (c : Charge) : Bool :=
  c.isPosted source && c.id.any ids.contains

def isPostedIn (folioId : ℕ) (folioCode code : Code) (c : Charge) : Bool :=
  c.isPosted folioId && decide (codeIn folioCode c.currency = code)

def remaining (source : ℕ) (i : ChargeId) (l : List Charge) : ℤ :=
  Documents.sumOf (fun c => decide (c.id = some i) && c.isPosted source) (fun _ => 1) l

/-- What moves of named charges from one folio to another do to the charges. -/
structure Moved (source target : ℕ) (ids : List ChargeId) (l l' : List Charge) : Prop where
  kept : ∀ folioCode code,
    Documents.sumOf (isPostedIn source folioCode code) Charge.value l' +
        Documents.sumOf (isPostedIn target folioCode code) Charge.value l' =
      Documents.sumOf (isPostedIn source folioCode code) Charge.value l +
        Documents.sumOf (isPostedIn target folioCode code) Charge.value l
  left : ∀ folioCode code,
    Documents.sumOf (isPostedIn source folioCode code) Charge.value l' -
        Documents.sumOf (fun c => isPostedIn source folioCode code c && isNamed source ids c) Charge.value l' =
      Documents.sumOf (isPostedIn source folioCode code) Charge.value l -
        Documents.sumOf (fun c => isPostedIn source folioCode code c && isNamed source ids c) Charge.value l
  others : ∀ f, f ≠ source → f ≠ target → l'.filter (Charge.isPosted f) = l.filter (Charge.isPosted f)

theorem Moved.refl : Moved source target ids l l :=
  ⟨fun _ _ => rfl, fun _ _ => rfl, fun _ _ _ => rfl⟩

theorem Moved.trans {l₁ : List Charge} (h : Moved source target ids l l₁) (h' : Moved source target ids l₁ l') :
    Moved source target ids l l' :=
  ⟨fun fc code => (h'.kept fc code).trans (h.kept fc code),
    fun fc code => (h'.left fc code).trans (h.left fc code),
    fun f hs ht => (h'.others f hs ht).trans (h.others f hs ht)⟩

section

variable {i : ChargeId} (hne : source ≠ target)
  (hfind : l.find? (fun d => decide (d.id = some i) && d.isPosted source) = some c)

include hne hfind

/-- One charge goes over, with all that it is worth. -/
theorem moved_updateOne (hi : i ∈ ids) :
    Moved source target ids l (Documents.updateOne (fun d => decide (d.id = some i) && d.isPosted source)
      (fun d => { d with folioId := some target }) l) := by
  have hc := find?_some hfind
  simp only [Bool.and_eq_true, decide_eq_true_eq, Charge.isPosted, Bool.not_eq_true'] at hc
  obtain ⟨hid, hfolio, hvoided⟩ := hc
  refine ⟨fun fc code => ?_, fun fc code => ?_, fun f hs ht => ?_⟩
  · have h₁ := Documents.sumOf_updateOne (q := isPostedIn source fc code) (f := Charge.value)
      (g := fun d => { d with folioId := some target }) hfind
    have h₂ := Documents.sumOf_updateOne (q := isPostedIn target fc code) (f := Charge.value)
      (g := fun d => { d with folioId := some target }) hfind
    simp [isPostedIn, Charge.isPosted, Charge.value, hfolio, hvoided, hne, hne.symm] at h₁ h₂ ⊢
    linarith
  · have h₁ := Documents.sumOf_updateOne (q := isPostedIn source fc code) (f := Charge.value)
      (g := fun d => { d with folioId := some target }) hfind
    have h₂ := Documents.sumOf_updateOne (q := fun c => isPostedIn source fc code c && isNamed source ids c)
      (f := Charge.value) (g := fun d => { d with folioId := some target }) hfind
    simp [isPostedIn, isNamed, Charge.isPosted, hfolio, hvoided, hid, hi, hne.symm] at h₁ h₂ ⊢
    linarith
  · exact Documents.filter_updateOne hfind (by simp [Charge.isPosted, hfolio, Ne.symm hs])
      (by simp [Charge.isPosted, Ne.symm ht])

theorem remaining_updateOne (j : ChargeId) :
    remaining source j (Documents.updateOne (fun d => decide (d.id = some i) && d.isPosted source)
      (fun d => { d with folioId := some target }) l) + (if i = j then 1 else 0) = remaining source j l := by
  have hc := find?_some hfind
  simp only [Bool.and_eq_true, decide_eq_true_eq] at hc
  have h := Documents.sumOf_updateOne (q := fun c => decide (c.id = some j) && c.isPosted source)
    (f := fun _ => (1 : ℤ)) (g := fun d => { d with folioId := some target }) hfind
  simpa [remaining, Charge.isPosted, hc.1, hne.symm, show c.folioId = some source ∧ c.voided = false by
    simpa [Charge.isPosted] using hc.2] using h

end

theorem exists_find_of_remaining {i : ChargeId} (h : remaining source i l ≠ 0) :
    ∃ c, l.find? (fun d => decide (d.id = some i) && d.isPosted source) = some c := by
  cases hfind : l.find? (fun d => decide (d.id = some i) && d.isPosted source) with
  | some c => exact ⟨c, rfl⟩
  | none =>
    refine absurd (Documents.sumOf_eq_zero fun c hc => ?_) h
    simpa using find?_eq_none.mp hfind c hc

/-- The loop over the charges that are named finds each of them, and leaves none. -/
theorem forEach_move (hne : source ≠ target) (hids : ∀ c ∈ rows, ∃ i ∈ ids, c.id = some i)
    (hcount : ∀ i ∈ ids, remaining source i s.charges = (rows.countP fun c => c.id = some i : ℕ)) :
    ∃ l' r, Transaction.forEach (Store.move source target) rows s = .ok ({ s with charges := l' }, r) ∧
      Moved source target ids s.charges l' ∧ ∀ i ∈ ids, remaining source i l' = 0 := by
  induction rows generalizing s with
  | nil => exact ⟨s.charges, [], rfl, Moved.refl, fun i hi => by simpa using hcount i hi⟩
  | cons c rows ih =>
    obtain ⟨i, hi, hc⟩ := hids c mem_cons_self
    have hpos : remaining source i s.charges ≠ 0 := by
      rw [hcount i hi, countP_cons_of_pos (by simpa using hc)]
      omega
    obtain ⟨d, hfind⟩ := exists_find_of_remaining hpos
    have hmove : Store.move source target c s = .ok ({ s with
        charges := Documents.updateOne (fun d => decide (d.id = some i) && d.isPosted source)
          (fun d => { d with folioId := some target }) s.charges }, ()) := by
      simp only [Store.move, hc, hfind]
    have hcount' : ∀ j ∈ ids, remaining source j (Documents.updateOne (fun d => decide (d.id = some i) && d.isPosted source)
        (fun d => { d with folioId := some target }) s.charges) = (rows.countP fun c => c.id = some j : ℕ) := by
      intro j hj
      have h := remaining_updateOne hne hfind j
      rw [hcount j hj, countP_cons, hc] at h
      split at h <;> simp_all
    obtain ⟨l', r, hloop, hmoved, hnone⟩ := ih (s := { s with charges := _ })
      (fun c hc => hids c (mem_cons_of_mem _ hc)) hcount'
    refine ⟨l', () :: r, ?_, (moved_updateOne hne hfind hi).trans hmoved, hnone⟩
    rw [Transaction.forEach, hmove]
    simp only [bind, Except.bind, hloop]

/-! ### Charges after an allocation -/

theorem remaining_eq_countP (i : ChargeId) :
    remaining source i l = (l.countP fun c => decide (c.id = some i) && c.isPosted source : ℕ) := by
  simp [remaining, Documents.sumOf, countP_eq_length_filter]

/-- What an allocation does to the charges: the source gives the amount, and together with the
target it keeps what is charged. -/
structure Shifted (source target : ℕ) (currency : Code) (amount : ℤ) (l l' : List Charge) : Prop where
  kept : ∀ folioCode code,
    Documents.sumOf (isPostedIn source folioCode code) Charge.value l' +
        Documents.sumOf (isPostedIn target folioCode code) Charge.value l' =
      Documents.sumOf (isPostedIn source folioCode code) Charge.value l +
        Documents.sumOf (isPostedIn target folioCode code) Charge.value l
  given : Documents.sumOf (isPostedIn source currency currency) Charge.value l' =
    Documents.sumOf (isPostedIn source currency currency) Charge.value l - amount
  others : ∀ f, f ≠ source → f ≠ target → l'.filter (Charge.isPosted f) = l.filter (Charge.isPosted f)

theorem rounded_sum (h : ∀ c ∈ l, c.value = rounded c.value) :
    (rounded (l.map Charge.value).sum : ℚ) = (l.map Charge.value).sum := by
  have hint : (l.map Charge.value).sum = ((l.map fun c => rounded c.value).sum : ℤ) := by
    induction l with
    | nil => simp
    | cons c l ih =>
      rw [map_cons, sum_cons, ih fun d hd => h d (mem_cons_of_mem _ hd), h c mem_cons_self]
      simp
  rw [hint, rounded_intCast]

theorem sumOf_named (h : ∀ c ∈ s.selected f ids, codeIn folioCode c.currency = folioCode) :
    Documents.sumOf (fun c => isPostedIn f.id folioCode folioCode c && isNamed f.id ids c) Charge.value s.charges =
      ((s.selected f ids).map Charge.value).sum := by
  have heq : s.charges.filter (fun c => isPostedIn f.id folioCode folioCode c && isNamed f.id ids c) =
      s.selected f ids := by
    rw [Store.selected, Store.chargeRows, filter_filter]
    refine filter_congr fun c hc => ?_
    by_cases hnamed : isNamed f.id ids c = true
    · have hboth := hnamed
      simp only [isNamed, Bool.and_eq_true] at hboth
      have hcode := h c (mem_filter.mpr ⟨mem_filter.mpr ⟨hc, hboth.1⟩, hboth.2⟩)
      simp [isPostedIn, hnamed, hboth, hcode]
    · have : (c.id.any ids.contains && c.isPosted f.id) = false := by
        simpa [isNamed, Bool.and_comm] using hnamed
      simp [hnamed, this]
  rw [Documents.sumOf, heq]

/-- The charges that are named go over as a whole. -/
theorem shifted_items (h : p.Fit s body) {expected : ℕ} (hshare : body.share = .items ids expected)
    (hids : p.selected.isEmpty = false) :
    ∃ l' r, Transaction.forEach (Store.move p.source.id p.target.id) p.selected s =
        .ok ({ s with charges := l' }, r) ∧
      Shifted p.source.id p.target.id p.currency p.amount s.charges l' := by
  have hsel : p.selected = s.selected p.source ids := by
    rw [h.selected_eq, hshare]
    rfl
  have hne : p.source.id ≠ p.target.id := by
    rw [h.source_id, h.target_id]
    exact body.distinct
  have hrows : ∀ c ∈ p.selected, ∃ i ∈ ids, c.id = some i := by
    intro c hc
    rw [hsel] at hc
    have hany := (mem_filter.mp hc).2
    cases hid : c.id with
    | none => simp [hid] at hany
    | some i => exact ⟨i, by simpa [hid] using hany, rfl⟩
  have hcount : ∀ i ∈ ids, remaining p.source.id i s.charges = (p.selected.countP fun c => c.id = some i : ℕ) := by
    intro i hi
    rw [remaining_eq_countP, hsel, Store.selected, Store.chargeRows, countP_filter, countP_filter]
    congr 1
    refine countP_congr fun c _ => ?_
    by_cases hid : c.id = some i
    · simp [hid, hi]
    · simp [hid]
  obtain ⟨l', r, hloop, hmoved, hnone⟩ := forEach_move hne hrows hcount
  refine ⟨l', r, hloop, hmoved.kept, ?_, hmoved.others⟩
  have hzero : Documents.sumOf (fun c => isPostedIn p.source.id p.currency p.currency c &&
      isNamed p.source.id ids c) Charge.value l' = 0 := by
    refine Documents.sumOf_eq_zero fun c hc => ?_
    by_contra hnamed
    simp only [isNamed, Bool.not_eq_false, Bool.and_eq_true] at hnamed
    obtain ⟨-, hposted, hany⟩ := hnamed
    cases hid : c.id with
    | none => simp [hid] at hany
    | some i =>
      have hi : i ∈ ids := by simpa [hid] using hany
      have hempty := hnone i hi
      rw [remaining_eq_countP, Nat.cast_eq_zero, countP_eq_zero] at hempty
      exact hempty c hc (by simp [hid, hposted])
  have hleft := hmoved.left p.currency p.currency
  have hmovable := h.movable
  simp only [Charge.isMovable, Bool.and_eq_true, decide_eq_true_eq] at hmovable
  have hcodes : ∀ c ∈ s.selected p.source ids, codeIn p.currency c.currency = p.currency :=
    fun c hc => (hmovable c (hsel ▸ hc)).2
  have hnamed := sumOf_named hcodes
  have hamount : p.amount = rounded (p.selected.map Charge.value).sum := by
    have := h.amount_of
    rw [Share.amountOf, hids] at this
    simpa [eq_comm] using this
  have hexact : (p.amount : ℚ) = ((s.selected p.source ids).map Charge.value).sum := by
    rw [hamount, rounded_sum fun c hc => (hmovable c hc).1.2, hsel]
  rw [hzero, sub_zero, hnamed, ← hexact] at hleft
  exact hleft

theorem shifted_adjustments (h : p.Fit s body) :
    Shifted p.source.id p.target.id p.currency p.amount s.charges
      (s.charges ++ [adjustment body p.toWindows false (-p.amount)] ++ [adjustment body p.toWindows true p.amount]) := by
  have hne : p.source.id ≠ p.target.id := by
    rw [h.source_id, h.target_id]
    exact body.distinct
  have hcode : p.currency.ledger = p.currency := by
    rw [← h.source_code .TRY, Store.folioCode, FolioDoc.code]
    cases ((p.source.currency.or ((s.findBooking p.source.bookingId).bind Booking.currency)).getD .TRY) <;> rfl
  refine ⟨fun fc code => ?_, ?_, fun f hs ht => ?_⟩
  · rw [Documents.sumOf_append_one, Documents.sumOf_append_one, Documents.sumOf_append_one, Documents.sumOf_append_one]
    simp only [isPostedIn, Charge.isPosted, adjustment, codeIn, Charge.value, Option.getD_some, hcode]
    by_cases hin : p.currency = code <;> simp [hin, hne, hne.symm]
    ring
  · rw [Documents.sumOf_append_one, Documents.sumOf_append_one]
    simp [isPostedIn, Charge.isPosted, adjustment, codeIn, Charge.value, hcode, hne.symm]
    ring
  · simp [Charge.isPosted, adjustment, Ne.symm hs, Ne.symm ht]

theorem allocateCharges_eq_ok (h : p.Fit s body) :
    ∃ l', s.allocateCharges body p = .ok { s with charges := l' } ∧
      Shifted p.source.id p.target.id p.currency p.amount s.charges l' := by
  cases hshare : body.share with
  | items named expected =>
    have hids : p.selected.isEmpty = false := by
      cases hsel : p.selected with
      | nil =>
        have := h.amount_of
        simp [hsel, hshare, Share.amountOf, Share.amountField] at this
      | cons => rfl
    obtain ⟨l', r, hloop, hshifted⟩ := shifted_items h hshare hids
    exact ⟨l', by simp only [Store.allocateCharges, hshare, hloop, Except.map], hshifted⟩
  | amount n => exact ⟨_, by simp only [Store.allocateCharges, hshare], shifted_adjustments h⟩

/-! ### A whole allocation -/

theorem setBalance_eq_ok {balance : ℤ} (h : s.folios.get? folioId = some f)
    (hopen : f.isOpen = true) : s.setBalance folioId balance =
      .ok { s with folios := s.folios.update folioId fun f => { f with balance := balance } } := by
  have hmem := get?_eq_some.mp h
  cases hfind : s.folios.findOne fun f => decide (f.id = folioId) && f.isOpen with
  | some g => simp only [Store.setBalance, hfind, found, bind, Except.bind]
  | none =>
    have := findOne_eq_none.mp hfind f hmem.1
    simp [hmem.2, hopen] at this

def Plan.folios (p : Plan) (s : Store) : Collection FolioDoc FolioDoc.id :=
  (s.folios.update p.source.id fun f => { f with balance := p.sourceAfter }).update p.target.id
    fun f => { f with balance := p.targetAfter }

theorem get?_folios (h : p.Fit s body) (id : ℕ) :
    (p.folios s).get? id = (s.folios.get? id).map fun f =>
      { f with balance :=
        if id = body.targetFolioId then p.targetAfter else if id = body.sourceFolioId then p.sourceAfter else f.balance } := by
  rw [Plan.folios, get?_update, get?_update, h.source_id, h.target_id, Option.map_map]
  congr 1
  funext f
  simp only [Function.comp]
  split_ifs <;> rfl

/-- An allocation that passes the checks is written as a whole. -/
theorem write_eq_ok (h : p.Fit s body) (hnew : s.operations.get? body.requestId = none) :
    ∃ l' operations, Shifted p.source.id p.target.id p.currency p.amount s.charges l' ∧
      s.write body p false = .ok ({ s with
        charges := l', folios := p.folios s, operations := operations, audit := s.audit ++ [p.auditEntry body] },
        ⟨p.result body, false⟩) := by
  obtain ⟨l', hcharges, hshifted⟩ := allocateCharges_eq_ok h
  have hnokey : ∀ op ∈ s.operations, op.requestId ≠ (p.operation body).requestId := get?_eq_none.mp hnew
  obtain ⟨operations, hinsert⟩ := exists_insertOne hnokey
  refine ⟨l', operations, hshifted, ?_⟩
  have hsource : ({ s with charges := l' } : Store).folios.get? p.source.id = some p.source := by
    rw [h.source_id]
    exact h.source_get
  have htarget : (s.folios.update p.source.id fun f => { f with balance := p.sourceAfter }).get? p.target.id =
      some p.target := by
    rw [get?_update, h.source_id, h.target_id, h.target_get, Option.map_some, if_neg (Ne.symm body.distinct)]
  rw [Store.write, hcharges]
  simp only [bind, Except.bind]
  rw [setBalance_eq_ok hsource h.source_open]
  simp only
  rw [setBalance_eq_ok htarget h.target_open]
  simp only [Store.record, hinsert, found, bind, Except.bind, require]
  rfl

theorem allocate_cases {session fails : Bool} (h : s.allocate body session fails = (s', .ok a)) :
    (s' = s ∧ a.replayed = true ∧ (s.operations.get? body.requestId).isSome = true) ∨
      ∃ p, s.plan body = .ok p ∧ s.operations.get? body.requestId = none ∧ session = true ∧ fails = false ∧
        s.write body p false = .ok (s', a) := by
  rw [Store.allocate, Transaction.run_eq_ok] at h
  simp only [allocatePostedDebt, bind_eq_ok, require_eq_ok, exists_const] at h
  obtain ⟨hsession, h⟩ := h
  cases hop : s.operations.get? body.requestId with
  | some op =>
    simp only [hop, bind_eq_ok, require_eq_ok, exists_const] at h
    cases h.2
    exact .inl ⟨rfl, rfl, rfl⟩
  | none =>
    simp only [hop, bind_eq_ok] at h
    obtain ⟨p, hp, hw⟩ := h
    cases fails with
    | false => exact .inr ⟨p, hp, rfl, hsession, rfl, hw⟩
    | true => simp [Store.write, bind_eq_ok] at hw

theorem allocate_eq_ok {s'' : Store} (hnew : s.operations.get? body.requestId = none)
    (hplan : s.plan body = .ok p) (hwrite : s.write body p false = .ok (s'', a)) :
    s.allocate body true false = (s'', .ok a) := by
  rw [Store.allocate, Transaction.run_eq_ok]
  simp only [allocatePostedDebt, hnew, hplan, require, bind, Except.bind, if_true, hwrite]

/-! ### Balances -/

namespace Store

def ledger (s : Store) (ids : List ℕ) (folioId : ℕ) (code : Code) : ℚ :=
  match s.folios.get? folioId with
  | some f => s.owed ids f .TRY code
  | none => 0

def currencyOf (s : Store) (body : Request) : Code :=
  match s.folios.get? body.sourceFolioId with
  | some f => s.folioCode f .TRY
  | none => .TRY

def debt (s : Store) (body : Request) : ℚ := s.ledger body.folioIds body.sourceFolioId (s.currencyOf body)

def RoundsUp (s : Store) (body : Request) : Prop :=
  s.debt body < body.share.asked ∧ (body.share.asked : ℤ) = rounded (s.debt body)

/-- The checks let the request pass as a new one. -/
def Accepts (s : Store) (body : Request) (session fails : Bool) : Prop :=
  session = true ∧ fails = false ∧ s.operations.get? body.requestId = none ∧ ∃ p, s.plan body = .ok p

def storedBalances (s : Store) (body : Request) : List (Option ℤ) :=
  body.folioIds.map fun id => (s.folios.get? id).map FolioDoc.balance

/-- A call conserves money. -/
structure Conserves (s : Store) (body : Request) (session fails : Bool) : Prop where
  raised : ∀ s' e, s.allocate body session fails = (s', .error e) → s' = s
  replayed : (s.operations.get? body.requestId).isSome = true → (s.allocate body session fails).1 = s
  kept : ∀ s' a code, s.allocate body session fails = (s', .ok a) →
    s'.ledger body.folioIds body.sourceFolioId code + s'.ledger body.folioIds body.targetFolioId code =
      s.ledger body.folioIds body.sourceFolioId code + s.ledger body.folioIds body.targetFolioId code
  others : ∀ s' a ids folioId code, s.allocate body session fails = (s', .ok a) →
    folioId ≠ body.sourceFolioId → folioId ≠ body.targetFolioId → s'.ledger ids folioId code = s.ledger ids folioId code
  written : ∀ s' a, s.allocate body session fails = (s', .ok a) → a.replayed = false →
    s'.storedBalances body = [some a.result.sourceBalance, some a.result.targetBalance] ∧ 0 ≤ a.result.sourceBalance ∧
      a.result.sourceBalance + a.result.targetBalance = rounded (s.debt body) +
        rounded (s.ledger body.folioIds body.targetFolioId (s.currencyOf body))
  debt_nonneg : ∀ s' a, s.allocate body session fails = (s', .ok a) → a.replayed = false → 0 ≤ s'.debt body

end Store

section

variable {operations : Collection Operation Operation.requestId} {audit : List AuditEntry}
  (h : p.Fit s body) (hs' : s' = { s with
    charges := l', folios := p.folios s, operations := operations, audit := audit })

include h hs'

theorem ledger_written (ids : List ℕ) (folioId : ℕ) (code : Code) :
    s'.ledger ids folioId code = { s with charges := l' }.ledger ids folioId code := by
  subst hs'
  simp only [Store.ledger, get?_folios h]
  cases s.folios.get? folioId <;> rfl

theorem currencyOf_written : s'.currencyOf body = p.currency := by
  subst hs'
  simp only [Store.currencyOf, get?_folios h, h.source_get, Option.map_some]
  exact h.source_code .TRY

end

theorem Plan.Fit.currencyOf_eq (h : p.Fit s body) : s.currencyOf body = p.currency := by
  rw [Store.currencyOf, h.source_get]
  exact h.source_code .TRY

theorem ledger_source (h : p.Fit s body) (l' : List Charge) (ids : List ℕ) (code : Code) :
    { s with charges := l' }.ledger ids body.sourceFolioId code =
      Documents.sumOf (isPostedIn p.source.id p.currency code) Charge.value l' -
        s.paymentsIn ids p.source.id p.currency code + p.source.openingIn p.currency code := by
  rw [Store.ledger, h.source_get]
  have hcode := h.source_code .TRY
  simp only [Store.owed]
  rw [show ({ s with charges := l' } : Store).folioCode p.source .TRY = p.currency from hcode]
  rfl

theorem ledger_target (h : p.Fit s body) (l' : List Charge) (ids : List ℕ) (code : Code) :
    { s with charges := l' }.ledger ids body.targetFolioId code =
      Documents.sumOf (isPostedIn p.target.id p.currency code) Charge.value l' -
        s.paymentsIn ids p.target.id p.currency code + p.target.openingIn p.currency code := by
  rw [Store.ledger, h.target_get]
  have hcode := h.target_code .TRY
  simp only [Store.owed]
  rw [show ({ s with charges := l' } : Store).folioCode p.target .TRY = p.currency from hcode]
  rfl

theorem ledger_other (h : Shifted source target folioCode n s.charges l') (hs : folioId ≠ source)
    (ht : folioId ≠ target) (ids : List ℕ) (code : Code) :
    { s with charges := l' }.ledger ids folioId code = s.ledger ids folioId code := by
  unfold Store.ledger
  cases hf : s.folios.get? folioId with
  | none => rfl
  | some f =>
    have hid : f.id = folioId := (get?_eq_some.mp hf).2
    have hsum : ∀ l : List Charge, Documents.sumOf (isPostedIn f.id (s.folioCode f .TRY) code) Charge.value l =
        (((l.filter (Charge.isPosted f.id)).filter
          (fun c => decide (codeIn (s.folioCode f .TRY) c.currency = code))).map Charge.value).sum := by
      intro l
      rw [filter_filter, Documents.sumOf]
      congr 2
      exact filter_congr fun c _ => Bool.and_comm _ _
    have heq := hsum l'
    rw [h.others f.id (hid ▸ hs) (hid ▸ ht), ← hsum s.charges] at heq
    simp only [Store.owed]
    exact congrArg (fun q => q - s.paymentsIn ids f.id (s.folioCode f .TRY) code +
      f.openingIn (s.folioCode f .TRY) code) heq

theorem owed_source (h : p.Fit s body) :
    s.owed body.folioIds p.source p.currency p.currency = s.debt body := by
  rw [Store.debt, h.currencyOf_eq, Store.ledger, h.source_get]
  simp only [Store.owed, h.source_code]

theorem owed_target (h : p.Fit s body) :
    s.owed body.folioIds p.target p.currency p.currency =
      s.ledger body.folioIds body.targetFolioId (s.currencyOf body) := by
  rw [h.currencyOf_eq, Store.ledger, h.target_get]
  simp only [Store.owed, h.target_code]

structure Written (s s' : Store) (body : Request) (p : Plan) : Prop where
  kept : ∀ code, s'.ledger body.folioIds body.sourceFolioId code + s'.ledger body.folioIds body.targetFolioId code =
    s.ledger body.folioIds body.sourceFolioId code + s.ledger body.folioIds body.targetFolioId code
  others : ∀ ids folioId code, folioId ≠ body.sourceFolioId → folioId ≠ body.targetFolioId →
    s'.ledger ids folioId code = s.ledger ids folioId code
  stored : s'.storedBalances body = [some p.sourceAfter, some p.targetAfter]
  debt : s'.debt body = s.debt body - p.amount

theorem written_of_write (h : p.Fit s body) (hnew : s.operations.get? body.requestId = none)
    (hwrite : s.write body p false = .ok (s', a)) :
    Written s s' body p ∧ a = ⟨p.result body, false⟩ := by
  obtain ⟨l', operations, hshifted, hok⟩ := write_eq_ok h hnew
  rw [hwrite] at hok
  obtain ⟨hs', ha⟩ := Prod.mk.inj (Except.ok.inj hok)
  refine ⟨⟨fun code => ?_, fun ids folioId code hs ht => ?_, ?_, ?_⟩, ha⟩
  · have hold := ledger_source h s.charges body.folioIds code
    have hold' := ledger_target h s.charges body.folioIds code
    have hkept := hshifted.kept p.currency code
    rw [ledger_written h hs', ledger_written h hs', ledger_source h, ledger_target h]
    change s.ledger body.folioIds body.sourceFolioId code = _ at hold
    change s.ledger body.folioIds body.targetFolioId code = _ at hold'
    linarith
  · rw [ledger_written h hs', ledger_other hshifted (h.source_id ▸ hs) (h.target_id ▸ ht)]
  · subst hs'
    simp [Store.storedBalances, Request.folioIds, get?_folios h, h.source_get, h.target_get, body.distinct]
  · have hold := ledger_source h s.charges body.folioIds p.currency
    change s.ledger body.folioIds body.sourceFolioId p.currency = _ at hold
    have hgiven := hshifted.given
    rw [Store.debt, Store.debt, currencyOf_written h hs', h.currencyOf_eq, ledger_written h hs', ledger_source h]
    linarith

/-- The source is left a debt unless a debt that was rounded up is moved as a whole. -/
theorem debt_nonneg_iff (h : p.Fit s body) (hw : Written s s' body p) : 0 ≤ s'.debt body ↔ ¬s.RoundsUp body := by
  have hle := h.amount_le
  rw [owed_source h] at hle
  rw [hw.debt, exceeds_iff hle, Store.RoundsUp, h.amount_eq]
  simp

/-- An allocation conserves money, unless the checks let the whole of a debt go over that they
read as more than it is, by a fraction of a cent. -/
theorem conserves_iff (s : Store) (body : Request) (session fails : Bool) :
    s.Conserves body session fails ↔ ¬(s.Accepts body session fails ∧ s.RoundsUp body) := by
  constructor
  · rintro hconserves ⟨⟨rfl, rfl, hnew, p, hplan⟩, hround⟩
    have hfit := fit_of_plan hplan
    obtain ⟨l', operations, -, hwrite⟩ := write_eq_ok hfit hnew
    have hcall := allocate_eq_ok hnew hplan hwrite
    obtain ⟨hw, -⟩ := written_of_write hfit hnew hwrite
    exact (debt_nonneg_iff hfit hw).mp (hconserves.debt_nonneg _ _ hcall rfl) hround
  · intro hnot
    refine ⟨fun s' e he => Transaction.eq_of_run_error he, fun hold => ?_, fun s' a code ha => ?_,
      fun s' a ids folioId code ha hs ht => ?_, fun s' a ha hfirst => ?_, fun s' a ha hfirst => ?_⟩
    · cases hcall : s.allocate body session fails with
      | mk s' r =>
        cases r with
        | error e => exact Transaction.eq_of_run_error hcall
        | ok a =>
          rcases allocate_cases hcall with ⟨rfl, -, -⟩ | ⟨p, -, hnew, -⟩
          · rfl
          · simp [hnew] at hold
    · rcases allocate_cases ha with ⟨rfl, -, -⟩ | ⟨p, hplan, hnew, -, -, hwrite⟩
      · rfl
      · exact (written_of_write (fit_of_plan hplan) hnew hwrite).1.kept code
    · rcases allocate_cases ha with ⟨rfl, -, -⟩ | ⟨p, hplan, hnew, -, -, hwrite⟩
      · rfl
      · exact (written_of_write (fit_of_plan hplan) hnew hwrite).1.others ids folioId code hs ht
    · rcases allocate_cases ha with ⟨-, hagain, -⟩ | ⟨p, hplan, hnew, -, -, hwrite⟩
      · simp [hfirst] at hagain
      · have hfit := fit_of_plan hplan
        obtain ⟨hw, rfl⟩ := written_of_write hfit hnew hwrite
        have hle := hfit.amount_le
        refine ⟨hw.stored, ?_, ?_⟩
        · simp only [Plan.result, Plan.sourceAfter, hfit.sourceBefore_eq]
          omega
        · rw [← owed_source hfit, ← owed_target hfit, ← hfit.sourceBefore_eq, ← hfit.targetBefore_eq]
          simp only [Plan.result, Plan.sourceAfter, Plan.targetAfter]
          ring
    · rcases allocate_cases ha with ⟨-, hagain, -⟩ | ⟨p, hplan, hnew, hsession, hfails, hwrite⟩
      · simp [hfirst] at hagain
      · have hfit := fit_of_plan hplan
        obtain ⟨hw, -⟩ := written_of_write hfit hnew hwrite
        exact (debt_nonneg_iff hfit hw).mpr fun hround => hnot ⟨⟨hsession, hfails, hnew, p, hplan⟩, hround⟩

def halfCentPaid : Store where
  bookings := [{ id := 1, currency := some .TRY }]
  folios := ⟨[{ id := 10, bookingId := 1, currency := none, balance := 1000 },
    { id := 11, bookingId := 1, currency := none }], by decide⟩
  charges := [{ id := some (.row 1), folioId := some 10, currency := none, total := some 1000 }]
  payments := [{ identity := 1, folioId := some 10, amount := 1 / 2, currency := some .TRY }]
  businessDate := some 0
  operations := Collection.empty

def tenLiras : Request where
  requestId := 7
  bookingId := 1
  sourceFolioId := 10
  targetFolioId := 11
  share := .amount 1000
  reason := 0
  distinct := by decide
  valid := by norm_num [Share.Valid, ValidAmount]

theorem not_conserves_halfCentPaid : ¬halfCentPaid.Conserves tenLiras true false := by
  intro h
  have hcall : (halfCentPaid.allocate tenLiras true false).2 =
      .ok ⟨⟨7, .TRY, 1000, 10, 11, 0, 1000⟩, false⟩ := by decide +kernel
  have hdebt := h.debt_nonneg _ _ (Prod.ext rfl hcall) rfl
  exact absurd hdebt (by decide +kernel)

/-- The next reading of the source is a credit of a cent. -/
example : (halfCentPaid.allocate tenLiras true false).1.folios.rows.map (fun f =>
    ((halfCentPaid.allocate tenLiras true false).1.before [10, 11] f .TRY, f.balance)) = [(-1, 0), (1000, 1000)] := by
  decide +kernel

end SyrocePms.Folio.Allocation
