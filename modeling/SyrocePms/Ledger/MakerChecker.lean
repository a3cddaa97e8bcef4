import SyrocePms.Ledger.Voucher

/-! Dual control of vouchers. An approval is compared with the creator of the voucher, and
not with those who have edited it since. -/

namespace SyrocePms.Ledger

open Lib Collection

/-! ### The condition -/

/-- Dual control is on, and an approval that goes through is not that of an editor. -/
def SecondPerson (s : VoucherStore) (t : VoucherThread) : Prop :=
  s.mode = .dualControl ∧
    match t.pc with
    | .approveWrite v _ _ => ∀ x ∈ s.vouchers.rows, x.id = v.id → x.status = v.status →
      x.version = v.version → t.user.id ∉ x.editors
    | _ => True

instance (s : VoucherStore) (t : VoucherThread) : Decidable (SecondPerson s t) := by
  unfold SecondPerson
  have : Decidable (match t.pc with
      | .approveWrite v _ _ => ∀ x ∈ s.vouchers.rows, x.id = v.id → x.status = v.status →
        x.version = v.version → t.user.id ∉ x.editors
      | _ => True) := by split <;> infer_instance
  infer_instance

def EditorsDoNotApprove (p : Pool VoucherStore VoucherThread) :
    Act ApprovalMode VoucherCall VoucherMove → Prop
  | .env mode => mode = .dualControl
  | .step k (.advance _) => ∀ t ∈ p.threads[k]?, SecondPerson p.store t
  | _ => True

instance (p : Pool VoucherStore VoucherThread) (a : Act ApprovalMode VoucherCall VoucherMove) :
    Decidable (EditorsDoNotApprove p a) := by
  unfold EditorsDoNotApprove
  split <;> infer_instance

/-! ### What the calls keep -/

def Voucher.Checked (v : Voucher) : Prop :=
  v.status = .approved ∨ v.status = .posting ∨ v.status = .posted →
    ∃ u, v.approvedBy = some u ∧ u ∉ v.authors

/-- The same for every voucher. -/
def Checked (s : VoucherStore) : Prop := ∀ v ∈ s.vouchers, v.Checked

def HasCreator (s : VoucherStore) (v : Voucher) : Prop :=
  ∃ x ∈ s.vouchers, x.id = v.id ∧ x.createdBy = v.createdBy

/-- What a call knows of the copy that it goes on with. -/
def InHandOf (s : VoucherStore) (actor : ℕ) : VoucherPc → Prop
  | .approveRead _ _ mode => mode = .dualControl
  | .approveContext v _ _ | .approveWrite v _ _ => v.createdBy ≠ actor ∧ HasCreator s v
  | .postClaim v => v.status = .approved
  | _ => True

def KeepsCreators (s s' : VoucherStore) : Prop := ∀ v, HasCreator s v → HasCreator s' v

variable {s s' : VoucherStore} {actor k : ℕ} {final : Bool} {pc pc' : VoucherPc}
variable {id : ℕ} {f : Voucher → Voucher} {v : Voucher} {c : VoucherContent}

theorem KeepsCreators.of_eq (h : s'.vouchers = s.vouchers) : KeepsCreators s s' := by
  intro v hv
  rw [HasCreator, h]
  exact hv

theorem InHandOf.keeps (h : InHandOf s actor pc) (hk : KeepsCreators s s') : InHandOf s' actor pc := by
  cases pc <;> first | exact h | exact ⟨h.1, hk _ h.2⟩

/-- What one operation of a call does. -/
structure Leaves (s s' : VoucherStore) (actor : ℕ) (pc' : VoucherPc) : Prop where
  checked : Checked s'
  creators : KeepsCreators s s'
  hand : InHandOf s' actor pc'

theorem Leaves.of_eq (hs : Checked s) (h : s'.vouchers = s.vouchers) (hpc : InHandOf s' actor pc') :
    Leaves s s' actor pc' where
  checked v hv := hs v (h ▸ hv)
  creators := .of_eq h
  hand := hpc

theorem Leaves.update (hs : Checked s) {g : ∀ v, (f v).id = v.id}
    (h : s'.vouchers = s.vouchers.update id f g) (hcreator : ∀ v, (f v).createdBy = v.createdBy)
    (hx : ∀ x ∈ s.vouchers, x.id = id → (f x).Checked) (hpc : InHandOf s' actor pc') :
    Leaves s s' actor pc' where
  checked v hv := by
    rw [h] at hv
    obtain ⟨hv, -⟩ | ⟨x, hxm, hid, rfl⟩ := mem_update.mp hv
    · exact hs v hv
    · exact hx x hxm hid
  creators v := by
    rintro ⟨x, hxm, hid, hc⟩
    rw [HasCreator, h]
    by_cases hk : x.id = id
    · exact ⟨f x, mem_update.mpr (.inr ⟨x, hxm, hk, rfl⟩), (g x).trans hid,
        (hcreator x).trans hc⟩
    · exact ⟨x, mem_update.mpr (.inl ⟨hxm, hk⟩), hid, hc⟩
  hand := hpc

theorem eq_of_any {c : Collection Voucher Voucher.id} {p : Voucher → Bool}
    (h : (c.any fun x => x.id == id && p x) = true) {x : Voucher} (hx : x ∈ c) (hid : x.id = id) :
    p x = true := by
  obtain ⟨y, hy, hp⟩ := any_eq_true.mp h
  simp only [Bool.and_eq_true, beq_iff_eq] at hp
  rw [eq_of_key hx hy (hid.trans hp.1.symm)]
  exact hp.2

theorem update_some {hf : ∀ v, (f v).id = v.id} (h : s.update v f hf = some s') :
    s'.vouchers = s.vouchers.update v.id f hf ∧
      ∀ x ∈ s.vouchers, x.id = v.id → x.status = v.status ∧ x.version = v.version := by
  simp only [VoucherStore.update, Bool.and_assoc] at h
  split at h
  · rename_i hany
    cases h
    refine ⟨rfl, fun x hx hid => ?_⟩
    simpa using eq_of_any hany hx hid
  · cases h

theorem checked_draft (h : v.status = .draft ∨ v.status = .submitted ∨
    v.status = .rejected ∨ v.status = .cancelled) : v.Checked := by
  intro hst
  obtain h | h | h | h := h <;> simp [h] at hst

theorem create_leaves {vouchers : Collection Voucher Voucher.id} (hs : Checked s)
    (h : s.vouchers.insertOne { id := k, content := c, createdBy := actor } = some vouchers) :
    Leaves s { s with vouchers := vouchers } actor .returned where
  checked v hv := by
    obtain hv | rfl := (mem_insertOne h).mp hv
    · exact hs v hv
    · exact checked_draft (.inl rfl)
  creators _ hc :=
    let ⟨x, hx, hxv⟩ := hc
    ⟨x, (mem_insertOne h).mpr (.inl hx), hxv⟩
  hand := trivial

theorem approve_leaves {mode : ApprovalMode} (hs : Checked s)
    (hh : v.createdBy ≠ actor ∧ HasCreator s v)
    (hc : ∀ x ∈ s.vouchers, x.id = v.id → x.status = v.status → x.version = v.version → actor ∉ x.editors)
    (h : s.update v (·.approve actor mode) (fun v => v.id_approve actor mode) = some s')
    (hpc : InHandOf s' actor pc') : Leaves s s' actor pc' := by
  obtain ⟨hupd, hrow⟩ := update_some h
  refine .update hs hupd (fun _ => rfl) (fun x hx hid _ => ⟨actor, rfl, ?_⟩) hpc
  obtain ⟨hst, hver⟩ := hrow x hx hid
  obtain ⟨y, hy, hyid, hyc⟩ := hh.2
  have hxy : x = y := eq_of_key hx hy (hid.trans hyid.symm)
  have hcreator : actor ≠ x.createdBy := by
    rw [hxy, hyc]
    exact hh.1.symm
  exact List.not_mem_cons_of_ne_of_not_mem hcreator (hc x hx hid hst hver)

/-- A new content makes the voucher a draft again. -/
theorem updateWrite_leaves (hs : Checked s)
    (h : voucherStep k s actor final (.updateWrite v c) = some (s', pc')) :
    Leaves s s' actor pc' := by
  simp only [voucherStep] at h
  split at h
  · cases h
    exact .update (g := fun v => v.id_edit actor c) hs rfl (fun _ => rfl)
      (fun _ _ _ => checked_draft (.inl rfl)) trivial
  · cases h
    exact .of_eq hs rfl trivial

theorem actionWrite_leaves {a : VoucherAction} (hs : Checked s)
    (h : voucherStep k s actor final (.actionWrite a v) = some (s', pc')) :
    Leaves s s' actor pc' := by
  cases h
  cases hupd : s.update v (·.move a.target) fun v => v.id_move a.target with
  | none => exact .of_eq hs rfl trivial
  | some s₁ =>
    refine .update hs (update_some hupd).1 (fun _ => rfl) (fun x _ _ => ?_) trivial
    cases a with
    | submit => exact checked_draft (.inr (.inl rfl))
    | reject => exact checked_draft (.inr (.inr (.inl rfl)))
    | cancel => exact checked_draft (.inr (.inr (.inr rfl)))

theorem postClaim_leaves (hs : Checked s) (hh : v.status = .approved)
    (h : voucherStep k s actor final (.postClaim v) = some (s', pc')) : Leaves s s' actor pc' := by
  simp only [voucherStep] at h
  split at h
  · cases h
    exact .of_eq hs rfl trivial
  · rename_i s₁ hupd
    cases h
    obtain ⟨heq, hrow⟩ := update_some hupd
    refine .update hs heq (fun _ => rfl) (fun x hx hid _ => ?_) trivial
    exact hs x hx (.inl ((hrow x hx hid).1.trans hh))

theorem postFailed_leaves {claim : ℕ} (hs : Checked s)
    (h : voucherStep k s actor final (.postFailed v claim) = some (s', pc')) :
    Leaves s s' actor pc' := by
  simp only [voucherStep, Bool.and_assoc] at h
  split at h
  · rename_i hany
    cases h
    refine .update (g := fun x => x.id_failPosting) hs rfl (fun _ => rfl) (fun x hx hid _ => ?_) trivial
    have hst := eq_of_any hany hx hid
    simp only [Bool.and_eq_true, beq_iff_eq] at hst
    exact hs x hx (.inr (.inl hst.1))
  · cases h
    exact .of_eq hs rfl trivial

theorem postMark_leaves {e : Entry} (hs : Checked s)
    (h : voucherStep k s actor final (.postMark v e) = some (s', pc')) : Leaves s s' actor pc' := by
  simp only [voucherStep] at h
  split at h
  · rename_i hany
    cases h
    refine .update (g := fun x => x.id_finishPosting e) hs rfl (fun _ => rfl) (fun x hx hid _ => ?_) trivial
    have hst := eq_of_any hany hx hid
    exact hs x hx (.inr (.inl (beq_iff_eq.mp hst)))
  · cases h
    exact .of_eq hs rfl trivial

/-- Each operation of a call. -/
theorem voucherStep_leaves (hs : Checked s) (hh : InHandOf s actor pc)
    (hc : SecondPerson s ⟨⟨actor, true⟩, pc⟩) (h : voucherStep k s actor final pc = some (s', pc')) :
    Leaves s s' actor pc' := by
  cases pc with
  | create x =>
    simp only [voucherStep] at h
    split at h
    · cases h
      exact .of_eq hs rfl trivial
    · split at h
      · obtain ⟨vouchers, hins, heq⟩ := Option.map_eq_some_iff.mp h
        cases heq
        exact create_leaves hs hins
      · cases h
        exact .of_eq hs rfl trivial
  | updateRead id x version =>
    cases h
    refine .of_eq hs rfl ?_
    repeat' split
    all_goals trivial
  | updateWrite before c => exact updateWrite_leaves hs h
  | actionRead a id =>
    cases h
    refine .of_eq hs rfl ?_
    repeat' split
    all_goals trivial
  | actionContext a v =>
    simp only [voucherStep] at h
    split at h <;> cases h <;> exact .of_eq hs rfl trivial
  | actionWrite a v => exact actionWrite_leaves hs h
  | finalize id =>
    cases h
    refine .of_eq hs rfl ?_
    repeat' split
    all_goals trivial
  | approvePolicy id allowDraft =>
    cases h
    refine .of_eq hs rfl ?_
    split
    · trivial
    · exact hc.1
  | approveRead id allowDraft mode =>
    simp only [voucherStep] at h
    cases h
    refine .of_eq hs rfl ?_
    split
    · trivial
    · rename_i v hfind
      split
      · trivial
      · split
        · trivial
        · rename_i hself
          exact ⟨fun he => hself ⟨he, hh⟩, v, (mem_of_findOne hfind).1, rfl, rfl⟩
  | approveContext v mode post =>
    simp only [voucherStep] at h
    split at h <;> cases h
    · exact .of_eq hs rfl trivial
    · exact .of_eq hs rfl hh
  | approveWrite v mode post =>
    simp only [voucherStep] at h
    split at h
    · cases h
      exact .of_eq hs rfl trivial
    · rename_i s₁ hupd
      cases h
      exact approve_leaves hs hh hc.2 hupd (by split <;> trivial)
  | postRead id =>
    cases h
    refine .of_eq hs rfl ?_
    repeat' split
    all_goals trivial
  | postPolicy v =>
    cases h
    refine .of_eq hs rfl ?_
    split <;> trivial
  | postContext v =>
    simp only [voucherStep] at h
    split at h
    · cases h
      exact .of_eq hs rfl trivial
    · cases h
      refine .of_eq hs rfl ?_
      split
      · assumption
      · trivial
  | postClaim v => exact postClaim_leaves hs hh h
  | postAgain id claim =>
    cases h
    refine .of_eq hs rfl ?_
    split <;> trivial
  | postEntry v claim =>
    cases h
    refine .of_eq hs rfl ?_
    split <;> trivial
  | postFailed v claim => exact postFailed_leaves hs h
  | postMark v e => exact postMark_leaves hs h
  | returned =>
    rw [voucherStep_returned] at h
    cases h

/-! ### Every run -/

theorem begin_inHand (c : VoucherCall) :
    InHandOf s (VoucherThread.begin c).user.id (VoucherThread.begin c).pc := by
  cases c <;> simp only [VoucherThread.begin] <;> split <;> trivial

/-- The calls keep the approvals apart from the authors. -/
theorem voucher_preserves : voucherCalls.Preserves EditorsDoNotApprove Checked
    (fun s _ t => InHandOf s t.user.id t.pc) (fun _ _ => True) where
  symm _ _ _ := trivial
  init s hs v hv := by
    rw [hs] at hv
    exact absurd hv not_mem_empty
  env p mode s' hp _ hs := by
    cases hs
    exact ⟨hp.store, fun k t ht => (hp.thread k t ht).keeps (.of_eq rfl)⟩
  call p c t _ _ ht := by
    obtain rfl : VoucherThread.begin c = t := Option.some.inj ht
    exact ⟨begin_inHand c, fun _ _ => trivial⟩
  step p k m t s' t' hp hc ht hs := by
    have hleaves : Leaves p.store s' t.user.id t'.pc ∧ t'.user = t.user := by
      cases m with
      | advance final =>
        obtain ⟨r, hr, heq⟩ := Option.map_eq_some_iff.mp hs
        cases heq
        exact ⟨voucherStep_leaves hp.store (hp.thread k t ht) (hc t ht) hr, rfl⟩
      | stop =>
        cases hs
        exact ⟨.of_eq hp.store rfl trivial, rfl⟩
    obtain ⟨hl, huser⟩ := hleaves
    exact ⟨hl.checked, huser ▸ hl.hand,
      fun j u _ hu => ⟨(hp.thread j u hu).keeps hl.creators, trivial⟩⟩

/-- While dual control is on and no editor approves, no voucher is posted whose approver
is an author. -/
theorem posted_by_second_person {p : Pool VoucherStore VoucherThread}
    (hp : voucherCalls.machine.Reach EditorsDoNotApprove p) {v : Voucher}
    (hv : v ∈ p.store.vouchers) (hposted : v.status = .posted) :
    ∃ u, v.approvedBy = some u ∧ u ∉ v.authors :=
  (voucher_preserves.reach hp).store v hv (.inr (.inr hposted))

/-! ### Runs -/

def dualBooks : VoucherStore where
  books :=
    { periods := Periods.ensureYear Collection.empty 2026
      accounts := cashAndSales
      journal := []
      closures := [] }
  mode := .dualControl
  vouchers := .empty

theorem dualBooks_init : voucherCalls.machine.init ⟨dualBooks, []⟩ := ⟨rfl, rfl⟩

def cashSale (amount : ℤ) : VoucherIn where
  date := 20260115
  lines := [{ account := 100, debit := amount, memo := .text 0 },
    { account := 600, credit := amount, memo := .text 0 }]

def inTurn (calls : List (VoucherCall × ℕ)) : List (Act ApprovalMode VoucherCall VoucherMove) :=
  calls.zipIdx.flatMap fun c =>
    .call c.1.1 :: List.replicate c.1.2 (.step c.2 (.advance true))

def seenVoucher (p : Pool VoucherStore VoucherThread) : Option (VoucherStatus × Option ℕ × List ℕ) :=
  (p.store.vouchers.get? 0).map fun v => (v.status, v.approvedBy, v.authors)

/-- User 1 drafts, user 2 edits and submits, user 3 approves and posts. -/
theorem posted_by_second_person_edited : ∃ (p : Pool VoucherStore VoucherThread) (v : Voucher),
    v ∈ p.store.vouchers ∧
    v.authors = [1, 2] ∧ ∃ u, v.approvedBy = some u ∧ u ∉ v.authors := by
  obtain ⟨p, hp, hv⟩ := Machine.exists_reach_of_runUnder (C := EditorsDoNotApprove)
    (f := seenVoucher) (v := some (.posted, some 3, [1, 2]))
    (inTurn [(.create ⟨1, true⟩ (cashSale 5000), 1), (.update ⟨2, true⟩ 0 (cashSale 7000) 1, 2),
      (.action ⟨2, true⟩ .submit 0, 3), (.approve ⟨3, true⟩ 0, 4), (.post ⟨3, true⟩ 0, 7)])
    dualBooks_init (by decide +kernel)
  obtain ⟨v, hget, hseen⟩ := Option.map_eq_some_iff.mp hv
  obtain ⟨hst, hrest⟩ := Prod.mk.inj hseen
  obtain ⟨hmem, -⟩ := get?_eq_some.mp hget
  exact ⟨p, v, hmem, (Prod.mk.inj hrest).2, posted_by_second_person hp hmem hst⟩

def DualControl (p : Pool VoucherStore VoucherThread) :
    Act ApprovalMode VoucherCall VoucherMove → Prop
  | .env mode => mode = .dualControl
  | _ => p.store.mode = .dualControl

instance (p : Pool VoucherStore VoucherThread) (a : Act ApprovalMode VoucherCall VoucherMove) :
    Decidable (DualControl p a) := by
  unfold DualControl
  split <;> infer_instance

/-- User 1 drafts, and user 2 replaces the content, submits, approves and posts. -/
theorem posted_by_editor : ∃ p v, voucherCalls.machine.Reach DualControl p ∧
    v ∈ p.store.vouchers ∧ v.status = .posted ∧ v.approvedBy = some 2 ∧ v.authors = [1, 2] := by
  obtain ⟨p, hp, hv⟩ := Machine.exists_reach_of_runUnder (C := DualControl)
    (f := seenVoucher) (v := some (.posted, some 2, [1, 2]))
    (inTurn [(.create ⟨1, true⟩ (cashSale 5000), 1), (.update ⟨2, true⟩ 0 (cashSale 7000) 1, 2),
      (.action ⟨2, true⟩ .submit 0, 3), (.approve ⟨2, true⟩ 0, 4), (.post ⟨2, true⟩ 0, 7)])
    dualBooks_init (by decide +kernel)
  obtain ⟨v, hget, hseen⟩ := Option.map_eq_some_iff.mp hv
  obtain ⟨hst, hrest⟩ := Prod.mk.inj hseen
  obtain ⟨happ, hauth⟩ := Prod.mk.inj hrest
  exact ⟨p, v, hp, (get?_eq_some.mp hget).1, hst, happ, hauth⟩

end SyrocePms.Ledger
