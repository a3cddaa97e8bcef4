import SyrocePms.Ledger.IdempotentPosts
import SyrocePms.Ledger.MakerChecker

/-! Vouchers over the sealed journal. A call of the voucher endpoints goes on as in the
approval workflow, and while it posts its entry it is a call of `post_journal_entry`, one
operation at a time. Posts of other origin run beside it. -/

namespace SyrocePms.Ledger.VoucherPosting

open Lib Seal

structure State (H : Type) where
  journal : Seal.Store H
  mode : ApprovalMode
  vouchers : Collection Voucher Voucher.id

namespace State

variable {H : Type} (s : State H)

def view : VoucherStore := ⟨s.journal.books, s.mode, s.vouchers⟩

def put (x : VoucherStore) : State H :=
  { s with
    journal := { s.journal with periods := x.books.periods }
    vouchers := x.vouchers }

end State

/-- Where a call stands: in the workflow, in the post of the entry of a voucher, or in a post
of other origin. -/
inductive Pc (H : Type) where
  | workflow (pc : VoucherPc)
  | entering (v : Voucher) (claim : ℕ) (t : Seal.Thread H)
  | other (t : Seal.Thread H)

structure Thread (H : Type) where
  user : User
  pc : Pc H

/-- An operation, where `posting` says what happens to one on the journal. A post that
raises has raised a `GLPostingError` or another error. -/
inductive Move where
  | advance (posting : Seal.Move) (isPostingError : Bool)
  | stop

inductive Call where
  | voucher (c : VoucherCall)
  | journal (j : Job)

def voucherKey (id : ℕ) : Option Key := some (.other id)

/-- What follows the post of an entry: the voucher is posted, or approved again. -/
def afterEntry {H : Type} (v : Voucher) (claim : ℕ) (isPostingError : Bool) :
    Seal.Pc H → VoucherPc
  | .answered e => .postMark v e.payload.entry
  | .raised => if isPostingError then .postFailed v claim else .returned
  | _ => .returned

variable {H : Type}

/-- One operation of call `k`. -/
def step (hashes : Hashes H) (k : ℕ) (s : State H) (t : Thread H) :
    Move → Option (State H × Thread H)
  | .stop => some (s, { t with pc := .workflow .returned })
  | .advance posting isPostingError =>
    match t.pc with
    | .workflow (.postEntry v claim) =>
      some (s, { t with pc := .entering v claim { job := v.job } })
    | .workflow pc =>
      (voucherStep k s.view t.user.id true pc).map fun r =>
        (s.put r.1, { t with pc := .workflow r.2 })
    | .entering v claim post =>
      if post.pc.over then
        some (s, { t with pc := .workflow (afterEntry v claim isPostingError post.pc) })
      else
        (post.step hashes s.journal posting).map fun r =>
          ({ s with journal := r.1 }, { t with pc := .entering v claim r.2 })
    | .other post =>
      (post.step hashes s.journal posting).map fun r =>
        ({ s with journal := r.1 }, { t with pc := .other r.2 })

/-- Beside the calls the approval mode, the periods and the accounts change. -/
inductive Env where
  | mode (m : ApprovalMode)
  | setup (x : Setup)

def State.env (s : State H) : Env → State H
  | .mode m => { s with mode := m }
  | .setup x => { s with journal := { s.journal with periods := x.periods, accounts := x.accounts } }

def Thread.begin : Call → Option (Thread H)
  | .voucher c => some ⟨(VoucherThread.begin c).user, .workflow (VoucherThread.begin c).pc⟩
  | .journal j =>
    match j.key with
    | some (.other _) => none
    | _ => some ⟨⟨0, true⟩, .other { job := j }⟩

def voucherPosts (hashes : Hashes H) : Program (State H) (Thread H) Env Call Move where
  init s := s.vouchers = .empty ∧ (∀ e ∈ s.journal.entries, ∀ n, e.key ≠ voucherKey n) ∧
    ∀ e ∈ s.journal.entries, ∀ e' ∈ s.journal.entries, e.key.isSome = true → e.key = e'.key → e = e'
  env s x := some (s.env x)
  call _ c := Thread.begin c
  step k s t m := step hashes k s t m

end SyrocePms.Ledger.VoucherPosting

/-! Vouchers and their journal entries. From its approval on a voucher keeps its content, so
that every post of it asks for the same entry, and the key of the voucher has one entry at
most. -/

namespace SyrocePms.Ledger

open Lib

variable {f : Voucher → Voucher} {e : Entry} {a : VoucherAction} {claim : ℕ} {m : Seal.Move}

def VoucherStatus.frozen : VoucherStatus → Bool
  | .approved | .posting | .posted => true
  | _ => false

namespace VoucherPosting

open Seal

abbrev Vouchers := Collection Voucher Voucher.id

def Copies (c : Vouchers) (v : Voucher) : Prop :=
  ∃ x ∈ c, x.id = v.id ∧ x.status.frozen = true ∧ x.content = v.content

/-- Approved vouchers stay approved, with their content. -/
def KeepsFrozen (c c' : Vouchers) : Prop := ∀ v, Copies c v → Copies c' v

variable {c c' : Vouchers} {v : Voucher}

theorem Copies.self (h : v ∈ c) (hf : v.status.frozen = true) : Copies c v :=
  ⟨v, h, rfl, hf, rfl⟩

theorem KeepsFrozen.insertOne (h : c.insertOne v = some c') : KeepsFrozen c c' := by
  rintro w ⟨x, hx, hxw⟩
  exact ⟨x, (Collection.mem_insertOne h).mpr (.inl hx), hxw⟩

/-- A write that leaves the content of an approved voucher. -/
theorem KeepsFrozen.update {id : ℕ} {g : ∀ v, (f v).id = v.id}
    (h : ∀ x ∈ c, x.id = id → x.status.frozen = true →
      (f x).status.frozen = true ∧ (f x).content = x.content) :
    KeepsFrozen c (c.update id f g) := by
  rintro w ⟨x, hx, hid, hf, hcontent⟩
  by_cases hk : x.id = id
  · obtain ⟨hf', hcontent'⟩ := h x hx hk hf
    exact ⟨f x, Collection.mem_update.mpr (.inr ⟨x, hx, hk, rfl⟩), (g x).trans hid, hf',
      hcontent'.trans hcontent⟩
  · exact ⟨x, Collection.mem_update.mpr (.inl ⟨hx, hk⟩), hid, hf, hcontent⟩

variable {H : Type} {entries entries' : Entries H}

/-- The entry stands under the key of the voucher. -/
def HasEntry (entries : Entries H) (id : ℕ) (e : Entry) : Prop :=
  ∃ x ∈ entries, x.key = voucherKey id ∧ x.payload.entry = e

/-- Every posted voucher has its entry. -/
def PostedHaveEntries (entries : Entries H) (c : Vouchers) : Prop :=
  ∀ v ∈ c, v.status = .posted → ∃ e, v.entry = some e ∧ HasEntry entries v.id e

theorem PostedHaveEntries.update (hp : PostedHaveEntries entries c) {id : ℕ}
    {g : ∀ v, (f v).id = v.id} (h : ∀ x ∈ c, x.id = id → (f x).status = .posted →
      ∃ e, (f x).entry = some e ∧ HasEntry entries x.id e) :
    PostedHaveEntries entries (c.update id f g) := by
  intro w hw hst
  obtain ⟨hw, -⟩ | ⟨x, hx, hk, rfl⟩ := Collection.mem_update.mp hw
  · exact hp w hw hst
  · rw [g x]
    exact h x hx hk hst

def InWorkflow (entries : Entries H) (c : Vouchers) : VoucherPc → Prop
  | .actionContext a v => v.status ∈ a.eligible
  | .actionWrite a v => v.status ∈ a.eligible
  | .postPolicy v => Copies c v
  | .postContext v => Copies c v
  | .postClaim v => Copies c v
  | .postAgain id _ => ∃ x ∈ c, x.id = id ∧ x.status.frozen = true
  | .postEntry v _ => Copies c v
  | .postFailed v _ => Copies c v
  | .postMark v e => Copies c v ∧ HasEntry entries v.id e
  | _ => True

theorem HasEntry.mono {id : ℕ} (h : HasEntry entries id e) (he : ∀ x ∈ entries, x ∈ entries') :
    HasEntry entries' id e :=
  let ⟨x, hx, hxe⟩ := h
  ⟨x, he x hx, hxe⟩

theorem InWorkflow.keeps {pc : VoucherPc} (h : InWorkflow entries c pc) (hk : KeepsFrozen c c')
    (he : ∀ x ∈ entries, x ∈ entries') : InWorkflow entries' c' pc := by
  cases pc with
  | actionContext a v => exact h
  | actionWrite a v => exact h
  | postPolicy v => exact hk v h
  | postContext v => exact hk v h
  | postClaim v => exact hk v h
  | postAgain id claim =>
    obtain ⟨x, hx, hid, hf⟩ := h
    obtain ⟨y, hy, hyid, hyf, -⟩ := hk x (.self hx hf)
    exact ⟨y, hy, hyid.trans hid, hyf⟩
  | postEntry v claim => exact hk v h
  | postFailed v claim => exact hk v h
  | postMark v e => exact ⟨hk v h.1, h.2.mono he⟩
  | _ => trivial

/-! ### Operations of the workflow -/

/-- What an operation of the workflow leaves. -/
structure Follows (entries : Entries H) (c : Vouchers) (r : VoucherStore × VoucherPc) : Prop where
  keeps : KeepsFrozen c r.1.vouchers
  posted : PostedHaveEntries entries r.1.vouchers
  knows : InWorkflow entries r.1.vouchers r.2

variable {s s' : VoucherStore} {k actor : ℕ} {pc pc' : VoucherPc}

theorem Follows.of_eq (hp : PostedHaveEntries entries s.vouchers)
    (h : s'.vouchers = s.vouchers) (hpc : InWorkflow entries s.vouchers pc') :
    Follows entries s.vouchers (s', pc') where
  keeps := by
    intro v hv
    rwa [h]
  posted := by rwa [h]
  knows := by rwa [h]

theorem Follows.update (hp : PostedHaveEntries entries s.vouchers) {id : ℕ}
    {g : ∀ v, (f v).id = v.id} (h : s'.vouchers = s.vouchers.update id f g)
    (hfrozen : ∀ x ∈ s.vouchers, x.id = id → x.status.frozen = true →
      (f x).status.frozen = true ∧ (f x).content = x.content)
    (hposted : ∀ x ∈ s.vouchers, x.id = id → (f x).status = .posted →
      ∃ e, (f x).entry = some e ∧ HasEntry entries x.id e)
    (hpc : KeepsFrozen s.vouchers s'.vouchers → InWorkflow entries s'.vouchers pc') :
    Follows entries s.vouchers (s', pc') := by
  have hk : KeepsFrozen s.vouchers s'.vouchers := by
    rw [h]
    exact .update hfrozen
  refine ⟨hk, ?_, hpc hk⟩
  change PostedHaveEntries entries s'.vouchers
  rw [h]
  exact hp.update hposted

theorem not_frozen_of_eligible {st : VoucherStatus} (h : st ∈ a.eligible) : st.frozen = false := by
  cases a <;> simp only [VoucherAction.eligible, List.mem_cons, List.not_mem_nil, or_false] at h
  · rw [h]; rfl
  · rw [h]; rfl
  · obtain rfl | rfl := h <;> rfl

theorem updateWrite_follows {x : VoucherContent} (hp : PostedHaveEntries entries s.vouchers)
    (h : voucherStep k s actor true (.updateWrite v x) = some (s', pc')) :
    Follows entries s.vouchers (s', pc') := by
  simp only [voucherStep, Bool.and_assoc] at h
  split at h
  · rename_i hany
    cases h
    refine .update (g := fun v => v.id_edit actor x) hp rfl (fun y hy hid hf => ?_)
      (fun y _ _ hst => by cases hst) (fun _ => trivial)
    have hst := eq_of_any hany hy hid
    simp only [Bool.and_eq_true, Bool.or_eq_true, beq_iff_eq] at hst
    obtain ⟨hst | hst, -⟩ := hst <;> rw [hst] at hf <;> cases hf
  · cases h
    exact .of_eq hp rfl trivial

theorem actionWrite_follows (hp : PostedHaveEntries entries s.vouchers) (ha : v.status ∈ a.eligible)
    (h : voucherStep k s actor true (.actionWrite a v) = some (s', pc')) :
    Follows entries s.vouchers (s', pc') := by
  cases h
  cases hupd : s.update v (·.move a.target) fun v => v.id_move a.target with
  | none => exact .of_eq hp rfl trivial
  | some s₁ =>
    obtain ⟨heq, hrow⟩ := update_some hupd
    refine .update hp heq (fun x hx hid hf => ?_) (fun x _ _ hst => ?_) (fun _ => trivial)
    · rw [(hrow x hx hid).1, not_frozen_of_eligible ha] at hf
      cases hf
    · cases a <;> cases hst

theorem approveWrite_follows {mode : ApprovalMode} {post : Bool}
    (hp : PostedHaveEntries entries s.vouchers)
    (h : voucherStep k s actor true (.approveWrite v mode post) = some (s', pc')) :
    Follows entries s.vouchers (s', pc') := by
  simp only [voucherStep] at h
  split at h
  · cases h
    exact .of_eq hp rfl trivial
  · rename_i s₁ hupd
    cases h
    refine .update hp (update_some hupd).1 (fun _ _ _ _ => ⟨rfl, rfl⟩)
      (fun x _ _ hst => by cases hst) (fun _ => ?_)
    cases post <;> trivial

theorem postClaim_follows (hp : PostedHaveEntries entries s.vouchers)
    (hv : Copies s.vouchers v)
    (h : voucherStep k s actor true (.postClaim v) = some (s', pc')) :
    Follows entries s.vouchers (s', pc') := by
  simp only [voucherStep] at h
  split at h
  · cases h
    exact .of_eq hp rfl trivial
  · rename_i s₁ hupd
    cases h
    refine .update hp (update_some hupd).1 (fun _ _ _ _ => ⟨rfl, rfl⟩)
      (fun x _ _ hst => by cases hst) (fun hk => ?_)
    obtain ⟨x, hx, hid, hf, -⟩ := hk v hv
    exact ⟨x, hx, hid, hf⟩

theorem postFailed_follows (hp : PostedHaveEntries entries s.vouchers)
    (h : voucherStep k s actor true (.postFailed v claim) = some (s', pc')) :
    Follows entries s.vouchers (s', pc') := by
  simp only [voucherStep] at h
  split at h
  · cases h
    exact .update (g := fun x => x.id_failPosting) hp rfl (fun _ _ _ _ => ⟨rfl, rfl⟩)
      (fun x _ _ hst => by cases hst) (fun _ => trivial)
  · cases h
    exact .of_eq hp rfl trivial

theorem postMark_follows (hp : PostedHaveEntries entries s.vouchers) (he : HasEntry entries v.id e)
    (h : voucherStep k s actor true (.postMark v e) = some (s', pc')) :
    Follows entries s.vouchers (s', pc') := by
  simp only [voucherStep] at h
  split at h
  · cases h
    refine .update (g := fun x => x.id_finishPosting e) hp rfl (fun _ _ _ _ => ⟨rfl, rfl⟩)
      (fun x _ hid _ => ⟨e, rfl, ?_⟩) (fun _ => trivial)
    rwa [hid]
  · cases h
    exact .of_eq hp rfl trivial

theorem copies_of_get {id : ℕ} (h : s.vouchers.get? id = some v) (hf : v.status.frozen = true) :
    Copies s.vouchers v :=
  .self (Collection.get?_eq_some.mp h).1 hf

theorem postRead_knows {id : ℕ} {r : VoucherStore × VoucherPc}
    (h : voucherStep k s actor true (.postRead id) = some r) :
    r.1 = s ∧ InWorkflow entries s.vouchers r.2 := by
  cases h
  refine ⟨rfl, ?_⟩
  split
  · trivial
  · rename_i v hv
    split
    · trivial
    · split
      · rename_i hst
        exact copies_of_get hv (by rw [hst]; rfl)
      · split
        · rename_i hst
          exact copies_of_get hv (by rw [hst]; rfl)
        · trivial

theorem voucherStep_follows (hp : PostedHaveEntries entries s.vouchers)
    (hk : InWorkflow entries s.vouchers pc) (hne : ∀ v claim, pc ≠ .postEntry v claim)
    (h : voucherStep k s actor true pc = some (s', pc')) :
    Follows entries s.vouchers (s', pc') := by
  cases pc with
  | create x =>
    simp only [voucherStep] at h
    split at h
    · cases h
      exact .of_eq hp rfl trivial
    · split at h
      · obtain ⟨vouchers, hins, heq⟩ := Option.map_eq_some_iff.mp h
        cases heq
        refine ⟨.insertOne hins, fun w hw hst => ?_, trivial⟩
        obtain hw | rfl := (Collection.mem_insertOne hins).mp hw
        · exact hp w hw hst
        · cases hst
      · cases h
        exact .of_eq hp rfl trivial
  | updateRead id x version =>
    cases h
    refine .of_eq hp rfl ?_
    repeat' split
    all_goals trivial
  | updateWrite before x => exact updateWrite_follows hp h
  | actionRead a id =>
    cases h
    refine .of_eq hp rfl ?_
    split
    · trivial
    · rename_i v hfind
      have hmem := (Collection.mem_of_findOne hfind).2
      simp only [Bool.and_eq_true, beq_iff_eq, List.contains_iff_mem] at hmem
      split <;> exact hmem.2
  | actionContext a v =>
    simp only [voucherStep] at h
    split at h
    · cases h
      exact .of_eq hp rfl trivial
    · cases h
      exact .of_eq hp rfl hk
  | actionWrite a v => exact actionWrite_follows hp hk h
  | finalize id =>
    cases h
    refine .of_eq hp rfl ?_
    repeat' split
    all_goals trivial
  | approvePolicy id allowDraft =>
    cases h
    refine .of_eq hp rfl ?_
    split <;> trivial
  | approveRead id allowDraft mode =>
    cases h
    refine .of_eq hp rfl ?_
    repeat' split
    all_goals trivial
  | approveContext v mode post =>
    simp only [voucherStep] at h
    split at h <;> cases h <;> exact .of_eq hp rfl trivial
  | approveWrite v mode post => exact approveWrite_follows hp h
  | postRead id =>
    obtain ⟨heq, hknows⟩ : s' = s ∧ InWorkflow entries s.vouchers pc' := postRead_knows h
    exact .of_eq hp (congrArg VoucherStore.vouchers heq) hknows
  | postPolicy v =>
    cases h
    refine .of_eq hp rfl ?_
    split
    · trivial
    · exact hk
  | postContext v =>
    simp only [voucherStep] at h
    split at h
    · cases h
      exact .of_eq hp rfl trivial
    · cases h
      refine .of_eq hp rfl ?_
      split <;> exact hk
  | postClaim v => exact postClaim_follows hp hk h
  | postAgain id claim =>
    cases h
    refine .of_eq hp rfl ?_
    split
    · trivial
    · rename_i v hv
      obtain ⟨x, hx, hid, hf⟩ := hk
      obtain ⟨hmem, hvid⟩ := Collection.get?_eq_some.mp hv
      rw [Collection.eq_of_key hx hmem (hid.trans hvid.symm)] at hf
      exact .self hmem hf
  | postEntry v claim => exact absurd rfl (hne v claim)
  | postFailed v claim => exact postFailed_follows hp h
  | postMark v e => exact postMark_follows hp hk.2 h
  | returned => cases h

/-! ### Operations on the journal -/

variable {hashes : Hashes H}

/-- What a post adds to the journal is its own entry. -/
theorem mem_advancePc {j : Seal.Store H} {job : Job} {drawn : Option (ℕ × ℕ)} {at' : Seal.Pc H}
    (hc : Carries j 0 ⟨job, drawn, at'⟩) {e : SealedEntry H}
    (he : e ∈ (advancePc hashes j job at').1.entries) :
    e ∈ j.entries ∨ (e.key = job.key ∧ e.payload.entry.lines.lines = job.lines) := by
  cases at' with
  | insert d previous =>
    simp only [advancePc] at he
    split at he
    · exact .inl he
    · split at he
      · exact .inl he
      · rename_i entries hins
        obtain he | rfl := (Collection.mem_insertOne hins).mp he
        · exact .inl he
        · obtain ⟨rfl, -, hlines⟩ := hc
          exact .inr ⟨rfl, hlines⟩
  | period date lines =>
    simp only [advancePc] at he
    split at he <;> exact .inl he
  | reserve d =>
    simp only [advancePc] at he
    split at he <;> exact .inl he
  | _ => exact .inl he

theorem post_step {j j' : Seal.Store H} {t t' : Seal.Thread H} (hu : KeysUnique j)
    (hc : Carries j 0 t) (h : t.step hashes j m = some (j', t')) :
    Carried j j' t' ∧ t'.job = t.job ∧ ∀ e ∈ j'.entries,
      e ∈ j.entries ∨ (e.key = t.job.key ∧ e.payload.entry.lines.lines = t.job.lines) := by
  refine ⟨step_carried hu hc h, ?_⟩
  obtain ⟨job, drawn, at'⟩ := t
  unfold Seal.Thread.step at h
  split at h
  · cases h
  · cases m with
    | advance =>
      cases h
      exact ⟨rfl, fun e he => mem_advancePc hc he⟩
    | unanswered =>
      cases h
      exact ⟨rfl, fun e he => mem_advancePc hc he⟩
    | fail =>
      cases h
      exact ⟨rfl, fun e he => .inl he⟩
    | crash =>
      cases h
      exact ⟨rfl, fun e he => .inl he⟩

/-! ### The invariant -/

/-- What holds of vouchers and journal between any two operations. -/
structure Agree (s : State H) : Prop where
  keys : KeysUnique s.journal
  entries : ∀ e ∈ s.journal.entries, ∀ n, e.key = voucherKey n →
    ∃ v ∈ s.vouchers, v.id = n ∧ v.status.frozen = true ∧
      e.payload.entry.lines.lines = v.content.lines.lines
  posted : PostedHaveEntries s.journal.entries s.vouchers

def Knows (s : State H) (t : Thread H) : Prop :=
  match t.pc with
  | .workflow pc => InWorkflow s.journal.entries s.vouchers pc
  | .entering v _ post => Copies s.vouchers v ∧ post.job = v.job ∧ Carries s.journal 0 post
  | .other post => Carries s.journal 0 post ∧ ∀ n, post.job.key ≠ voucherKey n

/-- No entry is lost, and approved vouchers keep their content. -/
structure Keeps (s s' : State H) : Prop where
  entries : ∀ e ∈ s.journal.entries, e ∈ s'.journal.entries
  frozen : KeepsFrozen s.vouchers s'.vouchers

variable {s₁ s₂ : State H} {t t' : Thread H}

theorem Keeps.refl (s : State H) : Keeps s s := ⟨fun _ h => h, fun _ h => h⟩

theorem Keeps.trans {s₃ : State H} (h : Keeps s₁ s₂) (h' : Keeps s₂ s₃) : Keeps s₁ s₃ :=
  ⟨fun e he => h'.entries e (h.entries e he), fun v hv => h'.frozen v (h.frozen v hv)⟩

theorem Knows.keeps (h : Knows s₁ t) (hk : Keeps s₁ s₂) : Knows s₂ t := by
  unfold Knows at h ⊢
  cases hpc : t.pc with
  | workflow pc =>
    simp only [hpc] at h ⊢
    exact h.keeps hk.frozen hk.entries
  | entering v claim post =>
    simp only [hpc] at h ⊢
    exact ⟨hk.frozen v h.1, h.2.1, h.2.2.mono hk.entries⟩
  | other post =>
    simp only [hpc] at h ⊢
    exact ⟨h.1.mono hk.entries, h.2⟩

theorem Agree.of_keeps (h : Agree s₁) (hk : KeepsFrozen s₁.vouchers s₂.vouchers)
    (hu : KeysUnique s₂.journal) (hp : PostedHaveEntries s₂.journal.entries s₂.vouchers)
    (he : ∀ e ∈ s₂.journal.entries, e ∈ s₁.journal.entries ∨
      ∀ n, e.key = voucherKey n → ∃ v, Copies s₁.vouchers v ∧ v.id = n ∧
        e.payload.entry.lines.lines = v.content.lines.lines) : Agree s₂ where
  keys := hu
  entries e hmem n hn := by
    obtain ⟨v, hv, rfl, hlines⟩ : ∃ v, Copies s₁.vouchers v ∧ v.id = n ∧
        e.payload.entry.lines.lines = v.content.lines.lines := by
      obtain hold | hnew := he e hmem
      · obtain ⟨v, hv, hid, hf, hlines⟩ := h.entries e hold n hn
        exact ⟨v, .self hv hf, hid, hlines⟩
      · exact hnew n hn
    obtain ⟨x, hx, hid, hf, hcontent⟩ := hk v hv
    exact ⟨x, hx, hid, hf, hlines.trans (by rw [hcontent])⟩
  posted := hp

theorem Agree.post {j : Seal.Store H} {post post' : Seal.Thread H} (h : Agree s₁)
    (hc : Carries s₁.journal 0 post) (hstep : post.step hashes s₁.journal m = some (j, post'))
    (hown : ∀ n, post.job.key = voucherKey n → ∃ v, Copies s₁.vouchers v ∧ v.id = n ∧
      post.job.lines = v.content.lines.lines) :
    Agree { s₁ with journal := j } ∧ Keeps s₁ { s₁ with journal := j } ∧ post'.job = post.job ∧
      Carries j 0 post' := by
  obtain ⟨⟨hu, hmem, hc'⟩, hjob, hnew⟩ := post_step h.keys hc hstep
  refine ⟨h.of_keeps (fun _ hv => hv) hu (fun v hv hst => ?_) fun e he => ?_,
    ⟨hmem, fun _ hv => hv⟩, hjob, hc'⟩
  · obtain ⟨e, hve, hent⟩ := h.posted v hv hst
    exact ⟨e, hve, hent.mono hmem⟩
  · obtain he | ⟨hkey, hlines⟩ := hnew e he
    · exact .inl he
    · refine .inr fun n hn => ?_
      obtain ⟨v, hv, hid, hjl⟩ := hown n (hkey.symm.trans hn)
      exact ⟨v, hv, hid, hlines.trans hjl⟩

theorem afterEntry_knows {isPostingError : Bool} {post : Seal.Thread H} (hv : Copies s₁.vouchers v)
    (hjob : post.job = v.job) (hc : Carries s₁.journal 0 post) :
    InWorkflow s₁.journal.entries s₁.vouchers (afterEntry v claim isPostingError post.pc) := by
  cases hpc : post.pc with
  | answered e =>
    have hret : Returns s₁.journal post.job e := by simpa only [Carries, hpc] using hc
    refine ⟨hv, e, hret.1, ?_, rfl⟩
    rw [hret.2.1, hjob]
    rfl
  | raised => cases isPostingError <;> first | exact hv | trivial
  | _ => trivial

/-- One operation of a call. -/
theorem step_keeps {m : Move} (h : Agree s₁) (hk : Knows s₁ t)
    (hs : step hashes k s₁ t m = some (s₂, t')) : Agree s₂ ∧ Keeps s₁ s₂ ∧ Knows s₂ t' := by
  obtain ⟨user, pc⟩ := t
  cases m with
  | stop =>
    cases hs
    exact ⟨h, .refl _, trivial⟩
  | advance posting isPostingError =>
    cases pc with
    | workflow pc =>
      by_cases hpost : ∃ v claim, pc = .postEntry v claim
      · obtain ⟨v, claim, rfl⟩ := hpost
        cases hs
        exact ⟨h, .refl _, hk, rfl, trivial⟩
      · have hne : ∀ v claim, pc ≠ .postEntry v claim := fun v claim he => hpost ⟨v, claim, he⟩
        have hstep : ((voucherStep k s₁.view user.id true pc).map fun r =>
            (s₁.put r.1, (⟨user, .workflow r.2⟩ : Thread H))) = some (s₂, t') := by
          cases pc with
          | postEntry v claim => exact absurd rfl (hne v claim)
          | _ => exact hs
        obtain ⟨r, hr, heq⟩ := Option.map_eq_some_iff.mp hstep
        cases heq
        obtain ⟨hkeeps, hposted, hknows⟩ := voucherStep_follows (s := s₁.view) h.posted hk hne hr
        exact ⟨h.of_keeps hkeeps h.keys hposted fun e he => .inl he, ⟨fun e he => he, hkeeps⟩, hknows⟩
    | entering v claim post =>
      obtain ⟨hv, hjob, hc⟩ := hk
      simp only [step] at hs
      split at hs
      · cases hs
        exact ⟨h, .refl _, afterEntry_knows hv hjob hc⟩
      · obtain ⟨⟨j, post'⟩, hr, heq⟩ := Option.map_eq_some_iff.mp hs
        cases heq
        have hown : ∀ n, post.job.key = voucherKey n → ∃ w, Copies s₁.vouchers w ∧ w.id = n ∧
            post.job.lines = w.content.lines.lines := by
          intro n hn
          rw [hjob] at hn ⊢
          cases hn
          exact ⟨v, hv, rfl, rfl⟩
        obtain ⟨hagree, hkeeps, hjob', hc'⟩ := h.post hc hr hown
        exact ⟨hagree, hkeeps, hv, hjob'.trans hjob, hc'⟩
    | other post =>
      obtain ⟨hc, hother⟩ := hk
      obtain ⟨⟨j, post'⟩, hr, heq⟩ := Option.map_eq_some_iff.mp hs
      cases heq
      obtain ⟨hagree, hkeeps, hjob', hc'⟩ := h.post hc hr fun n hn => absurd hn (hother n)
      exact ⟨hagree, hkeeps, hc', hjob' ▸ hother⟩

/-! ### Every run -/

theorem begin_knows {call : Call} (h : Thread.begin call = some t) : Knows s₁ t := by
  cases call with
  | voucher c =>
    cases h
    cases c <;> simp only [Knows, VoucherThread.begin] <;> split <;> trivial
  | journal j =>
    simp only [Thread.begin] at h
    split at h
    · cases h
    · rename_i hkey
      cases h
      exact ⟨trivial, fun n hn => hkey n hn⟩

theorem env_keeps (h : Agree s₁) (x : Env) : Agree (s₁.env x) ∧ Keeps s₁ (s₁.env x) := by
  cases x with
  | mode m => exact ⟨⟨h.keys, h.entries, h.posted⟩, fun _ he => he, fun _ hv => hv⟩
  | setup x => exact ⟨⟨h.keys, h.entries, h.posted⟩, fun _ he => he, fun _ hv => hv⟩

theorem agree_preserves : (voucherPosts hashes).Preserves (fun _ _ => True) Agree
    (fun s _ t => Knows s t) (fun _ _ => True) where
  symm _ _ _ := trivial
  init s := by
    rintro ⟨hempty, hkeys, hunique⟩
    refine ⟨hunique, fun e he n hn => absurd hn (hkeys e he n), fun v hv => ?_⟩
    rw [hempty] at hv
    exact absurd hv Collection.not_mem_empty
  env p x s' hi _ hs := by
    cases hs
    obtain ⟨hagree, hkeeps⟩ := env_keeps hi.store x
    exact ⟨hagree, fun k t ht => (hi.thread k t ht).keeps hkeeps⟩
  call p c t _ _ ht := ⟨begin_knows ht, fun _ _ => trivial⟩
  step p k m t s' t' hi _ ht hs := by
    obtain ⟨hagree, hkeeps, hknows⟩ := step_keeps hi.store (hi.thread k t ht) hs
    exact ⟨hagree, hknows, fun j u _ hu => ⟨(hi.thread j u hu).keeps hkeeps, trivial⟩⟩

theorem keeps_of_path {p p' : Pool (State H) (Thread H)}
    (hp : (voucherPosts hashes).machine.Reachable p)
    (hpath : (voucherPosts hashes).machine.Path (fun _ _ => True) p p') :
    Keeps p.store p'.store := by
  refine agree_preserves.path (R := Keeps) .refl (fun _ _ _ h h' => h.trans h') ?_ ?_
    (agree_preserves.reach hp) hpath
  · intro q x s' hi _ hs
    cases hs
    exact (env_keeps hi.store x).2
  · intro q k m t s' t' hi _ ht hs
    exact (step_keeps hi.store (hi.thread k t ht) hs).2.1

/-- Voucher and journal agree: the key of a voucher has one entry at most, with the lines of
the voucher, which was approved; a posted voucher has its entry; and an approved voucher keeps
its content in every continuation. -/
theorem voucher_journal_agree {p : Pool (State H) (Thread H)}
    (hp : (voucherPosts hashes).machine.Reachable p) {v : Voucher} (hv : v ∈ p.store.vouchers) :
    (∀ e ∈ p.store.journal.entries, ∀ e' ∈ p.store.journal.entries, e.key = voucherKey v.id →
      e'.key = voucherKey v.id → e = e') ∧
    (∀ e ∈ p.store.journal.entries, e.key = voucherKey v.id →
      v.status.frozen = true ∧ e.payload.entry.lines.lines = v.content.lines.lines) ∧
    (v.status = .posted → ∃ e ∈ p.store.journal.entries, e.key = voucherKey v.id ∧
      v.entry = some e.payload.entry ∧ e.payload.entry.lines.lines = v.content.lines.lines) ∧
    (v.status.frozen = true → ∀ p',
      (voucherPosts hashes).machine.Path (fun _ _ => True) p p' →
      ∃ v' ∈ p'.store.vouchers, v'.id = v.id ∧ v'.status.frozen = true ∧
        v'.content = v.content) := by
  have hagree : Agree p.store := (agree_preserves.reach hp).store
  have hlines : ∀ e ∈ p.store.journal.entries, e.key = voucherKey v.id →
      v.status.frozen = true ∧ e.payload.entry.lines.lines = v.content.lines.lines := by
    intro e he hkey
    obtain ⟨x, hx, hid, hf, hlines⟩ := hagree.entries e he v.id hkey
    rw [Collection.eq_of_key hx hv hid] at hf hlines
    exact ⟨hf, hlines⟩
  refine ⟨fun e he e' he' hkey hkey' => ?_, hlines, fun hst => ?_, fun hf p' hpath => ?_⟩
  · exact hagree.keys e he e' he' (by rw [hkey]; rfl) (hkey.trans hkey'.symm)
  · obtain ⟨-, hentry, e, he, hkey, rfl⟩ := hagree.posted v hv hst
    exact ⟨e, he, hkey, hentry, (hlines e he hkey).2⟩
  · exact (keeps_of_path hp hpath).frozen v (.self hv hf)

/-! ### A run -/

def noVouchers : State ℕ := ⟨twoAccounts, .authorizedSelf, .empty⟩

def goes (k n : ℕ) : List (Act Env Call Move) :=
  List.replicate n (.step k (.advance .advance true))

/-- A voucher is drafted, submitted and approved, and then posted twice at once. -/
def postedTwice : List (Act Env Call Move) :=
  .call (.voucher (.create ⟨1, true⟩ (Ledger.cashSale 5000))) :: goes 0 1 ++
    .call (.voucher (.action ⟨1, true⟩ .submit 0)) :: goes 1 3 ++
    .call (.voucher (.approve ⟨1, true⟩ 0)) :: goes 2 4 ++
    .call (.voucher (.post ⟨1, true⟩ 0)) :: goes 3 8 ++
    .call (.voucher (.post ⟨2, true⟩ 0)) :: goes 4 6 ++ goes 3 7 ++ goes 4 9 ++ goes 3 1

def seenPosted (p : Pool (State ℕ) (Thread ℕ)) : Option VoucherStatus × List (Option Key) :=
  ((p.store.vouchers.get? 0).map Voucher.status, p.store.journal.entries.rows.map SealedEntry.key)

theorem voucher_journal_agree_twice : ∃ p v,
    (voucherPosts ordinalHashes).machine.Reachable p ∧ v ∈ p.store.vouchers ∧
    v.status = .posted ∧ p.store.journal.entries.rows.map SealedEntry.key = [voucherKey 0] ∧
    ∃ e ∈ p.store.journal.entries, e.key = voucherKey v.id ∧
      v.entry = some e.payload.entry ∧ e.payload.entry.lines.lines = v.content.lines.lines := by
  obtain ⟨p, hp, hv⟩ := Machine.exists_reachable_of_run
    (M := (voucherPosts ordinalHashes).machine) (s := ⟨noVouchers, []⟩) (f := seenPosted)
    (v := (some .posted, [voucherKey 0])) postedTwice
    ⟨⟨rfl, fun _ he => absurd he Collection.not_mem_empty,
      fun _ he => absurd he Collection.not_mem_empty⟩, rfl⟩ (by decide +kernel)
  obtain ⟨hget, hkeys⟩ := Prod.mk.inj hv
  obtain ⟨v, hv, hst⟩ := Option.map_eq_some_iff.mp hget
  have hmem := (Collection.get?_eq_some.mp hv).1
  exact ⟨p, v, hp, hmem, hst, hkeys, (voucher_journal_agree hp hmem).2.2.1 hst⟩

end VoucherPosting

end SyrocePms.Ledger
