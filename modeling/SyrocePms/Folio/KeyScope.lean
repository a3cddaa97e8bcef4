import SyrocePms.Folio.Calls

/-! Postings under an idempotency key. The index on the key looks at neither the tenant nor
the folio, and so does the lookup after a duplicate. A posting is answered with an entry of
its own folio and amount as long as the entry that it finds under its key is such a one. -/

namespace SyrocePms.Folio

open Lib List

def Posting.Meant (a : Posting) (e : Entry) : Prop :=
  e.tenant = a.tenant ∧ e.folio = a.folio ∧ e.amount = a.kind.signed a.amount

instance (a : Posting) (e : Entry) : Decidable (a.Meant e) :=
  inferInstanceAs (Decidable (_ ∧ _ ∧ _))

/-- When a posting under a key looks up the entry there, that entry is the one meant. -/
def Meets (s : Store) (t : Thread) (m : Move) : Prop :=
  match t.pc, m with
  | .post a (.find _), .advance =>
    ∀ key ∈ a.key, ∀ e ∈ s.ledger.rows, e.key = key → a.Meant e
  | _, _ => True

instance (s : Store) (t : Thread) (m : Move) : Decidable (Meets s t m) := by
  rcases t with ⟨c, ⟨a, pc⟩ | ⟨a, pc⟩ | ⟨a, pc⟩ | ⟨a⟩, moved⟩ <;> rcases m with _ | _ <;>
    first | (rcases pc <;> unfold Meets <;> infer_instance) | (unfold Meets; infer_instance)

def KeysScoped (p : Pool Store Thread) : Act Empty Call Move → Prop
  | .step k m => ∀ t ∈ p.threads[k]?, Meets p.store t m
  | _ => True

instance (p : Pool Store Thread) (a : Act Empty Call Move) : Decidable (KeysScoped p a) := by
  rcases a with e | c | ⟨k, m⟩ <;> unfold KeysScoped <;> infer_instance

/-! ### The answer of a posting -/

def Answers (l : Ledger) (a : Posting) (key : Key) (x : Uuid) : Prop :=
  ∃ e ∈ l.rows, e.id = x ∧ e.key = key ∧ a.Meant e

theorem Answers.grows {l l' : Ledger} {a : Posting} {x : Uuid} (h : Answers l a key x)
    (hg : l.Grows l') : Answers l' a key x := by
  obtain ⟨e, he, hid, hkey, htenant, hfolio, hamount⟩ := h
  obtain ⟨e', he', hsame⟩ := hg e he
  exact ⟨e', he', hsame.id.trans hid, hsame.key.trans hkey, hsame.tenant.trans htenant,
    hsame.folio.trans hfolio, hsame.amount.trans hamount⟩

def Pc.answered : Pc → Option Uuid
  | .post _ (.balance x) => some x
  | .returned (.posted x _) => some x
  | _ => none

def AnswerOk (l : Ledger) (a : Posting) (pc : Pc) : Prop :=
  ∀ key ∈ a.key, ∀ x ∈ pc.answered, Answers l a key x

/-- A posting that has not returned is at an operation of its own, and its answer is the
entry that it means. -/
def PostingOk (s : Store) (t : Thread) : Prop :=
  match t.call, t.pc with
  | .post a, .post b pc => b = a ∧ AnswerOk s.ledger a (.post b pc)
  | .post a, .returned r => AnswerOk s.ledger a (.returned r)
  | .post _, _ => False
  | _, _ => True

variable {call : ℕ} {s s' : Store} {t t' : Thread} {m : Move} {l l' : Ledger} {a : Posting}
variable {key : Key} {pc : Pc}

theorem AnswerOk.of_none (h : pc.answered = none) : AnswerOk l a pc := by
  intro key _ x hx
  rw [h] at hx
  cases hx

theorem AnswerOk.grows (h : AnswerOk l a pc) (hg : l.Grows l') : AnswerOk l' a pc :=
  fun key hk x hx => (h key hk x hx).grows hg

theorem PostingOk.grows (h : PostingOk s t) (hg : s.ledger.Grows s'.ledger) : PostingOk s' t := by
  obtain ⟨c, pc, moved⟩ := t
  cases c with
  | post a =>
    cases pc with
    | post b pc => exact ⟨h.1, h.2.grows hg⟩
    | returned r => exact AnswerOk.grows h hg
    | void v pc => exact h
    | transfer b pc => exact h
  | _ => trivial

theorem postingOk_raised (c : Call) (e : LedgerError) (moved : ℤ) :
    PostingOk s ⟨c, .returned (.raised e), moved⟩ := by
  cases c with
  | post a => exact AnswerOk.of_none rfl
  | _ => trivial

theorem Posting.key_entry {n : ℕ} (hk : key ∈ a.key) : (a.entry call n).key = key := by
  simp only [Posting.entry, keyOr, Option.mem_def.mp hk, Option.getD_some]

theorem postingStep_ok {pc : PostingPc} {moved moved' : ℤ} (h : AnswerOk s.ledger a (.post a pc))
    (hc : Meets s ⟨.post a, .post a pc, moved⟩ .advance) :
    PostingOk (postingStep call s a pc).1 ⟨.post a, (postingStep call s a pc).2, moved'⟩ := by
  cases pc with
  | require =>
    simp only [postingStep]
    split
    · exact ⟨rfl, .of_none rfl⟩
    · exact postingOk_raised _ _ _
  | sequence => exact ⟨rfl, .of_none rfl⟩
  | insert n =>
    simp only [postingStep]
    split
    · rename_i l hl
      refine ⟨rfl, fun key hk x hx => ?_⟩
      cases hx
      exact ⟨a.entry call n, (Ledger.mem_insertOne hl).mpr (.inr rfl), rfl, Posting.key_entry hk,
        rfl, rfl, rfl⟩
    · exact ⟨rfl, .of_none rfl⟩
  | find n =>
    simp only [postingStep]
    split
    · rename_i e he
      refine ⟨rfl, fun key hk x hx => ?_⟩
      cases hx
      obtain ⟨hmem, hkey⟩ := Ledger.key_of_findKey he
      have hown : e.key = key := hkey.trans (Posting.key_entry hk)
      exact ⟨e, hmem, rfl, hown, hc key hk e hmem hown⟩
    · exact postingOk_raised _ _ _
  | balance x =>
    simp only [postingStep]
    split
    · exact h
    · exact postingOk_raised _ _ _

theorem step_postingOk (h : PostingOk s t) (hc : Meets s t m) (hs : t.step call s m = some (s', t')) :
    PostingOk s' t' := by
  obtain ⟨c, pc, moved⟩ := t
  have hcall : t'.call = c := (step_effect hs).1
  cases c with
  | post a =>
    cases pc with
    | post b pc =>
      obtain ⟨rfl, h⟩ := h
      cases m with
      | advance =>
        cases hs
        exact postingStep_ok h hc
      | stop =>
        cases hs
        exact postingOk_raised _ _ _
    | returned r => cases m <;> cases hs
    | void v pc => exact h.elim
    | transfer b pc => exact h.elim
  | void v =>
    obtain ⟨c', pc', moved'⟩ := t'
    cases hcall
    trivial
  | transfer b =>
    obtain ⟨c', pc', moved'⟩ := t'
    cases hcall
    trivial

theorem begin_postingOk (c : Call) : PostingOk s (.begin c) := by
  cases c with
  | post a => exact ⟨rfl, .of_none rfl⟩
  | _ => trivial

theorem keyScope_preserves : calls.Preserves KeysScoped (fun _ => True)
    (fun s _ t => PostingOk s t) (fun _ _ => True) where
  symm _ _ _ := trivial
  init _ _ := trivial
  env _ e := nomatch e
  call p c t _ _ ht := by
    obtain rfl : Thread.begin c = t := Option.some.inj ht
    exact ⟨begin_postingOk c, fun _ _ => trivial⟩
  step p k m t s' t' hp hc ht hs := by
    have hg := (step_effect hs).2.grows
    exact ⟨trivial, step_postingOk (hp.thread k t ht) (hc t ht) hs,
      fun j u _ hu => ⟨(hp.thread j u hu).grows hg, trivial⟩⟩

/-! ### One entry under a key -/

def Ledger.under (l : Ledger) (key : Key) : List Entry := l.rows.filter fun e => e.key == key

theorem Ledger.under_eq {e : Entry} (he : e ∈ l.rows) : l.under e.key = [e] := by
  have hnodup : (l.under e.key).Nodup := (List.Nodup.of_map _ l.keys).filter _
  have hmem : ∀ x, x ∈ l.under e.key ↔ x = e := by
    intro x
    simp only [under, mem_filter, beq_iff_eq]
    exact ⟨fun h => Ledger.eq_of_key h.1 he h.2, fun h => ⟨h ▸ he, h ▸ rfl⟩⟩
  exact perm_singleton.mp ((perm_ext_iff_of_nodup hnodup (nodup_singleton e)).mpr
    fun x => (hmem x).trans mem_singleton.symm)

/-- A posting under a key that succeeds is answered with the one entry under its key, which
has its tenant, its folio and its amount, however often it is retried, while every posting
meets the entry that it means. -/
theorem posted_once {p : Pool Store Thread} (hp : calls.machine.Reach KeysScoped p) {k : ℕ}
    {t : Thread} (ht : p.threads[k]? = some t) (ha : t.call = .post a) {key : Key}
    (hkey : a.key = some key) {x : Uuid} {b : ℤ} (hr : t.pc = .returned (.posted x b)) :
    ∃ e, p.store.ledger.under key = [e] ∧ e.id = x ∧ e.tenant = a.tenant ∧ e.folio = a.folio ∧
      e.amount = a.kind.signed a.amount := by
  have hok : PostingOk p.store t := (keyScope_preserves.reach hp).thread k t ht
  obtain ⟨c, pc, moved⟩ := t
  cases ha
  cases hr
  obtain ⟨e, he, hid, rfl, htenant, hfolio, hamount⟩ := hok key hkey x rfl
  exact ⟨e, Ledger.under_eq he, hid, htenant, hfolio, hamount⟩

/-! ### Runs -/

def twoTenants : Store := ⟨[(1, 1), (2, 1)], .empty⟩

theorem twoTenants_init : calls.machine.init ⟨twoTenants, []⟩ := ⟨trivial, rfl⟩

def payment (tenant : ℕ) : Posting where
  kind := .payment
  tenant := tenant
  folio := 1
  amount := 5000
  key := some ⟨.given 7, []⟩

/-- A payment and its retry, which overlap. -/
theorem posted_once_retried : ∃ p t e, calls.machine.Reach KeysScoped p ∧
    p.threads[1]? = some t ∧ p.store.ledger.balance 1 1 = -5000 ∧
    p.store.ledger.under ⟨.given 7, []⟩ = [e] ∧ e.id = .drawn 0 0 ∧ e.tenant = 1 ∧ e.folio = 1 ∧
    e.amount = -5000 := by
  obtain ⟨p, hp, hv⟩ := Machine.exists_reach_of_runUnder (C := KeysScoped)
    (f := fun p : Pool Store Thread =>
      (p.threads[1]?.map fun t => (t.call, t.pc), p.store.ledger.balance 1 1))
    (v := (some (.post (payment 1), .returned (.posted (.drawn 0 0) (-5000))), -5000))
    (List.flatten [[.call (.post (payment 1)), .call (.post (payment 1))],
      List.replicate 2 (.step 1 .advance), List.replicate 3 (.step 0 .advance),
      List.replicate 3 (.step 1 .advance)])
    twoTenants_init (by decide +kernel)
  obtain ⟨hthread, hbal⟩ := Prod.mk.inj hv
  obtain ⟨t, ht, hcall⟩ := Option.map_eq_some_iff.mp hthread
  obtain ⟨hc, hpc⟩ := Prod.mk.inj hcall
  obtain ⟨e, he⟩ := posted_once hp ht hc rfl hpc
  exact ⟨p, t, e, hp, ht, hbal, he⟩

/-- A payment of tenant 1 under a key that tenant 2 has used succeeds with the entry of
tenant 2, and its own folio stays as it was. -/
theorem posted_on_another_tenant :
    ¬ (∀ (p : Pool Store Thread), calls.machine.Reachable p → ∀ (k : ℕ) (t : Thread) (a : Posting)
      (key : Key) (x : Uuid) (b : ℤ), p.threads[k]? = some t → t.call = .post a →
      a.key = some key → t.pc = .returned (.posted x b) →
      ∃ e, p.store.ledger.under key = [e] ∧ e.id = x ∧ e.tenant = a.tenant ∧ e.folio = a.folio ∧
        e.amount = a.kind.signed a.amount) := by
  intro h
  obtain ⟨p, hp, hv⟩ := Machine.exists_reachable_of_run
    (f := fun p : Pool Store Thread =>
      (p.threads[1]?, p.store.ledger.under ⟨.given 7, []⟩))
    (v := (some ⟨.post (payment 1), .returned (.posted (.drawn 0 0) 0), 0⟩,
      [(payment 2).entry 0 1]))
    (List.flatten [[.call (.post (payment 2)), .call (.post (payment 1))],
      List.replicate 4 (.step 0 .advance), List.replicate 5 (.step 1 .advance)])
    twoTenants_init (by decide +kernel)
  obtain ⟨hthread, hunder⟩ := Prod.mk.inj hv
  obtain ⟨e, he, -, htenant, -⟩ := h p hp 1 _ _ _ _ _ hthread rfl rfl rfl
  rw [hunder] at he
  cases he
  exact absurd htenant (by decide)

end SyrocePms.Folio
