import SyrocePms.Folio.Calls

/-! Voids. The compensating entry and the mark of the entry that it takes back are two
writes. When no void ends between them and none takes an entry of another kind for its
compensation, the marks and the compensations agree once the calls are over, and each pair
adds nothing to the balance. -/

namespace SyrocePms.Folio

open Lib List

/-- `x` takes back `e`. -/
structure Entry.Compensates (x e : Entry) : Prop where
  type : x.type = .void
  key : x.key = ⟨.void e.id, []⟩
  tenant : x.tenant = e.tenant
  folio : x.folio = e.folio
  amount : x.amount = -e.amount

theorem Entry.Compensates.same {x e x' e' : Entry} (h : x.Compensates e) (hx : x.Same x')
    (he : e.Same e') : x'.Compensates e' where
  type := hx.type.trans h.type
  key := by rw [hx.key, h.key, he.id]
  tenant := by rw [hx.tenant, h.tenant, he.tenant]
  folio := by rw [hx.folio, h.folio, he.folio]
  amount := by rw [hx.amount, h.amount, he.amount]

theorem Entry.Compensates.moves {x e : Entry} (h : x.Compensates e) (tenant folio : ℕ) :
    x.moves tenant folio + e.moves tenant folio = 0 := by
  simp only [Entry.moves, h.tenant, h.folio, h.amount]
  split <;> omega

namespace Ledger

def compensations (l : Ledger) (e : Entry) : List Entry :=
  l.rows.filter fun x => x.type == .void && x.key == ⟨.void e.id, []⟩

def stands (e : Entry) : Bool := e.type != .void && e.voidedBy.isNone

def standing (l : Ledger) (tenant folio : ℕ) : ℤ :=
  ((l.rows.filter stands).map (·.moves tenant folio)).sum

/-- Ids are unique, each compensation has its entry, and each mark its compensation. -/
structure Sound (l : Ledger) : Prop where
  ids : (l.rows.map Entry.id).Nodup
  voids : ∀ x ∈ l.rows, x.type = .void →
    x.voidedBy = none ∧ ∃ e ∈ l.rows, e.type ≠ .void ∧ x.Compensates e
  marked : ∀ e ∈ l.rows, e.voidedBy.isSome → ∃ x ∈ l.rows, x.Compensates e

/-- Each compensated entry is marked. -/
def Complete (l : Ledger) : Prop :=
  ∀ e ∈ l.rows, ∀ x ∈ l.rows, x.Compensates e → e.voidedBy.isSome

variable {l : Ledger} {e x : Entry}

theorem Sound.eq_of_id (h : l.Sound) (he : e ∈ l.rows) (hx : x ∈ l.rows) (hid : e.id = x.id) :
    e = x :=
  inj_on_of_nodup_map h.ids he hx hid

theorem Sound.compensates (h : l.Sound) (he : e ∈ l.rows) (hx : x ∈ l.rows)
    (htype : x.type = .void) (hkey : x.key = ⟨.void e.id, []⟩) :
    e.type ≠ .void ∧ x.Compensates e := by
  obtain ⟨-, e', he', hne, hc⟩ := h.voids x hx htype
  have hid : e'.id = e.id := by
    have heq := hc.key.symm.trans hkey
    simpa using heq
  rw [← h.eq_of_id he' he hid]
  exact ⟨hne, hc⟩

/-- The index on the key leaves room for one compensation. -/
theorem length_compensations_le (l : Ledger) (e : Entry) : (l.compensations e).length ≤ 1 := by
  have hsub : ((l.compensations e).map Entry.key).Nodup :=
    l.keys.sublist (filter_sublist.map Entry.key)
  have hall : ∀ k ∈ (l.compensations e).map Entry.key, k = ⟨.void e.id, []⟩ := by
    intro k hk
    obtain ⟨x, hx, rfl⟩ := mem_map.mp hk
    have hx := (mem_filter.mp hx).2
    simp only [Bool.and_eq_true, beq_iff_eq] at hx
    exact hx.2
  rw [eq_replicate_of_mem hall, length_map] at hsub
  exact nodup_replicate.mp hsub

theorem Sound.marked_iff (h : l.Sound) (hc : l.Complete) (he : e ∈ l.rows) :
    e.voidedBy.isSome ↔ l.compensations e ≠ [] := by
  constructor
  · intro hm
    obtain ⟨x, hx, hcomp⟩ := h.marked e he hm
    refine ne_nil_of_mem (a := x) (mem_filter.mpr ⟨hx, ?_⟩)
    simp [hcomp.type, hcomp.key]
  · intro hne
    obtain ⟨x, hx⟩ := exists_mem_of_ne_nil _ hne
    obtain ⟨hx, hp⟩ := mem_filter.mp hx
    simp only [Bool.and_eq_true, beq_iff_eq] at hp
    exact hc e he x hx (h.compensates he hx hp.1 hp.2).2

def Paired (e x : Entry) : Prop := e.Compensates x ∨ x.Compensates e

/-- An entry that does not stand has its pair, which does not stand either. -/
theorem Sound.exists_paired (h : l.Sound) (hc : l.Complete) (he : e ∈ l.rows)
    (hs : stands e = false) : ∃ x ∈ l.rows, stands x = false ∧ Paired e x := by
  by_cases htype : e.type = .void
  · obtain ⟨-, x, hx, -, hcomp⟩ := h.voids e he htype
    have hmark := hc x hx e he hcomp
    exact ⟨x, hx, by simp [stands, hmark], .inl hcomp⟩
  · have hmark : e.voidedBy.isSome := by
      cases hv : e.voidedBy with
      | none => simp [stands, htype, hv] at hs
      | some y => rfl
    obtain ⟨x, hx, hcomp⟩ := h.marked e he hmark
    exact ⟨x, hx, by simp [stands, hcomp.type], .inr hcomp⟩

theorem Sound.not_chain (h : l.Sound) (hc : l.Complete) (he : e ∈ l.rows) (hx : x ∈ l.rows)
    (hxe : x.Compensates e) : ¬ e.Compensates y := by
  intro hey
  have hnone := (h.voids e he hey.type).1
  have hsome := hc e he x hx hxe
  rw [hnone] at hsome
  cases hsome

theorem Sound.paired_unique (h : l.Sound) (hc : l.Complete) (he : e ∈ l.rows) (hx : x ∈ l.rows)
    (hy : y ∈ l.rows) (hex : Paired e x) (hxy : Paired x y) : y = e := by
  obtain hex | hxe := hex <;> obtain hxy | hyx := hxy
  · exact absurd hxy (h.not_chain hc hx he hex)
  · exact Ledger.eq_of_key hy he (hyx.key.trans hex.key.symm)
  · refine h.eq_of_id hy he ?_
    have heq := hxy.key.symm.trans hxe.key
    simpa using heq
  · exact absurd hxe (h.not_chain hc hx hy hyx)

theorem Sound.sum_not_standing (h : l.Sound) (hc : l.Complete) (tenant folio : ℕ) :
    ∑ e ∈ l.rows.toFinset with ¬ stands e = true, e.moves tenant folio = 0 := by
  have hmem : ∀ e ∈ l.rows.toFinset.filter (fun e => ¬ stands e = true),
      e ∈ l.rows ∧ stands e = false := by
    intro e he
    obtain ⟨he, hs⟩ := Finset.mem_filter.mp he
    exact ⟨mem_toFinset.mp he, Bool.eq_false_iff.mpr hs⟩
  have hpair := fun e he => h.exists_paired hc (hmem e he).1 (hmem e he).2
  choose! g hg using hpair
  refine Finset.sum_involution (fun e _ => g e) (fun e he => ?_) (fun e he hne hself => ?_)
    (fun e he => ?_) (fun e he => ?_)
  · obtain hcomp | hcomp := (hg e he).2.2
    · exact hcomp.moves tenant folio
    · exact (add_comm _ _).trans (hcomp.moves tenant folio)
  · -- An entry paired with itself moves nothing.
    have hpaired := (hg e he).2.2
    rw [hself] at hpaired
    have hzero : e.moves tenant folio + e.moves tenant folio = 0 := by
      obtain hcomp | hcomp := hpaired <;> exact hcomp.moves tenant folio
    exact hne (by omega)
  · exact Finset.mem_filter.mpr ⟨mem_toFinset.mpr (hg e he).1, by simp [(hg e he).2.1]⟩
  · have hin : g e ∈ l.rows.toFinset.filter (fun e => ¬ stands e = true) :=
      Finset.mem_filter.mpr ⟨mem_toFinset.mpr (hg e he).1, by simp [(hg e he).2.1]⟩
    exact h.paired_unique hc (hmem e he).1 (hg e he).1 (hg _ hin).1 (hg e he).2.2 (hg _ hin).2.2

theorem Sound.balance_eq (h : l.Sound) (hc : l.Complete) (tenant folio : ℕ) :
    l.balance tenant folio = l.standing tenant folio := by
  have hnodup : l.rows.Nodup := .of_map _ h.ids
  have hall := sum_toFinset (Entry.moves · tenant folio) hnodup
  have hstands := sum_toFinset (Entry.moves · tenant folio) (hnodup.filter stands)
  rw [balance, standing, ← hall, ← hstands, toFinset_filter,
    ← Finset.sum_filter_add_sum_filter_not _ (fun e => stands e = true),
    h.sum_not_standing hc, add_zero]

end Ledger

/-! ### The condition -/

/-- A void that looks up the entry under its key finds a compensation, and one that is
stopped before its mark finds its entry marked. -/
def Settles (s : Store) (t : Thread) (m : Move) : Prop :=
  match t.pc, m with
  | .void v (.find _ _), .advance =>
    ∀ x ∈ s.ledger.rows, x.key = ⟨.void v.entry, []⟩ → x.type = .void
  | .void v (.mark _), .stop => ∃ e ∈ s.ledger.rows, e.id = v.entry ∧ e.voidedBy.isSome
  | _, _ => True

instance (s : Store) (t : Thread) (m : Move) : Decidable (Settles s t m) := by
  rcases t with ⟨c, ⟨a, pc⟩ | ⟨a, pc⟩ | ⟨a, pc⟩ | ⟨a⟩, moved⟩ <;> rcases m with _ | _ <;>
    first | (rcases pc <;> unfold Settles <;> infer_instance) | (unfold Settles; infer_instance)

def VoidsSettle (p : Pool Store Thread) : Act Empty Call Move → Prop
  | .step k m => ∀ t ∈ p.threads[k]?, Settles p.store t m
  | _ => True

instance (p : Pool Store Thread) (a : Act Empty Call Move) : Decidable (VoidsSettle p a) := by
  rcases a with e | c | ⟨k, m⟩ <;> unfold VoidsSettle <;> infer_instance

/-- A ledger between calls, whose marks and compensations agree. -/
structure Ledger.Settled (l : Ledger) : Prop where
  sound : l.Sound
  complete : l.Complete
  stored : ∀ e ∈ l.rows, ∃ n, e.id = .stored n

def callsOnSettled : Program Store Thread Empty Call Move :=
  { calls with init := fun s => s.ledger.Settled }

/-! ### What holds of a void -/

def Target (l : Ledger) (v : VoidRequest) (original : Entry) : Prop :=
  ∃ e ∈ l.rows, e.id = v.entry ∧ e.tenant = v.tenant ∧ e.folio = v.folio ∧ e.type ≠ .void ∧
    e.amount = original.amount

def Compensated (l : Ledger) (v : VoidRequest) : Prop :=
  ∃ e ∈ l.rows, e.id = v.entry ∧ ∃ x ∈ l.rows, x.Compensates e

def VoidPc.Knows (l : Ledger) (v : VoidRequest) : VoidPc → Prop
  | .sequence original => Target l v original
  | .insert original _ => Target l v original
  | .find original _ => Target l v original
  | .mark _ => Compensated l v
  | _ => True

def Pc.Knows (l : Ledger) : Pc → Prop
  | .void v pc => pc.Knows l v
  | _ => True

/-- The ids of call `k` that it has not used are free, and it knows what a void knows. -/
structure VoidOk (s : Store) (k : ℕ) (t : Thread) : Prop where
  fresh : ∀ e ∈ s.ledger.rows, ∀ slot, e.id = .drawn k slot → slot < t.pc.used
  knows : t.pc.Knows s.ledger

/-- Every drawn id is one of a call of the run. -/
def IdsOfCalls (p : Pool Store Thread) : Prop :=
  ∀ e ∈ p.store.ledger.rows, ∀ k slot, e.id = .drawn k slot → k < p.threads.length

variable {call : ℕ} {s s' : Store} {t t' : Thread} {m : Move} {l l' : Ledger} {v : VoidRequest}
  {pc pc' : Pc}
variable {original y : Entry} {p p' : Pool Store Thread} {a : Act Empty Call Move}

theorem Target.grows (h : Target l v original) (hg : l.Grows l') : Target l' v original := by
  obtain ⟨e, he, hid, htenant, hfolio, htype, hamount⟩ := h
  obtain ⟨e', he', hsame⟩ := hg e he
  exact ⟨e', he', hsame.id.trans hid, hsame.tenant.trans htenant, hsame.folio.trans hfolio,
    fun hv => htype (hsame.type.symm.trans hv), hsame.amount.trans hamount⟩

theorem Compensated.grows (h : Compensated l v) (hg : l.Grows l') : Compensated l' v := by
  obtain ⟨e, he, hid, x, hx, hcomp⟩ := h
  obtain ⟨e', he', hsame⟩ := hg e he
  obtain ⟨x', hx', hsame'⟩ := hg x hx
  exact ⟨e', he', hsame.id.trans hid, x', hx', hcomp.same hsame' hsame⟩

theorem Pc.Knows.grows (h : pc.Knows l) (hg : l.Grows l') : pc.Knows l' := by
  cases pc with
  | void v pc =>
    cases pc with
    | sequence o => exact Target.grows h hg
    | insert o n => exact Target.grows h hg
    | find o n => exact Target.grows h hg
    | mark x => exact Compensated.grows h hg
    | _ => trivial
  | _ => trivial

theorem VoidRequest.compensates {e : Entry} {n : ℕ} (hid : e.id = v.entry)
    (htenant : e.tenant = v.tenant) (hfolio : e.folio = v.folio)
    (hamount : e.amount = original.amount) : (v.voidEntry original call n).Compensates e where
  type := rfl
  key := by rw [hid]; rfl
  tenant := htenant.symm
  folio := hfolio.symm
  amount := by rw [hamount]; rfl

theorem Ledger.Sound.insert {e : Entry} (h : l.Sound) (hins : l.insertOne e = some l')
    (hid : ∀ x ∈ l.rows, x.id ≠ e.id) (hmark : e.voidedBy = none)
    (hvoid : e.type = .void → ∃ x ∈ l.rows, x.type ≠ .void ∧ e.Compensates x) : l'.Sound where
  ids := by
    rw [(Ledger.insertOne_some hins).2, map_append]
    refine Ledger.nodup_append_one h.ids fun hmem => ?_
    obtain ⟨x, hx, hxe⟩ := mem_map.mp hmem
    exact hid x hx hxe
  voids x hx htype := by
    obtain hx | rfl := (Ledger.mem_insertOne hins).mp hx
    · obtain ⟨hnone, y, hy, hne, hcomp⟩ := h.voids x hx htype
      exact ⟨hnone, y, (Ledger.mem_insertOne hins).mpr (.inl hy), hne, hcomp⟩
    · obtain ⟨y, hy, hne, hcomp⟩ := hvoid htype
      exact ⟨hmark, y, (Ledger.mem_insertOne hins).mpr (.inl hy), hne, hcomp⟩
  marked x hx hsome := by
    obtain hx | rfl := (Ledger.mem_insertOne hins).mp hx
    · obtain ⟨y, hy, hcomp⟩ := h.marked x hx hsome
      exact ⟨y, (Ledger.mem_insertOne hins).mpr (.inl hy), hcomp⟩
    · rw [hmark] at hsome
      cases hsome

theorem Ledger.Sound.mark (h : l.Sound) (hcomp : Compensated l v) (reversal : Uuid) :
    (l.markVoided v.entry reversal).Sound := by
  obtain ⟨e, he, hid, x, hx, hxe⟩ := hcomp
  have hgrows : ∀ y ∈ l.rows, y.voided v.entry reversal ∈ (l.markVoided v.entry reversal).rows :=
    fun y hy => Ledger.mem_markVoided.mpr ⟨y, hy, rfl⟩
  refine ⟨?_, fun y hy htype => ?_, fun y hy hsome => ?_⟩
  · have hids : (l.markVoided v.entry reversal).rows.map Entry.id = l.rows.map Entry.id := by
      simp only [Ledger.markVoided, map_map]
      exact map_congr_left fun y _ => (y.same_voided v.entry reversal).id
    rw [hids]
    exact h.ids
  · obtain ⟨z, hz, rfl⟩ := Ledger.mem_markVoided.mp hy
    have hzvoid : z.type = .void := (z.same_voided v.entry reversal).type.symm.trans htype
    obtain ⟨hnone, w, hw, hne, hzw⟩ := h.voids z hz hzvoid
    have hzid : z.id ≠ v.entry := by
      intro heq
      have hze : z = e := h.eq_of_id hz he (heq.trans hid.symm)
      exact (h.compensates he hx hxe.type hxe.key).1 (hze ▸ hzvoid)
    have hsame := w.same_voided v.entry reversal
    refine ⟨?_, _, hgrows w hw, fun hv => hne (hsame.type.symm.trans hv),
      hzw.same (z.same_voided v.entry reversal) hsame⟩
    rw [Entry.voided, if_neg hzid]
    exact hnone
  · obtain ⟨z, hz, rfl⟩ := Ledger.mem_markVoided.mp hy
    have hsame := z.same_voided v.entry reversal
    by_cases hzid : z.id = v.entry
    · have hze : z = e := h.eq_of_id hz he (hzid.trans hid.symm)
      exact ⟨_, hgrows x hx, (hze ▸ hxe).same (x.same_voided v.entry reversal) hsame⟩
    · rw [Entry.voided, if_neg hzid] at hsome
      obtain ⟨w, hw, hwz⟩ := h.marked z hz hsome
      exact ⟨_, hgrows w hw, hwz.same (w.same_voided v.entry reversal) hsame⟩

/-! ### One step -/

theorem Effect.sound (h : s.ledger.Sound) (hok : VoidOk s call t)
    (he : Effect call s t.pc t'.pc s') : s'.ledger.Sound := by
  obtain ⟨hfresh, hknows⟩ := hok
  cases he with
  | none => exact h
  | insert e l slot hins hid hunused hused hmark hvoid =>
    refine h.insert hins (fun x hx hxe => ?_) hmark fun htype => ?_
    · exact absurd (hfresh x hx slot (hxe.trans hid)) (Nat.not_lt.mpr hunused)
    · obtain ⟨v, original, n, hpc, rfl, -⟩ := hvoid htype
      rw [hpc] at hknows
      obtain ⟨x, hx, hxid, htenant, hfolio, hne, hamount⟩ := hknows
      exact ⟨x, hx, hne, VoidRequest.compensates hxid htenant hfolio hamount⟩
  | mark v x hpc hpc' =>
    rw [hpc] at hknows
    exact h.mark hknows x

theorem Effect.ids (he : Effect call s pc pc' s') {x : Entry} (hx : x ∈ s'.ledger.rows) :
    (∃ y ∈ s.ledger.rows, y.id = x.id) ∨ ∃ slot, x.id = .drawn call slot ∧ slot < pc'.used := by
  cases he with
  | none => exact .inl ⟨x, hx, rfl⟩
  | insert e l slot hins hid hunused hused =>
    obtain hx | rfl := (Ledger.mem_insertOne hins).mp hx
    · exact .inl ⟨x, hx, rfl⟩
    · exact .inr ⟨slot, hid, hused⟩
  | mark v y =>
    obtain ⟨z, hz, rfl⟩ := Ledger.mem_markVoided.mp hx
    exact .inl ⟨z, hz, (z.same_voided v.entry y).id.symm⟩

theorem voidStep_knows {pc : VoidPc} {moved : ℤ} {c : Call} (h : s.ledger.Sound)
    (hk : pc.Knows s.ledger v) (hc : Settles s ⟨c, .void v pc, moved⟩ .advance) :
    (voidStep call s v pc).2.Knows (voidStep call s v pc).1.ledger := by
  cases pc with
  | require =>
    simp only [voidStep]
    split <;> trivial
  | read =>
    simp only [voidStep]
    split
    · trivial
    · rename_i e he
      split
      · trivial
      · split
        · trivial
        · rename_i hne
          have hp := find?_some he
          simp only [Bool.and_eq_true, beq_iff_eq] at hp
          exact ⟨e, mem_of_find?_eq_some he, hp.1.1, hp.1.2, hp.2, hne, rfl⟩
  | sequence original => exact hk
  | insert original n =>
    simp only [voidStep]
    split
    · rename_i l hl
      obtain ⟨e, he, hid, htenant, hfolio, -, hamount⟩ := hk
      exact ⟨e, (Ledger.mem_insertOne hl).mpr (.inl he), hid, _,
        (Ledger.mem_insertOne hl).mpr (.inr rfl), VoidRequest.compensates hid htenant hfolio hamount⟩
    · exact hk
  | find original n =>
    simp only [voidStep]
    split
    · rename_i x hx
      obtain ⟨hmem, hkey⟩ := Ledger.key_of_findKey hx
      obtain ⟨e, he, hid, -⟩ := hk
      have hkey' : x.key = ⟨.void e.id, []⟩ := by
        rw [hkey, hid]
        rfl
      exact ⟨e, he, hid, x, hmem, (h.compensates he hmem (hc x hmem hkey) hkey').2⟩
    · trivial
  | mark x => trivial
  | balance x =>
    simp only [voidStep]
    split <;> trivial

theorem step_knows (h : s.ledger.Sound) (hk : t.pc.Knows s.ledger) (hc : Settles s t m)
    (hs : t.step call s m = some (s', t')) : t'.pc.Knows s'.ledger := by
  obtain ⟨c, pc, moved⟩ := t
  cases m with
  | advance =>
    obtain ⟨r, hadv, heq⟩ := Option.map_eq_some_iff.mp hs
    cases heq
    cases pc with
    | post p pc =>
      cases hadv
      cases pc <;> simp only [postingStep] <;> (repeat' split) <;> trivial
    | void v pc =>
      cases hadv
      exact voidStep_knows h hk hc
    | transfer a pc =>
      cases hadv
      cases pc <;> simp only [transferStep] <;> (repeat' split) <;> trivial
    | returned r => cases hadv
  | stop =>
    cases pc with
    | returned r => cases hs
    | _ =>
      cases hs
      trivial

theorem VoidOk.step (h : s.ledger.Sound) (hok : VoidOk s call t) (hc : Settles s t m)
    (hs : t.step call s m = some (s', t')) : VoidOk s' call t' where
  fresh x hx slot hslot := by
    obtain ⟨y, hy, hid⟩ | ⟨slot', hid, hlt⟩ := (step_effect hs).2.ids hx
    · exact Nat.lt_of_lt_of_le (hok.fresh y hy slot (hid.trans hslot)) (used_mono hs)
    · have heq : slot' = slot := by
        have hdrawn := hid.symm.trans hslot
        cases hdrawn
        rfl
      exact heq ▸ hlt
  knows := step_knows h hok.knows hc hs

theorem VoidOk.other {j : ℕ} (hjk : j ≠ call) (hok : VoidOk s j t)
    (he : Effect call s pc pc' s') : VoidOk s' j t where
  fresh x hx slot hslot := by
    obtain ⟨y, hy, hid⟩ | ⟨slot', hid, -⟩ := he.ids hx
    · exact hok.fresh y hy slot (hid.trans hslot)
    · have hdrawn := hid.symm.trans hslot
      cases hdrawn
      exact absurd rfl hjk
  knows := hok.knows.grows he.grows

/-! ### All runs -/

theorem begin_voidOk (c : Call) (h : IdsOfCalls p) :
    VoidOk p.store p.threads.length (.begin c) where
  fresh e he slot hid := absurd (h e he _ slot hid) (Nat.lt_irrefl _)
  knows := by cases c <;> trivial

theorem idsOfCalls_next (h : IdsOfCalls p) (hs : callsOnSettled.machine.step p a = some p') :
    IdsOfCalls p' := by
  intro x hx k slot hslot
  cases a with
  | env e => cases e
  | call c =>
    obtain ⟨t, -, hstore, hthreads⟩ := Program.next_call hs
    rw [hstore] at hx
    rw [hthreads, length_append]
    exact Nat.lt_add_right _ (h x hx k slot hslot)
  | step j m =>
    obtain ⟨t, t', ht, hst, hthreads⟩ := Program.next_step hs
    have hj : j < p.threads.length := (List.getElem?_eq_some_iff.mp ht).1
    rw [hthreads, List.length_set]
    obtain ⟨y, hy, hid⟩ | ⟨slot', hid, -⟩ := (step_effect hst).2.ids hx
    · exact h y hy k slot (hid.trans hslot)
    · have hdrawn := hid.symm.trans hslot
      cases hdrawn
      exact hj

theorem voids_preserves : callsOnSettled.Preserves (fun p a => VoidsSettle p a ∧ IdsOfCalls p)
    (fun s => s.ledger.Sound) VoidOk (fun _ _ => True) where
  symm _ _ _ := trivial
  init _ h := h.sound
  env _ e := nomatch e
  call p c t _ hc ht := by
    obtain rfl : Thread.begin c = t := Option.some.inj ht
    exact ⟨begin_voidOk c hc.2, fun _ _ => trivial⟩
  step p k m t s' t' hp hc ht hs := by
    have hok := hp.thread k t ht
    have heff := (step_effect hs).2
    exact ⟨heff.sound hp.store hok, hok.step hp.store (hc.1 t ht) hs,
      fun j u hjk hu => ⟨(hp.thread j u hu).other hjk heff, trivial⟩⟩

/-- A compensated entry is marked, or a void is about to mark it. -/
def Pending (p : Pool Store Thread) : Prop :=
  ∀ e ∈ p.store.ledger.rows, ∀ x ∈ p.store.ledger.rows, x.Compensates e →
    e.voidedBy.isSome ∨ ∃ t ∈ p.threads, ∃ v y, t.pc = .void v (.mark y) ∧ v.entry = e.id

/-- A compensated pair was there before the step, or its void has just stored it. -/
theorem Effect.pair_before (h : s.ledger.Sound) (hok : VoidOk s call t)
    (he : Effect call s t.pc pc' s') {e x : Entry} (hmem : e ∈ s'.ledger.rows)
    (hx : x ∈ s'.ledger.rows) (hcomp : x.Compensates e) :
    (∃ e₀ ∈ s.ledger.rows, ∃ x₀ ∈ s.ledger.rows, x₀.Compensates e₀ ∧ e₀.Same e) ∨
      ∃ v y, pc' = .void v (.mark y) ∧ v.entry = e.id := by
  cases he with
  | none => exact .inl ⟨e, hmem, x, hx, hcomp, .refl e⟩
  | insert z l slot hins hid hunused hused hmark hvoid =>
    obtain hx | rfl := (Ledger.mem_insertOne hins).mp hx
    · obtain hmem | rfl := (Ledger.mem_insertOne hins).mp hmem
      · exact .inl ⟨e, hmem, x, hx, hcomp, .refl e⟩
      · -- The id of a new entry is in the key of no compensation that is stored.
        obtain ⟨-, e₀, he₀, -, hcomp₀⟩ := h.voids x hx hcomp.type
        have hids : e₀.id = e.id := by simpa using hcomp₀.key.symm.trans hcomp.key
        exact absurd (hok.fresh e₀ he₀ slot (hids.trans hid)) (Nat.not_lt.mpr hunused)
    · obtain ⟨v, original, n, -, rfl, hpc'⟩ := hvoid hcomp.type
      have hkey := hcomp.key
      simp only [VoidRequest.voidEntry, Key.mk.injEq, KeyText.void.injEq, and_true] at hkey
      exact .inr ⟨v, _, hpc', hkey⟩
  | mark v y =>
    obtain ⟨e₀, he₀, rfl⟩ := Ledger.mem_markVoided.mp hmem
    obtain ⟨x₀, hx₀, rfl⟩ := Ledger.mem_markVoided.mp hx
    have hse := e₀.same_voided v.entry y
    have hsx := x₀.same_voided v.entry y
    refine .inl ⟨e₀, he₀, x₀, hx₀, ⟨?_, ?_, ?_, ?_, ?_⟩, hse⟩
    · rw [← hsx.type, hcomp.type]
    · rw [← hsx.key, hcomp.key, hse.id]
    · rw [← hsx.tenant, hcomp.tenant, hse.tenant]
    · rw [← hsx.folio, hcomp.folio, hse.folio]
    · rw [← hsx.amount, hcomp.amount, hse.amount]

theorem marked_of_step (h : s.ledger.Sound) {y : Uuid} (hpc : t.pc = .void v (.mark y))
    (hc : Settles s t m) (hs : t.step call s m = some (s', t')) {e : Entry}
    (he : e ∈ s'.ledger.rows) (hid : e.id = v.entry) : e.voidedBy.isSome := by
  obtain ⟨c, pc, moved⟩ := t
  cases hpc
  cases m with
  | advance =>
    cases hs
    obtain ⟨e₀, he₀, rfl⟩ := Ledger.mem_markVoided.mp he
    have hid₀ : e₀.id = v.entry := (e₀.same_voided v.entry y).id.symm.trans hid
    rw [Entry.voided, if_pos hid₀]
    rfl
  | stop =>
    cases hs
    obtain ⟨e₀, he₀, hid₀, hmark⟩ := hc
    rwa [h.eq_of_id he he₀ (hid.trans hid₀.symm)]

/-- No void leaves a compensated entry unmarked behind it. -/
theorem pending_next (hi : Program.Inv (fun s => s.ledger.Sound) VoidOk (fun _ _ => True) p)
    (hp : Pending p) (hc : VoidsSettle p a) (hs : callsOnSettled.machine.step p a = some p') :
    Pending p' := by
  intro e he x hx hcomp
  cases a with
  | env e => cases e
  | call c =>
    obtain ⟨t, -, hstore, hthreads⟩ := Program.next_call hs
    rw [hstore] at he hx
    obtain hmark | ⟨u, hu, hpc⟩ := hp e he x hx hcomp
    · exact .inl hmark
    · exact .inr ⟨u, hthreads ▸ mem_append_left _ hu, hpc⟩
  | step k m =>
    obtain ⟨t, t', ht, hst, hthreads⟩ := Program.next_step hs
    have hown : t' ∈ p'.threads := hthreads ▸ Program.self_mem_set ht t'
    obtain ⟨e₀, he₀, x₀, hx₀, hcomp₀, hsame⟩ | ⟨v, y, hpc, hentry⟩ :=
      (step_effect hst).2.pair_before hi.store (hi.thread k t ht) he hx hcomp
    · obtain hmark | ⟨u, hu, v, y, hpc, hentry⟩ := hp e₀ he₀ x₀ hx₀ hcomp₀
      · exact .inl (hsame.marked hmark)
      · obtain rfl | hu' := Program.eq_or_mem_set ht hu t'
        · exact .inl (marked_of_step hi.store hpc (hc u ht) hst he (hsame.id.trans hentry.symm))
        · exact .inr ⟨u, hthreads ▸ hu', v, y, hpc, hentry.trans hsame.id.symm⟩
    · exact .inr ⟨t', hown, v, y, hpc, hentry⟩

/-- Voids apply once: an entry has at most one compensation, and once the calls are over it
is marked exactly when it has one, and the balance of a folio is the sum of its entries that
stand, in a run whose voids all settle. -/
theorem voids_applied_once {p : Pool Store Thread}
    (hp : callsOnSettled.machine.Reach VoidsSettle p) :
    (∀ e, (p.store.ledger.compensations e).length ≤ 1) ∧
    ((∀ t ∈ p.threads, ∃ r, t.pc = .returned r) →
      (∀ e ∈ p.store.ledger.rows,
        e.voidedBy.isSome ↔ p.store.ledger.compensations e ≠ []) ∧
      ∀ tenant folio,
        p.store.ledger.balance tenant folio = p.store.ledger.standing tenant folio) := by
  refine ⟨p.store.ledger.length_compensations_le, fun hover => ?_⟩
  have hp' := hp.strengthen IdsOfCalls
    (fun q hq e he k slot hid => by
      obtain ⟨n, hn⟩ := hq.1.stored e he
      rw [hn] at hid
      cases hid)
    (fun q a q' hq _ hs => idsOfCalls_next hq hs)
  have hsound : p.store.ledger.Sound := (voids_preserves.reach hp').store
  have hpending : Pending p := voids_preserves.reach_pool
    (fun q hq e he x hx hcomp => .inl (hq.1.complete e he x hx hcomp))
    (fun q a q' hi hq hc hs => pending_next hi hq hc.1 hs) hp'
  have hcomplete : p.store.ledger.Complete := by
    intro e he x hx hcomp
    obtain hmark | ⟨t, ht, v, y, hpc, -⟩ := hpending e he x hx hcomp
    · exact hmark
    · obtain ⟨r, hr⟩ := hover t ht
      rw [hr] at hpc
      cases hpc
  exact ⟨fun e he => hsound.marked_iff hcomplete he, hsound.balance_eq hcomplete⟩

/-! ### Runs -/

def oneFolio : Store := ⟨[(1, 1)], .empty⟩

theorem oneFolio_init : callsOnSettled.machine.init ⟨oneFolio, []⟩ :=
  ⟨⟨⟨nodup_nil, fun _ hx => absurd hx not_mem_nil,
      fun _ hx => absurd hx not_mem_nil⟩,
    fun _ hx => absurd hx not_mem_nil, fun _ hx => absurd hx not_mem_nil⟩, rfl⟩

def hundred : Call := .post ⟨.charge, 1, 1, 10000, none⟩

def voidOfHundred : Call := .void ⟨1, 1, .drawn 0 0⟩

/-- A charge, and two voids of it that overlap with a second charge. -/
theorem voids_applied_once_twice : ∃ p, callsOnSettled.machine.Reach VoidsSettle p ∧
    p.store.ledger.balance 1 1 = 10000 ∧ p.store.ledger.rows.map Entry.voidedBy =
      [some (.drawn 1 0), none, none] ∧
    (∀ e, (p.store.ledger.compensations e).length ≤ 1) ∧
    ((∀ t ∈ p.threads, ∃ r, t.pc = .returned r) →
      (∀ e ∈ p.store.ledger.rows,
        e.voidedBy.isSome ↔ p.store.ledger.compensations e ≠ []) ∧
      ∀ tenant folio,
        p.store.ledger.balance tenant folio = p.store.ledger.standing tenant folio) := by
  obtain ⟨p, hp, hv⟩ := Machine.exists_reach_of_runUnder (M := callsOnSettled.machine)
    (C := VoidsSettle)
    (f := fun p : Pool Store Thread =>
      (p.store.ledger.balance 1 1, p.store.ledger.rows.map Entry.voidedBy))
    (v := (10000, [some (.drawn 1 0), none, none]))
    (List.flatten [[.call hundred], List.replicate 4 (.step 0 .advance), [.call voidOfHundred,
      .call voidOfHundred, .call hundred], List.replicate 3 (.step 1 .advance),
      List.replicate 3 (.step 2 .advance), [.step 1 .advance], List.replicate 4 (.step 3 .advance),
      List.replicate 4 (.step 2 .advance), List.replicate 2 (.step 1 .advance)])
    oneFolio_init (by decide +kernel)
  obtain ⟨hbal, hmarks⟩ := Prod.mk.inj hv
  exact ⟨p, hp, hbal, hmarks, voids_applied_once hp⟩

/-- A void that stops between its two writes leaves its entry unmarked beside its
compensation, and the folio at zero with an entry of 100 that stands. -/
theorem void_stopped_before_mark :
    ¬ ∀ p : Pool Store Thread, callsOnSettled.machine.Reachable p →
      (∀ t ∈ p.threads, ∃ r, t.pc = .returned r) →
      (∀ e ∈ p.store.ledger.rows,
        e.voidedBy.isSome ↔ p.store.ledger.compensations e ≠ []) ∧
      ∀ tenant folio,
        p.store.ledger.balance tenant folio = p.store.ledger.standing tenant folio := by
  intro h
  obtain ⟨p, hp, hv⟩ := Machine.exists_reachable_of_run (M := callsOnSettled.machine)
    (f := fun p : Pool Store Thread =>
      (p.store.ledger.balance 1 1, p.store.ledger.standing 1 1, p.threads.map Thread.pc))
    (v := (0, 10000, [.returned (.posted (.drawn 0 0) 10000), .returned (.raised .interrupted)]))
    (List.flatten [[.call hundred], List.replicate 4 (.step 0 .advance), [.call voidOfHundred],
      List.replicate 4 (.step 1 .advance), [.step 1 .stop]])
    oneFolio_init (by decide +kernel)
  obtain ⟨hbal, hrest⟩ := Prod.mk.inj hv
  obtain ⟨hstanding, hpcs⟩ := Prod.mk.inj hrest
  have hover : ∀ t ∈ p.threads, ∃ r, t.pc = .returned r := by
    intro t ht
    have hmem := mem_map_of_mem (f := Thread.pc) ht
    rw [hpcs] at hmem
    simp only [mem_cons, not_mem_nil, or_false] at hmem
    obtain hpc | hpc := hmem <;> exact ⟨_, hpc⟩
  have heq := (h p hp hover).2 1 1
  rw [hbal, hstanding] at heq
  exact absurd heq (by decide)

end SyrocePms.Folio
