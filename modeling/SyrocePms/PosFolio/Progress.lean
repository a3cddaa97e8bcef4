import Mathlib.Data.List.Dedup
import SyrocePms.PosFolio.Effects

/-! One step of a delivery: what it knows before and after, what it writes, and why every due
stays covered. -/

namespace SyrocePms.PosFolio

open Lib List

variable {s s' : Store} {b : Body} {t u : Delivery} {d : Due} {touched : ℕ → Prop}
variable {r : Recalc} {f : ℕ} {fs : List ℕ} {d₀ : Due} {pc : Pc}

/-- What has been read of the ledger of `f` still holds. -/
def Recalc.Current (s : Store) (f : ℕ) : Recalc → Prop
  | .charges => True
  | .payments c => c = s.chargesTotal f
  | .write c q => c = s.chargesTotal f ∧ q = s.paymentsTotal f

/-- A reversal, delivered or nested in a posting of the order. -/
def Body.Reverses (s : Store) (b : Body) : Prop :=
  s.intent b.order = true ∧ (b.kind = .reversed ∨ ∃ g, b.posts g)

/-- The folios of a reversal carry a line of its order, or are named by the event. -/
def Body.Affects (s : Store) (b : Body) (fs : List ℕ) : Prop :=
  ∀ f ∈ fs, f ∈ s.carriers b.order ∨ b.folioId = some f

/-- What a delivery knows in its state. -/
def Pc.Fits (s : Store) (b : Body) : Pc → Prop
  | .check => b.kind = .posted
  | .folio | .insert _ _ | .route _ | .recheck => ∃ g, b.posts g
  | .posting r conflict => conflict = none ∧ ∃ g, b.posts g ∧ r.Current s g
  | .affected => b.Reverses s
  | .void fs | .late fs => b.Reverses s ∧ b.Affects s fs
  | .balances fs r => b.Reverses s ∧ b.Affects s fs ∧ ∀ f ∈ fs.head?, r.Current s f
  | .mark _ | .ended => True

structure Ok (s : Store) (t : Delivery) : Prop where
  event : ∃ e ∈ s.events, e.id = t.eventId ∧ e.body = t.body
  fits : t.pc.Fits s t.body

/-! ### Other deliveries -/

theorem Recalc.Current.effect (h : Effect s s' touched) (hf : r ≠ .charges → ¬ touched f)
    (hr : r.Current s f) : r.Current s' f := by
  cases r with
  | charges => trivial
  | payments c => exact Eq.trans hr (h.charges f (hf (by simp))).symm
  | write c q => exact ⟨hr.1.trans (h.charges f (hf (by simp))).symm, hr.2.trans (h.paymentsTotal f).symm⟩

theorem Body.Reverses.grows (h : Grows s s') (hb : b.Reverses s) : b.Reverses s' :=
  ⟨h.intent hb.1, hb.2⟩

theorem Body.Affects.grows (h : Grows s s') (hb : b.Affects s fs) : b.Affects s' fs :=
  fun f hf => (hb f hf).imp (h.carriers _ _) id

theorem Ok.effect (h : Effect s s' touched) (hread : ∀ f, touched f → u.reads f = false)
    (hu : Ok s u) : Ok s' u := by
  obtain ⟨⟨e, he, hid, hbody⟩, hfits⟩ := hu
  obtain ⟨e', he', hid', hbody'⟩ := h.grows.events e he
  refine ⟨⟨e', he', hid'.trans hid, hbody'.trans hbody⟩, ?_⟩
  cases hpc : u.pc <;> rw [hpc] at hfits
  case posting r conflict =>
    obtain ⟨hnone, g, hposts, hcur⟩ := hfits
    refine ⟨hnone, g, hposts, hcur.effect h fun hne htouch => ?_⟩
    have hfalse := hread g htouch
    simp [Delivery.reads, hpc, hne, hposts.2.1] at hfalse
  case affected => exact hfits.grows h.grows
  case void fs => exact ⟨hfits.1.grows h.grows, hfits.2.grows h.grows⟩
  case late fs => exact ⟨hfits.1.grows h.grows, hfits.2.grows h.grows⟩
  case balances fs r =>
    refine ⟨hfits.1.grows h.grows, hfits.2.1.grows h.grows, fun f hf => ?_⟩
    refine (hfits.2.2 f hf).effect h fun hne htouch => ?_
    have hfalse := hread f htouch
    cases fs with
    | nil => cases hf
    | cons g fs =>
      cases hf
      simp [Delivery.reads, hpc, hne] at hfalse
  all_goals exact hfits

/-! ### Progress -/

/-- The dues that lead to a due: itself, and for the balance of a folio the lines of a
reversed order that it carries. -/
def Leads (s : Store) (d₀ d : Due) : Prop :=
  d₀ = d ∨ ∃ o f, d₀ = .line o f ∧ d = .balance f ∧ s.intent o = true ∧ f ∈ s.carriers o

theorem Body.covers_leads (h : Grows s s') (hd : Leads s' d₀ d) (hc : b.covers s d₀) :
    b.covers s' d := by
  obtain rfl | ⟨o, f, rfl, rfl, hi, hf⟩ := hd
  · exact h.body hc
  · exact Body.covers_balance hi hf (h.body hc)

theorem Delivery.covers_leads (h : Grows s s') (hd : Leads s' d₀ d) (hc : t.covers s d₀) :
    t.covers s' d := by
  obtain rfl | ⟨o, f, rfl, rfl, hi, hf⟩ := hd
  · exact h.delivery hc
  · exact Delivery.covers_balance hi hf (h.delivery hc)

/-- What a step of `t` to the state `pc'` achieves. -/
structure Progress (s s' : Store) (t : Delivery) (pc' : Pc) (touched : ℕ → Prop) : Prop where
  effect : Effect s s' touched
  fits : pc'.Fits s' t.body
  events : ∀ e ∈ s.events, e.id ≠ t.eventId → e ∈ s'.events
  dues : ∀ d, s'.isDue d → pc'.covers s' t.body d ∨
    ∃ d₀, s.isDue d₀ ∧ ¬ t.covers s d₀ ∧ Leads s' d₀ d

theorem Progress.of_covers {pc' : Pc} (he : Effect s s' touched) (hevents : s'.events = s.events)
    (hfits : pc'.Fits s' t.body)
    (hdues : ∀ d, s'.isDue d → pc'.covers s' t.body d ∨
      (s.isDue d ∧ (t.covers s d → pc'.covers s' t.body d))) : Progress s s' t pc' touched where
  effect := he
  fits := hfits
  events e hm _ := hevents ▸ hm
  dues d hd := by
    obtain hcov | ⟨hold, hkeep⟩ := hdues d hd
    · exact .inl hcov
    · by_cases hc : t.covers s d
      · exact .inl (hkeep hc)
      · exact .inr ⟨d, hold, hc, .inl rfl⟩

/-- A step that only reads. -/
theorem Progress.of_read {pc' : Pc} (hfits : pc'.Fits s t.body)
    (hkeep : ∀ d, s.isDue d → t.covers s d → pc'.covers s t.body d) :
    Progress s s t pc' fun _ => False :=
  .of_covers .refl rfl hfits fun d hd => .inr ⟨hd, hkeep d hd⟩

theorem Recalc.Current.next (hr : r.Current s f) : (r.next s f).Current s f := by
  cases r with
  | charges => rfl
  | payments c => exact ⟨hr, rfl⟩
  | write c q => exact hr

theorem setBalance_current {c q : ℤ} (h : (Recalc.write c q).Current s f) :
    s.setBalance f (c - q) = s.setBalance f (s.ledger f) := by
  rw [h.1, h.2, Store.ledger]

theorem Progress.mono {pc' : Pc} {touched' : ℕ → Prop} (h : Progress s s' t pc' touched)
    (himp : ∀ f, touched f → touched' f) : Progress s s' t pc' touched' where
  effect := ⟨h.effect.grows, fun f hf => h.effect.charges f fun ht => hf (himp f ht),
    h.effect.payments⟩
  fits := h.fits
  events := h.events
  dues := h.dues

def Voids (s : Store) (t : Delivery) (f : ℕ) : Prop :=
  ∃ fs, t.pc = .void fs ∧
    ∃ c ∈ s.charges.rows, c.isOf t.body.order = true ∧ c.voided = false ∧ c.folioId = f

/-- The compensation covers the balances of its folios; what covers a line on another folio
covers the balance of that folio. -/
theorem void_progress (hpc : t.pc = .void fs) (hrev : t.body.Reverses s)
    (haff : t.body.Affects s fs) :
    Progress s (s.voidOrder t.body.order) t (.late fs) (Voids s t) where
  effect :=
    ⟨(voidOrder_effect _).grows, fun f hf => (voidOrder_effect _).charges f fun hc => hf ⟨fs, hpc, hc⟩,
      rfl⟩
  fits := ⟨hrev.grows (voidOrder_effect _).grows, haff.grows (voidOrder_effect _).grows⟩
  events _ he _ := he
  dues d hd := by
    have hcov : ∀ f ∈ fs, (Pc.late fs).covers (s.voidOrder t.body.order) t.body (.balance f) :=
      fun f hf => hf
    obtain ⟨hold, hline⟩ | ⟨f, rfl, hold⟩ := voidOrder_due hrev.1 hd
    · by_cases hc : t.covers s d
      · left
        simp only [Delivery.covers, hpc] at hc
        cases d with
        | line o f =>
          obtain ⟨rfl, -⟩ := hc
          exact absurd rfl (hline f)
        | late o => exact hc
        | balance f => exact hc
      · exact .inr ⟨d, hold, hc, .inl rfl⟩
    · by_cases hf : f ∈ fs
      · exact .inl (hcov f hf)
      · refine .inr ⟨.line t.body.order f, hold, fun hc => hf ?_, .inr ⟨_, f, rfl, rfl, hold.1, ?_⟩⟩
        · simp only [Delivery.covers, hpc] at hc
          exact hc.2
        · obtain ⟨-, c, hc, hof, hcf, -⟩ := hold
          exact (voidOrder_effect _).grows.carriers _ _ (Store.mem_carriers.mpr ⟨c, hc, hof, hcf⟩)

theorem reversedStep_progress {pc' : Pc} (hfits : t.pc.Fits s t.body)
    (hstep : reversedStep s t.body t.pc = some (s', pc')) :
    Progress s s' t pc' (Voids s t) := by
  cases hpc : t.pc <;> rw [hpc] at hfits hstep
  case affected =>
    cases hstep
    have hmem : ∀ f, f ∈ (s.carriers t.body.order ++ t.body.folioId.toList).dedup ↔
        f ∈ s.carriers t.body.order ∨ t.body.folioId = some f := by
      intro f
      rw [mem_dedup, mem_append, Option.mem_toList]
    refine Progress.mono (.of_read ⟨hfits, fun f hf => (hmem f).mp hf⟩ fun d hd hc => ?_)
      fun _ h => h.elim
    simp only [Delivery.covers, hpc] at hc
    cases d with
    | line o f =>
      cases hc
      obtain ⟨-, c, hc, hof, hcf, -⟩ := hd
      exact ⟨rfl, (hmem f).mpr (.inl (Store.mem_carriers.mpr ⟨c, hc, hof, hcf⟩))⟩
    | late o => exact hc
    | balance f => exact (hmem f).mpr hc
  case void fs =>
    cases hstep
    exact void_progress hpc hfits.1 hfits.2
  case late fs =>
    cases hstep
    have hgrows := (reverseLate_effect (s := s) t.body.order).grows
    have hmem : ∀ f, f ∈ fs.insertionSort (· ≤ ·) ↔ f ∈ fs := fun f => mem_insertionSort _
    refine Progress.mono (.of_covers (reverseLate_effect _) rfl ⟨hfits.1.grows hgrows,
      fun f hf => ?_, fun _ _ => trivial⟩ fun d hd => ?_) fun _ h => h.elim
    · exact (hfits.2.grows hgrows) f ((hmem f).mp hf)
    · obtain ⟨hold, hne⟩ := reverseLate_due hd
      refine .inr ⟨hold, fun hc => ?_⟩
      simp only [Delivery.covers, hpc] at hc
      cases d with
      | line o f => exact hc
      | late o => exact absurd (congrArg Due.late hc.symm) hne
      | balance f => exact (hmem f).mpr hc
  case balances fs r =>
    cases fs with
    | nil =>
      cases hstep
      refine Progress.mono (.of_read trivial fun d hd hc => ?_) fun _ h => h.elim
      simp only [Delivery.covers, hpc] at hc
      cases d with
      | line o f => exact hc
      | late o => exact hc
      | balance f => exact absurd hc not_mem_nil
    | cons f fs =>
      obtain ⟨hrev, haff, hcur⟩ := hfits
      have hcur' := hcur f rfl
      have hread : (r' : Recalc) → r'.Current s f →
          Progress s s t (.balances (f :: fs) r') fun _ => False := by
        intro r' hr'
        refine .of_read ⟨hrev, haff, fun x hx => ?_⟩ fun d hd hc => ?_
        · cases hx
          exact hr'
        · simp only [Delivery.covers, hpc] at hc
          cases d <;> exact hc
      cases r with
      | charges =>
        cases hstep
        exact (hread _ hcur'.next).mono fun _ h => h.elim
      | payments c =>
        cases hstep
        exact (hread _ hcur'.next).mono fun _ h => h.elim
      | write c q =>
        cases hstep
        rw [setBalance_current hcur']
        have heff := setBalance_effect (s := s) f (s.ledger f)
        refine Progress.mono (.of_covers heff rfl ⟨hrev.grows heff.grows, fun x hx => ?_,
          fun _ _ => trivial⟩ fun d hd => ?_) fun _ h => h.elim
        · exact (haff.grows heff.grows) x (mem_cons_of_mem _ hx)
        · obtain ⟨hold, hne⟩ := setBalance_due hd
          refine .inr ⟨hold, fun hc => ?_⟩
          simp only [Delivery.covers, hpc] at hc
          cases d with
          | line o x => exact hc
          | late o => exact hc
          | balance x =>
            obtain rfl | hx := mem_cons.mp hc
            · exact absurd rfl hne
            · exact hx
  all_goals cases hstep

/-! ### Postings -/

/-- What an insert may touch: the folio of the event. -/
def Posts (s : Store) (t : Delivery) (f : ℕ) : Prop :=
  t.body.folioId = some f ∧ ∃ l rest inserted, t.pc = .insert (l :: rest) inserted ∧
    s.insertLine t.body.order f l ≠ none

/-- A posting before its second look at the reversal covers the lines and the late charge of
its order. -/
def Pc.looksAgain : Pc → Bool
  | .folio | .insert _ _ | .route _ | .posting _ _ | .recheck => true
  | _ => false

theorem Pc.covers_line {o : ℕ} (h : pc.looksAgain = true) (hb : ∃ g, b.posts g) :
    pc.covers s b (.line o f) ↔ b.order = o := by
  cases pc <;> first | exact Iff.rfl | exact ⟨And.left, fun ho => ⟨ho, .inr hb⟩⟩ | cases h

theorem Pc.covers_late {o : ℕ} (h : pc.looksAgain = true) (hb : ∃ g, b.posts g) :
    pc.covers s b (.late o) ↔ b.order = o := by
  cases pc <;> first | exact Iff.rfl | exact ⟨And.left, fun ho => ⟨ho, .inr hb⟩⟩ | cases h

/-- Between two such states only the balances have to be compared. -/
theorem Progress.of_looksAgain {pc' : Pc} (he : Effect s s' touched)
    (hevents : s'.events = s.events) (hb : ∃ g, t.body.posts g) (hpc : t.pc.looksAgain = true)
    (hpc' : pc'.looksAgain = true) (hfits : pc'.Fits s' t.body)
    (hline : ∀ o f, s'.isDue (.line o f) → t.body.order = o ∨ s.isDue (.line o f))
    (hlate : ∀ o, s'.isDue (.late o) → t.body.order = o ∨ s.isDue (.late o))
    (hbal : ∀ f, s'.isDue (.balance f) → pc'.covers s' t.body (.balance f) ∨
      (s.isDue (.balance f) ∧ (t.pc.covers s t.body (.balance f) →
        pc'.covers s' t.body (.balance f)))) :
    Progress s s' t pc' touched := by
  refine .of_covers he hevents hfits fun d hd => ?_
  cases d with
  | line o f =>
    refine (hline o f hd).imp (Pc.covers_line hpc' hb).mpr fun hold => ⟨hold, fun hc => ?_⟩
    exact (Pc.covers_line hpc' hb).mpr ((Pc.covers_line hpc hb).mp hc)
  | late o =>
    refine (hlate o hd).imp (Pc.covers_late hpc' hb).mpr fun hold => ⟨hold, fun hc => ?_⟩
    exact (Pc.covers_late hpc' hb).mpr ((Pc.covers_late hpc hb).mp hc)
  | balance f => exact hbal f hd

theorem Progress.of_look {pc' : Pc} (hb : ∃ g, t.body.posts g) (hpc : t.pc.looksAgain = true)
    (hpc' : pc'.looksAgain = true) (hfits : pc'.Fits s t.body)
    (hbal : ∀ f, t.pc.covers s t.body (.balance f) → pc'.covers s t.body (.balance f)) :
    Progress s s t pc' fun _ => False :=
  .of_looksAgain .refl rfl hb hpc hpc' hfits (fun _ _ h => .inr h) (fun _ h => .inr h)
    fun f hd => .inr ⟨hd, hbal f⟩

variable {g : ℕ} {o : Chance} {pc' : Pc}

/-- The first look at the reversal. -/
theorem check_progress (hpc : t.pc = .check) (hkind : t.body.kind = .posted)
    (hg : t.body.folioId = some g) (hstep : postedStep s t.body g o .check = some (s', pc')) :
    Progress s s' t pc' fun _ => False := by
  have hcov : ∀ d, t.covers s d → t.body.covers s d := by
    intro d hc
    rw [Delivery.covers, hpc] at hc
    exact hc
  simp only [postedStep] at hstep
  split at hstep
  · -- nothing to post
    rename_i hnil
    cases hstep
    refine .of_read trivial fun d hd hc => ?_
    have hbody := hcov d hc
    cases d with
    | line o f =>
      obtain ⟨-, hrev | ⟨g, hposts⟩⟩ := hbody
      · cases hkind.symm.trans hrev
      · exact absurd hnil hposts.2.2
    | late o =>
      obtain ⟨-, hrev | ⟨g, hposts⟩⟩ := hbody
      · cases hkind.symm.trans hrev
      · exact absurd hnil hposts.2.2
    | balance f =>
      simp only [Body.covers, hkind] at hbody
      obtain ⟨g, hposts, -⟩ := hbody
      exact absurd hnil hposts.2.2
  · rename_i hlines
    have hposts : ∃ g, t.body.posts g := ⟨g, hkind, hg, hlines⟩
    cases hstep
    split
    · rename_i hi
      refine .of_read ⟨hi, .inr hposts⟩ fun d hd hc => ?_
      have hbody := hcov d hc
      cases d with
      | line o f => exact hbody.1
      | late o => exact hbody.1
      | balance f =>
        simp only [Body.covers, hkind] at hbody
        obtain ⟨g', hposts', hfolio, -⟩ := hbody
        exact hfolio.imp id fun (heq : g' = f) => heq ▸ hposts'.2.1
    · exact .of_read hposts fun d hd hc => hcov d hc

theorem covers_of_folio (hb : ∃ g, b.posts g) (hc : b.covers s (.balance f)) :
    (f ∈ s.carriers b.order ∨ b.folioId = some f) ∧
      (s.intent b.order = true ∨ (b.folioId = some f ∧ f ∈ s.carriers b.order ∧
        ∀ g ∈ b.folioId, s.takes g b.charges = true)) := by
  obtain ⟨g, hposts⟩ := hb
  simp only [Body.covers, hposts.1] at hc
  obtain ⟨g', hposts', hfolio, hdue⟩ := hc
  refine ⟨hfolio.imp id fun (heq : g' = f) => heq ▸ hposts'.2.1, hdue.imp id ?_⟩
  rintro ⟨rfl, hcar, htakes⟩
  refine ⟨hposts'.2.1, hcar, fun g'' hg'' => ?_⟩
  cases hposts'.2.1.symm.trans hg''
  exact htakes

/-- The read of the folio, when it does not end the delivery. -/
theorem folio_progress (hpc : t.pc = .folio) (hposts : t.body.posts g) {f : Folio}
    (hf : s.folios.get? g = some f) :
    Progress s s t (if f.takes t.body.charges then .insert t.body.charges false else .route f)
      fun _ => False := by
  have hg : ∀ g' ∈ t.body.folioId, g' = g := fun g' hg' => by
    cases hposts.2.1.symm.trans hg'
    rfl
  split
  · refine .of_look ⟨g, hposts⟩ (by rw [hpc]; rfl) rfl ⟨g, hposts⟩ fun x hc => ?_
    rw [hpc] at hc
    obtain ⟨hfolio, hdue⟩ := covers_of_folio ⟨g, hposts⟩ hc
    exact ⟨hfolio, hdue.imp id fun h => ⟨h.1, h.2.1⟩⟩
  · rename_i hnot
    refine .of_look ⟨g, hposts⟩ (by rw [hpc]; rfl) rfl ⟨g, hposts⟩ fun x hc => ?_
    rw [hpc] at hc
    obtain ⟨hfolio, hi | ⟨-, -, htakes⟩⟩ := covers_of_folio ⟨g, hposts⟩ hc
    · exact ⟨hfolio, hi⟩
    · obtain ⟨f', hf', hid, ht'⟩ := Store.takes_iff.mp (htakes g hposts.2.1)
      have hmem := Collection.get?_eq_some.mp hf
      have heq : f' = f := Collection.eq_of_key hf' hmem.1 (hid.trans hmem.2.symm)
      exact absurd (heq ▸ ht') hnot

theorem insert_progress {l : Line} {rest : List Line} {inserted : Bool} (hposts : t.body.posts g)
    (hpc : t.pc = .insert (l :: rest) inserted) (hmatch : Matches s t.body g l o)
    (hstep : postedStep s t.body g o (.insert (l :: rest) inserted) = some (s', pc')) :
    Progress s s' t pc' (Posts s t) := by
  simp only [postedStep] at hstep
  split at hstep
  · rename_i s₁ hins
    cases hstep
    have heff : Effect s s' (Posts s t) := by
      have h := insertLine_effect hins
      refine ⟨h.grows, fun f hf => h.charges f fun hfg => hf ?_, h.payments⟩
      refine ⟨hfg ▸ hposts.2.1, l, rest, inserted, hpc, ?_⟩
      rw [hfg, hins]
      exact Option.some_ne_none _
    refine .of_looksAgain heff ?_ ⟨g, hposts⟩ (by rw [hpc]; rfl) rfl ⟨g, hposts⟩
      (fun x f hd => ?_) (fun x hd => ?_) fun f hd => ?_
    · obtain ⟨cs, -, rfl⟩ := insertLine_eq_some hins
      rfl
    · obtain hold | heq | heq := insertLine_due hins hd
      · exact .inr hold
      · cases heq
        exact .inl rfl
      · cases heq
    · obtain hold | heq | heq := insertLine_due hins hd
      · exact .inr hold
      · cases heq
      · cases heq
    · obtain hold | heq | heq := insertLine_due hins hd
      · refine .inr ⟨hold, fun hc => ?_⟩
        rw [hpc] at hc
        exact ⟨hc.1.imp (heff.grows.carriers _ _) id, hc.2.imp heff.grows.intent fun h =>
          ⟨h.1, heff.grows.carriers _ _ h.2⟩⟩
      · cases heq
      · cases heq
        exact .inl ⟨.inr hposts.2.1, .inr ⟨hposts.2.1, insertLine_carriers hins⟩⟩
  · rename_i hnone
    have hskip : (s.sameLine t.body.order g l || (s.storedLine t.body.order g l && o.partitioned)) = true := by
      simpa using hmatch hnone
    rw [if_pos hskip] at hstep
    cases hstep
    refine Progress.mono (.of_look ⟨g, hposts⟩ (by rw [hpc]; rfl) rfl ⟨g, hposts⟩ fun f hc => ?_)
      fun _ h => h.elim
    rw [hpc] at hc
    exact hc

theorem posting_progress (hposts : t.body.posts g) (hpc : t.pc = .posting r none)
    (hcur : r.Current s g) (hstep : postedStep s t.body g o (.posting r none) = some (s', pc')) :
    Progress s s' t pc' fun _ => False := by
  have hread : Progress s s t (.posting (r.next s g) none) fun _ => False := by
    refine .of_look ⟨g, hposts⟩ (by rw [hpc]; rfl) rfl ⟨rfl, g, hposts, hcur.next⟩ fun f hc => ?_
    rw [hpc] at hc
    exact hc
  cases r with
  | charges =>
    cases hstep
    exact hread
  | payments c =>
    cases hstep
    exact hread
  | write c q =>
    cases hstep
    rw [setBalance_current hcur]
    have heff := setBalance_effect (s := s) g (s.ledger g)
    refine .of_looksAgain heff rfl ⟨g, hposts⟩ (by rw [hpc]; rfl) rfl ⟨g, hposts⟩
      (fun x f hd => .inr (setBalance_due hd).1) (fun x hd => .inr (setBalance_due hd).1)
      fun f hd => ?_
    obtain ⟨hold, hne⟩ := setBalance_due hd
    refine .inr ⟨hold, fun hc => ?_⟩
    rw [hpc] at hc
    obtain ⟨hfolio, hi | ⟨hg, -⟩⟩ := hc
    · exact ⟨hfolio, hi⟩
    · cases hposts.2.1.symm.trans hg
      exact absurd rfl hne

/-- The second look at the reversal. -/
theorem recheck_progress (hposts : t.body.posts g) (hpc : t.pc = .recheck) :
    Progress s s t (if s.intent t.body.order then .affected else Answer.success.pc)
      fun _ => False := by
  have hcov : ∀ d, t.covers s d → Pc.recheck.covers s t.body d := by
    intro d hc
    rw [Delivery.covers, hpc] at hc
    exact hc
  split
  · rename_i hi
    refine .of_read ⟨hi, .inr ⟨g, hposts⟩⟩ fun d hd hc => ?_
    have hc' := hcov d hc
    cases d with
    | line x f => exact hc'
    | late x => exact hc'
    | balance f => exact hc'.1
  · rename_i hi
    refine .of_read trivial fun d hd hc => ?_
    have hc' := hcov d hc
    -- without the intent nothing of the order is due
    cases d with
    | line x f =>
      cases hc'
      exact absurd hd.1 hi
    | late x =>
      cases hc'
      exact absurd hd.1 hi
    | balance f => exact absurd hc'.2 hi

theorem route_progress {f : Folio} (hposts : t.body.posts g) (hpc : t.pc = .route f) :
    Progress s (s.routeLateCharge t.body.order f t.body.charges) t .recheck fun _ => False := by
  have heff := routeLateCharge_effect (s := s) t.body.order f t.body.charges
  refine .of_looksAgain heff ?_ ⟨g, hposts⟩ (by rw [hpc]; rfl) rfl ⟨g, hposts⟩
    (fun x y hd => ?_) (fun x hd => ?_) fun x hd => ?_
  · unfold Store.routeLateCharge
    split <;> rfl
  · obtain hold | heq := routeLateCharge_due hd
    · exact .inr hold
    · cases heq
  · obtain hold | heq := routeLateCharge_due hd
    · exact .inr hold
    · cases heq
      exact .inl rfl
  · obtain hold | heq := routeLateCharge_due hd
    · refine .inr ⟨hold, fun hc => ?_⟩
      rw [hpc] at hc
      exact ⟨hc.1.imp (heff.grows.carriers _ _) id, heff.grows.intent hc.2⟩
    · cases heq

/-! ### Any step -/

def Touches (s : Store) (t : Delivery) (f : ℕ) : Prop := Posts s t f ∨ Voids s t f

theorem Ok.posts (h : Ok s t) (hpc : t.pc.looksAgain = true) : ∃ g, t.body.posts g := by
  have hfits := h.fits
  cases hpc' : t.pc <;> rw [hpc'] at hfits hpc
  case posting =>
    obtain ⟨-, g, hposts, -⟩ := hfits
    exact ⟨g, hposts⟩
  case folio => exact hfits
  case insert => exact hfits
  case route => exact hfits
  case recheck => exact hfits
  all_goals cases hpc

theorem advance_progress {p : Pool Store Delivery} {k : ℕ} (hok : Ok p.store t)
    (hc : StepOrderly p k t (.advance o)) (hstep : advance p.store t o = some (s', pc')) :
    Progress p.store s' t pc' (Touches p.store t) ∨
      (s' = p.store ∧ pc' = .ended ∧ FailsAlone p k t) := by
  have hfits := hok.fits
  have hposted : t.pc.looksAgain = true → ∃ g, t.body.posts g ∧ t.body.folioId = some g := by
    intro hpc
    obtain ⟨g, hposts⟩ := hok.posts hpc
    exact ⟨g, hposts, hposts.2.1⟩
  have hreads : Progress p.store s' t pc' (fun _ => False) →
      Progress p.store s' t pc' (Touches p.store t) := fun h => h.mono fun _ hf => hf.elim
  cases hpc : t.pc <;> rw [hpc] at hfits hposted <;>
    simp only [advance, hpc, StepOrderly] at hstep hc
  case check =>
    split at hstep
    · -- the event names no folio
      rename_i hnone
      cases hstep
      refine .inl (hreads (.of_read trivial fun d hd hcov => ?_))
      rw [Delivery.covers, hpc] at hcov
      have hno : ¬ ∃ g, t.body.posts g := by
        rintro ⟨g, hposts⟩
        cases hnone.symm.trans hposts.2.1
      have hkind : t.body.kind = .posted := hfits
      cases d with
      | line x f => exact absurd (hcov.2.resolve_left fun hk => by cases hkind.symm.trans hk) hno
      | late x => exact absurd (hcov.2.resolve_left fun hk => by cases hkind.symm.trans hk) hno
      | balance f =>
        simp only [Pc.covers, Body.covers, hkind] at hcov
        exact absurd (hcov.imp fun _ => And.left) hno
    · rename_i g hg
      exact .inl (hreads (check_progress hpc hfits hg hstep))
  case folio =>
    obtain ⟨g, hposts, hg⟩ := hposted rfl
    simp only [hg, Option.bind_some, postedStep] at hstep
    split at hstep
    · rename_i hidx
      cases hstep
      exact .inr ⟨rfl, rfl, hc (.inl hidx)⟩
    · split at hstep
      · rename_i hnone
        cases hstep
        exact .inr ⟨rfl, rfl, hc (.inr ⟨g, hg, hnone⟩)⟩
      · rename_i f hf
        cases hstep
        exact .inl (hreads (folio_progress hpc hposts hf))
  case insert rest inserted =>
    obtain ⟨g, hposts, hg⟩ := hposted rfl
    simp only [hg, Option.bind_some] at hstep
    cases rest with
    | nil =>
      cases hstep
      refine .inl (hreads (.of_look ⟨g, hposts⟩ (by rw [hpc]; rfl) rfl
        ⟨rfl, g, hposts, trivial⟩ fun f hcov => ?_))
      rw [hpc] at hcov
      exact hcov
    | cons l rest =>
      refine .inl ((insert_progress hposts hpc (hc g hg).1 hstep).mono fun f hf => .inl hf)
  case posting r conflict =>
    obtain ⟨g, hposts, hg⟩ := hposted rfl
    obtain ⟨rfl, g', hposts', hcur⟩ := hfits
    cases hg.symm.trans hposts'.2.1
    simp only [hg, Option.bind_some] at hstep
    exact .inl (hreads (posting_progress hposts hpc hcur hstep))
  case route f =>
    obtain ⟨g, hposts, hg⟩ := hposted rfl
    simp only [hg, Option.bind_some, postedStep] at hstep
    cases hstep
    exact .inl (hreads (route_progress hposts hpc))
  case recheck =>
    obtain ⟨g, hposts, hg⟩ := hposted rfl
    simp only [hg, Option.bind_some, postedStep] at hstep
    cases hstep
    exact .inl (hreads (recheck_progress hposts hpc))
  case mark state =>
    cases hstep
    refine .inl (hreads ⟨setEvent_effect _ _, trivial, fun e he hne => ?_, fun d hd => ?_⟩)
    · exact mem_setEvent.mpr ⟨e, he, (if_neg hne).symm⟩
    · refine .inr ⟨d, setEvent_due hd, fun hcov => ?_, .inl rfl⟩
      rw [Delivery.covers, hpc] at hcov
      cases d <;> exact hcov
  case ended => cases hstep
  all_goals
    refine .inl ((reversedStep_progress hok.fits (hpc ▸ hstep)).mono fun f hf => .inr hf)

end SyrocePms.PosFolio
