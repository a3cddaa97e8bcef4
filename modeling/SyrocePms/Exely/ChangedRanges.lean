import Mathlib.Algebra.Order.Ring.Int
import Mathlib.Tactic.Ring
import SyrocePms.Lib.Dict
import SyrocePms.Lib.Documents

/-! The inventory delta of a reservation version: a sweep over the boundaries of the footprints before
and after, which merges adjacent ranges of one room type. -/

namespace SyrocePms.Exely

open Lib List

variable {κ δ : Type*}
variable {l : List (δ × ℤ)}

/-- The nights of a booking in a room type, without the day of departure. Days are ISO dates, whose
order as strings is that of the calendar. -/
structure Footprint (κ δ : Type*) where
  roomType : κ
  dateFrom : δ
  dateTo : δ
  deriving DecidableEq

variable {rows : List (Footprint κ δ)}

section

variable [LinearOrder κ] [LinearOrder δ]

def Footprint.covers (f : Footprint κ δ) (kind : κ) (night : δ) : Bool :=
  f.roomType = kind && f.dateFrom ≤ night && night < f.dateTo

def coverage (rows : List (Footprint κ δ)) (kind : κ) (night : δ) : ℤ := rows.countP (Footprint.covers · kind night)

/-! ### The boundaries -/

abbrev Counter (δ : Type*) := Dict δ ℤ

def Counter.add (c : Counter δ) (day : δ) (v : ℤ) : Counter δ := c.update day fun o => o.getD 0 + v

def addBoundary (b : Dict κ (Counter δ)) (kind : κ) (day : δ) (v : ℤ) : Dict κ (Counter δ) :=
  b.update kind fun o => Counter.add (o.getD .empty) day v

def addRow (sign : ℤ) (b : Dict κ (Counter δ)) (f : Footprint κ δ) : Dict κ (Counter δ) :=
  addBoundary (addBoundary b f.roomType f.dateFrom sign) f.roomType f.dateTo (-sign)

def boundaries (before after : List (Footprint κ δ)) : Dict κ (Counter δ) :=
  after.foldl (addRow (-1)) (before.foldl (addRow 1) .empty)

/-! ### The sweep -/

/-- Extends the last range if it ends where the new one begins. -/
def emit (result : List (Footprint κ δ)) (kind : κ) (dateFrom dateTo : δ) : List (Footprint κ δ) :=
  match result.getLast? with
  | some r =>
    if r.roomType = kind ∧ r.dateTo = dateFrom then result.dropLast ++ [{ r with dateTo := dateTo }]
    else result ++ [⟨kind, dateFrom, dateTo⟩]
  | none => result ++ [⟨kind, dateFrom, dateTo⟩]

/-- The loop over the days of one room type. -/
def sweep (kind : κ) : List (δ × ℤ) → ℤ → Option δ → List (Footprint κ δ) → List (Footprint κ δ)
  | [], _, _, result => result
  | (day, delta) :: rest, count, previous, result =>
    sweep kind rest (count + delta) (some day)
      (match previous with
        | some p => if count ≠ 0 then emit result kind p day else result
        | none => result)

def changedRanges (before after : List (Footprint κ δ)) : List (Footprint κ δ) :=
  (boundaries before after).sorted.foldl (fun result e => sweep e.1 e.2.sorted 0 none result) []

/-! ### What the boundaries sum to -/

def sumIn (q : δ → Bool) (l : List (δ × ℤ)) : ℤ := Documents.sumOf (fun e => q e.1) Prod.snd l

def upTo (l : List (δ × ℤ)) (night : δ) : ℤ := sumIn (· ≤ night) l

variable {b : Dict κ (Counter δ)} {c : Counter δ} {kind k : κ} {day night p : δ} {v count sign : ℤ} {q : δ → Bool}
  {result : List (Footprint κ δ)} {f : Footprint κ δ}

omit [LinearOrder δ] in
theorem sumIn_cons (e : δ × ℤ) (l : List (δ × ℤ)) : sumIn q (e :: l) = (if q e.1 then e.2 else 0) + sumIn q l :=
  Documents.sumOf_cons

omit [LinearOrder δ] in
theorem sumIn_perm {l' : List (δ × ℤ)} (h : l.Perm l') : sumIn q l = sumIn q l' := ((h.filter _).map _).sum_eq

theorem upTo_cons (e : δ × ℤ) (l : List (δ × ℤ)) :
    upTo (e :: l) night = (if e.1 ≤ night then e.2 else 0) + upTo l night := by
  rw [upTo, sumIn_cons]
  simp [upTo]

theorem upTo_eq_zero (h : ∀ e ∈ l, night < e.1) : upTo l night = 0 :=
  Documents.sumOf_eq_zero fun e he => by simpa using h e he

theorem sumIn_add : sumIn q (c.add day v).entries = sumIn q c.entries + if q day then v else 0 := by
  obtain ⟨l, hl⟩ := c
  change sumIn q (Dict.change day _ l) = sumIn q l + _
  clear hl
  induction l with
  | nil => simp [Dict.change, sumIn, Documents.sumOf_cons]
  | cons e l ih =>
    rw [Dict.change]
    by_cases he : e.1 = day
    · rw [if_pos he, sumIn_cons, sumIn_cons, he, Option.getD_some]
      split <;> ring
    · rw [if_neg he, sumIn_cons, sumIn_cons, ih]
      ring

def changesOf (b : Dict κ (Counter δ)) (kind : κ) : Counter δ := (b.get? kind).getD .empty

theorem sumIn_addBoundary :
    sumIn q (changesOf (addBoundary b kind day v) k).entries =
      sumIn q (changesOf b k).entries + if k = kind ∧ q day = true then v else 0 := by
  rw [changesOf, addBoundary, Dict.get?_update]
  by_cases hk : k = kind
  · subst hk
    simp only [if_true, Option.getD_some, true_and]
    exact sumIn_add
  · simp [hk, changesOf]

theorem upTo_addRow (hf : f.dateFrom < f.dateTo) :
    upTo (changesOf (addRow sign b f) k).entries night =
      upTo (changesOf b k).entries night + if f.covers k night then sign else 0 := by
  rw [upTo, upTo, addRow, sumIn_addBoundary, sumIn_addBoundary]
  by_cases hk : f.roomType = k
  · by_cases hfrom : f.dateFrom ≤ night
    · by_cases hto : f.dateTo ≤ night
      · simp [Footprint.covers, hk, hfrom, hto, not_lt.mpr hto]
      · simp [Footprint.covers, hk, hfrom, hto, not_le.mp hto]
    · have hto : ¬ f.dateTo ≤ night := fun h => hfrom (hf.le.trans h)
      simp [Footprint.covers, hk, hfrom, hto]
  · simp [Footprint.covers, hk, Ne.symm hk]

theorem upTo_foldl_addRow (h : ∀ f ∈ rows, f.dateFrom < f.dateTo) :
    upTo (changesOf (rows.foldl (addRow sign) b) k).entries night =
      upTo (changesOf b k).entries night + sign * coverage rows k night := by
  induction rows generalizing b with
  | nil => simp [coverage]
  | cons f rows ih =>
    rw [foldl_cons, ih fun g hg => h g (mem_cons_of_mem _ hg), upTo_addRow (h f mem_cons_self)]
    by_cases hf : f.covers k night = true
    · simp only [coverage, countP_cons, hf, if_true]
      push_cast
      ring
    · simp [coverage, hf]

variable {before after : List (Footprint κ δ)}

theorem upTo_boundaries (k : κ) (night : δ) (hbefore : ∀ f ∈ before, f.dateFrom < f.dateTo) (hafter : ∀ f ∈ after, f.dateFrom < f.dateTo) :
    upTo (changesOf (boundaries before after) k).entries night = coverage before k night - coverage after k night := by
  rw [boundaries, upTo_foldl_addRow hafter, upTo_foldl_addRow hbefore]
  simp [changesOf, upTo, sumIn]
  ring

theorem total_foldl_addRow :
    sumIn (fun _ => true) (changesOf (rows.foldl (addRow sign) b) k).entries = sumIn (fun _ => true) (changesOf b k).entries := by
  induction rows generalizing b with
  | nil => rfl
  | cons f rows ih =>
    rw [foldl_cons, ih, addRow, sumIn_addBoundary, sumIn_addBoundary]
    split <;> ring

/-- Every footprint ends, so that the changes of a room type cancel. -/
theorem total_boundaries : sumIn (fun _ => true) (changesOf (boundaries before after) k).entries = 0 := by
  rw [boundaries, total_foldl_addRow, total_foldl_addRow]
  rfl

/-! ### What the sweep finds -/

def Covered (result : List (Footprint κ δ)) (kind : κ) (night : δ) : Prop := ∃ r ∈ result, r.covers kind night = true

/-- Ranges are not empty, and in the order of room types and days, with a gap between two of a type. -/
structure Apart (result : List (Footprint κ δ)) : Prop where
  nonempty : ∀ r ∈ result, r.dateFrom < r.dateTo
  ordered : result.Pairwise fun r r' => r.roomType < r'.roomType ∨ r.roomType = r'.roomType ∧ r.dateTo < r'.dateFrom

/-- What has been found before a day of a room type. -/
def Before (result : List (Footprint κ δ)) (kind : κ) (day : δ) : Prop :=
  ∀ r ∈ result, r.roomType < kind ∨ r.roomType = kind ∧ r.dateTo ≤ day

theorem Before.mono {day' : δ} (h : Before result kind day) (hday : day ≤ day') : Before result kind day' :=
  fun r hr => (h r hr).imp_right fun hk => ⟨hk.1, hk.2.trans hday⟩

theorem covered_append {l l' : List (Footprint κ δ)} : Covered (l ++ l') k night ↔ Covered l k night ∨ Covered l' k night := by
  simp only [Covered, mem_append, or_and_right, exists_or]

theorem covered_singleton : Covered [f] k night ↔ f.covers k night = true := by simp [Covered]

theorem emit_spec (h : Apart result) (hb : Before result kind p) (hp : p < day) :
    Apart (emit result kind p day) ∧ Before (emit result kind p day) kind day ∧
      ∀ k night, Covered (emit result kind p day) k night ↔ Covered result k night ∨ (k = kind ∧ p ≤ night ∧ night < day) := by
  have hnew : Apart (result ++ [⟨kind, p, day⟩]) ↔ ∀ r ∈ result, r.roomType < kind ∨ r.roomType = kind ∧ r.dateTo < p := by
    constructor
    · exact fun h' r hr => (pairwise_append.mp h'.ordered).2.2 r hr _ (mem_singleton.mpr rfl)
    · intro h'
      refine ⟨fun r hr => ?_, pairwise_append.mpr ⟨h.ordered, pairwise_singleton _ _, fun r hr r' hr' => ?_⟩⟩
      · obtain hr | hr := mem_append.mp hr
        · exact h.nonempty r hr
        · rw [mem_singleton.mp hr]
          exact hp
      · rw [mem_singleton.mp hr']
        exact h' r hr
  have hbefore : Before (result ++ [⟨kind, p, day⟩]) kind day := by
    intro r hr
    obtain hr | hr := mem_append.mp hr
    · exact hb.mono hp.le r hr
    · rw [mem_singleton.mp hr]
      exact .inr ⟨rfl, le_rfl⟩
  have hcovered (k : κ) (night : δ) :
      Covered (result ++ [⟨kind, p, day⟩]) k night ↔ Covered result k night ∨ (k = kind ∧ p ≤ night ∧ night < day) := by
    rw [covered_append, covered_singleton]
    simp only [Footprint.covers, Bool.and_eq_true, decide_eq_true_eq, and_assoc, @eq_comm _ kind k]
  unfold emit
  cases hlast : result.getLast? with
  | none =>
    have hnil := getLast?_eq_none_iff.mp hlast
    exact ⟨hnew.mpr (by simp [hnil]), hbefore, hcovered⟩
  | some r =>
    have hsplit : result = result.dropLast ++ [r] := (dropLast_append_getLast? r hlast).symm
    have hr : r ∈ result := mem_of_getLast? hlast
    have horder := h.ordered
    rw [hsplit, pairwise_append] at horder
    simp only
    split
    · rename_i hext
      obtain ⟨hkind, hto⟩ := hext
      have hfrom := h.nonempty r hr
      refine ⟨⟨fun x hx => ?_, pairwise_append.mpr ⟨horder.1, pairwise_singleton _ _, fun x hx y hy => ?_⟩⟩,
        fun x hx => ?_, fun k night => ?_⟩
      · obtain hx | hx := mem_append.mp hx
        · exact h.nonempty x (result.dropLast_subset hx)
        · rw [mem_singleton.mp hx]
          exact hfrom.trans (hto ▸ hp)
      · rw [mem_singleton.mp hy]
        exact horder.2.2 x hx r (mem_singleton.mpr rfl)
      · obtain hx | hx := mem_append.mp hx
        · exact hb.mono hp.le x (result.dropLast_subset hx)
        · rw [mem_singleton.mp hx]
          exact .inr ⟨hkind, le_rfl⟩
      · have hunion : r.dateFrom ≤ night ∧ night < day ↔ r.dateFrom ≤ night ∧ night < p ∨ p ≤ night ∧ night < day := by
          rw [hto] at hfrom
          constructor
          · intro hn
            exact (lt_or_ge night p).imp (fun hlt => ⟨hn.1, hlt⟩) fun hge => ⟨hge, hn.2⟩
          · rintro (hn | hn)
            · exact ⟨hn.1, hn.2.trans hp⟩
            · exact ⟨hfrom.le.trans hn.1, hn.2⟩
        have hlastNew : Covered [{ r with dateTo := day }] k night ↔
            Covered [r] k night ∨ (k = kind ∧ p ≤ night ∧ night < day) := by
          rw [covered_singleton, covered_singleton]
          simp only [Footprint.covers, Bool.and_eq_true, decide_eq_true_eq, and_assoc, hkind, hto, hunion]
          rw [and_or_left, @eq_comm _ kind k]
        calc Covered (result.dropLast ++ [{ r with dateTo := day }]) k night
            ↔ Covered result.dropLast k night ∨ Covered [r] k night ∨ (k = kind ∧ p ≤ night ∧ night < day) := by
              rw [covered_append, hlastNew]
          _ ↔ Covered result k night ∨ (k = kind ∧ p ≤ night ∧ night < day) := by
              rw [← or_assoc, ← covered_append, ← hsplit]
    · rename_i hext
      refine ⟨hnew.mpr fun x hx => ?_, hbefore, hcovered⟩
      rw [hsplit] at hx
      obtain hx | hx := mem_append.mp hx
      · obtain hlt | ⟨heq, hlt⟩ := horder.2.2 x hx r (mem_singleton.mpr rfl)
        · obtain hr' | ⟨hr', -⟩ := hb r hr
          · exact .inl (hlt.trans hr')
          · exact .inl (hr' ▸ hlt)
        · obtain hr' | ⟨hr', hle⟩ := hb r hr
          · exact .inl (heq ▸ hr')
          · exact .inr ⟨heq.trans hr', (hlt.trans (h.nonempty r hr)).trans_le hle⟩
      · rw [mem_singleton.mp hx]
        exact (hb r hr).imp_right fun hk => ⟨hk.1, lt_of_le_of_ne hk.2 fun heq => hext ⟨hk.1, heq⟩⟩

theorem sweep_some (kind : κ) (count : ℤ) (hl : l.Pairwise fun e e' => e.1 < e'.1)
    (hp : ∀ e ∈ l, p < e.1) (h : Apart result) (hb : Before result kind p) :
    Apart (sweep kind l count (some p) result) ∧ (∀ r ∈ sweep kind l count (some p) result, r.roomType ≤ kind) ∧
      ∀ k night, Covered (sweep kind l count (some p) result) k night ↔
        Covered result k night ∨ (k = kind ∧ p ≤ night ∧ (∃ e ∈ l, night < e.1) ∧ count + upTo l night ≠ 0) := by
  induction l generalizing count p result with
  | nil =>
    refine ⟨h, fun r hr => ?_, fun k night => by simp [sweep]⟩
    exact (hb r hr).elim le_of_lt fun hk => hk.1.le
  | cons e l ih =>
    obtain ⟨day, delta⟩ := e
    obtain ⟨hfirst, hrest⟩ := pairwise_cons.mp hl
    have hday : p < day := hp _ mem_cons_self
    obtain ⟨result', hres, hapart, hbefore, hcov⟩ : ∃ result', (if count ≠ 0 then emit result kind p day else result) = result' ∧
        Apart result' ∧ Before result' kind day ∧
        ∀ k night, Covered result' k night ↔ Covered result k night ∨ (k = kind ∧ p ≤ night ∧ night < day ∧ count ≠ 0) := by
      by_cases hc : count = 0
      · exact ⟨result, by simp [hc], h, hb.mono hday.le, by simp [hc]⟩
      · obtain ⟨h₁, h₂, h₃⟩ := emit_spec h hb hday
        exact ⟨_, if_pos hc, h₁, h₂, fun k night => by simp [h₃, hc]⟩
    simp only [sweep, hres]
    obtain ⟨h₁, h₂, h₃⟩ := ih (count + delta) hrest hfirst hapart hbefore
    refine ⟨h₁, h₂, fun k night => ?_⟩
    rw [h₃, hcov, or_assoc, ← and_or_left, upTo_cons]
    refine or_congr_right (and_congr_right fun _ => ?_)
    obtain hn | hn := lt_or_ge night day
    · -- before the next day only the count so far matters
      have hzero : upTo l night = 0 := upTo_eq_zero fun e he => hn.trans (hfirst e he)
      simp [hn, not_le.mpr hn, hzero]
    · simp [hn, not_lt.mpr hn, hday.le.trans hn, add_assoc]

theorem sweep_none (hl : l.Pairwise fun e e' => e.1 < e'.1) (htotal : sumIn (fun _ => true) l = 0)
    (h : Apart result) (hb : ∀ r ∈ result, r.roomType < kind) :
    Apart (sweep kind l 0 none result) ∧ (∀ r ∈ sweep kind l 0 none result, r.roomType ≤ kind) ∧
      ∀ k night, Covered (sweep kind l 0 none result) k night ↔ Covered result k night ∨ (k = kind ∧ upTo l night ≠ 0) := by
  cases l with
  | nil => exact ⟨h, fun r hr => (hb r hr).le, fun k night => by simp [sweep, upTo, sumIn]⟩
  | cons e l =>
    obtain ⟨day, delta⟩ := e
    obtain ⟨hfirst, hrest⟩ := pairwise_cons.mp hl
    obtain ⟨h₁, h₂, h₃⟩ := sweep_some kind (0 + delta) hrest hfirst h fun r hr => .inl (hb r hr)
    refine ⟨h₁, h₂, fun k night => (h₃ k night).trans (or_congr_right (and_congr_right fun _ => ?_))⟩
    rw [upTo_cons]
    obtain hn | hn := lt_or_ge night day
    · have hzero : upTo l night = 0 := upTo_eq_zero fun e he => hn.trans (hfirst e he)
      simp [not_le.mpr hn, hzero]
    · simp only [hn, if_true, true_and, zero_add, and_iff_right_iff_imp]
      -- from the last day on, all changes are summed
      intro hne
      by_contra hnone
      have hall : ∀ e ∈ (day, delta) :: l, e.1 ≤ night := by
        intro e he
        obtain rfl | he := mem_cons.mp he
        · exact hn
        · exact not_lt.mp fun hlt => hnone ⟨e, he, hlt⟩
      have hsum : upTo ((day, delta) :: l) night = sumIn (fun _ => true) ((day, delta) :: l) := by
        have hfilter : ((day, delta) :: l).filter (fun e => decide (e.1 ≤ night)) = ((day, delta) :: l).filter fun _ => true :=
          filter_congr fun e he => by simp [hall e he]
        simp only [upTo, sumIn, Documents.sumOf, hfilter]
      rw [upTo_cons, htotal, if_pos hn] at hsum
      exact hne hsum

theorem foldl_sweep {l : List (κ × Counter δ)} (hl : l.Pairwise fun e e' => e.1 < e'.1)
    (htotal : ∀ e ∈ l, sumIn (fun _ => true) e.2.entries = 0) (h : Apart result)
    (hb : ∀ r ∈ result, ∀ e ∈ l, r.roomType < e.1) :
    Apart (l.foldl (fun result e => sweep e.1 e.2.sorted 0 none result) result) ∧
      ∀ k night, Covered (l.foldl (fun result e => sweep e.1 e.2.sorted 0 none result) result) k night ↔
        Covered result k night ∨ ∃ e ∈ l, k = e.1 ∧ upTo e.2.entries night ≠ 0 := by
  induction l generalizing result with
  | nil => exact ⟨h, by simp⟩
  | cons e l ih =>
    obtain ⟨hfirst, hrest⟩ := pairwise_cons.mp hl
    have hzero : sumIn (fun _ => true) e.2.sorted = 0 := by
      rw [sumIn_perm e.2.perm_sorted]
      exact htotal e mem_cons_self
    obtain ⟨h₁, h₂, h₃⟩ := sweep_none e.2.pairwise_sorted hzero h fun r hr => hb r hr e mem_cons_self
    obtain ⟨h₄, h₅⟩ := ih hrest (fun x hx => htotal x (mem_cons_of_mem _ hx)) h₁
      fun r hr x hx => (h₂ r hr).trans_lt (hfirst x hx)
    refine ⟨h₄, fun k night => ?_⟩
    rw [foldl_cons, h₅, h₃, upTo, sumIn_perm e.2.perm_sorted, or_assoc]
    simp only [mem_cons, exists_eq_or_imp]
    rfl

/-- The delta has a night of a room type exactly when its coverage differs, in ranges that are in
order and apart. -/
theorem changed_ranges_exact (before after : List (Footprint κ δ)) (hbefore : ∀ f ∈ before, f.dateFrom < f.dateTo)
    (hafter : ∀ f ∈ after, f.dateFrom < f.dateTo) :
    Apart (changedRanges before after) ∧
      ∀ kind night, Covered (changedRanges before after) kind night ↔
        coverage before kind night ≠ coverage after kind night := by
  have hempty : Apart ([] : List (Footprint κ δ)) := ⟨fun r hr => absurd hr not_mem_nil, .nil⟩
  have hof (e : κ × Counter δ) (he : e ∈ (boundaries before after).sorted) : changesOf (boundaries before after) e.1 = e.2 := by
    have hget : (boundaries before after).get? e.1 = some e.2 :=
      Dict.get?_eq_some.mpr ((Dict.mem_sorted _).mp he)
    rw [changesOf, hget, Option.getD_some]
  obtain ⟨hapart, hcov⟩ := foldl_sweep (boundaries before after).pairwise_sorted
    (fun e he => hof e he ▸ total_boundaries) hempty fun r hr => absurd hr not_mem_nil
  refine ⟨hapart, fun kind night => (hcov kind night).trans ?_⟩
  have hnone : ¬ Covered ([] : List (Footprint κ δ)) kind night := fun h => by simp [Covered] at h
  have hdiff := upTo_boundaries kind night hbefore hafter
  rw [or_iff_right hnone, ← sub_ne_zero, ← hdiff]
  constructor
  · rintro ⟨e, he, rfl, hne⟩
    rwa [hof e he]
  · intro hne
    cases hget : (boundaries before after).get? kind with
    | none => simp [changesOf, hget, upTo, sumIn] at hne
    | some c =>
      refine ⟨(kind, c), (Dict.mem_sorted _).mpr (Dict.get?_eq_some.mp hget), rfl, ?_⟩
      rwa [changesOf, hget, Option.getD_some] at hne

def bookedBefore : List (Footprint ℕ ℕ) := [⟨1, 3, 5⟩, ⟨1, 10, 12⟩]

/-- One booking is moved by a night, and the other changes its room type. -/
def bookedAfter : List (Footprint ℕ ℕ) := [⟨1, 4, 6⟩, ⟨2, 10, 12⟩]

theorem changed_ranges_exact_moved :
    changedRanges bookedBefore bookedAfter = [⟨1, 3, 4⟩, ⟨1, 5, 6⟩, ⟨1, 10, 12⟩, ⟨2, 10, 12⟩] ∧
      ∀ kind night, Covered (changedRanges bookedBefore bookedAfter) kind night ↔
        coverage bookedBefore kind night ≠ coverage bookedAfter kind night :=
  ⟨by decide, (changed_ranges_exact bookedBefore bookedAfter (by decide) (by decide)).2⟩

end

end SyrocePms.Exely
