import SyrocePms.Lib.Decimal
import SyrocePms.Lib.Threads

/-! The depreciation of a fixed asset, planned and run month by month. A run looks for the entry of
its period, reads what has been depreciated, and writes an entry; nothing joins the three. -/

namespace SyrocePms.FixedAssets

open Lib Lib.Decimal List

inductive Method
  | straightLine
  | decliningBalance (rate : ℚ)

/-- An asset as `create_asset` stores it: amounts in cents, its acquisition by the number of the month. -/
structure Asset where
  cost : ℤ
  salvage : ℤ
  life : ℕ
  method : Method
  acquired : ℤ
  salvage_le : salvage ≤ cost

structure Entry where
  period : ℤ
  depreciation : ℤ
  bookValue : ℤ
  deriving DecidableEq

namespace Asset

variable (a : Asset)

def rawDepreciation (book : ℤ) : ℚ :=
  match a.method with
  | .straightLine => (a.cost - a.salvage : ℤ) / a.life
  | .decliningBalance rate => book * (rate / 100) / 12

def monthlyDepreciation (book : ℤ) : ℤ :=
  if book ≤ a.salvage then 0
  else roundEven (max (min (a.rawDepreciation book) (book - a.salvage : ℤ)) 0)

def scheduleFrom : ℕ → ℤ → ℤ → List Entry
  | 0, _, _ => []
  | n + 1, period, book =>
    let dep := a.monthlyDepreciation book
    if dep ≤ 0 then [] else ⟨period, dep, book - dep⟩ :: scheduleFrom n (period + 1) (book - dep)

def buildSchedule : List Entry := a.scheduleFrom 600 a.acquired a.cost

/-- The cost without what `_accumulated` finds. -/
def bookValue (entries : List Entry) : ℤ := a.cost - (entries.map Entry.depreciation).sum

def entryFor (period : ℤ) (entries : List Entry) : Entry :=
  let book := a.bookValue entries
  ⟨period, a.monthlyDepreciation book, book - a.monthlyDepreciation book⟩

end Asset

/-! ### Runs -/

/-- A run of `run_depreciation` at the asset; `seen` is what it looked at. -/
inductive Pc
  | look (period : ℤ)
  | read (period : ℤ) (seen : List Entry)
  | insert (entry : Entry) (seen : List Entry)
  | done

def advance (a : Asset) (entries : List Entry) : Pc → List Entry × Pc
  | .look period =>
    (entries, if period < a.acquired ∨ ∃ e ∈ entries, e.period = period then .done else .read period entries)
  | .read period seen =>
    let entry := a.entryFor period entries
    (entries, if entry.depreciation ≤ 0 then .done else .insert entry seen)
  | .insert entry _ => (entries ++ [entry], .done)
  | .done => (entries, .done)

def runs (a : Asset) : Program (List Entry) Pc Empty ℤ Unit where
  init entries := entries = []
  env _ e := e.elim
  call _ period := some (.look period)
  step _ entries pc _ := some (advance a entries pc)

/-- A run that writes finds the entries as it looked at them, and its period is the next one. -/
def Pc.isOrderly (a : Asset) (entries : List Entry) : Pc → Bool
  | .read period seen => (a.entryFor period entries).depreciation ≤ 0 ∨ entries = seen
  | .insert entry seen => entries = seen ∧ entry.period = a.acquired + seen.length
  | _ => true

def isOrderly (a : Asset) (p : Pool (List Entry) Pc) : Act Empty ℤ Unit → Bool
  | .step k _ => p.threads[k]?.all (Pc.isOrderly a p.store)
  | _ => true

/-! ### Amounts -/

/-- Entries that a run of the months one after the other writes. -/
inductive Consecutive (a : Asset) : List Entry → Prop
  | nil : Consecutive a []
  | snoc {es : List Entry} (h : Consecutive a es) (hdep : 0 < a.monthlyDepreciation (a.bookValue es)) :
      Consecutive a (es ++ [a.entryFor (a.acquired + es.length) es])

variable {a : Asset} {es : List Entry} {book : ℤ}

theorem monthlyDepreciation_le (h : a.salvage ≤ book) : a.monthlyDepreciation book ≤ book - a.salvage := by
  unfold Asset.monthlyDepreciation
  split_ifs
  · omega
  · exact roundEven_le (max_le (min_le_right _ _) (by exact_mod_cast sub_nonneg.mpr h))

/-- What a straight line takes off in a month. -/
def Asset.monthly (a : Asset) : ℤ := roundEven ((a.cost - a.salvage : ℤ) / a.life)

theorem quotient_nonneg (a : Asset) : (0 : ℚ) ≤ (a.cost - a.salvage : ℤ) / a.life :=
  div_nonneg (by exact_mod_cast sub_nonneg.mpr a.salvage_le) (Nat.cast_nonneg _)

theorem monthly_nonneg (a : Asset) : 0 ≤ a.monthly := le_roundEven (by exact_mod_cast quotient_nonneg a)

theorem monthlyDepreciation_straight (hm : a.method = .straightLine) (h : a.salvage < book) :
    a.monthlyDepreciation book = min a.monthly (book - a.salvage) := by
  have hraw : a.rawDepreciation book = (a.cost - a.salvage : ℤ) / a.life := by rw [Asset.rawDepreciation, hm]
  have hrest : (0 : ℚ) ≤ (book - a.salvage : ℤ) := by exact_mod_cast (by omega : 0 ≤ book - a.salvage)
  rw [Asset.monthlyDepreciation, if_neg (not_le.mpr h), hraw, max_eq_left (le_min (quotient_nonneg a) hrest), Asset.monthly]
  rcases le_total ((a.cost - a.salvage : ℤ) / a.life : ℚ) (book - a.salvage : ℤ) with hle | hle
  · rw [min_eq_left hle, min_eq_left (roundEven_le hle)]
  · have hround := le_roundEven hle
    rw [min_eq_right hle, min_eq_right hround]
    exact le_antisymm (roundEven_le le_rfl) (le_roundEven le_rfl)

theorem bookValue_snoc (a : Asset) (es : List Entry) (e : Entry) :
    a.bookValue (es ++ [e]) = a.bookValue es - e.depreciation := by
  simp [Asset.bookValue, sub_sub]

theorem Consecutive.salvage_le (h : Consecutive a es) : a.salvage ≤ a.bookValue es := by
  induction h with
  | nil => simpa [Asset.bookValue] using a.salvage_le
  | snoc _ _ ih =>
    have := monthlyDepreciation_le ih
    rw [bookValue_snoc]
    simp only [Asset.entryFor]
    omega

theorem Consecutive.periods (h : Consecutive a es) :
    es.map Entry.period = (range es.length).map fun i : ℕ => a.acquired + i := by
  induction h with
  | nil => rfl
  | snoc _ _ ih => simp [ih, range_succ, Asset.entryFor]

theorem Consecutive.nodup (h : Consecutive a es) : (es.map Entry.period).Nodup := by
  rw [h.periods]
  exact nodup_range.map fun i j hij => by simpa using hij

/-- The schedule goes on where the entries end. -/
theorem Consecutive.schedule (h : Consecutive a es) (n : ℕ) : a.scheduleFrom (es.length + n) a.acquired a.cost =
    es ++ a.scheduleFrom n (a.acquired + es.length) (a.bookValue es) := by
  induction h generalizing n with
  | nil => simp [Asset.bookValue]
  | @snoc es _ hdep ih =>
    have hn : (es ++ [a.entryFor (a.acquired + es.length) es]).length + n = es.length + (n + 1) := by
      simp [Nat.add_assoc, Nat.add_comm 1]
    rw [hn, ih, Asset.scheduleFrom, if_neg (not_le.mpr hdep), bookValue_snoc]
    simp [Asset.entryFor, add_assoc]

theorem bookValue_scheduleFrom (hm : a.method = .straightLine) (n : ℕ) (period : ℤ) (h : a.salvage ≤ book) :
    book - ((a.scheduleFrom n period book).map Entry.depreciation).sum = max a.salvage (book - a.monthly * n) := by
  induction n generalizing period book with
  | zero => simpa [Asset.scheduleFrom] using h
  | succ n ih =>
    have hn : 0 ≤ a.monthly * n := mul_nonneg (monthly_nonneg a) (Nat.cast_nonneg n)
    have hmonthly := monthly_nonneg a
    rw [Asset.scheduleFrom]
    push_cast
    rw [mul_add, mul_one]
    rcases h.eq_or_lt with heq | hlt
    · rw [if_pos (by simp [Asset.monthlyDepreciation, heq])]
      simp
      omega
    · rw [monthlyDepreciation_straight hm hlt]
      split_ifs with hdep
      · have hzero : a.monthly = 0 := by omega
        simp [hzero, h]
      · have hle : a.salvage ≤ book - min a.monthly (book - a.salvage) := by omega
        have := ih (period + 1) hle
        simp only [map_cons, sum_cons]
        omega

theorem Consecutive.straight (h : Consecutive a es) (hm : a.method = .straightLine) :
    a.bookValue es = max a.salvage (a.cost - a.monthly * es.length) := by
  have hplan : a.scheduleFrom es.length a.acquired a.cost = es := by
    simpa only [Asset.scheduleFrom, append_nil, add_zero] using h.schedule 0
  simpa only [hplan, Asset.bookValue] using bookValue_scheduleFrom hm es.length a.acquired a.salvage_le

/-! ### Overlaps -/

/-- What a run knows between its steps. -/
def Pc.Ok (a : Asset) : Pc → Prop
  | .insert entry seen => entry = a.entryFor entry.period seen ∧ 0 < entry.depreciation
  | _ => True

theorem preserves (a : Asset) : Program.Preserves (runs a) (fun p x => isOrderly a p x = true) (Consecutive a) (fun _ _ => Pc.Ok a) (fun _ _ => True) where
  symm _ _ _ := trivial
  init es h := (show es = [] from h) ▸ .nil
  env _ e := e.elim
  call _ _ _ _ _ h := by
    cases h
    exact ⟨trivial, fun _ _ => trivial⟩
  step p k o pc es pc' hi hc ht hs := by
    have hothers : ∀ (j : ℕ) u, j ≠ k → p.threads[j]? = some u → u.Ok a ∧ True := fun j u _ hu => ⟨hi.thread j u hu, trivial⟩
    have hc : pc.isOrderly a p.store = true := by simpa [isOrderly, ht] using hc
    have hok := hi.thread k pc ht
    cases pc with
    | look period =>
      obtain ⟨rfl, rfl⟩ := Prod.mk.inj (Option.some.inj hs)
      refine ⟨hi.store, ?_, hothers⟩
      split_ifs <;> trivial
    | read period seen =>
      obtain ⟨rfl, rfl⟩ := Prod.mk.inj (Option.some.inj hs)
      refine ⟨hi.store, ?_, hothers⟩
      split_ifs with hdep
      · trivial
      · rw [← (of_decide_eq_true hc).resolve_left hdep]
        exact ⟨rfl, not_le.mp hdep⟩
    | insert entry seen =>
      cases hs
      obtain ⟨hseen, hperiod⟩ := of_decide_eq_true hc
      obtain ⟨hentry, hdep⟩ := hok
      refine ⟨?_, trivial, hothers⟩
      rw [hperiod] at hentry
      rw [hentry] at hdep ⊢
      rw [← hseen] at hdep ⊢
      exact hi.store.snoc hdep
    | done =>
      cases hs
      exact ⟨hi.store, trivial, hothers⟩

theorem Consecutive.plan (h : Consecutive a es) (n : ℕ) :
    Consecutive a (es ++ a.scheduleFrom n (a.acquired + es.length) (a.bookValue es)) := by
  induction n generalizing es with
  | zero => simpa [Asset.scheduleFrom] using h
  | succ n ih =>
    rw [Asset.scheduleFrom]
    split_ifs with hdep
    · simpa using h
    · simpa [bookValue_snoc, Asset.entryFor, add_assoc] using ih (h.snoc (not_le.mp hdep))

/-- The last run takes a step. -/
theorem step_last (es : List Entry) (ts : List Pc) {pc : Pc} (h : pc.isOrderly a es = true) :
    (runs a).machine.Next (fun p x => isOrderly a p x = true) ⟨es, ts ++ [pc]⟩
      ⟨(advance a es pc).1, ts ++ [(advance a es pc).2]⟩ :=
  ⟨.step ts.length (), by simpa [isOrderly] using h, by simp [Program.machine, Program.next, runs]⟩

theorem Consecutive.reached (h : Consecutive a es) :
    ∃ ts, (runs a).machine.Reach (fun p x => isOrderly a p x = true) ⟨es, ts⟩ := by
  induction h with
  | nil => exact ⟨[], .start ⟨rfl, rfl⟩⟩
  | @snoc es h hdep ih =>
    obtain ⟨ts, hts⟩ := ih
    have hnew : ¬(a.acquired + es.length < a.acquired ∨ ∃ e ∈ es, e.period = a.acquired + es.length) := by
      rintro (hlt | ⟨e, he, heq⟩)
      · omega
      · obtain ⟨i, hi, hperiod⟩ := mem_map.mp (h.periods ▸ mem_map_of_mem he)
        have := mem_range.mp hi
        omega
    have hcall : (runs a).machine.Reach _ ⟨es, ts ++ [.look (a.acquired + es.length)]⟩ := hts.tail ⟨.call _, rfl, rfl⟩
    have hlook := hcall.tail (step_last es ts rfl)
    simp only [advance, if_neg hnew] at hlook
    have hread := hlook.tail (step_last es ts (by simp [Pc.isOrderly]))
    simp only [advance, if_neg (not_le.mpr hdep : ¬(a.entryFor (a.acquired + es.length) es).depreciation ≤ 0)] at hread
    exact ⟨_, hread.tail (step_last es ts (by simp [Pc.isOrderly, Asset.entryFor]))⟩

/-- Run month after month, the entries become the planned table. -/
theorem plan_followed (a : Asset) :
    (∃ ts, (runs a).machine.Reach (fun p x => isOrderly a p x = true) ⟨a.buildSchedule, ts⟩) ∧
      (a.buildSchedule.map Entry.period).Nodup ∧ a.salvage ≤ a.bookValue a.buildSchedule := by
  have h : Consecutive a a.buildSchedule := by
    simpa [Asset.bookValue, Asset.buildSchedule] using Consecutive.nil.plan 600
  exact ⟨h.reached, h.nodup, h.salvage_le⟩

/-- 100.00 over three months. -/
def sampleAsset : Asset := ⟨10000, 0, 3, .straightLine, 0, by decide⟩

/-- The steps of a run that nothing interrupts, when `k` were started before it. -/
def runOf (period : ℤ) (k : ℕ) : List (Act Empty ℤ Unit) := [.call period, .step k (), .step k (), .step k ()]

end SyrocePms.FixedAssets
