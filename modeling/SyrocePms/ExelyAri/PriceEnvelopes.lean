import SyrocePms.ExelyAri.Update
import SyrocePms.Lib.Days
import SyrocePms.Lib.Dict
import SyrocePms.Lib.Transaction

/-! `plan_rate_envelopes`: a selection of prices that is too large for one envelope is grouped by rate plan,
each period is cut into parts that fit, and the parts go into the first envelope that has room for them.
The text of a day is its ordinal in the calendar. -/

namespace SyrocePms.ExelyAri

open Lib List

/-- A message that passes the checks of a rate batch. -/
structure RateMessage where
  message : Message
  accepted : checkMessage .rateBatch (some message) = none
  deriving DecidableEq

def DateText.ordinal : DateText → ℤ
  | .day d => d
  | _ => 0

namespace RateMessage

variable (m : RateMessage)

def start : ℤ := m.message.startDate.ordinal

def last : ℤ := m.message.endDate.ordinal

def nights : ℕ := (m.last - m.start + 1).toNat

/-- `len(message.get("guest_prices", [None]))`. -/
def placements : ℕ := m.message.guestPrices.elim 1 fun prices => (prices.getD []).length

/-- A price for each accommodation type and date is a change. -/
def changes : ℕ := m.nights * m.placements

def prices : Message := { m.message with startDate := .blank, endDate := .blank }

def entries : List (ℤ × Message) := (daysBetween m.start m.last).map fun day => (day, m.prices)

end RateMessage

/-! ### Envelopes -/

def changesPerSecond : ℕ := 1460

inductive EnvelopeError where
  | messageLimit
  | changeLimit (operation : Operation) (categoryChangeCount categoryChangeLimit : ℕ)

inductive PlanError where
  /-- A date past the last day. -/
  | overflow
  /-- The loop over a period goes on. -/
  | endless
  deriving DecidableEq

/-- An open envelope, and its costs by category. -/
structure Bin where
  messages : List RateMessage
  costs : Dict ℕ ℕ

variable (category : Option ℕ → ℕ)
variable {messages' : List RateMessage}

/-- `str(room_type_code).strip().casefold()`. -/
def RateMessage.room (m : RateMessage) : ℕ := category m.message.roomTypeCode

def addChanges (counts : Dict ℕ ℕ) (m : RateMessage) : Dict ℕ ℕ := counts.add (m.room category) m.changes

def categoryChangeCounts (messages : List RateMessage) : Dict ℕ ℕ := messages.foldl (addChanges category) .empty

def singleEnvelopeError (operation : Operation) (messages : List RateMessage) : Option EnvelopeError :=
  if 200 < messages.length then some .messageLimit
  else
    let maximum := ((categoryChangeCounts category messages).entries.map Prod.snd).max?.getD 0
    if changesPerSecond < maximum then some (.changeLimit operation maximum changesPerSecond) else none

/-! ### Messages that passed -/

theorem RateMessage.dates (m : RateMessage) :
    m.message.startDate = .day m.start ∧ m.message.endDate = .day m.last ∧ m.start ≤ m.last := by
  have h := m.accepted
  unfold checkMessage at h
  simp only [Option.or_eq_none_iff] at h
  have hplace := h.1
  unfold checkPlace at hplace
  unfold RateMessage.start RateMessage.last
  split_ifs at hplace
  split at hplace
  · rename_i a b ha hb
    split_ifs at hplace with hle
    rw [ha, hb]
    exact ⟨rfl, rfl, not_lt.mp hle⟩
  · cases hplace

theorem RateMessage.placements_bounds (m : RateMessage) : 1 ≤ m.placements ∧ m.placements ≤ 101 := by
  have h := m.accepted
  unfold checkMessage at h
  simp only [Option.or_eq_none_iff] at h
  have hprices := h.2
  unfold RateMessage.placements
  cases hguest : m.message.guestPrices with
  | none => simp
  | some prices =>
    rw [hguest] at hprices
    cases prices with
    | none => simp [validateGuestPrices] at hprices
    | some prices =>
      split_ifs at hprices with hvalid
      simp only [Option.map_some, Option.getD_some, validateGuestPrices, Bool.and_eq_true, decide_eq_true_eq] at hvalid
      exact hvalid.1

def RateMessage.narrow (m : RateMessage) (start last : ℤ) (h : start ≤ last) : RateMessage where
  message := { m.message with startDate := .day start, endDate := .day last }
  accepted := by
    have hm := m.accepted
    obtain ⟨hstart, hlast, -⟩ := m.dates
    unfold checkMessage at hm ⊢
    simp only [Option.or_eq_none_iff] at hm ⊢
    refine ⟨?_, hm.2⟩
    have hplace := hm.1
    unfold checkPlace at hplace ⊢
    rw [hstart, hlast] at hplace
    split_ifs at hplace with hroom hplan
    simp [hroom, hplan, DateText.isBlank, not_lt.mpr h]

section

variable {m : RateMessage} {start last : ℤ} {h : start ≤ last}

@[simp] theorem RateMessage.start_narrow : (m.narrow start last h).start = start := rfl

@[simp] theorem RateMessage.last_narrow : (m.narrow start last h).last = last := rfl

@[simp] theorem RateMessage.placements_narrow : (m.narrow start last h).placements = m.placements := rfl

@[simp] theorem RateMessage.prices_narrow : (m.narrow start last h).prices = m.prices := rfl

@[simp] theorem RateMessage.room_narrow : (m.narrow start last h).room category = m.room category := rfl

end

/-! ### The plan -/

def RateMessage.daysPerPeriod (m : RateMessage) : ℕ := changesPerSecond / m.placements

theorem RateMessage.daysPerPeriod_pos (m : RateMessage) : 0 < m.daysPerPeriod :=
  Nat.div_pos (m.placements_bounds.2.trans (by decide)) m.placements_bounds.1

def splitMessage (m : RateMessage) : ℕ → ℤ → Except PlanError (List RateMessage)
  | 0, _ => .error .endless
  | fuel + 1, start =>
    if h : m.last < start then .ok []
    else if lastDay < start + m.daysPerPeriod - 1 then .error .overflow
    else if min m.last (start + m.daysPerPeriod - 1) = lastDay then .error .overflow
    else
      (splitMessage m fuel (min m.last (start + m.daysPerPeriod - 1) + 1)).map fun parts =>
        m.narrow start (min m.last (start + m.daysPerPeriod - 1))
          (le_min (not_lt.mp h) (by have hpos := m.daysPerPeriod_pos; omega)) :: parts

def place : List Bin → RateMessage → List Bin
  | [], part => [⟨[part], Dict.empty.add (part.room category) part.changes⟩]
  | bin :: bins, part =>
    if bin.messages.length < 200 ∧ bin.costs.count (part.room category) + part.changes ≤ changesPerSecond then
      ⟨bin.messages ++ [part], bin.costs.add (part.room category) part.changes⟩ :: bins
    else bin :: place bins part

def placeMessage (bins : List Bin) (m : RateMessage) : Except PlanError (List Bin) :=
  (splitMessage m (m.nights + 1) m.start).map fun parts => parts.foldl (place category) bins

def planGroup (group : List RateMessage) : Except PlanError (List Bin) := group.foldlM (placeMessage category) []

def byPlan (messages : List RateMessage) : Dict (Option ℕ) (List RateMessage) :=
  messages.foldl (fun d m => d.push m.message.ratePlanCode m) .empty

def planRateEnvelopes (messages : List RateMessage) : Except PlanError (List (List RateMessage)) :=
  if messages = [] then .ok []
  else if singleEnvelopeError category .rateBatch messages = none then .ok [messages]
  else ((byPlan messages).entries.mapM fun e => planGroup category e.2).map fun groups => groups.flatten.map Bin.messages

/-! ### What a plan is -/

/-- All of the last part of the period, at its full length, is in the calendar, and the period ends before
the last day. -/
def InCalendar (m : RateMessage) : Prop :=
  m.last < lastDay ∧ ∀ k : ℕ, m.start + k * m.daysPerPeriod ≤ m.last → m.start + k * m.daysPerPeriod + m.daysPerPeriod - 1 ≤ lastDay

def IsPart (part m : RateMessage) : Prop := part.prices = m.prices ∧ m.start ≤ part.start ∧ part.last ≤ m.last

def allEntries (messages : List RateMessage) : List (ℤ × Message) := messages.flatMap RateMessage.entries

structure IsLegalPlan (messages : List RateMessage) (envelopes : List (List RateMessage)) : Prop where
  legal : ∀ e ∈ envelopes, singleEnvelopeError category .rateBatch e = none
  lossless : (envelopes.flatMap allEntries).Perm (allEntries messages)
  parts : ∀ e ∈ envelopes, ∀ part ∈ e, ∃ m ∈ messages, IsPart part m
  stable : ∀ e ∈ envelopes, planRateEnvelopes category e = .ok [e]

/-! ### The parts of one message -/

/-- `InCalendar` from a later day on. -/
def Fits (m : RateMessage) (start : ℤ) : Prop :=
  start ≤ m.last → m.last < lastDay ∧
    ∀ k : ℕ, start + k * m.daysPerPeriod ≤ m.last → start + k * m.daysPerPeriod + m.daysPerPeriod - 1 ≤ lastDay

variable {category} {m part : RateMessage} {messages parts group : List RateMessage} {bin : Bin} {bins bins' : List Bin}
  {start : ℤ} {fuel : ℕ}

theorem fits_start : Fits m m.start ↔ InCalendar m := by
  unfold Fits InCalendar
  exact ⟨fun h => h m.dates.2.2, fun h _ => h⟩

/-- What one round asks for, and what is left to the next. -/
theorem fits_step (h : start ≤ m.last) : Fits m start ↔ start + m.daysPerPeriod - 1 ≤ lastDay ∧
    min m.last (start + m.daysPerPeriod - 1) ≠ lastDay ∧ Fits m (min m.last (start + m.daysPerPeriod - 1) + 1) := by
  have hpos := m.daysPerPeriod_pos
  have hshift (k : ℕ) : start + (k + 1 : ℕ) * m.daysPerPeriod = start + m.daysPerPeriod + k * m.daysPerPeriod := by
    push_cast
    ring
  constructor
  · intro hfits
    obtain ⟨hlast, hperiods⟩ := hfits h
    have hfirst := hperiods 0
    rw [Nat.cast_zero, zero_mul, add_zero] at hfirst
    refine ⟨hfirst h, by omega, fun hnext => ⟨hlast, fun k hk => ?_⟩⟩
    have heq : min m.last (start + m.daysPerPeriod - 1) + 1 = start + m.daysPerPeriod := by omega
    rw [heq] at hk ⊢
    have hlater := hperiods (k + 1)
    rw [hshift] at hlater
    exact hlater hk
  · rintro ⟨hfirst, hend, hnext⟩ -
    by_cases hmore : start + m.daysPerPeriod ≤ m.last
    · have heq : min m.last (start + m.daysPerPeriod - 1) + 1 = start + m.daysPerPeriod := by omega
      rw [heq] at hnext
      obtain ⟨hlast, hperiods⟩ := hnext hmore
      refine ⟨hlast, fun k => ?_⟩
      cases k with
      | zero => simpa using fun _ => by omega
      | succ k =>
        rw [hshift]
        exact hperiods k
    · refine ⟨by omega, fun k hk => ?_⟩
      cases k with
      | zero => simpa using by omega
      | succ k =>
        rw [hshift] at hk
        have hnonneg : (0 : ℤ) ≤ k * m.daysPerPeriod := by positivity
        omega

structure PartsFrom (m : RateMessage) (start : ℤ) (parts : List RateMessage) : Prop where
  isPart : ∀ part ∈ parts, IsPart part m
  changes : ∀ part ∈ parts, part.changes ≤ changesPerSecond
  entries : allEntries parts = (daysBetween start m.last).map fun day => (day, m.prices)

theorem splitMessage_of_fits (hstart : m.start ≤ start) (hfuel : (m.last + 1 - start).toNat < fuel) (h : Fits m start) :
    ∃ parts, splitMessage m fuel start = .ok parts ∧ PartsFrom m start parts := by
  induction fuel generalizing start with
  | zero => omega
  | succ fuel ih =>
    unfold splitMessage
    by_cases hend : m.last < start
    · rw [dif_pos hend]
      exact ⟨[], rfl, by simp, by simp, by rw [daysBetween_of_lt hend]; rfl⟩
    · have hpos := m.daysPerPeriod_pos
      obtain ⟨hfirst, hlast, hnext⟩ := (fits_step (not_lt.mp hend)).mp h
      obtain ⟨parts, hparts, hfrom⟩ := ih (by omega) (by omega) hnext
      rw [dif_neg hend, if_neg (not_lt.mpr hfirst), if_neg hlast, hparts]
      refine ⟨_, rfl, ?_, ?_, ?_⟩
      · refine forall_mem_cons.mpr ⟨⟨rfl, hstart, min_le_left _ _⟩, hfrom.isPart⟩
      · refine forall_mem_cons.mpr ⟨?_, hfrom.changes⟩
        have hnights : (m.narrow start (min m.last (start + m.daysPerPeriod - 1)) (le_min (not_lt.mp hend) (by omega))).nights ≤
            m.daysPerPeriod := by
          unfold RateMessage.nights
          simp only [RateMessage.start_narrow, RateMessage.last_narrow]
          omega
        exact (Nat.mul_le_mul_right _ hnights).trans (Nat.div_mul_le_self _ _)
      · rw [allEntries, flatMap_cons]
        rw [← daysBetween_append start (min m.last (start + m.daysPerPeriod - 1)) m.last (by omega) (by omega), map_append]
        congr 1
        exact hfrom.entries

theorem splitMessage_of_not_fits (hfuel : (m.last + 1 - start).toNat < fuel) (h : ¬ Fits m start) :
    splitMessage m fuel start = .error .overflow := by
  induction fuel generalizing start with
  | zero => omega
  | succ fuel ih =>
    have hend : ¬ m.last < start := fun hend => h fun hle => absurd hle (not_le.mpr hend)
    have hpos := m.daysPerPeriod_pos
    unfold splitMessage
    rw [fits_step (not_lt.mp hend)] at h
    rw [dif_neg hend]
    split_ifs with hfirst hlast
    · rfl
    · rfl
    · rw [ih (by omega) fun hnext => h ⟨not_lt.mp hfirst, hlast, hnext⟩]
      rfl

/-! ### First fit -/

/-- An envelope that keeps to the limits. -/
structure Bin.IsLegal (category : Option ℕ → ℕ) (bin : Bin) : Prop where
  nonempty : bin.messages ≠ []
  length : bin.messages.length ≤ 200
  costs : bin.costs = categoryChangeCounts category bin.messages
  changes : ∀ e ∈ bin.costs.entries, e.2 ≤ changesPerSecond

theorem categoryChangeCounts_append_one : categoryChangeCounts category (messages ++ [part]) =
    (categoryChangeCounts category messages).add (part.room category) part.changes := by
  rw [categoryChangeCounts, foldl_append]
  rfl

theorem singleEnvelopeError_of_isLegal {operation : Operation} (h : bin.IsLegal category) :
    singleEnvelopeError category operation bin.messages = none := by
  simp only [singleEnvelopeError]
  rw [if_neg (not_lt.mpr h.length), ← h.costs, if_neg]
  cases hmax : (bin.costs.entries.map Prod.snd).max? with
  | none => simp
  | some maximum =>
    obtain ⟨e, he, rfl⟩ := mem_map.mp (max?_eq_some_iff.mp hmax).1
    exact not_lt.mpr (h.changes e he)

theorem place_isLegal (hbins : ∀ bin ∈ bins, bin.IsLegal category) (hpart : part.changes ≤ changesPerSecond) :
    ∀ bin ∈ place category bins part, bin.IsLegal category := by
  induction bins with
  | nil =>
    intro bin hbin
    rw [place, mem_singleton] at hbin
    subst hbin
    refine ⟨cons_ne_nil _ _, by simp, rfl, fun e he => ?_⟩
    obtain he | rfl := Dict.mem_entries_update he
    · cases he
    · simpa using hpart
  | cons first bins ih =>
    rw [forall_mem_cons] at hbins
    rw [place]
    split_ifs with hroom
    · refine forall_mem_cons.mpr ⟨⟨by simp, ?_, ?_, fun e he => ?_⟩, hbins.2⟩
      · rw [length_append, length_singleton]
        omega
      · rw [categoryChangeCounts_append_one, ← hbins.1.costs]
      · obtain he | rfl := Dict.mem_entries_update he
        · exact hbins.1.changes e he
        · exact hroom.2
    · exact forall_mem_cons.mpr ⟨hbins.1, ih hbins.2⟩

theorem place_perm (category : Option ℕ → ℕ) (bins : List Bin) (part : RateMessage) :
    ((place category bins part).flatMap Bin.messages).Perm (bins.flatMap Bin.messages ++ [part]) := by
  induction bins with
  | nil => rfl
  | cons first bins ih =>
    rw [place]
    split_ifs
    · simp only [flatMap_cons, append_assoc]
      exact perm_append_comm.append_left _
    · simp only [flatMap_cons, append_assoc]
      exact ih.append_left _

theorem places_isLegal (hbins : ∀ bin ∈ bins, bin.IsLegal category) (hparts : ∀ part ∈ parts, part.changes ≤ changesPerSecond) :
    ∀ bin ∈ parts.foldl (place category) bins, bin.IsLegal category := by
  induction parts generalizing bins with
  | nil => exact hbins
  | cons part parts ih =>
    rw [forall_mem_cons] at hparts
    exact ih (place_isLegal hbins hparts.1) hparts.2

theorem places_perm (bins : List Bin) (parts : List RateMessage) :
    ((parts.foldl (place category) bins).flatMap Bin.messages).Perm (bins.flatMap Bin.messages ++ parts) := by
  induction parts generalizing bins with
  | nil => simp
  | cons part parts ih =>
    refine (ih _).trans ?_
    have hstep := (place_perm category bins part).append_right parts
    rwa [append_assoc, singleton_append] at hstep

/-! ### One rate plan -/

structure Holds (category : Option ℕ → ℕ) (messages : List RateMessage) (bins : List Bin) : Prop where
  isLegal : ∀ bin ∈ bins, bin.IsLegal category
  isPart : ∀ part ∈ bins.flatMap Bin.messages, ∃ m ∈ messages, IsPart part m
  entries : (allEntries (bins.flatMap Bin.messages)).Perm (allEntries messages)

theorem placeMessage_spec (hbins : Holds category messages bins) (h : InCalendar m) :
    ∃ bins', placeMessage category bins m = .ok bins' ∧ Holds category (messages ++ [m]) bins' := by
  have hsplit : ∃ parts, splitMessage m (m.nights + 1) m.start = .ok parts ∧ PartsFrom m m.start parts :=
    splitMessage_of_fits le_rfl (by unfold RateMessage.nights; omega) (fits_start.mpr h)
  obtain ⟨parts, hparts, hfrom⟩ := hsplit
  rw [placeMessage, hparts]
  refine ⟨_, rfl, places_isLegal hbins.isLegal hfrom.changes, fun part hpart => ?_, ?_⟩
  · obtain hpart | hpart := mem_append.mp ((places_perm bins parts).mem_iff.mp hpart)
    · exact (hbins.isPart part hpart).imp fun m' h => ⟨mem_append_left _ h.1, h.2⟩
    · exact ⟨m, by simp, hfrom.isPart part hpart⟩
  · refine ((places_perm bins parts).flatMap_right _).trans ?_
    rw [flatMap_append, allEntries, flatMap_append, flatMap_singleton]
    have hlast : parts.flatMap RateMessage.entries = m.entries := hfrom.entries
    rw [hlast]
    exact hbins.entries.append_right _

theorem inCalendar_of_placeMessage (h : placeMessage category bins m = .ok bins') : InCalendar m := by
  by_contra hnot
  rw [placeMessage, splitMessage_of_not_fits (by unfold RateMessage.nights; omega) (mt fits_start.mp hnot)] at h
  cases h

theorem placeMessages_spec (hbins : Holds category messages bins) (h : ∀ m ∈ group, InCalendar m) :
    ∃ bins', group.foldlM (placeMessage category) bins = .ok bins' ∧ Holds category (messages ++ group) bins' := by
  induction group generalizing messages bins with
  | nil => exact ⟨bins, rfl, by simpa using hbins⟩
  | cons m group ih =>
    rw [forall_mem_cons] at h
    obtain ⟨bins₁, hstep, hbins₁⟩ := placeMessage_spec hbins h.1
    obtain ⟨bins', hrest, hbins'⟩ := ih hbins₁ h.2
    refine ⟨bins', ?_, by simpa using hbins'⟩
    rw [foldlM_cons, hstep]
    exact hrest

theorem inCalendar_of_placeMessages (h : group.foldlM (placeMessage category) bins = .ok bins') : ∀ m ∈ group, InCalendar m := by
  induction group generalizing bins with
  | nil => simp
  | cons m group ih =>
    rw [foldlM_cons] at h
    obtain ⟨bins₁, hstep, hrest⟩ := Transaction.bind_eq_ok h
    exact forall_mem_cons.mpr ⟨inCalendar_of_placeMessage hstep, ih hrest⟩

/-! ### All rate plans -/

theorem Holds.append (h : Holds category messages bins) (h' : Holds category messages' bins') :
    Holds category (messages ++ messages') (bins ++ bins') := by
  refine ⟨fun bin hbin => ?_, fun part hpart => ?_, ?_⟩
  · exact (mem_append.mp hbin).elim (h.isLegal bin) (h'.isLegal bin)
  · rw [flatMap_append, mem_append] at hpart
    obtain hpart | hpart := hpart
    · exact (h.isPart part hpart).imp fun m hm => ⟨mem_append_left _ hm.1, hm.2⟩
    · exact (h'.isPart part hpart).imp fun m hm => ⟨mem_append_right _ hm.1, hm.2⟩
  · rw [flatMap_append, allEntries, allEntries, flatMap_append, flatMap_append]
    exact h.entries.append h'.entries

theorem Holds.perm (h : Holds category messages bins) (hperm : messages.Perm messages') :
    Holds category messages' bins :=
  ⟨h.isLegal, fun part hpart => (h.isPart part hpart).imp fun _ hm => ⟨hperm.mem_iff.mp hm.1, hm.2⟩,
    h.entries.trans (hperm.flatMap_right _)⟩

theorem holds_nil : Holds category [] [] :=
  ⟨forall_mem_nil _, forall_mem_nil _, .refl _⟩

variable {groups : List (Option ℕ × List RateMessage)} {plans : List (List Bin)}

theorem planGroups_spec (h : ∀ m ∈ groups.flatMap Prod.snd, InCalendar m) :
    ∃ plans, groups.mapM (fun e => planGroup category e.2) = .ok plans ∧ Holds category (groups.flatMap Prod.snd) plans.flatten := by
  induction groups with
  | nil => exact ⟨[], rfl, holds_nil⟩
  | cons e groups ih =>
    rw [flatMap_cons, forall_mem_append] at h
    obtain ⟨bins, hgroup, hbins⟩ := placeMessages_spec holds_nil h.1
    obtain ⟨plans, hrest, hplans⟩ := ih h.2
    have hplan : planGroup category e.2 = .ok bins := hgroup
    refine ⟨bins :: plans, ?_, hbins.append hplans⟩
    rw [mapM_cons, hplan, hrest]
    rfl

theorem inCalendar_of_planGroups (h : groups.mapM (fun e => planGroup category e.2) = .ok plans) :
    ∀ m ∈ groups.flatMap Prod.snd, InCalendar m := by
  induction groups generalizing plans with
  | nil => simp
  | cons e groups ih =>
    rw [mapM_cons] at h
    obtain ⟨bins, hgroup, h⟩ := Transaction.bind_eq_ok h
    obtain ⟨plans, hrest, -⟩ := Transaction.bind_eq_ok h
    rw [flatMap_cons, forall_mem_append]
    exact ⟨inCalendar_of_placeMessages hgroup, ih hrest⟩

theorem byPlan_perm (messages : List RateMessage) : ((byPlan messages).entries.flatMap Prod.snd).Perm messages := by
  induction messages using List.reverseRecOn with
  | nil => exact .refl _
  | append_singleton messages m ih =>
    have happend : byPlan (messages ++ [m]) = (byPlan messages).push m.message.ratePlanCode m := by
      rw [byPlan, foldl_append]
      rfl
    rw [happend]
    exact (Dict.flatMap_push_perm _ _ _).trans (ih.append_right [m])

theorem plan_of_single (hne : messages ≠ []) (h : singleEnvelopeError category .rateBatch messages = none) :
    planRateEnvelopes category messages = .ok [messages] := by
  rw [planRateEnvelopes, if_neg hne, if_pos h]

theorem isLegalPlan_of_holds (h : Holds category messages bins) :
    IsLegalPlan category messages (bins.map Bin.messages) := by
  have hlegal : ∀ e ∈ bins.map Bin.messages, e ≠ [] ∧ singleEnvelopeError category .rateBatch e = none := by
    intro e he
    obtain ⟨bin, hbin, rfl⟩ := mem_map.mp he
    exact ⟨(h.isLegal bin hbin).nonempty, singleEnvelopeError_of_isLegal (h.isLegal bin hbin)⟩
  refine ⟨fun e he => (hlegal e he).2, ?_, fun e he part hpart => ?_, fun e he => plan_of_single (hlegal e he).1 (hlegal e he).2⟩
  · have hflat : (bins.map Bin.messages).flatMap allEntries = allEntries (bins.flatMap Bin.messages) := by
      simp only [allEntries, flatMap_map, flatMap_assoc]
    rw [hflat]
    exact h.entries
  · obtain ⟨bin, hbin, rfl⟩ := mem_map.mp he
    exact h.isPart part (mem_flatMap.mpr ⟨bin, hbin, hpart⟩)

theorem isPart_refl (m : RateMessage) : IsPart m m := ⟨rfl, le_rfl, le_rfl⟩

/-- A selection has a plan, and the plan is legal, exactly when it fits one envelope or no date of its parts
is past the calendar. -/
theorem price_envelopes_lossless (category : Option ℕ → ℕ) (messages : List RateMessage) :
    (∃ envelopes, planRateEnvelopes category messages = .ok envelopes ∧ IsLegalPlan category messages envelopes) ↔
      singleEnvelopeError category .rateBatch messages = none ∨ ∀ m ∈ messages, InCalendar m := by
  by_cases hnil : messages = []
  · subst hnil
    refine iff_of_true ⟨[], rfl, isLegalPlan_of_holds holds_nil⟩ (.inr (forall_mem_nil _))
  by_cases hsingle : singleEnvelopeError category .rateBatch messages = none
  · refine iff_of_true ⟨[messages], plan_of_single hnil hsingle, ?_⟩ (.inl hsingle)
    refine ⟨by simpa using hsingle, by simp, fun e he part hpart => ?_, by simpa using plan_of_single hnil hsingle⟩
    rw [mem_singleton.mp he] at hpart
    exact ⟨part, hpart, isPart_refl part⟩
  · have hcalendar : (∀ m ∈ messages, InCalendar m) ↔ ∀ m ∈ (byPlan messages).entries.flatMap Prod.snd, InCalendar m :=
      ⟨fun h m hm => h m ((byPlan_perm messages).mem_iff.mp hm), fun h m hm => h m ((byPlan_perm messages).mem_iff.mpr hm)⟩
    rw [planRateEnvelopes, if_neg hnil, if_neg hsingle, or_iff_right hsingle, hcalendar]
    constructor
    · rintro ⟨envelopes, hplan, -⟩
      cases hgroups : (byPlan messages).entries.mapM fun e => planGroup category e.2 with
      | error =>
        rw [hgroups] at hplan
        cases hplan
      | ok plans => exact inCalendar_of_planGroups hgroups
    · intro h
      have hspec : ∃ plans, (byPlan messages).entries.mapM (fun e => planGroup category e.2) = .ok plans ∧
          Holds category ((byPlan messages).entries.flatMap Prod.snd) plans.flatten := planGroups_spec h
      obtain ⟨plans, hplans, hholds⟩ := hspec
      rw [hplans]
      exact ⟨_, rfl, isLegalPlan_of_holds (hholds.perm (byPlan_perm messages))⟩

/-- A price from 9990-01-01 to 9999-12-31. -/
theorem plan_past_calendar : ¬ ∃ envelopes, planRateEnvelopes (fun _ => 0) [⟨{
      roomTypeCode := some 1, ratePlanCode := some 1, startDate := .day 3648408, endDate := .day 3652059,
      rateAmount := .int 100, currency := some (.letters 1) }, by decide⟩] = .ok envelopes := by
  rintro ⟨envelopes, h⟩
  cases h

end SyrocePms.ExelyAri
