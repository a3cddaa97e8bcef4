import SyrocePms.NightAudit.ChargedClose

/-! An aborted run. The abort writes the run and its items and nothing else; a pipeline that
is under way never reads the status of its run, and a resume takes an aborted run for a
failed one. So the abort is final when nobody carries out the run and nobody resumes it. -/

namespace SyrocePms.NightAudit

open Lib List

variable {s : Store} {k run : ℕ} {o : Outside} {t t' : Thread}

/-- The night audit with two logs: `aborted` has the runs whose abort succeeded, and `posted`
the items that were posted, in order. Nothing branches on the logs. -/
structure AbortLog where
  audit : Store
  aborted : List ℕ := []
  posted : List Item := []

namespace Thread

def carriesOut : Thread → Option ℕ
  | .mapping c run _ | .validate c run _ | .build c run _ | .insertItems c run _ _ =>
    if c.dryRun then none else some run
  | .resetItems run _ _ | .resumeValidating run _ | .resumeValidate run _ | .reenter run _
  | .gate run _ | .postCharges run _ | .posting run _ _ | .reconcile run _ | .rollCheck run _
  | .roll run _ => some run
  | _ => none

def aborts : Thread → Option ℕ
  | .abortRun run | .abortItems run => some run
  | _ => none

def todo : Thread → List Item
  | .posting _ _ todo => todo
  | _ => []

end Thread

namespace AbortLog

/-- One operation of a call. The last operation of an abort is its success. -/
def advance (s : AbortLog) (o : Outside) (t : Thread) : Option (AbortLog × Thread) :=
  (NightAudit.advance s.audit o t).map fun r =>
    ({ audit := r.1
       aborted := t.cuts.toList ++ s.aborted
       posted := s.posted ++ (postedItem s.audit o t).toList }, r.2)

def step (s : AbortLog) (t : Thread) : Move → Option (AbortLog × Thread)
  | .advance o => s.advance o t
  | .raise => some (s, t.raised)
  | .crash => some (s, .returned)

def done (s : AbortLog) (run : ℕ) : List Item × List (ℕ × ℤ) :=
  (s.posted.filter (·.run == run), s.audit.rolled.filter (·.1 == run))

end AbortLog

def aborting : Program AbortLog Thread Env Call Move where
  init s := s.audit.runs = [] ∧ s.audit.items = [] ∧ s.audit.rolled = [] ∧ s.aborted = [] ∧
    s.posted = []
  env s e := some { s with audit := s.audit.env e }
  call _ c := some (.begin c)
  step _ s t m := s.step t m

def Undisturbed (p : Pool AbortLog Thread) : Act Env Call Move → Prop
  | .step k (.advance _) => ∀ t ∈ p.threads[k]?,
    (∀ run ∈ t.cuts, ∀ u ∈ p.threads, u.carriesOut ≠ some run) ∧
      match t with
      | .resume run => run ∈ p.store.aborted → (resumeStep p.store.audit run).carriesOut = none
      | _ => True
  | _ => True

instance (p : Pool AbortLog Thread) (a : Act Env Call Move) : Decidable (Undisturbed p a) := by
  rcases a with _ | _ | ⟨k, _ | _⟩ <;> unfold Undisturbed <;> try infer_instance
  refine @Option.decidableForallMem _ _ (fun t => ?_) _
  refine @instDecidableAnd _ _ inferInstance ?_
  rcases t with _ | _ <;> infer_instance

/-! ### Who carries out an aborted run -/

def RunsNumbered (s : AbortLog) : Prop :=
  (∀ r ∈ s.audit.runs, r.id < s.audit.nextId) ∧ ∀ run ∈ s.aborted, run < s.audit.nextId

/-- A call carries out no aborted run, it aborts a run that is there, and the items that it
posts are items of its run. -/
def OffAborted (s : AbortLog) (_ : ℕ) (t : Thread) : Prop :=
  (∀ run, t.carriesOut = some run → run < s.audit.nextId ∧ run ∉ s.aborted) ∧
    (∀ run, t.aborts = some run → run < s.audit.nextId) ∧
    ∀ x ∈ t.todo, t.carriesOut = some x.run

theorem findRun_id {r : Run} (h : s.findRun run = some r) : r ∈ s.runs ∧ r.id = run := by
  have hid := find?_some h
  exact ⟨mem_of_find?_eq_some h, by simpa using hid⟩

theorem setRun_ids (s : Store) (run : ℕ) {f : Run → Run} (hf : ∀ r, (f r).id = r.id) :
    (s.setRun run f).runs.map Run.id = s.runs.map Run.id := by
  simp only [Store.setRun, map_map]
  refine map_congr_left fun r _ => ?_
  simp only [Function.comp]
  split
  · exact hf r
  · rfl

theorem advance_runs {s' : Store} (h : advance s o t = some (s', t')) :
    (s'.nextId = s.nextId ∧ s'.runs.map Run.id = s.runs.map Run.id) ∨
      s'.nextId = s.nextId + 1 ∧ s'.runs.map Run.id = s.runs.map Run.id ++ [s.nextId] := by
  have hset (run : ℕ) (f : Run → Run) (hf : ∀ r, (f r).id = r.id) :
      (s.setRun run f).nextId = s.nextId ∧
        (s.setRun run f).runs.map Run.id = s.runs.map Run.id := ⟨rfl, setRun_ids s run hf⟩
  cases t with
  | insertRun c date first =>
    simp only [advance, insertRunStep, Option.some.injEq] at h
    split at h
    · cases h
      exact .inr ⟨rfl, by simp [newRun]⟩
    · split at h
      · cases h
        exact .inl ⟨rfl, rfl⟩
      · split at h <;> cases h <;> exact .inl ⟨rfl, rfl⟩
  | supersedeRead | abort =>
    simp only [advance] at h
    split at h <;> cases h <;> exact .inl ⟨rfl, rfl⟩
  | posting run date todo =>
    cases todo with
    | nil =>
      cases h
      exact .inl ⟨rfl, rfl⟩
    | cons x xs =>
      cases h
      obtain ⟨hn, hr, -, -⟩ := (s.postItem_outcome ((x :: xs).getD o.item x) o.fault).frame
      exact .inl ⟨hn, congrArg _ hr⟩
  | resumeValidating run date | reenter run date =>
    cases h
    have hbeat (s : Store) : (s.beat run).runs.map Run.id = s.runs.map Run.id :=
      setRun_ids s run fun _ => rfl
    refine .inl ⟨rfl, (hbeat _).trans (setRun_ids s run fun _ => ?_)⟩
    rfl
  | supersede | supersedeDryRun | build | postCharges | reconcile | rollCheck | close | abortRun =>
    cases h
    exact .inl (hset _ _ fun _ => rfl)
  | returned => cases h
  | _ =>
    cases h
    exact .inl ⟨rfl, rfl⟩

/-- Where a call goes on: it is done with its run, it goes on with the run, it takes up a
new run or the one that it resumes, or it aborts a run that it found. -/
inductive Follows (s s' : Store) (t t' : Thread) : Prop
  | idle (hc : t'.carriesOut = none) (ha : t'.aborts = none)
  | on (hc : t'.carriesOut = t.carriesOut) (ha : t'.aborts = none)
      (htodo : ∀ x ∈ t'.todo, x ∈ t.todo ∨ t'.carriesOut = some x.run)
  | created (hn : s'.nextId = s.nextId + 1) (hc : t'.carriesOut = some s.nextId)
      (ha : t'.aborts = none) (htodo : t'.todo = [])
  | resumed (run : ℕ) (ht : t = .resume run) (hres : t' = resumeStep s run)
      (hr : ∃ r ∈ s.runs, r.id = run) (hc : t'.carriesOut = some run) (ha : t'.aborts = none)
      (htodo : t'.todo = [])
  | aborting (run : ℕ) (hc : t'.carriesOut = none) (ha : t'.aborts = some run)
      (hr : t.aborts = some run ∨ ∃ r ∈ s.runs, r.id = run)

theorem Follows.same {s' : Store} (hc : t'.carriesOut = t.carriesOut) (ha : t'.aborts = none)
    (htodo : t'.todo = []) : Follows s s' t t' :=
  .on hc ha (by simp [htodo])

theorem pipeline_follows {s' : Store} (hn : s'.nextId = s.nextId + 1) (c : StartCall) (t : Thread)
    (date : ℤ) : Follows s s' t (pipeline c s.nextId date) := by
  cases hdry : c.dryRun with
  | true => refine .idle ?_ ?_ <;> unfold pipeline <;> split <;> simp [Thread.carriesOut,
      Thread.aborts, hdry]
  | false => refine .created hn ?_ ?_ ?_ <;> unfold pipeline <;> split <;> simp [Thread.carriesOut,
      Thread.aborts, Thread.todo, hdry]

theorem handleDuplicate_follows (s s' : Store) (c : StartCall) (date : ℤ) (retry : Bool)
    (t : Thread) : Follows s s' t (handleDuplicate s c date retry) := by
  unfold handleDuplicate
  split
  · exact .idle rfl rfl
  · split
    · exact .idle rfl rfl
    · split <;> exact .idle rfl rfl

theorem resumeStep_follows (s s' : Store) (run : ℕ) :
    Follows s s' (.resume run) (resumeStep s run) := by
  cases hr : s.findRun run with
  | none =>
    have hstep : resumeStep s run = .returned := by simp only [resumeStep, hr]
    exact .idle (by rw [hstep]; rfl) (by rw [hstep]; rfl)
  | some r =>
    by_cases hst : (r.status = .failed ∨ r.status = .partialRecovery ∨ r.status = .blocked) ∧
        r.dryRun = false
    · have hstep : resumeStep s run = .resetItems run r.businessDate (r.status == .blocked) := by
        simp only [resumeStep, hr, if_pos hst]
      exact .resumed run rfl rfl ⟨r, findRun_id hr⟩ (by rw [hstep]; rfl) (by rw [hstep]; rfl)
        (by rw [hstep]; rfl)
    · have hstep : resumeStep s run = .returned := by simp only [resumeStep, hr, if_neg hst]
      exact .idle (by rw [hstep]; rfl) (by rw [hstep]; rfl)

theorem advance_follows {s' : Store} (h : advance s o t = some (s', t')) : Follows s s' t t' := by
  cases t with
  | start | supersedeDryRun =>
    cases h
    split <;> exact .idle rfl rfl
  | supersede | close | abortItems | roll =>
    cases h
    exact .idle rfl rfl
  | insertRun c date first =>
    simp only [advance, insertRunStep, Option.some.injEq] at h
    split at h
    · cases h
      exact pipeline_follows rfl c _ date
    · split at h
      · cases h
        exact .idle rfl rfl
      · split at h <;> cases h <;> exact .idle rfl rfl
  | supersedeRead c date =>
    simp only [advance] at h
    split at h <;> cases h
    · split <;> exact .idle rfl rfl
    · exact .idle rfl rfl
  | duplicate c date retry =>
    cases h
    exact handleDuplicate_follows s _ c date retry _
  | mapping | validate | resetItems | resumeValidate | rollCheck =>
    cases h
    split <;> first | exact .same rfl rfl rfl | exact .idle rfl rfl
  | build | resumeValidating | reenter =>
    cases h
    exact .same rfl rfl rfl
  | insertItems c run date items =>
    cases h
    cases hdry : c.dryRun with
    | true => exact .idle rfl rfl
    | false => exact .same (by simp [Thread.carriesOut, hdry]) rfl rfl
  | resume run =>
    cases h
    exact resumeStep_follows s _ run
  | gate run date =>
    cases h
    unfold gateStep
    split
    · exact .idle rfl rfl
    · exact .same rfl rfl rfl
  | postCharges run date =>
    cases h
    refine .on rfl rfl fun x hx => .inr ?_
    have hmem := mem_filter.mp (mem_of_mem_take hx)
    have hitem : x.run = run ∧ x.status = .pending := by simpa using hmem.2
    exact congrArg some hitem.1.symm
  | posting run date todo =>
    cases todo with
    | nil =>
      cases h
      exact .same rfl rfl rfl
    | cons x xs =>
      cases h
      exact .on rfl rfl fun y hy => .inl (mem_of_mem_eraseIdx hy)
  | reconcile run date =>
    cases h
    unfold reconcileStep
    split
    · exact .idle rfl rfl
    · split
      · exact .idle rfl rfl
      · exact .same rfl rfl rfl
  | abort run =>
    simp only [advance] at h
    split at h
    · rename_i r hr
      cases h
      split
      · exact .idle rfl rfl
      · exact .aborting run rfl rfl (.inr ⟨r, findRun_id hr⟩)
    · cases h
      exact .idle rfl rfl
  | abortRun run =>
    cases h
    exact .aborting run rfl rfl (.inl rfl)
  | returned => cases h

variable {s' : AbortLog}

theorem OffAborted.mono {s : AbortLog} {j : ℕ} (h : OffAborted s k t)
    (hn : s.audit.nextId ≤ s'.audit.nextId)
    (ha : ∀ run, t.carriesOut = some run → run ∉ s.aborted → run ∉ s'.aborted) :
    OffAborted s' j t := by
  obtain ⟨hc, hab, htodo⟩ := h
  refine ⟨fun run hr => ?_, fun run hr => Nat.lt_of_lt_of_le (hab run hr) hn, htodo⟩
  obtain ⟨hlt, hnot⟩ := hc run hr
  exact ⟨Nat.lt_of_lt_of_le hlt hn, ha run hr hnot⟩

theorem OffAborted.of_none {s : AbortLog} (hc : t.carriesOut = none) (ha : t.aborts = none) :
    OffAborted s k t := by
  refine ⟨fun run hr => ?_, fun run hr => ?_, fun x hx => ?_⟩
  · rw [hc] at hr
    cases hr
  · rw [ha] at hr
    cases hr
  · cases t with
    | posting => cases hc
    | _ => cases hx

theorem raised_offAborted (s : AbortLog) (k : ℕ) (t : Thread) : OffAborted s k t.raised := by
  refine .of_none ?_ ?_ <;> cases t <;> rfl

theorem begin_offAborted (s : AbortLog) (k : ℕ) (c : Call) : OffAborted s k (.begin c) := by
  refine .of_none ?_ ?_ <;> cases c <;> rfl

theorem cuts_aborts (h : t.cuts = some run) : t.carriesOut = none ∧ t.aborts = some run := by
  cases t with
  | abortItems => exact ⟨rfl, h⟩
  | _ => cases h

theorem AbortLog.advance_some {s : AbortLog} (h : s.advance o t = some (s', t')) :
    NightAudit.advance s.audit o t = some (s'.audit, t') ∧
      s'.aborted = t.cuts.toList ++ s.aborted ∧
      s'.posted = s.posted ++ (postedItem s.audit o t).toList := by
  obtain ⟨r, hr, heq⟩ := Option.map_eq_some_iff.mp h
  cases heq
  exact ⟨hr, rfl, rfl⟩

theorem RunsNumbered.advance {s : AbortLog} (hs : RunsNumbered s)
    (hab : ∀ run, t.aborts = some run → run < s.audit.nextId) (h : s.advance o t = some (s', t')) :
    RunsNumbered s' ∧ s.audit.nextId ≤ s'.audit.nextId := by
  obtain ⟨hadv, haborted, -⟩ := AbortLog.advance_some h
  have hle : s.audit.nextId ≤ s'.audit.nextId := by
    obtain ⟨hn, -⟩ | ⟨hn, -⟩ := advance_runs hadv <;> omega
  refine ⟨⟨fun r hr => ?_, fun run hrun => ?_⟩, hle⟩
  · have hid : r.id ∈ s'.audit.runs.map Run.id := mem_map.mpr ⟨r, hr, rfl⟩
    obtain ⟨hn, hids⟩ | ⟨hn, hids⟩ := advance_runs hadv
    · rw [hids] at hid
      obtain ⟨x, hx, hxid⟩ := mem_map.mp hid
      have hlt := hs.1 x hx
      omega
    · rw [hids, mem_append, mem_singleton] at hid
      obtain hid | hid := hid
      · obtain ⟨x, hx, hxid⟩ := mem_map.mp hid
        have hlt := hs.1 x hx
        omega
      · omega
  · rw [haborted, mem_append, Option.mem_toList] at hrun
    obtain hcut | hold := hrun
    · exact Nat.lt_of_lt_of_le (hab run (cuts_aborts hcut).2) hle
    · exact Nat.lt_of_lt_of_le (hs.2 run hold) hle

theorem OffAborted.advance {s : AbortLog} (hs : RunsNumbered s) (hok : OffAborted s k t)
    (hres : ∀ run, t = .resume run → run ∈ s.aborted → (resumeStep s.audit run).carriesOut = none)
    (h : s.advance o t = some (s', t')) : OffAborted s' k t' := by
  obtain ⟨hadv, haborted, -⟩ := AbortLog.advance_some h
  obtain ⟨-, hle⟩ := hs.advance hok.2.1 h
  have hnot {run : ℕ} (hold : run ∉ s.aborted) (hcut : t.cuts ≠ some run) : run ∉ s'.aborted := by
    rw [haborted, mem_append, Option.mem_toList]
    rintro (hc | hm)
    · exact hcut hc
    · exact hold hm
  have hcarry {run : ℕ} (hc : t.carriesOut = some run) :
      run < s'.audit.nextId ∧ run ∉ s'.aborted := by
    obtain ⟨hlt, hold⟩ := hok.1 run hc
    refine ⟨Nat.lt_of_lt_of_le hlt hle, hnot hold fun hcut => ?_⟩
    rw [(cuts_aborts hcut).1] at hc
    cases hc
  cases advance_follows hadv with
  | idle hc ha => exact .of_none hc ha
  | on hc ha htodo =>
    refine ⟨fun run hr => hcarry (hc ▸ hr), fun run hr => ?_, fun x hx => ?_⟩
    · rw [ha] at hr
      cases hr
    · obtain hold | hnew := htodo x hx
      · exact hc.trans (hok.2.2 x hold)
      · exact hnew
  | created hn hc ha htodo =>
    refine ⟨fun run hr => ?_, fun run hr => ?_, fun x hx => ?_⟩
    · rw [hc] at hr
      cases hr
      refine ⟨by omega, hnot (fun hm => Nat.lt_irrefl _ (hs.2 _ hm)) fun hcut => ?_⟩
      exact Nat.lt_irrefl _ (hok.2.1 _ (cuts_aborts hcut).2)
    · rw [ha] at hr
      cases hr
    · rw [htodo] at hx
      cases hx
  | resumed run ht hstep hr hc ha htodo =>
    obtain ⟨r, hmem, hid⟩ := hr
    have hlt := hs.1 r hmem
    refine ⟨fun run' hr => ?_, fun run' hr => ?_, fun x hx => ?_⟩
    · rw [hc] at hr
      cases hr
      refine ⟨by omega, hnot (fun hm => ?_) (by rw [ht]; exact fun hcut => nomatch hcut)⟩
      have hnone := hres run ht hm
      rw [← hstep, hc] at hnone
      cases hnone
    · rw [ha] at hr
      cases hr
    · rw [htodo] at hx
      cases hx
  | aborting run hc ha hr =>
    refine ⟨fun run' hr' => ?_, fun run' hr' => ?_, fun x hx => ?_⟩
    · rw [hc] at hr'
      cases hr'
    · rw [ha] at hr'
      cases hr'
      obtain hold | ⟨r, hmem, hid⟩ := hr
      · exact Nat.lt_of_lt_of_le (hok.2.1 run hold) hle
      · have hlt := hs.1 r hmem
        omega
    · cases t' with
      | posting => cases hc
      | _ => cases hx

theorem aborting_preserves :
    aborting.Preserves Undisturbed RunsNumbered OffAborted fun _ _ => True where
  symm _ _ _ := trivial
  init s h := by
    obtain ⟨hr, -, -, ha, -⟩ := h
    refine ⟨fun r hmem => ?_, fun run hmem => ?_⟩
    · rw [hr] at hmem
      cases hmem
    · rw [ha] at hmem
      cases hmem
  env p e s' hi _ h := by
    cases h
    cases e <;> exact ⟨hi.store, hi.thread⟩
  call p c t _ _ h := by
    cases h
    exact ⟨begin_offAborted _ _ c, fun _ _ => trivial⟩
  step p k m t s' t' hi hc ht h := by
    have hok := hi.thread k t ht
    cases m with
    | raise =>
      cases h
      exact ⟨hi.store, raised_offAborted _ _ t, fun j u _ hu => ⟨hi.thread j u hu, trivial⟩⟩
    | crash =>
      cases h
      exact ⟨hi.store, .of_none rfl rfl, fun j u _ hu => ⟨hi.thread j u hu, trivial⟩⟩
    | advance o =>
      obtain ⟨hidle, hres⟩ := hc t ht
      obtain ⟨hnum, hle⟩ := hi.store.advance hok.2.1 h
      refine ⟨hnum, hok.advance hi.store (fun run he => ?_) h, fun j u _ hu => ⟨?_, trivial⟩⟩
      · subst he
        exact hres
      · refine (hi.thread j u hu).mono hle fun run hr hold => ?_
        rw [(AbortLog.advance_some h).2.1, mem_append, Option.mem_toList]
        rintro (hcut | hm)
        · exact hidle run hcut u (mem_of_getElem? hu) hr
        · exact hold hm

theorem mem_todo_of_posted {x : Item} (h : postedItem s o t = some x) : x ∈ t.todo := by
  cases t with
  | posting run date todo =>
    cases todo with
    | nil => cases h
    | cons y ys =>
      simp only [postedItem] at h
      split at h
      · cases h
        rw [getD_eq_getElem?_getD]
        cases hx : (y :: ys)[o.item]? with
        | none => exact mem_cons_self
        | some z => exact mem_of_getElem? hx
      · cases h
  | _ => cases h

def Ends (s s' : AbortLog) : Prop :=
  ∀ run ∈ s.aborted, run ∈ s'.aborted ∧ s'.done run = s.done run

theorem step_ends {s : AbortLog} {m : Move} (hok : OffAborted s k t)
    (h : s.step t m = some (s', t')) : Ends s s' := by
  intro run hrun
  cases m with
  | raise | crash =>
    cases h
    exact ⟨hrun, rfl⟩
  | advance o =>
    obtain ⟨hadv, haborted, hposted⟩ := AbortLog.advance_some h
    have hnot {run' : ℕ} (hc : t.carriesOut = some run') : (run' == run) = false := by
      have hoff := (hok.1 run' hc).2
      simp only [beq_eq_false_iff_ne]
      rintro rfl
      exact hoff hrun
    refine ⟨by rw [haborted]; exact mem_append_right _ hrun, Prod.ext ?_ ?_⟩
    · simp only [AbortLog.done, hposted, filter_append]
      cases hx : postedItem s.audit o t with
      | none => simp
      | some x => simp [hnot (hok.2.2 x (mem_todo_of_posted hx))]
    · simp only [AbortLog.done]
      obtain ⟨-, hl⟩ | ⟨run', date, rfl, hst⟩ := advance_roll hadv
      · rw [hl]
      · have hne : (run' == run) = false := hnot rfl
        rw [hst]
        simp [hne]

/-- In every run in which nobody carries out a run when its abort succeeds and nobody
resumes it, an aborted run posts nothing more and does not roll the date. -/
theorem abort_final {p p' : Pool AbortLog Thread} {run : ℕ}
    (h : aborting.machine.Reach Undisturbed p) (hp : aborting.machine.Path Undisturbed p p')
    (hrun : run ∈ p.store.aborted) : p'.store.done run = p.store.done run := by
  refine (aborting_preserves.path (R := Ends) (fun s run hr => ⟨hr, rfl⟩)
    (fun s t u hst htu run hr => ?_) (fun q e s' _ _ he => ?_)
    (fun q k m t s' t' hi _ ht hs => step_ends (hi.thread k t ht) hs)
    (aborting_preserves.reach h) hp run hrun).2
  · obtain ⟨hr', hd⟩ := hst run hr
    obtain ⟨hr'', hd'⟩ := htu run hr'
    exact ⟨hr'', hd'.trans hd⟩
  · cases he
    intro run hr
    cases e <;> exact ⟨hr, rfl⟩

/-! ### Runs -/

def unaborted : AbortLog where
  audit := firstDay inHouseHotel 10 40

theorem unaborted_init : aborting.machine.init ⟨unaborted, []⟩ :=
  ⟨⟨rfl, rfl, rfl, rfl, rfl⟩, rfl⟩

/-- The run stops after its posting and is aborted. A forced rerun closes the day, and the
aborted run has posted and rolled nothing since. -/
theorem abort_final_rerun : ∃ p p', aborting.machine.Reach Undisturbed p ∧
    aborting.machine.Path Undisturbed p p' ∧ p.store.aborted = [0] ∧
    p'.store.audit.rolled = [(1, 10)] ∧ p'.store.done 0 = p.store.done 0 := by
  obtain ⟨p, p', hp, hpath, hv, hw⟩ := Machine.exists_path_of_runUnder (C := Undisturbed)
    (f := fun p : Pool AbortLog Thread => (p.store.aborted, p.store.audit.rolled))
    (v := ([0], [])) (w := ([0], [(1, 10)]))
    (List.flatten [[.call (.start {})], List.replicate 8 (.step 0 (.advance {})), [.step 0 .crash,
      .call (.abort 0)], List.replicate 3 (.step 1 (.advance {}))])
    (.call (.start { forceRerun := true }) :: List.replicate 14 (.step 2 (.advance {})))
    unaborted_init (by decide +kernel)
    (by decide +kernel)
  obtain ⟨hab, -⟩ := Prod.mk.inj hv
  obtain ⟨-, hroll⟩ := Prod.mk.inj hw
  exact ⟨p, p', hp, hpath, hab, hroll,
    abort_final hp hpath (by rw [hab]; exact mem_singleton.mpr rfl)⟩

/-- The abort succeeds while the pipeline is about to insert its items: the run posts the
room charge and rolls the date after it. -/
theorem aborted_run_closes : ∃ p p', aborting.machine.Reachable p ∧
    aborting.machine.Path (fun _ _ => True) p p' ∧ 0 ∈ p.store.aborted ∧
    ((p.store.done 0).1.map Item.booking, (p.store.done 0).2) = ([], []) ∧
    ((p'.store.done 0).1.map Item.booking, (p'.store.done 0).2) = ([1], [(0, 10)]) := by
  obtain ⟨p, p', hp, hpath, hv, hw⟩ := Machine.exists_path_of_runUnder
    (C := fun _ _ => True)
    (f := fun p : Pool AbortLog Thread =>
      (p.store.aborted, (p.store.done 0).1.map Item.booking, (p.store.done 0).2))
    (v := ([0], [], [])) (w := ([0], [1], [(0, 10)]))
    (List.flatten [[.call (.start {})], List.replicate 4 (.step 0 (.advance {})),
      [.call (.abort 0)], List.replicate 3 (.step 1 (.advance {}))])
    (List.replicate 8 (.step 0 (.advance {}))) unaborted_init (by decide +kernel)
    (by decide +kernel)
  obtain ⟨hab, hdone⟩ := Prod.mk.inj hv
  obtain ⟨-, hdone'⟩ := Prod.mk.inj hw
  exact ⟨p, p', hp, hpath, by rw [hab]; exact mem_singleton.mpr rfl, hdone, hdone'⟩

end SyrocePms.NightAudit
