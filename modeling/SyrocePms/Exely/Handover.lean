import SyrocePms.Exely.Calls

/-! What the version rows, the row and the calls keep while a version is handed over to
the provider, under two conditions on a step: a write of a version row that has no filter
on the states of the row does not meet a version that was handed over, and a delivery does
not replace the row while an acknowledgement of its version waits to call the provider. -/

namespace SyrocePms.Exely

open Reservation Lib List

variable {s s' : Store} {own : Option VersionKey} {pc : AckPc} {v v' : VersionRow} {o : Outside}
  {p : Pool Store Thread} {k : ℕ} {t t' : Thread} {m : Move}

/-! ### The conditions on a step -/

def Store.handedOver (s : Store) (key : VersionKey) : Bool :=
  (s.versions key).any fun v => v.ack.handed

namespace Thread

def key : Thread → VersionKey
  | .persist e _ => e.key
  | .malformed key _ | .process key _ _ | .acknowledge key _ => key

/-- The next operation writes the version row without a filter on its states. -/
def overwrites : Thread → Bool
  | .persist _ (.storeVersion _) | .persist _ .markStale | .persist _ .markConflict => true
  | .malformed _ done => !done
  | .acknowledge _ pc => pc.marks
  | _ => false

/-- The next operation gives the row another version. -/
def replacesRow (s : Store) (o : Outside) : Thread → Bool
  | .persist e pc => writesRow s o pc && !s.isCurrent e.key
  | _ => false

/-- The call is an acknowledgement that has checked the row and not yet called the
provider. -/
def awaitsSend : Thread → Bool
  | .acknowledge _ pc => pc.awaitsSend
  | _ => false

def claim? : Thread → Option VersionKey
  | .acknowledge key pc => if pc.claims then some key else none
  | _ => none

end Thread

/-- The condition on the next operation of a call. -/
def SparesHandover (p : Pool Store Thread) (o : Outside) (t : Thread) : Prop :=
  (t.overwrites = true → p.store.handedOver t.key = false) ∧
  (t.replacesRow p.store o = true → ∀ u ∈ p.threads, u.awaitsSend = false)

instance (p : Pool Store Thread) (o : Outside) (t : Thread) :
    Decidable (SparesHandover p o t) :=
  inferInstanceAs (Decidable (_ ∧ _))

def HandoverSpared (p : Pool Store Thread) : Act Env Call Move → Prop
  | .step k (.advance o) => ∀ t ∈ p.threads[k]?, SparesHandover p o t
  | _ => True

instance (p : Pool Store Thread) (a : Act Env Call Move) : Decidable (HandoverSpared p a) := by
  unfold HandoverSpared
  split <;> infer_instance

/-! ### The invariant -/

def Store.ackIs (s : Store) (key : VersionKey) (a : AckState) : Prop :=
  ∃ v, s.versions key = some v ∧ v.ack = a

theorem Store.handedOver_iff {key : VersionKey} :
    s.handedOver key = true ↔ ∃ a, s.ackIs key a ∧ a.handed = true := by
  simp only [handedOver, ackIs, Option.any_eq_true]
  constructor
  · rintro ⟨v, hv, ha⟩
    exact ⟨v.ack, ⟨v, hv, rfl⟩, ha⟩
  · rintro ⟨a, ⟨v, hv, rfl⟩, ha⟩
    exact ⟨v, hv, ha⟩

structure HandoverOk (s : Store) : Prop where
  durable : ∀ key v, s.versions key = some v → v.ack = .pending ∨ v.ack.handed = true →
    v.processing = .pmsDurable
  handed : ∀ c ∈ s.sent, s.handedOver c.key = true
  once : (s.sent.map Confirmed.key).Nodup
  verified : ∀ c ∈ s.sent, c.current = true ∧ c.expected ≠ [] ∧ c.verified = c.expected

def ReadBack : AckPc → Prop
  | .readback v verified rest => v.expectations ≠ [] ∧ v.expectations = verified ++ rest
  | .claim v verified | .markSending v verified | .confirmDelivery v verified =>
    v.expectations ≠ [] ∧ verified = v.expectations
  | .record a => a.handed = true
  | _ => True

/-- The acknowledgement is claimed and the provider is not yet called. -/
def AckPc.unsent : AckPc → Bool
  | .markSending .. | .confirmDelivery .. => true
  | _ => false

/-- What holds of an acknowledgement. -/
structure AckOk (s : Store) (key : VersionKey) (pc : AckPc) : Prop where
  claims : pc.claims = true → s.ackIs key .sending
  current : pc.awaitsSend = true → s.isCurrent key = true
  unsent : pc.unsent = true → ∀ c ∈ s.sent, c.key ≠ key
  readBack : ReadBack pc

def ThreadOk (s : Store) (_ : ℕ) : Thread → Prop
  | .acknowledge key pc => AckOk s key pc
  | _ => True

/-- No two calls have claimed the acknowledgement of one version. -/
def ClaimsApart (t u : Thread) : Prop := ∀ key, t.claim? = some key → u.claim? ≠ some key

/-! ### What a step guarantees -/

/-- A step of a call that has claimed `own` leaves the other claims and the versions that
were handed over alone. -/
structure Guarantee (own : Option VersionKey) (s s' : Store) : Prop where
  sending : ∀ key, own ≠ some key → s.ackIs key .sending → s'.ackIs key .sending
  acked : ∀ key, s.ackIs key .acked → s'.ackIs key .acked
  sent : ∀ key, own ≠ some key → (∀ c ∈ s.sent, c.key ≠ key) → ∀ c ∈ s'.sent, c.key ≠ key

namespace Guarantee

variable {own : Option VersionKey} {s s' : Store}

/-- A step that writes neither the version rows nor the log. -/
theorem of_eq (hv : s'.versions = s.versions) (hs : s'.sent = s.sent) :
    Guarantee own s s' where
  sending key _ h := by rwa [Store.ackIs, hv]
  acked key h := by rwa [Store.ackIs, hv]
  sent key _ h := by rwa [hs]

theorem of_update {key : VersionKey} (hkey : s.handedOver key = false)
    (hv : ∀ k, k ≠ key → s'.versions k = s.versions k) (hs : s'.sent = s.sent) :
    Guarantee own s s' := by
  have keep (k : VersionKey) (a : AckState) (ha : a.handed = true) (h : s.ackIs k a) :
      s'.ackIs k a := by
    have hne : k ≠ key := by
      rintro rfl
      rw [Store.handedOver_iff.mpr ⟨a, h, ha⟩] at hkey
      cases hkey
    rwa [Store.ackIs, hv k hne]
  exact ⟨fun k _ h => keep k _ rfl h, fun k h => keep k _ rfl h, fun k _ h => by rwa [hs]⟩

end Guarantee

theorem HandoverOk.update {key : VersionKey} (h : HandoverOk s) (hkey : s.handedOver key = false)
    (hv : ∀ k, k ≠ key → s'.versions k = s.versions k)
    (hnew : ∀ v, s'.versions key = some v → v.ack = .pending ∨ v.ack.handed = true →
      v.processing = .pmsDurable) (hs : s'.sent = s.sent) : HandoverOk s' where
  durable k v hk ha := by
    by_cases hne : k = key
    · subst hne
      exact hnew v hk ha
    · exact h.durable k v (hv k hne ▸ hk) ha
  handed c hc := by
    have hcs := h.handed c (hs ▸ hc)
    have hne : c.key ≠ key := fun he => by rw [he, hkey] at hcs; cases hcs
    rwa [Store.handedOver, hv _ hne]
  once := hs ▸ h.once
  verified := hs ▸ h.verified

/-- The store keeps its invariant when only the row and the bookings change. -/
theorem HandoverOk.of_eq (h : HandoverOk s) (hv : s'.versions = s.versions) (hs : s'.sent = s.sent) :
    HandoverOk s' where
  durable := hv ▸ h.durable
  handed c hc := by
    have := h.handed c (hs ▸ hc)
    rwa [Store.handedOver, hv]
  once := hs ▸ h.once
  verified := hs ▸ h.verified

/-- An acknowledgement is not disturbed by a step that does not touch its claim and keeps
the row that it has checked. -/
theorem AckOk.frame {key : VersionKey} (h : AckOk s key pc) (hg : Guarantee own s s')
    (hown : pc.claims = true → own ≠ some key)
    (hrow : pc.awaitsSend = true → s.isCurrent key = true → s'.isCurrent key = true) :
    AckOk s' key pc where
  claims hc := hg.sending key (hown hc) (h.claims hc)
  current ha := hrow ha (h.current ha)
  unsent hu := hg.sent key (hown (by cases pc <;> simp_all [AckPc.unsent, AckPc.claims]))
    (h.unsent hu)
  readBack := h.readBack

/-! ### Deliveries -/

theorem not_ready (h : v.ack = .notReady ∨ v.ack = .staleVersion)
    (ha : v.ack = .pending ∨ v.ack.handed = true) : v.processing = .pmsDurable := by
  obtain h | h := h <;> simp [h, AckState.handed] at ha

theorem mark_handover {key : VersionKey} {f : VersionRow → VersionRow} (hj : HandoverOk s)
    (hkey : s.handedOver key = false) (hf : ∀ v, (f v).ack = .notReady ∨ (f v).ack = .staleVersion) :
    HandoverOk (s.setVersion key f) ∧ Guarantee own s (s.setVersion key f) := by
  refine ⟨hj.update hkey (fun k hk => s.setVersion_ne key k _ hk) (fun v hv => ?_) rfl,
    .of_update hkey (fun k hk => s.setVersion_ne key k _ hk) rfl⟩
  rw [Store.setVersion_self, Option.map_eq_some_iff] at hv
  obtain ⟨v₀, -, rfl⟩ := hv
  exact not_ready (hf v₀)

theorem persistStep_handover {e : Delivery} {pc pc' : PersistPc} (hj : HandoverOk s)
    (hc : (Thread.persist e pc).overwrites = true → s.handedOver e.key = false)
    (h : persistStep s e o pc = some (s', pc')) : HandoverOk s' ∧ Guarantee own s s' := by
  obtain ⟨-, status, p, rfl, -⟩ | ⟨-, rfl | ⟨p, rfl, -, rfl⟩ | ⟨rfl, -, rfl⟩ | ⟨rfl, -, rfl⟩⟩ :=
    persistStep_store h
  · exact ⟨hj.of_eq rfl rfl, .of_eq rfl rfl⟩
  · exact ⟨hj, .of_eq rfl rfl⟩
  · have hkey := hc rfl
    refine ⟨hj.update hkey (fun k hk => s.putVersion_ne e.key k _ hk) (fun v hv => ?_) rfl,
      .of_update hkey (fun k hk => s.putVersion_ne e.key k _ hk) rfl⟩
    rw [Store.putVersion_self, Option.some.injEq] at hv
    exact not_ready (.inl (by rw [← hv]; rfl))
  · exact mark_handover hj (hc rfl) fun _ => .inr rfl
  · exact mark_handover hj (hc rfl) fun _ => .inl rfl

theorem malformed_handover {key : VersionKey} (hj : HandoverOk s) (hkey : s.handedOver key = false) :
    HandoverOk (s.putVersion key (malformedDoc (s.versions key))) ∧
      Guarantee own s (s.putVersion key (malformedDoc (s.versions key))) := by
  refine ⟨hj.update hkey (fun k hk => s.putVersion_ne key k _ hk) (fun v hv => ?_) rfl,
    .of_update hkey (fun k hk => s.putVersion_ne key k _ hk) rfl⟩
  rw [Store.putVersion_self, Option.some.injEq] at hv
  exact not_ready (.inl (by rw [← hv]; rfl))

/-! ### Processing -/

theorem VersionChange.not_durable (h : VersionChange v v') : v.processing ≠ .pmsDurable := by
  cases h with
  | unhold hv | finish _ _ hv | fail hv | renew _ hv => simp [hv]
  | acquire owner now hc => exact ne_durable_of_claimable hc

theorem VersionChange.ready (h : VersionChange v v')
    (hv : ¬ (v.ack = .pending ∨ v.ack.handed = true))
    (ha : v'.ack = .pending ∨ v'.ack.handed = true) : v'.processing = .pmsDurable := by
  cases h with
  | finish w targets _ => rfl
  | fail _ => simp [failedVersion, AckState.handed] at ha
  | unhold _ | acquire _ _ _ | renew _ _ => exact absurd ha hv

theorem processChange_handover {key : VersionKey} (hj : HandoverOk s) (h : ProcessChange s key s') :
    HandoverOk s' ∧ Guarantee own s s' := by
  obtain ⟨bookings, rfl⟩ | ⟨w, rfl⟩ | ⟨v, v', hv, hvc, rfl⟩ := h
  · exact ⟨hj.of_eq rfl rfl, .of_eq rfl rfl⟩
  · exact ⟨hj.of_eq rfl rfl, .of_eq rfl rfl⟩
  · have hready : ¬ (v.ack = .pending ∨ v.ack.handed = true) :=
      fun ha => hvc.not_durable (hj.durable key v hv ha)
    have hkey : s.handedOver key = false := by
      simp only [Store.handedOver, hv, Option.any_some]
      exact Bool.eq_false_iff.mpr fun ha => hready (.inr ha)
    refine ⟨hj.update hkey (fun k hk => s.putVersion_ne key k _ hk) (fun x hx => ?_) rfl,
      .of_update hkey (fun k hk => s.putVersion_ne key k _ hk) rfl⟩
    rw [Store.putVersion_self, Option.some.injEq] at hx
    exact hx ▸ hvc.ready hready

/-! ### Acknowledgements -/

theorem AckOk.idle {key : VersionKey} (hc : pc.claims = false) (ha : pc.awaitsSend = false)
    (hr : ReadBack pc) : AckOk s key pc where
  claims h := by rw [hc] at h; cases h
  current h := by rw [ha] at h; cases h
  unsent h := by cases pc <;> simp_all [AckPc.unsent, AckPc.claims]
  readBack := hr

theorem claim_handover (own : Option VersionKey) {key : VersionKey} {x : VersionRow}
    (hj : HandoverOk s) (hx : s.versions key = some x) (hp : x.ack = .pending) :
    HandoverOk (s.putVersion key { x with ack := .sending }) ∧
      Guarantee own s (s.putVersion key { x with ack := .sending }) := by
  have hkey : s.handedOver key = false := by simp [Store.handedOver, hx, hp, AckState.handed]
  refine ⟨hj.update hkey (fun k hk => s.putVersion_ne key k _ hk) (fun v hv _ => ?_) rfl,
    .of_update hkey (fun k hk => s.putVersion_ne key k _ hk) rfl⟩
  rw [Store.putVersion_self, Option.some.injEq] at hv
  subst hv
  exact hj.durable key x hx (.inl hp)

/-- The call of the provider under the claim. -/
theorem send_handover {key : VersionKey} {verified : List Expectation} (hj : HandoverOk s)
    (hok : AckOk s key (.confirmDelivery v verified)) :
    HandoverOk { s with sent := confirmed s key v verified :: s.sent } ∧
      Guarantee (some key) s { s with sent := confirmed s key v verified :: s.sent } := by
  obtain ⟨hne, heq⟩ := hok.readBack
  refine ⟨⟨hj.durable, fun c hc => ?_, ?_, fun c hc => ?_⟩,
    ⟨fun k _ h => h, fun k h => h, fun k hk h c hc => ?_⟩⟩
  · rcases mem_cons.mp hc with rfl | hc
    · exact Store.handedOver_iff.mpr ⟨_, hok.claims rfl, rfl⟩
    · exact hj.handed c hc
  · rw [map_cons, nodup_cons]
    refine ⟨fun hmem => ?_, hj.once⟩
    obtain ⟨c, hc, hk⟩ := mem_map.mp hmem
    exact hok.unsent rfl c hc hk
  · rcases mem_cons.mp hc with rfl | hc
    · exact ⟨hok.current rfl, hne, heq⟩
    · exact hj.verified c hc
  · rcases mem_cons.mp hc with rfl | hc
    · exact fun he => hk (congrArg some he)
    · exact h c hc

/-- The result is recorded under the claim. -/
theorem record_handover {key : VersionKey} {a : AckState} (hj : HandoverOk s)
    (hok : AckOk s key (.record a)) :
    HandoverOk (s.markAck key a) ∧ Guarantee (some key) s (s.markAck key a) := by
  obtain ⟨v, hv, hsend⟩ := hok.claims rfl
  have ha : a.handed = true := hok.readBack
  have hself : (s.markAck key a).versions key = some { v with ack := a } := by
    rw [Store.markAck, Store.setVersion_self, hv]
    rfl
  have hother (k : VersionKey) (hk : k ≠ key) : (s.markAck key a).versions k = s.versions k :=
    s.setVersion_ne key k _ hk
  refine ⟨⟨fun k x hx hr => ?_, fun c hc => ?_, hj.once, hj.verified⟩,
    ⟨fun k hk h => ?_, fun k h => ?_, fun k _ h => h⟩⟩
  · by_cases hk : k = key
    · subst hk
      rw [hself, Option.some.injEq] at hx
      subst hx
      exact hj.durable k v hv (.inr (by rw [hsend]; rfl))
    · exact hj.durable k x (hother k hk ▸ hx) hr
  · by_cases hk : c.key = key
    · simp only [Store.handedOver, hk, hself, Option.any_some]
      exact ha
    · have := hj.handed c hc
      rwa [Store.handedOver, hother _ hk]
  · have hne : k ≠ key := fun he => hk (by rw [he])
    rwa [Store.ackIs, hother k hne]
  · have hne : k ≠ key := by
      rintro rfl
      obtain ⟨x, hx, hxa⟩ := h
      rw [hv] at hx
      cases hx
      rw [hsend] at hxa
      cases hxa
    rwa [Store.ackIs, hother k hne]

/-- One operation of an acknowledgement. -/
theorem ackStep_handover {key : VersionKey} {pc' : AckPc} (hj : HandoverOk s) (hok : AckOk s key pc)
    (hc : pc.marks = true → s.handedOver key = false) (h : ackStep s key o pc = some (s', pc')) :
    HandoverOk s' ∧ Guarantee (Thread.acknowledge key pc).claim? s s' ∧ AckOk s' key pc' ∧
      (pc'.claims = true → pc.claims = true ∨ ¬ s.ackIs key .sending) := by
  have idle {s₁ : Store} {pc₁ : AckPc} (hs : HandoverOk s₁ ∧
      Guarantee (Thread.acknowledge key pc).claim? s s₁) (hc : pc₁.claims = false)
      (ha : pc₁.awaitsSend = false) (hr : ReadBack pc₁) :
      HandoverOk s₁ ∧ Guarantee (Thread.acknowledge key pc).claim? s s₁ ∧ AckOk s₁ key pc₁ ∧
        (pc₁.claims = true → pc.claims = true ∨ ¬ s.ackIs key .sending) :=
    ⟨hs.1, hs.2, .idle hc ha hr, fun h => by rw [hc] at h; cases h⟩
  have same : HandoverOk s ∧ Guarantee (Thread.acknowledge key pc).claim? s s :=
    ⟨hj, .of_eq rfl rfl⟩
  cases pc with
  | read =>
    simp only [ackStep] at h
    split at h <;> cases h
    · exact idle same rfl rfl trivial
    · rename_i v _
      unfold admitted
      split
      · exact idle same rfl rfl trivial
      · split
        · split <;> exact idle same rfl rfl trivial
        · split <;> exact idle same rfl rfl trivial
        · exact idle same rfl rfl trivial
  | repair => cases h; exact idle ⟨hj.of_eq rfl rfl, .of_eq rfl rfl⟩ rfl rfl trivial
  | markInvalid =>
    cases h
    exact idle (mark_handover hj (hc rfl) fun _ => .inl rfl) rfl rfl trivial
  | markStale =>
    cases h
    exact idle (mark_handover hj (hc rfl) fun _ => .inr rfl) rfl rfl trivial
  | markFailed =>
    cases h
    exact idle (mark_handover hj (hc rfl) fun _ => .inl rfl) rfl rfl trivial
  | current v =>
    simp only [ackStep] at h
    split at h
    · cases h; exact idle same rfl rfl trivial
    · rename_i r hr
      split at h
      · cases h; exact idle same rfl rfl trivial
      · rename_i hkey
        split at h
        · cases h; exact idle same rfl rfl trivial
        · split at h
          · cases h; exact idle same rfl rfl trivial
          · rename_i hne
            cases h
            have hcur : s.isCurrent key = true :=
              Store.isCurrent_iff.mpr ⟨r, hr, not_not.mp hkey⟩
            exact ⟨hj, same.2, ⟨fun h => (by cases h), fun _ => hcur, fun h => (by cases h),
              by simpa using hne, rfl⟩, fun h => by cases h⟩
  | readback v verified rest =>
    obtain ⟨hne, heq⟩ := hok.readBack
    have hcur := hok.current rfl
    cases rest with
    | nil =>
      cases h
      rw [append_nil] at heq
      exact ⟨hj, same.2, ⟨fun h => (by cases h), fun _ => hcur, fun h => (by cases h),
        hne, heq.symm⟩, fun h => by cases h⟩
    | cons e rest =>
      simp only [ackStep] at h
      split at h <;> cases h
      · exact ⟨hj, same.2, ⟨fun h => (by cases h), fun _ => hcur, fun h => (by cases h),
          hne, by simp [heq]⟩, fun h => by cases h⟩
      · exact idle same rfl rfl trivial
  | claim v verified =>
    simp only [ackStep] at h
    split at h
    · rename_i x hx
      split at h <;> cases h
      · rename_i hp
        obtain ⟨hj', hg⟩ := claim_handover (Thread.acknowledge key (.claim v verified)).claim?
          hj hx hp
        have hns : ¬ s.ackIs key .sending := by
          rintro ⟨y, hy, hya⟩
          rw [hx] at hy
          cases hy
          rw [hp] at hya
          cases hya
        refine ⟨hj', hg, ⟨fun _ => ⟨_, Store.putVersion_self s key _, rfl⟩,
          fun _ => hok.current rfl, fun _ c hc hk => ?_, hok.readBack⟩, fun _ => .inr hns⟩
        have := hj.handed c hc
        simp [Store.handedOver, hk, hx, hp, AckState.handed] at this
      · exact idle same rfl rfl trivial
    · cases h; exact idle same rfl rfl trivial
  | markSending v verified =>
    cases h
    have hcur := (Store.isCurrent_congr (s.map_key_setDelivery key .sending) key).trans
      (hok.current rfl)
    exact ⟨hj.of_eq rfl rfl, .of_eq rfl rfl, ⟨fun _ => hok.claims rfl, fun _ => hcur,
      fun _ => hok.unsent rfl, hok.readBack⟩, fun _ => .inl rfl⟩
  | confirmDelivery v verified =>
    cases h
    obtain ⟨hj', hg⟩ := send_handover hj hok
    refine ⟨hj', hg, ⟨fun _ => hok.claims rfl, fun h => (by cases h), fun h => (by cases h), ?_⟩,
      fun _ => .inl rfl⟩
    simp only [ReadBack, DeliveryResult.ackState]
    split <;> rfl
  | record a =>
    cases h
    exact idle (record_handover hj hok) rfl rfl trivial
  | recordRow a => cases h; exact idle ⟨hj.of_eq rfl rfl, .of_eq rfl rfl⟩ rfl rfl trivial
  | returned a => cases h
  | crashed => cases h

/-! One acknowledgement for each durable version. Under the conditions on a step the
calls are free of interference, so a version is confirmed to the provider at most once,
as the current version and after its bookings were read back, and an acknowledged version
stays acknowledged. -/

theorem HandoverSpared.at_step (h : HandoverSpared p (.step k (.advance o)))
    (ht : p.threads[k]? = some t) : SparesHandover p o t := h t (by rw [ht]; rfl)

/-- What a step of a thread does to the store, to its own assertion and to its claim. -/
theorem threadStep_handover (hj : HandoverOk p.store) (hok : ThreadOk p.store k t)
    (ht : p.threads[k]? = some t) (hc : HandoverSpared p (.step k m))
    (h : t.step k p.store m = some (s', t')) :
    HandoverOk s' ∧ Guarantee t.claim? p.store s' ∧ ThreadOk s' k t' ∧
      ∀ key, t'.claim? = some key → t.claim? = some key ∨ ¬ p.store.ackIs key .sending := by
  cases m with
  | advance o =>
    have hsp := (hc.at_step ht).1
    cases t with
    | persist e pc =>
      obtain ⟨⟨s₁, pc'⟩, hs, heq⟩ := Option.map_eq_some_iff.mp h
      cases heq
      obtain ⟨hj', hg⟩ := persistStep_handover hj hsp hs
      exact ⟨hj', hg, trivial, fun _ h => by cases h⟩
    | malformed key done =>
      simp only [Thread.step, Thread.advance] at h
      split at h <;> cases h
      rename_i hdone
      obtain ⟨hj', hg⟩ := malformed_handover hj (hsp (by simpa [Thread.overwrites] using hdone))
      exact ⟨hj', hg, trivial, fun _ h => by cases h⟩
    | process key lost pc =>
      obtain ⟨⟨s₁, pc'⟩, hs, heq⟩ := Option.map_eq_some_iff.mp h
      cases heq
      obtain ⟨hj', hg⟩ := processChange_handover hj (processStep_store hs)
      exact ⟨hj', hg, trivial, fun _ h => by cases h⟩
    | acknowledge key pc =>
      obtain ⟨⟨s₁, pc'⟩, hs, heq⟩ := Option.map_eq_some_iff.mp h
      cases heq
      obtain ⟨hj', hg, hok', hcl⟩ := ackStep_handover hj hok hsp hs
      refine ⟨hj', hg, hok', fun k' hk' => ?_⟩
      simp only [Thread.claim?] at hk' ⊢
      split at hk'
      · rename_i hc'
        cases hk'
        obtain hcl | hcl := hcl hc'
        · exact .inl (by rw [if_pos hcl])
        · exact .inr hcl
      · cases hk'
  | raise =>
    simp only [Thread.step] at h
    split at h <;> cases h
    refine ⟨hj, .of_eq rfl rfl, ?_, fun key hk => ?_⟩
    · cases t with
      | acknowledge key pc =>
        cases pc with
        | confirmDelivery v verified =>
          exact ⟨fun _ => AckOk.claims hok rfl, fun h => (by cases h), fun h => (by cases h), rfl⟩
        | _ => exact .idle rfl rfl trivial
      | _ => trivial
    · cases t with
      | acknowledge key pc => cases pc <;> first | exact .inl hk | cases hk
      | _ => cases hk
  | crash =>
    simp only [Thread.step] at h
    split at h <;> cases h
    refine ⟨hj, .of_eq rfl rfl, ?_, fun key hk => ?_⟩
    · cases t with
      | acknowledge key pc => exact .idle rfl rfl trivial
      | _ => trivial
    · cases t <;> cases hk
  | heartbeat ok =>
    cases t with
    | process key lost pc =>
      obtain ⟨⟨s₁, lost'⟩, hs, heq⟩ := Option.map_eq_some_iff.mp h
      cases heq
      obtain ⟨hj', hg⟩ := processChange_handover hj (heartbeat_store hs)
      exact ⟨hj', hg, trivial, fun _ h => by cases h⟩
    | _ => cases h

/-- A step keeps the version of the row, unless it is a delivery that replaces it. -/
theorem current_step {u : Thread} (ht : p.threads[k]? = some t) (hc : HandoverSpared p (.step k m))
    (h : t.step k p.store m = some (s', t')) (hu : u ∈ p.threads) (ha : u.awaitsSend = true)
    (key : VersionKey) (hcur : p.store.isCurrent key = true) : s'.isCurrent key = true := by
  obtain ⟨e, pc, pc', o, rfl, rfl, rfl, hs⟩ | ⟨hrow, -, -⟩ := step_cases h
  · obtain ⟨hw, status, q, rfl, -⟩ | ⟨-, hsame⟩ := persistStep_store hs
    · have hrep := (hc.at_step ht).2
      have hce : p.store.isCurrent e.key = true := by
        by_contra hne
        have := hrep (by simp [Thread.replacesRow, hw, hne]) u hu
        rw [ha] at this
        cases this
      obtain ⟨r, hr, hrk⟩ := Store.isCurrent_iff.mp hce
      obtain ⟨r', hr', hrk'⟩ := Store.isCurrent_iff.mp hcur
      rw [hr, Option.some.injEq] at hr'
      have hk : (p.store.putRow e status).row.map Row.key = some e.key := rfl
      obtain ⟨r₂, hr₂, hrk₂⟩ := Option.map_eq_some_iff.mp hk
      refine Store.isCurrent_iff.mpr ⟨r₂, hr₂, ?_⟩
      rw [hrk₂, ← hrk, hr', hrk']
    · obtain rfl | ⟨p', -, -, rfl⟩ | ⟨-, -, rfl⟩ | ⟨-, -, rfl⟩ := hsame <;> exact hcur
  · rwa [Store.isCurrent_congr hrow]

theorem threadOk_start (s : Store) (k : ℕ) (c : Call) : ThreadOk s k (Thread.start c) := by
  cases c with
  | persist e =>
    simp only [Thread.start]
    split <;> trivial
  | process key => trivial
  | acknowledge key => exact .idle rfl rfl trivial

theorem claim?_start (c : Call) : (Thread.start c).claim? = none := by
  cases c with
  | persist e =>
    simp only [Thread.start]
    split <;> rfl
  | process key => rfl
  | acknowledge key => rfl

theorem ThreadOk.sending {key : VersionKey} (h : ThreadOk s k t) (hk : t.claim? = some key) :
    s.ackIs key .sending := by
  cases t with
  | acknowledge key' pc =>
    simp only [Thread.claim?] at hk
    split at hk
    · rename_i hc
      cases hk
      exact AckOk.claims h hc
    · cases hk
  | _ => cases hk

/-- An assertion is not disturbed by a step of another call. -/
theorem ThreadOk.frame (h : ThreadOk s k t) (hg : Guarantee own s s')
    (hown : ∀ key, t.claim? = some key → own ≠ some key)
    (hrow : t.awaitsSend = true → ∀ key, s.isCurrent key = true → s'.isCurrent key = true) :
    ThreadOk s' k t := by
  cases t with
  | acknowledge key pc =>
    exact AckOk.frame h hg (fun hc => hown key (by simp [Thread.claim?, hc]))
      fun ha => hrow ha key
  | _ => trivial

theorem preserves_handover :
    calls.Preserves HandoverSpared HandoverOk ThreadOk ClaimsApart where
  symm t u h key hu ht := h key ht hu
  init s h := by
    obtain ⟨-, hsent, hv⟩ := h
    refine ⟨fun key v hk => ?_, ?_, ?_, ?_⟩
    · rw [hv key] at hk
      cases hk
    all_goals simp [hsent]
  env p v s' hi _ h := by
    cases h
    have hg : Guarantee none p.store (p.store.env v) :=
      .of_eq (Store.env_versions _ v) (Store.env_sent _ v)
    refine ⟨hi.store.of_eq (Store.env_versions _ v) (Store.env_sent _ v), fun k t ht => ?_⟩
    refine (hi.thread k t ht).frame hg (fun _ _ h => nomatch h) fun _ key hc => ?_
    rwa [Store.isCurrent, Store.env_row]
  call p c t _ _ h := by
    cases h
    refine ⟨threadOk_start _ _ c, fun u _ key hk => ?_⟩
    rw [claim?_start] at hk
    cases hk
  step p k m t s' t' hi hc ht h := by
    obtain ⟨hj, hg, hok, hcl⟩ := threadStep_handover hi.store (hi.thread k t ht) ht hc h
    refine ⟨hj, hok, fun j u hjk hu => ⟨?_, fun key hk hku => ?_⟩⟩
    · exact (hi.thread j u hu).frame hg
        (fun key hku htk => hi.apart j k u t hjk hu ht key hku htk)
        fun ha key => current_step ht hc h (mem_of_getElem? hu) ha key
    · obtain htk | hns := hcl key hk
      · exact hi.apart j k u t hjk hu ht key hku htk
      · exact hns ((hi.thread j u hu).sending hku)

/-! ### One acknowledgement -/

def AckedStays (s s' : Store) : Prop := ∀ key, s.ackIs key .acked → s'.ackIs key .acked

/-- In every run whose steps spare the handover: a version is confirmed at most once,
every confirmation is of the current version after all of its expectations were read
back, and an acknowledged version stays acknowledged. -/
theorem one_acknowledgement {p : Pool Store Thread} (h : calls.machine.Reach HandoverSpared p) :
    (p.store.sent.map Confirmed.key).Nodup ∧
    (∀ c ∈ p.store.sent, c.current = true ∧ c.expected ≠ [] ∧ c.verified = c.expected) ∧
    ∀ p', calls.machine.Path HandoverSpared p p' → AckedStays p.store p'.store := by
  have hi := preserves_handover.reach h
  refine ⟨hi.store.once, hi.store.verified, fun p' hp => ?_⟩
  refine preserves_handover.path (fun _ _ h => h) (fun s t u h h' key hk => h' key (h key hk))
    (fun q v s' _ _ hs key hk => ?_) (fun q k m t s' t' hq hc ht hs => ?_) hi hp
  · cases hs
    rwa [Store.ackIs, Store.env_versions]
  · exact (threadStep_handover hq.store (hq.thread k t ht) ht hc hs).2.1.acked

/-! ### Runs -/

def sampleWork : Outside where
  plan := [.upsert
    { bookingId := 1
      versionKey := .stamped 1 0
      externalId := 7
      roomType := 1
      checkIn := ⟨1, none⟩
      checkOut := ⟨3, none⟩
      amount := some 100 } (some ⟨1, 1, []⟩)]

/-- Thread `k` applies the first version to the bookings. -/
def processed (k : ℕ) : List (Act Env Call Move) :=
  .call (.process (.stamped 1 0)) :: .replicate 14 (.step k (.advance sampleWork))

/-- Thread `k` acknowledges the first version. -/
def acknowledged (k : ℕ) : List (Act Env Call Move) :=
  .call (.acknowledge (.stamped 1 0)) :: operations k 9

def acknowledgedOnce : List (Act Env Call Move) :=
  .call (.persist (sampleEvent 1)) :: operations 0 5 ++ processed 1 ++ acknowledged 2

def deliveredAgain : List (Act Env Call Move) :=
  [.call (.persist (sampleEvent 1)), .call (.persist (sampleEvent 1))] ++
    operations 1 3 ++ operations 0 5 ++ processed 2 ++ acknowledged 3 ++
    operations 1 2 ++ processed 4 ++ acknowledged 5

/-- The acknowledged version is delivered once more, with a creation time that does not
parse. -/
def deliveredMalformed : List (Act Env Call Move) :=
  acknowledgedOnce ++
    [.call (.persist { sampleEvent 1 with createdAtParses := false }), .step 3 (.advance {})]

/-- The confirmations sent, the state of the version, and the answers to acknowledge. -/
def acknowledgementsSeen (p : Pool Store Thread) :
    List VersionKey × Option AckState × List AckAnswer :=
  (p.store.sent.map Confirmed.key, (p.store.versions (.stamped 1 0)).map VersionRow.ack,
    p.threads.filterMap fun
      | .acknowledge _ (.returned a) => some a
      | _ => none)

theorem one_acknowledgement_once : ∃ p, calls.machine.Reach HandoverSpared p ∧
    acknowledgementsSeen p = ([.stamped 1 0], some .acked, [.recorded .acked]) ∧
    ∀ p', calls.machine.Path HandoverSpared p p' → AckedStays p.store p'.store := by
  obtain ⟨p, hp, hseen⟩ := Machine.exists_reach_of_runUnder (M := calls.machine)
    (C := HandoverSpared) (f := acknowledgementsSeen)
    (v := ([.stamped 1 0], some .acked, [.recorded .acked]))
    acknowledgedOnce emptyStore_init (by decide +kernel)
  exact ⟨p, hp, hseen, (one_acknowledgement hp).2.2⟩

/-- A version is confirmed to the provider a second time, and an acknowledged version is
put back. -/
theorem acknowledged_twice :
    (∃ p, calls.machine.Reachable p ∧ acknowledgementsSeen p =
      ([.stamped 1 0, .stamped 1 0], some .acked, [.recorded .acked, .recorded .acked])) ∧
    ∃ p, calls.machine.Reachable p ∧ acknowledgementsSeen p =
      ([.stamped 1 0], some .notReady, [.recorded .acked]) :=
  ⟨Machine.exists_reachable_of_run deliveredAgain emptyStore_init (by decide +kernel),
    Machine.exists_reachable_of_run deliveredMalformed emptyStore_init (by decide +kernel)⟩

end SyrocePms.Exely
