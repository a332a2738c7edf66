import Payments.Proofs.Discipline

namespace Payments

open Lib

section Programs

variable [Externals] {lim : Limits} {t : Tid} {w : World} {α : Type}

/-- A program of free effects abides whatever it starts from. -/
theorem abides_any {p : Service α} (hp : p.Only Op.Free) : Abides lim t p (fun _ _ => True) w :=
  abides_free hp (fun _ ho => ho) trivial lasting_true (fun _ _ _ _ _ _ _ _ => trivial)

section Create

/-- The thread holds no key yet, and has drawn the identifiers. -/
def Registering (t : Tid) (us : List UUID) (w : World) : Prop :=
  Keyless t w ∧ ∀ u ∈ us, w.drawn u = some t

variable {us : List UUID}

omit [Externals] in
theorem lasting_registering : Lasting t (Registering t us) :=
  fun _ _ h hr => ⟨lasting_keyless _ _ h.1 hr, fun u hu => hr.drawn u (h.2 u hu)⟩

omit [Externals] in
theorem Registering.reads {op : Op} {ch : Choice} {r : Except Exc op.Res} {w' : World}
    (h : Registering t us w) (ho : op.Reads) (hd : World.Does lim t w op ch r w') :
    Registering t us w' := by
  have hk : Keyless t w' := by
    apply World.does_keyless hd _ h.1
    rintro _ rfl
    exact ho
  exact ⟨hk, fun u hu => (reads_rely ho hd).drawn u (h.2 u hu)⟩

theorem abides_registering {p : Service α} (hp : p.Only (fun op => op.Reads ∧ op.Free))
    (h : Registering t us w) : Abides lim t p (fun _ => Registering t us) w :=
  abides_free hp (fun _ ho => ho.2) h lasting_registering
    (fun _ ho _ _ _ _ hA hd => Registering.reads hA ho.1 hd)

theorem abides_draw (h : Registering t us w) : Abides lim t (perform .uuid4)
    (fun r w => ∀ u, r = .ok u → Registering t (u :: us) w) w := by
  refine abides_op _ h lasting_registering (fun w₁ h₁ _ => ⟨trivial, fun ch r w₂ hd => ?_⟩)
  have hreads : Op.uuid4.Reads := trivial
  have h₂ : Registering t us w₂ := h₁.reads hreads hd
  cases hd with
  | fault =>
    intro u he
    cases he
  | uuid4 hu =>
    intro u he
    cases he
    refine ⟨h₂.1, fun v hv => ?_⟩
    rcases List.mem_cons.mp hv with rfl | hv
    · simp
    · exact h₂.2 v hv

theorem abides_add {p : Payment} (h : Registering t us w) (hp : p.id.value ∈ us) :
    Abides lim t (PaymentRepository.add p) (fun _ _ => True) w := by
  refine abides_seq (fun _ => Registering t us)
    (abides_registering (only_op ⟨trivial, trivial⟩) h) ?_ (fun _ _ _ => trivial)
  intro existing w h
  cases existing with
  | some _ => trivial
  | none =>
    refine abides_seq (fun _ _ => True) ?_ (fun _ _ _ => abides_any (only_op trivial))
      (fun _ _ _ => trivial)
    refine abides_op _ h lasting_registering (fun w₁ h₁ _ => ⟨?_, fun _ _ _ _ => trivial⟩)
    exact ⟨h₁.2 _ hp, h₁.1⟩

theorem abides_service_create (parts : PaymentParts) (h : Keyless t w) :
    Abides lim t (PaymentService.create parts.amount parts.currency parts.description
      parts.metadata parts.key parts.webhookUrl) (fun _ _ => True) w := by
  have hnow : (perform .now).Only (fun op => op.Reads ∧ op.Free) := only_op ⟨trivial, trivial⟩
  have hget : (PaymentRepository.getByKey parts.key).Only (fun op => op.Reads ∧ op.Free) := by
    refine Prog.Only.bind (only_op ⟨trivial, trivial⟩) (fun row => ?_)
    cases row with
    | none => trivial
    | some row => exact Prog.Only.bind (Prog.only_ofExcept _) (fun _ => trivial)
  have h₀ : Registering t [] w := ⟨h, fun _ hu => by cases hu⟩
  refine abides_seq _ (abides_registering hget h₀) ?_ (fun _ _ _ => trivial)
  intro existing w h
  cases existing with
  | some _ => trivial
  | none =>
    refine abides_seq _ (abides_draw h) ?_ (fun _ _ _ => trivial)
    intro id w h
    refine abides_seq _ (abides_registering hnow (h id rfl)) ?_ (fun _ _ _ => trivial)
    intro createdAt w h
    refine abides_seq _ (abides_draw h) ?_ (fun _ _ _ => trivial)
    intro eventId w h
    refine abides_seq _ (abides_registering hnow (h eventId rfl)) ?_ (fun _ _ _ => trivial)
    intro occurredAt w h
    simp only [Payment.postInit, Payment.recordEvent, Prog.ofExcept, Prog.bind_eq, Prog.bind,
      ne_eq, not_true_eq_false, false_and, Bool.false_eq_true, ↓reduceIte]
    exact abides_seq (fun _ _ => True) (abides_add h (by simp)) (fun _ _ _ => trivial)
      (fun _ _ _ => trivial)

theorem abides_add_event {e : PaymentEvent} {o : OutboxRow} (hst : e.StoredAs o)
    (h : w.drawn o.id = some t) :
    Abides lim t (OutboxRepository.add [e]) (fun _ _ => True) w := by
  obtain ⟨s, hr, heq⟩ := add_event_eq hst
  rw [heq]
  have hdrawn : Lasting t (fun w => w.drawn o.id = some t) := fun _ _ h hr => hr.drawn _ h
  refine abides_seq (fun _ _ => True) (abides_op _ h hdrawn (fun w₁ h₁ _ => ?_))
    (fun _ _ _ => abides_any (only_op trivial)) (fun _ _ _ => trivial)
  refine ⟨?_, fun _ _ _ _ => trivial⟩
  intro s' hs o' ho
  cases List.mem_singleton.mp hs
  cases hr.symm.trans ho
  exact h₁

theorem abides_create_payment {command : CreatePaymentCommand} (h : w.Outside t)
    (hreq : (t, .created command) ∈ w.trace) :
    Abides lim t (createPayment command) (fun _ _ => True) w := by
  simp only [createPayment, Prog.bind_eq, Prog.pure_eq]
  cases hp : command.parts with
  | error e => trivial
  | ok parts =>
    obtain ⟨ham, hk, _⟩ := parts_ok hp
    rw [Prog.ofExcept_ok_bind]
    refine abides_seq (fun _ w => w.Outside t) ?_ ?_ (fun _ _ _ => trivial)
    · refine abides_mono (abides_within (R := fun _ _ => True) (fun _ => lasting_true)
        (fun _ _ _ => trivial) (fun _ _ _ _ => trivial) ?_) (fun _ _ hw => hw.2)
      refine abides_seq _ (abides_seen (abides_meets (abides_service_create parts h.keyless)
        (meets_service_create parts h.pend)) hreq) ?_ (fun _ _ _ => trivial)
      rintro p w ⟨⟨_, hw⟩, hreq⟩
      obtain ⟨row, createdAt, eventId, occurredAt, rfl, hv, hd⟩ := hw p rfl
      have hst := created_stored row.id eventId occurredAt
      simp only [Payment.pullEvents, PaymentParts.payment]
      refine abides_seq _ (abides_seen (abides_meets (abides_add_event hst hd.2.2.2.1)
        (meets_add_event hst (fun _ => rfl) (firm_opened row eventId) (fun _ hw => hw.2.2) hd))
        hreq) ?_ (fun _ _ _ => trivial)
      rintro _ w ⟨⟨_, hw⟩, hreq⟩
      refine abides_seq _ (abides_commit (firm_opened row eventId) lasting_told (hw rfl) hreq ?_)
        (fun _ _ _ => trivial) (fun _ _ _ => trivial)
      intro w₁ _ hreq
      have hkey : row.idempotencyKey = command.key :=
        (World.toRow_id hv).2.trans (idempotency_key_value hk)
      exact .register hreq hkey (toRow_new hv rfl (amount_new_finite ham)) ⟨rfl, rfl⟩ rfl
    · intro x w hw
      exact abides_seq _ (abides_publish hw) (fun _ _ _ => trivial) (fun _ _ _ => trivial)

end Create

section Handlers

variable {q : RabbitQueue} {m : Message} {event : PaymentEvent}

theorem abides_update {row : PaymentRow} {p : Payment} {status : PaymentStatus} {now : DateTime}
    {eventId : UUID} {occurredAt : DateTime} {reason : Option String}
    (hs : Settled row p status now eventId occurredAt reason)
    (hl : w.lock (.payment row.id) = some t) :
    Abides lim t (PaymentRepository.update p) (fun _ _ => True) w := by
  simp only [PaymentRepository.update, hs.stamped, Timestamp.new]
  refine abides_seq (fun _ _ => True) (abides_op _ hl lasting_held (fun w₁ hl _ => ?_)) ?_
    (fun _ _ _ => trivial)
  · have hdue : World.Due lim t w₁ (.updatePayment p.id.value p.status now) := by
      change w₁.lock (.payment p.id.value) = some t
      rw [hs.sameId]
      exact hl
    exact ⟨hdue, fun _ _ _ _ => trivial⟩
  · intro result w _
    refine abides_seq (fun _ _ => True) (abides_any (only_op trivial)) ?_ (fun _ _ _ => trivial)
    intro _ _ _
    cases result <;> trivial

/-- The settlement of a payment is the transaction of the handler that serves the event. -/
theorem abides_settlement (hs : w.Serves t newPaymentsQ m event) (h : w.Outside t) :
    Abides lim t (Uow.within (settlement event))
      (fun r w => (r.isOk = true → w.Processes t event) ∧ w.Outside t) w := by
  simp only [settlement, Prog.bind_eq, Prog.pure_eq]
  have herror : ∀ (e : Exc) (w : World), (Except.error e : Except Exc (List PaymentEvent)).isOk = true →
      w.Processes t event := by
    intro _ _ he
    cases he
  refine abides_within (R := fun r w => r.isOk = true → w.Processes t event)
    (fun _ => recorded_processes.lasting) (fun _ _ hp => hp) (fun _ e w _ => herror e w) ?_
  cases hid : PaymentID.new (event.attr "payment_id") with
  | error e => exact herror e w
  | ok id =>
    rw [Prog.ofExcept_ok_bind]
    have hget : Abides lim t (PaymentRepository.getById id) (fun _ _ => True) w :=
      abides_any (only_getById id trivial)
    refine abides_seq _ (abides_serving (abides_meets hget (meets_getById id h.pend)) hs) ?_
      (fun e w _ => herror e w)
    rintro p w ⟨⟨_, hw⟩, hs⟩
    obtain ⟨row, hd, hrow, h⟩ := hw p rfl
    have hemulate : Abides lim t (emulateProcessing p) (fun _ _ => True) w :=
      abides_any (only_emulateProcessing trivial trivial trivial p)
    refine abides_seq _ (abides_serving (abides_meets hemulate (meets_emulate hd h)) hs) ?_
      (fun e w _ => herror e w)
    rintro p' w ⟨⟨_, hw⟩, hs⟩
    obtain ⟨status, now, eventId, occurredAt, reason, hset, h⟩ := hw p' rfl
    have hF := (firm_holds (t := t) row).and (firm_drawn eventId)
    have hst := processed_stored (Db.settleRow status now row) eventId occurredAt reason
    refine abides_seq (fun r w => (∀ p, r = .ok p → p = p' ∧
        During t [.updatePayment row.id status now] (fun w => Holds t row w ∧ Drawn t eventId w) w) ∧
      w.Serves t newPaymentsQ m event) ?_ ?_ (fun e w _ => herror e w)
    · refine abides_seq _ (abides_serving (abides_meets (abides_update hset h.2.1.1)
        (meets_update hF hset h)) hs) ?_ (fun _ _ hw => ⟨fun _ he => (by cases he), hw.2⟩)
      rintro _ w ⟨⟨_, hw⟩, hs⟩
      refine ⟨?_, hs⟩
      intro p he
      cases he
      exact ⟨rfl, hw rfl⟩
    rintro p w ⟨hw, hs⟩
    obtain ⟨rfl, h⟩ := hw p rfl
    simp only [Payment.pullEvents, hset.recorded]
    refine abides_seq _ (abides_serving (abides_meets (abides_add_event hst h.2.2.1)
      (meets_add_event hst (fun _ => rfl) hF (fun _ hw => hw.2) h)) hs) ?_ (fun e w _ => herror e w)
    rintro _ w ⟨⟨_, hw⟩, hs⟩
    refine abides_seq _ (abides_commit hF lasting_serves (hw rfl) hs ?_)
      (fun _ w htold _ => ⟨id, status, now, _, hid, hrow ▸ htold rfl⟩) (fun e w _ => herror e w)
    intro w₁ hF hs
    exact .settle hs hid hrow hF.1.2 hF.1.1 hset.wasPending hset.isSettled ⟨rfl, reason, rfl⟩ rfl

theorem abides_process_payment (hs : w.Serves t newPaymentsQ m event) (h : w.Outside t) :
    Abides lim t (processPayment event)
      (fun r w => (r.isOk = true → w.Processes t event) ∧ w.Outside t) w := by
  rw [process_payment_eq]
  refine abides_seq _ (abides_settlement hs h) ?_ ?_
  · intro events w hw
    exact abides_mono (abides_recorded recorded_processes (abides_publish hw.2) hw.1)
      (fun _ _ hw => ⟨fun _ => hw.2 rfl, hw.1⟩)
  · intro e w hw
    exact ⟨fun he => (by cases he), hw.2⟩

/-- The thread has locked a committed event. -/
def Grips (t : Tid) (id : UUID) (w : World) : Prop :=
  w.lock (.outbox id) = some t ∧ ∃ o ∈ w.db.outbox.rows, o.id = id

omit [Externals] in
theorem firm_grips (id : UUID) : Firm t (Grips t id) := by
  rintro w w' ⟨hl, o, ho, hid⟩ hk
  obtain ⟨o', ho', he⟩ := hk.grows.event o ho
  exact ⟨hk.lock _ hl, o', ho', he.same.1.trans hid⟩

theorem abides_mark {id : UUID} {status : TaskStatus} (h : w.Outside t) :
    Abides lim t (OutboxRepository.markProcessed id status)
      (fun r w => r = .ok () → During t [.updateOutbox id status none] (Grips t id) w) w := by
  have hnone : Lasting t (fun w => w.pend t = []) := fun _ _ hp hr => hr.pend.trans hp
  refine abides_seq (fun r w => ∀ x, r = .ok (some x) → During t [] (Grips t id) w)
    (abides_op _ h.pend hnone (fun w₁ hp _ => ⟨trivial, fun ch r w₂ hd => ?_⟩)) ?_
    (fun _ _ _ he => by cases he)
  · cases hd with
    | fault | skipEvent =>
      intro x he
      cases he
    | lockEvent ho hid hf =>
      intro x _
      rw [World.view_nil hp] at ho
      exact ⟨hp, by simp, _, ho, hid⟩
  intro result w hw
  cases result with
  | none =>
    intro he
    cases he
  | some x =>
    have hd := hw x rfl
    refine abides_seq (fun r w => r = .ok () →
      During t [.updateOutbox id status none] (Grips t id) w) (abides_op _ hd
        ((firm_grips id).during []).lasting (fun w₁ hd _ => ⟨hd.2.1, fun ch r w₂ hdoes => ?_⟩)) ?_
      (fun _ _ _ he => by cases he)
    · cases hdoes with
      | fault =>
        intro he
        cases he
      | missEvent hn =>
        rw [World.view_nil hd.1] at hn
        obtain ⟨o, ho, hid⟩ := hd.2.2
        exact absurd hid (Table.find_none.mp hn o ho)
      | updateOutbox ho hf =>
        intro _
        refine ⟨by simp [hd.1], firm_grips id _ _ hd.2 (.write ?_)⟩
        simpa [Write.resources] using hf
    · intro _ w hd
      have hflush : (perform .flush).Only Op.Free := only_op trivial
      exact abides_mono (abides_meets (abides_any hflush)
        (meets_read trivial (firm_grips id) (hd rfl))) (fun _ _ hw _ => hw.2)

/-- The handler has come so far that it may write the end state of its event. -/
def Closes (lim : Limits) (t : Tid) (q : RabbitQueue) (m : Message) (event : PaymentEvent)
    (status : TaskStatus) (w : World) : Prop :=
  w.Serves t q m event ∧ (status = .confirmed ∧ (q = newPaymentsQ → w.Processes t event) ∨
    status = .failed ∧ lim.attempts q ≤ m.attempt)

omit [Externals] in
theorem recorded_closes {status : TaskStatus} : Recorded (Closes lim t q m event status) := by
  rintro w w' ⟨hs, hst⟩ hseen
  refine ⟨recorded_serves w w' hs hseen, hst.imp_left ?_⟩
  exact fun ⟨he, hd⟩ => ⟨he, recorded_processes w w' hd hseen⟩

/-- A handler writes the end state of its event, and what it has written is seen. -/
theorem abides_conclude {status : TaskStatus} (hc : Closes lim t q m event status w)
    (h : w.Outside t) : Abides lim t (conclude event.id status) (fun r w =>
      (r = .ok () → (t, .committed [.updateOutbox event.id status none]) ∈ w.trace) ∧
        w.Outside t) w := by
  refine abides_within (R := fun r w => r = .ok () →
    (t, .committed [.updateOutbox event.id status none]) ∈ w.trace) ?_ ?_ ?_ ?_
  · exact fun r w w' hp hr he => hr.seen _ (hp he)
  · exact fun _ _ hp he => hp he
  · intro _ _ _ _ he
    cases he
  refine abides_seq _ (abides_recorded recorded_closes (abides_mark h) hc) ?_
    (fun _ _ _ he => by cases he)
  rintro _ w ⟨hw, hc⟩
  refine abides_commit (firm_grips event.id) recorded_closes.lasting (hw rfl) hc ?_
  rintro w₁ _ ⟨hs, ⟨rfl, hd⟩ | ⟨rfl, ha⟩⟩
  · exact .confirm hs hd
  · exact .bury hs ha

/-- The claim of an event is rolled back with its unit of work. -/
theorem abides_claim {id : UUID} : Abides lim t (claim id) (fun _ w => w.Outside t) w := by
  refine abides_mono (abides_within (R := fun _ _ => True) (fun _ => lasting_true)
    (fun _ _ _ => trivial) (fun _ _ _ _ => trivial) ?_) (fun _ _ hw => hw.2)
  refine abides_seq _ (abides_any (only_op trivial)) ?_ (fun _ _ _ => trivial)
  intro now w _
  refine abides_seq (fun r w => ∀ x, r = .ok (some x) → w.lock (.outbox id) = some t)
    (abides_op _ trivial lasting_true (fun w₁ _ _ => ⟨trivial, fun ch r w₂ hd => ?_⟩)) ?_
    (fun _ _ _ => trivial)
  · cases hd with
    | fault | skipClaim =>
      intro x he
      cases he
    | claim =>
      intro x _
      simp
  intro lockedId w hw
  cases lockedId with
  | none => trivial
  | some x =>
    refine abides_seq (fun _ _ => True) (abides_op _ (hw x rfl) lasting_held
      (fun w₁ hl _ => ⟨hl, fun _ _ _ _ => trivial⟩)) ?_ (fun _ _ _ => trivial)
    intro _ w _
    exact abides_seq _ (abides_any (only_op trivial)) (fun _ _ _ => trivial) (fun _ _ _ => trivial)

theorem abides_retryOrBury {deadKey : String} {deadHeaders : Option Nat}
    (hh : deadHeaders.getD 0 ≤ m.attempt) (hs : w.Serves t q m event) (h : w.Outside t) :
    Abides lim t (retryOrBury q (lim.attempts q) m event.id deadKey deadHeaders)
      (fun _ w => w.Outside t) w := by
  refine abides_seq _ (abides_serving (abides_outside h (fun _ hout => hout)
    (.inr (.inr (.inl rfl)))) hs) ?_ (fun _ _ hw => hw.1)
  rintro _ w ⟨h, hs⟩
  -- a publish of a handler keeps it outside
  have hpublish : ∀ {k : String} {copy : Message} {w : World} (P : World → Prop), P w →
      Lasting t P → (∀ w, P w → w.Outside t ∧ w.MayPublish lim t paymentsDlx k copy) →
      Abides lim t (perform (.publish paymentsDlx k copy)) (fun _ w => w.Outside t) w := by
    intro k copy w P hP hl hmay
    refine abides_op P hP hl (fun w₁ hP₁ _ => ⟨(hmay w₁ hP₁).2, fun ch r w₂ hd => ?_⟩)
    have hout := (hmay w₁ hP₁).1
    cases hd <;> exact ⟨hout.unlocked, hout.pend⟩
  by_cases ha : m.attempt < lim.attempts q
  · rw [if_pos ha]
    cases hq : (retryRoutingQueues q (lim.attempts q))[m.attempt]? with
    | none => exact h
    | some queue =>
      refine hpublish (fun w => w.Outside t ∧ w.Serves t q m event) ⟨h, hs⟩
        (lasting_outside.and lasting_serves) ?_
      intro w hw
      exact ⟨hw.1, .retry hw.1 hw.2 ha hq⟩
  · rw [if_neg ha]
    refine abides_seq _ (abides_serving (abides_conclude ⟨hs, .inr ⟨rfl, Nat.not_lt.mp ha⟩⟩ h) hs)
      ?_ (fun _ _ hw => hw.1.2)
    rintro _ w ⟨⟨hc, h⟩, hs⟩
    refine hpublish (fun w => (w.Outside t ∧ w.Serves t q m event) ∧
      (t, .committed [.updateOutbox event.id .failed none]) ∈ w.trace) ⟨⟨h, hs⟩, hc rfl⟩
      ((lasting_outside.and lasting_serves).and lasting_told) ?_
    intro w hw
    exact ⟨hw.1.1, .bury hw.1.1 hw.1.2 (Nat.not_lt.mp ha) hh hw.2⟩

theorem abides_enter (hd : (t, .delivered q m) ∈ w.trace) (he : eventOf q m = .ok event)
    (h : w.Outside t) : Abides lim t (perform (.enter event.id))
      (fun _ w => w.Outside t ∧ w.Serves t q m event) w := by
  refine abides_op _ ⟨h, hd⟩ (lasting_outside.and lasting_told) (fun w₁ hw _ => ?_)
  refine ⟨hw.1, fun ch r w₂ hdoes => ?_⟩
  cases hdoes with
  | fault hf => cases hf
  | enter =>
    exact ⟨⟨hw.1.unlocked, hw.1.pend⟩, List.mem_cons_of_mem _ hw.2, he, List.mem_cons_self⟩

/-- The guarded part of a handler: its use case, the end state, and the `except` branch. -/
theorem abides_guarded {run : Service Unit} {f : Exc → Service Unit}
    (hd : (t, .delivered q m) ∈ w.trace) (he : eventOf q m = .ok event) (h : w.Outside t)
    (hrun : ∀ w, w.Serves t q m event → w.Outside t → Abides lim t run
      (fun r w => (r.isOk = true → q = newPaymentsQ → w.Processes t event) ∧ w.Outside t) w)
    (hf : ∀ e w, w.Serves t q m event → w.Outside t →
      Abides lim t (f e) (fun _ w => w.Outside t) w) :
    Abides lim t (((perform (.enter event.id)).bind (fun _ => run.bind (fun _ =>
      conclude event.id .confirmed))).handle f) (fun _ w => w.Outside t) w := by
  refine abides_catch (fun _ w => w.Outside t ∧ w.Serves t q m event) ?_ (fun _ _ hw => hw.1)
    (fun e w hw => hf e w hw.2 hw.1)
  refine abides_seq _ (abides_enter hd he h) ?_ (fun _ _ hw => hw)
  rintro _ w ⟨h, hs⟩
  refine abides_seq _ (abides_serving (hrun w hs h) hs) ?_ (fun _ _ hw => ⟨hw.1.2, hw.2⟩)
  rintro _ w ⟨⟨hd, h⟩, hs⟩
  exact abides_mono (abides_serving (abides_conclude ⟨hs, .inl ⟨rfl, hd rfl⟩⟩ h) hs)
    (fun _ _ hw => ⟨hw.1.2, hw.2⟩)

theorem abides_send (hs : w.Serves t notifyPaymentsQ m event) (h : w.Outside t) :
    Abides lim t (sendNotification event) (fun _ w => w.Outside t) w := by
  simp only [sendNotification, Prog.bind_eq]
  cases Payload.getStrategy (event.attr "status") event with
  | error e => exact h
  | ok payload =>
    rw [Prog.ofExcept_ok_bind]
    split
    · refine abides_op _ ⟨h, hs⟩ (lasting_outside.and lasting_serves) (fun w₁ hw _ => ?_)
      refine ⟨⟨hw.1, m, event, hw.2⟩, fun ch r w₂ hd => ?_⟩
      exact World.does_outside hd (.inr (.inl ⟨_, _, _, rfl⟩)) hw.1
    · exact h

theorem abides_gated {claimed : Bool} {maxAttempts : Nat} {run : Service Unit} (h : w.Outside t)
    (hrun : Abides lim t run (fun _ w => w.Outside t) w) :
    Abides lim t ((if Admitted claimed m.attempt maxAttempts then run else Prog.ret ()).bind
      (fun _ => perform .ack)) (fun _ _ => True) w := by
  have hack : ∀ w : World, w.Outside t → Abides lim t (perform .ack) (fun _ _ => True) w :=
    fun w h => abides_mono (abides_outside h (fun _ hout => hout) (.inr (.inr (.inr (.inl rfl)))))
      (fun _ _ _ => trivial)
  split
  · exact abides_seq _ hrun (fun _ w hw => hack w hw) (fun _ _ _ => trivial)
  · exact hack w h

theorem abides_handle_payment (hd : (t, .delivered newPaymentsQ m) ∈ w.trace) (h : w.Outside t) :
    Abides lim t (handlePaymentProcessing lim.process m) (fun _ _ => True) w := by
  have hlim : lim.attempts newPaymentsQ = lim.process := if_pos rfl
  simp only [handlePaymentProcessing, Prog.bind_eq, Prog.pure_eq]
  refine abides_seq _ (abides_seen (abides_outside h (fun _ hout => hout)
    (.inr (.inr (.inl rfl)))) hd) ?_ (fun _ _ _ => trivial)
  rintro _ w ⟨h, hd⟩
  cases he : decodeNew m.body with
  | error e => trivial
  | ok event =>
    rw [Prog.ofExcept_ok_bind]
    refine abides_seq _ (abides_seen abides_claim hd) ?_ (fun _ _ _ => trivial)
    rintro claimed w ⟨h, hd⟩
    have hev : eventOf newPaymentsQ m = .ok event := (if_pos rfl).trans he
    refine abides_gated h (abides_guarded hd hev h (fun w hs h =>
      abides_mono (abides_process_payment hs h) (fun _ _ hw => ⟨fun he _ => hw.1 he, hw.2⟩)) ?_)
    intro e w hs h
    split
    · exact h
    · rw [← hlim]
      exact abides_retryOrBury (Nat.zero_le _) hs h

theorem abides_handle_notify (hd : (t, .delivered notifyPaymentsQ m) ∈ w.trace) :
    Abides lim t (handleNotifyClient lim.notify m) (fun _ _ => True) w := by
  have hne : notifyPaymentsQ ≠ newPaymentsQ := by decide
  have hlim : lim.attempts notifyPaymentsQ = lim.notify := if_neg hne
  simp only [handleNotifyClient, Prog.bind_eq, Prog.pure_eq]
  cases he : decodeNotify m.body with
  | error e => trivial
  | ok event =>
    rw [Prog.ofExcept_ok_bind]
    refine abides_seq _ (abides_seen abides_claim hd) ?_ (fun _ _ _ => trivial)
    rintro claimed w ⟨h, hd⟩
    have hev : eventOf notifyPaymentsQ m = .ok event := (if_neg hne).trans he
    refine abides_gated h (abides_guarded hd hev h (fun w hs h =>
      abides_mono (abides_send hs h) (fun _ _ hw => ⟨fun _ he => absurd he hne, hw⟩)) ?_)
    intro e w hs h
    rw [← hlim]
    exact abides_retryOrBury (Nat.le_refl _) hs h

theorem abides_subscriber {p : Service Unit} (hp : subscriber lim q m = some p)
    (hd : (t, .delivered q m) ∈ w.trace) (h : w.Outside t) :
    Abides lim t p (fun _ _ => True) w := by
  unfold subscriber at hp
  split at hp
  · rename_i hq
    cases hp
    exact abides_handle_payment (hq ▸ hd) h
  · split at hp
    · rename_i hq
      cases hp
      exact abides_handle_notify (hq ▸ hd)
    · cases hp

end Handlers

section Poll

/-- The thread has locked a committed event that is pending. -/
def Relays (t : Tid) (o : OutboxRow) (w : World) : Prop :=
  o ∈ w.db.outbox.rows ∧ o.status = .pending ∧ w.lock (.outbox o.id) = some t

/-- A poll has made no changes, and what it publishes is the message of an event that it
relays. -/
def Relaying (t : Tid) (events : List PaymentEvent) (w : World) : Prop :=
  (t, .polled) ∈ w.trace ∧ w.pend t = [] ∧
    ∀ e ∈ events, ∃ o, Relays t o w ∧ parseEventToMessage e = .ok o.body

omit [Externals] in
theorem Relays.aloof {o : OutboxRow} {w' : World} (h : Relays t o w) (hr : World.Aloof t w w') :
    Relays t o w' :=
  ⟨hr.event o h.1 h.2.2, h.2.1, hr.lock _ h.2.2⟩

omit [Externals] in
theorem lasting_relaying {events : List PaymentEvent} : Lasting t (Relaying t events) := by
  rintro w w' ⟨hpoll, hp, he⟩ hr
  refine ⟨hr.seen _ hpoll, hr.pend.trans hp, fun e hm => ?_⟩
  obtain ⟨o, ho, hb⟩ := he e hm
  exact ⟨o, ho.aloof hr, hb⟩

theorem abides_relay_event {e : PaymentEvent} {events : List PaymentEvent}
    (h : Relaying t (e :: events) w) :
    Abides lim t (EventBus.publishPaymentEvent e) (fun _ => Relaying t (e :: events)) w := by
  unfold EventBus.publishPaymentEvent
  cases EventBus.queueRegistry e.cls with
  | none => exact h
  | some queue =>
    cases hp : parseEventToMessage e with
    | error x => exact h
    | ok body =>
      refine abides_catch (fun _ => Relaying t (e :: events)) (abides_op _ h lasting_relaying
        (fun w₁ hw _ => ?_)) (fun _ _ hw => hw) (fun _ _ hw => hw)
      obtain ⟨o, ho, hb⟩ := hw.2.2 e List.mem_cons_self
      cases hp.symm.trans hb
      refine ⟨.relay hw.1 hw.2.1 ho.1 ho.2.1 ho.2.2, fun ch r w₂ hd => ?_⟩
      cases hd with
      | fault => exact hw
      | publish | lostPublish => exact ⟨List.mem_cons_of_mem _ hw.1, hw.2⟩

theorem abides_relay {events : List PaymentEvent} (h : Relaying t events w) :
    Abides lim t (EventBus.publishPaymentEvents events) (fun _ _ => True) w := by
  induction events generalizing w with
  | nil => trivial
  | cons e events ih =>
    refine abides_seq _ (abides_relay_event h) ?_ (fun _ _ _ => trivial)
    intro _ w hw
    exact ih ⟨hw.1, hw.2.1, fun e' he => hw.2.2 e' (List.mem_cons_of_mem _ he)⟩

/-- What a poll selects are committed pending events that it has locked. -/
theorem abides_pendings (h : w.Outside t) (hpoll : (t, .polled) ∈ w.trace) :
    Abides lim t OutboxRepository.getPendings
      (fun r w => ∀ events, r = .ok events → Relaying t events w) w := by
  have hnone : Lasting t (fun w => w.pend t = []) := fun _ _ hp hr => hr.pend.trans hp
  refine abides_seq (fun r w => ∀ rows, r = .ok rows → (t, .polled) ∈ w.trace ∧ w.pend t = [] ∧
    ∀ o ∈ rows, Relays t o w ∧ ∀ e, rebuildEvent o.id o.occurredAt o.queue o.payload.toPy = .ok e →
      parseEventToMessage e = .ok o.body) (abides_op _ ⟨hpoll, h.pend⟩ (lasting_told.and hnone)
        (fun w₁ hw hi => ⟨trivial, fun ch r w₂ hd => ?_⟩)) ?_ (fun _ _ _ _ he => by cases he)
  · cases hd with
    | fault =>
      intro _ he
      cases he
    | @pendings _ _ ids hs =>
      intro rows he
      cases he
      refine ⟨hw.1, hw.2, fun o ho => ?_⟩
      obtain ⟨hmem, hst⟩ := List.mem_filter.mp (mem_named ho)
      rw [World.view_nil hw.2] at hmem
      obtain ⟨hpend, _⟩ : o.status = .pending ∧ w₁.Free t (.outbox o.id) := by simpa using hst
      refine ⟨⟨hmem, hpend, ?_⟩, fun e he => ?_⟩
      · obtain ⟨id, hid, hf⟩ := List.mem_filterMap.mp ho
        have hoid : o.id = id := by simpa using List.find?_some hf
        have hlock : Resource.outbox o.id ∈ (ids.take (0 + 50)).map .outbox := by
          rw [hoid]
          exact List.mem_map_of_mem (by simpa using hid)
        simp only [World.hold_lock, if_pos hlock]
      · obtain ⟨e', he', hsp⟩ := (hi.known hmem).rebuilt
        cases he'.symm.trans he
        exact hsp.2
  · intro rows w hw
    obtain ⟨hpoll, hp, hrows⟩ := hw rows rfl
    refine (abides_ofExcept _).mpr (fun events he => ⟨hpoll, hp, fun e hm => ?_⟩)
    obtain ⟨o, ho, hr⟩ := mem_mapM_ok he hm
    obtain ⟨hrel, hbody⟩ := hrows o ho
    exact ⟨o, hrel, hbody e hr⟩

theorem abides_handle_bad_events (h : w.Outside t) (hpoll : (t, .polled) ∈ w.trace) :
    Abides lim t handleBadEvents (fun _ _ => True) w := by
  refine abides_seq _ (abides_seen (abides_outside h (fun _ hout => hout)
    (.inr (.inr (.inl rfl)))) hpoll) ?_ (fun _ _ _ => trivial)
  rintro _ w ⟨h, hpoll⟩
  refine abides_mono (abides_within (R := fun _ _ => True) (fun _ => lasting_true)
    (fun _ _ _ => trivial) (fun _ _ _ _ => trivial) ?_) (fun _ _ _ => trivial)
  exact abides_seq _ (abides_pendings h hpoll) (fun events _ hw => abides_relay (hw events rfl))
    (fun _ _ _ => trivial)

end Poll

theorem abides_get_payment (id : UUID) : Abides lim t (getPayment id) (fun _ _ => True) w := by
  refine abides_any ((only_get_payment id).mono (fun op ho => ?_))
  cases op <;> first
    | exact ho.elim
    | trivial

/-- The program of a thread that starts outside of a transaction abides. -/
theorem abides_start {req : Req} {p : Service Reply} {w' : World} (h : w.Outside t)
    (hs : w.start lim t req = some (p, w')) : Abides lim t p (fun _ _ => True) w' := by
  have hthread : ∀ {α : Type} {f : α → Reply} {p : Service α} {w : World},
      Abides lim t p (fun _ _ => True) w →
      Abides lim t (p.bind (fun a => pure (f a))) (fun _ _ => True) w :=
    fun hp => abides_seq _ hp (fun _ _ _ => trivial) (fun _ _ _ => trivial)
  cases req with
  | create command =>
    cases hs
    exact hthread (abides_create_payment ⟨h.unlocked, h.pend⟩ List.mem_cons_self)
  | get id =>
    cases hs
    exact hthread (abides_get_payment id)
  | poll =>
    cases hs
    exact hthread (abides_handle_bad_events ⟨h.unlocked, h.pend⟩ List.mem_cons_self)
  | deliver i =>
    obtain ⟨⟨q, m⟩, _, hm⟩ := Option.bind_eq_some_iff.mp hs
    obtain ⟨p, hp, he⟩ := Option.map_eq_some_iff.mp hm
    cases he
    exact hthread (abides_subscriber hp List.mem_cons_self ⟨h.unlocked, h.pend⟩)

end Programs

section Reach

variable [Externals] {lim : Limits} {c c' : Config World Op Op.Res Exc Reply}
  {mv : Move Op Choice Req Env} {t : Tid}

/-- A thread that has not started is outside of any transaction. -/
theorem outside_fresh (h : Reachable lim c) (ht : c.next ≤ t) : c.shared.Outside t := by
  have hh := reachable_holds h
  refine ⟨fun x hx => ?_, hh.fresh t ht⟩
  cases hp : c.threads t with
  | none => exact lock_running h x t hx hp
  | some p => exact absurd (hh.running t p hp).1 (Nat.not_lt.mpr ht)

/-- What the steps of the others leave a thread with. -/
theorem aloof_step (h : Reachable lim c) (hs : (service lim).Step c mv c')
    (hm : mv.thread? ≠ some t) : World.Aloof t c.shared c'.shared := by
  have hdrop : ∀ u x, (c.shared.drop u).lock x = some t → c.shared.lock x = some t := by
    intro u x hx
    simp only [World.drop_lock] at hx
    split at hx
    · cases hx
    · exact hx
  refine ⟨contract_valid.rely_step (reachable_holds h) trivial hs hm, ?_, step_seen hs⟩
  cases hs with
  | run _ he =>
    intro x hx
    rcases World.does_lock (World.exec_does he) hx with hx | rfl
    · exact hx
    · exact absurd rfl hm
  | exit | kill => exact hdrop _
  | start he =>
    obtain ⟨_, _, _, rfl⟩ := World.start_same he
    exact fun _ hx => hx
  | env he =>
    obtain ⟨_, _, rfl⟩ := World.environment_same he
    exact fun _ hx => hx

theorem discipline_kept :
    (discipline lim).Kept (service lim) (fun _ _ => True) (Config.initial {}) where
  refl := fun t w => ⟨.refl t w, fun _ hx => hx, fun _ hd => hd⟩
  trans := fun t w w' w'' h h' => ⟨h.toRely.trans h'.toRely, fun x hx => h.taken x (h'.taken x hx),
    fun d hd => h'.seen d (h.seen d hd)⟩
  inv := fun _ h => (reachable_holds h).inv
  others := fun _ _ _ _ h hs _ hm => aloof_step h hs hm
  start := fun c t req c' p h hs ht => by
    obtain ⟨rfl, _, q, hq, ht'⟩ := hs.started
    cases ht'.symm.trans ht
    exact abides_start (outside_fresh h (Nat.le_refl _)) hq

/-- In every reachable configuration the next effect of each thread is due. -/
theorem due_reach (h : Reachable lim c) {op : Op} {k : Except Exc op.Res → Service Reply}
    (ht : c.threads t = some (.call op k)) : World.Due lim t c.shared op :=
  discipline_kept.due (fun _ => rfl) h ht

end Reach

end Payments
