import Payments.Proofs.Programs

namespace Payments

open Lib

/-- The message carries the stored event with an identifier, for the handler of a key. -/
def Backed (key : String) (m : Message) (id : UUID) (db : Db) : Prop :=
  ∃ o ∈ db.outbox.rows, m.body = o.body ∧ o.queue = "payments." ++ key ∧ o.id = id

theorem Backed.grows {key : String} {m : Message} {id : UUID} {db db' : Db}
    (h : Backed key m id db) (hg : db.Grows db') : Backed key m id db' := by
  obtain ⟨o, ho, hb, hq, hi⟩ := h
  obtain ⟨o', ho', he⟩ := hg.event o ho
  obtain ⟨hi', hq', _, hb'⟩ := he.same
  exact ⟨o', ho', hb.trans hb'.symm, hq'.trans hq, hi'.trans hi⟩

theorem body_id (o : OutboxRow) : o.body.text "id" = some o.id.str := by
  simp [OutboxRow.body, Json.text]

theorem decodedNew_backed {db : Db} {m : Message} {e : PaymentEvent}
    (h : Carries db newPaymentsQ m) (hd : decodeNew m.body = .ok e) :
    Backed newPaymentsQ.routingKey m e.id db := by
  obtain ⟨_, o, ho, hb, ht | hq⟩ := h
  · simp [RabbitQueue.topic, newPaymentsQ] at ht
  · obtain ⟨s, hs, hp⟩ := decodeNew_id hd
    rw [hb, body_id] at hs
    rw [← Option.some.inj hs, UUID.parse_str] at hp
    exact ⟨o, ho, hb, hq, Option.some.inj hp⟩

theorem decodedNotify_backed {db : Db} {m : Message} {e : PaymentEvent}
    (h : Carries db notifyPaymentsQ m) (hd : decodeNotify m.body = .ok e) :
    Backed notifyPaymentsQ.routingKey m e.id db := by
  obtain ⟨_, o, ho, hb, ht | hq⟩ := h
  · simp [RabbitQueue.topic, notifyPaymentsQ] at ht
  · obtain ⟨s, hs, hp⟩ := decodeNotify_id hd
    rw [hb, body_id] at hs
    rw [← Option.some.inj hs, UUID.parse_str] at hp
    exact ⟨o, ho, hb, hq, Option.some.inj hp⟩

/-- What waits for `handle_payment_processing` is the created event of a payment. -/
theorem Carries.created {db : Db} {m : Message} (h : Carries db newPaymentsQ m) (ha : db.Agree) :
    ∃ o ∈ db.outbox.rows, m.body = o.body ∧ ∃ r ∈ db.payments.rows, r.Created o := by
  obtain ⟨_, o, ho, hb, ht | hq⟩ := h
  · simp [RabbitQueue.topic, newPaymentsQ] at ht
  · obtain ⟨r, hr, hc | ⟨_, hp, _⟩⟩ := ha.origin o ho
    · exact ⟨o, ho, hb, r, hr, hc⟩
    · rw [hp] at hq
      simp [EventClass.queue, RabbitQueue.topic, newPaymentsQ] at hq

section

variable [Externals] {lim : Limits} {t : Tid} {w : World} {key : String} {m : Message} {id : UUID}

omit [Externals] in
theorem firm_backed : Firm t (fun w => Backed key m id w.db) :=
  .db (Backed key m id) (fun _ _ h hg => h.grows hg)

omit [Externals] in
theorem firm_carries {q : RabbitQueue} : Firm t (fun w => Carries w.db q m) :=
  .db (fun db => Carries db q m) (fun _ _ h hg => h.grows hg)

/-- The end state of a stored event is written in a transaction of its own. -/
theorem meets_conclude {status : TaskStatus} (hs : status.Terminal) (h : w.pend t = [])
    (hb : Backed key m id w.db) :
    Meets lim t (conclude id status)
      (fun _ w => w.pend t = [] ∧ Backed key m id w.db) w := by
  have hF : Firm t (fun w => Backed key m id w.db) := firm_backed
  refine wp_mono (meets_frame (fun _ _ h hg => h.grows hg) (meets_within (fun _ _ => True)
    (fun _ _ _ _ _ => trivial) ?_) hb) (fun _ _ hw => ⟨hw.1.1, hw.2⟩)
  refine meets_bind (fun r w => r = .ok () →
    During t [.updateOutbox id status none] (fun w => Backed key m id w.db) w) ?_ ?_
    (fun _ _ _ _ he => by cases he)
  · refine meets_bind _ (meets_read trivial hF ⟨h, hb⟩) ?_ (fun _ _ _ he => by cases he)
    intro result w hw
    cases result with
    | none => exact fun he => by cases he
    | some _ =>
      refine meets_bind (fun r w => r = .ok () →
        During t [.updateOutbox id status none] (fun w => Backed key m id w.db) w)
        (meets_op _ hw (hF.during []) (fun w₁ hw₁ _ => ⟨trivial, fun ch r w₂ hd => ?_⟩)) ?_
        (fun _ _ _ he => by cases he)
      · cases hd with
        | fault => exact fun he => by cases he
        | missEvent hn =>
          rw [World.view_nil hw₁.1] at hn
          obtain ⟨o, ho, _, _, hi⟩ := hw₁.2
          exact absurd hi (Table.find_none.mp hn o ho)
        | updateOutbox ho hf =>
          exact fun _ => ⟨by simp [hw₁.1],
            hF _ _ hw₁.2 (.write (by simpa [Write.resources] using hf))⟩
      · intro _ w hw
        exact wp_mono (meets_read trivial hF (hw rfl)) (fun _ _ h _ => h)
  · intro _ w hw
    exact wp_mono (meets_commit (fun _ => True) hF (fun _ _ _ => .mark id status none hs)
      (fun _ _ => trivial) (hw rfl)) (fun _ _ _ _ _ => trivial)

/-- The claim of an event asks nothing and leaves the session empty. -/
theorem meets_claim (hb : Backed key m id w.db) :
    Meets lim t (claim id) (fun _ w => w.pend t = [] ∧ Backed key m id w.db) w := by
  refine wp_mono (meets_frame (fun _ _ h hg => h.grows hg) (meets_within (fun _ _ => True)
    (fun _ _ _ _ _ => trivial) (wp_mono (meets_plain ?_) (fun _ _ _ _ _ => trivial))) hb)
    (fun _ _ hw => ⟨hw.1.1, hw.2⟩)
  refine Prog.Only.bind ((Prog.only_perform _).mpr trivial) (fun now => ?_)
  refine Prog.Only.bind ((Prog.only_perform _).mpr trivial) (fun lockedId => ?_)
  cases lockedId with
  | none => trivial
  | some _ =>
    exact Prog.Only.bind ((Prog.only_perform _).mpr trivial) (fun _ =>
      Prog.Only.bind ((Prog.only_perform _).mpr trivial) (fun _ => trivial))

/-- A copy of a delivered message is published to the dead letter exchange. -/
theorem meets_republish {k : String} {copy : Message} {P : World → Prop} (hs : Stable t P)
    (hP : P w) (hb : Backed key m id w.db) (hc : copy.body = m.body)
    (hq : ∀ q ∈ route lim paymentsDlx k, q.Returns ∧ (q.topic = "" ∨ q.topic = key)) :
    Meets lim t (perform (.publish paymentsDlx k copy)) (fun _ => P) w := by
  have hstable : Stable t (fun w => P w ∧ Backed key m id w.db) := fun w w' h hr =>
    ⟨hs w w' h.1 hr, h.2.grows hr.grows⟩
  refine meets_op _ ⟨hP, hb⟩ hstable ?_
  rintro w₁ ⟨hP₁, o, ho, hbo, hqo, _⟩ _
  refine ⟨⟨⟨o, ho, hc.trans hbo⟩, fun q hr => ?_⟩, fun ch r w₂ hd => ?_⟩
  · obtain ⟨hret, ht⟩ := hq q hr
    exact ⟨hret, o, ho, hc.trans hbo, ht.imp_right (fun h => by rw [h, hqo])⟩
  · cases hd with
    | fault => exact hP₁
    | lostPublish => exact hs _ _ hP₁ .accept
    | publish => exact hs _ _ hP₁ .accept

theorem meets_retryOrBury {base : RabbitQueue} {maxAttempts : Nat} {deadKey : String}
    {deadHeaders : Option Nat} (hbase : base = newPaymentsQ ∨ base = notifyPaymentsQ)
    (hdead : deadKey = dlq.routingKey ∨ deadKey = dlq.publishKey) (h : w.pend t = [])
    (hb : Backed base.routingKey m id w.db) :
    Meets lim t (retryOrBury base maxAttempts m id deadKey deadHeaders) (fun _ _ => True) w := by
  have htrue : Stable t (fun _ => True) := fun _ _ _ _ => trivial
  refine meets_bind (fun _ w => w.pend t = [] ∧ Backed base.routingKey m id w.db)
    (meets_read trivial firm_backed ⟨h, hb⟩) ?_ (fun _ _ _ => trivial)
  rintro _ w ⟨h, hb⟩
  by_cases hlt : m.attempt < maxAttempts
  · rw [if_pos hlt]
    cases hr : (retryRoutingQueues base maxAttempts)[m.attempt]? with
    | none => trivial
    | some retry =>
      refine meets_republish htrue trivial hb rfl (fun q hq => ?_)
      obtain ⟨ht, hret⟩ := route_retry hbase (List.mem_of_getElem? hr) hq
      exact ⟨hret, .inr ht⟩
  · rw [if_neg hlt]
    refine meets_bind _ (meets_conclude (.inr rfl) h hb) (fun _ w hw => ?_) (fun _ _ _ => trivial)
    refine meets_republish htrue trivial hw.2 rfl (fun q hq => ?_)
    cases route_dead hdead hq
    exact ⟨(fun _ h => by cases h), .inl rfl⟩

theorem meets_execute_payment {maxAttempts : Nat} {event : PaymentEvent} (h : w.pend t = [])
    (hb : Backed newPaymentsQ.routingKey m event.id w.db) :
    Meets lim t (executePayment maxAttempts m event) (fun _ _ => True) w := by
  refine meets_handle (fun _ w => w.pend t = [] ∧ Backed newPaymentsQ.routingKey m event.id w.db)
    ?_ (fun _ _ _ => trivial) ?_
  · refine meets_bind _ (meets_read trivial firm_backed ⟨h, hb⟩) ?_ (fun _ _ hw => hw)
    rintro _ w ⟨h, hb⟩
    refine meets_bind _ (meets_frame (fun _ _ h hg => h.grows hg)
      (meets_process_payment event h) hb) ?_ (fun _ _ hw => hw)
    exact fun _ w hw => meets_conclude (.inl rfl) hw.1 hw.2
  · intro e w hw
    split
    · trivial
    · exact meets_retryOrBury (.inl rfl) (.inr rfl) hw.1 hw.2

/-- What follows the claim of a handler whose gated part keeps the contract. -/
theorem meets_gated {claimed : Bool} {maxAttempts : Nat} {run : Service Unit}
    (h : w.pend t = [] ∧ Backed key m id w.db)
    (hrun : ∀ w, w.pend t = [] → Backed key m id w.db → Meets lim t run (fun _ _ => True) w) :
    Meets lim t ((if Admitted claimed m.attempt maxAttempts then run else Prog.ret ()).bind
      (fun _ => perform .ack)) (fun _ _ => True) w := by
  have hack : ∀ w, Meets lim t (perform .ack) (fun _ _ => True) w := fun _ =>
    meets_plain ((Prog.only_perform _).mpr trivial)
  split
  · exact meets_bind _ (hrun w h.1 h.2) (fun _ w _ => hack w) (fun _ _ _ => trivial)
  · exact hack w

theorem meets_handle_payment {maxAttempts : Nat} (h : w.pend t = [])
    (hc : Carries w.db newPaymentsQ m) :
    Meets lim t (handlePaymentProcessing maxAttempts m) (fun _ _ => True) w := by
  simp only [handlePaymentProcessing, Prog.bind_eq, Prog.pure_eq]
  refine meets_bind _ (meets_read trivial firm_carries ⟨h, hc⟩) ?_ (fun _ _ _ => trivial)
  rintro _ w ⟨h, hc⟩
  cases hd : decodeNew m.body with
  | error e => trivial
  | ok event =>
    rw [Prog.ofExcept_ok_bind]
    exact meets_bind _ (meets_claim (decodedNew_backed hc hd))
      (fun _ w hw => meets_gated hw (fun _ => meets_execute_payment)) (fun _ _ _ => trivial)

omit [Externals] in
theorem amount_parses {r : PaymentRow} (ha : ∃ neg coeff exp, r.amount = .finite neg coeff exp) :
    Decimal.parse r.amount.str = some r.amount ∧ ∃ q, r.amount.num = some q := by
  obtain ⟨neg, coeff, exp, ha⟩ := ha
  rw [ha]
  exact ⟨Decimal.parse_str neg coeff exp, _, rfl⟩

/-- The payload of the event that reports the outcome of a payment. -/
theorem payload_of_processed {r : PaymentRow} {id : UUID} {occurredAt : DateTime}
    {reason : Option String} {payload : List (String × PyVal)}
    (h : Payload.getStrategy ((processedEvent r id occurredAt reason).attr "status")
      (processedEvent r id occurredAt reason) = .ok payload) :
    payload.lookup "payment_id" = some (.str r.id.str) ∧
      payload.lookup "status" = some (.str r.status.value) ∧
      (r.status = .confirmed → payload.lookup "amount" = some (.str r.amount.str) ∧
        payload.lookup "currency" = some (.str r.currency.value)) := by
  have hattr : (processedEvent r id occurredAt reason).attr "status" = r.status.toPy := rfl
  have htext : ∀ s, r.status = s → some (PyVal.str r.status.value) = some (.str s.value) :=
    fun s hs => by rw [hs]
  rw [hattr] at h
  cases hs : r.status with
  | pending =>
    rw [hs] at h
    cases h
    exact ⟨rfl, htext _ hs, fun hc => by cases hc⟩
  | confirmed =>
    rw [hs] at h
    cases h
    exact ⟨rfl, htext _ hs, fun _ => ⟨rfl, rfl⟩⟩
  | failed =>
    rw [hs] at h
    cases h
    exact ⟨rfl, htext _ hs, fun hc => by cases hc⟩

omit [Externals] in
/-- The message of a notification says what became of a settled payment. -/
theorem decoded_processed {db : Db} (ha : db.Agree) {event : PaymentEvent}
    (hb : Backed notifyPaymentsQ.routingKey m event.id db)
    (hd : decodeNotify m.body = .ok event) :
    ∃ r ∈ db.payments.rows, r.status ≠ .pending ∧ ∃ id occurredAt reason,
      event = processedEvent r id occurredAt reason := by
  obtain ⟨o, ho, hbody, hq, _⟩ := hb
  obtain ⟨r, hr, hcr | ⟨hst, hpr, reason, hre⟩⟩ := ha.origin o ho
  · rw [hcr.1] at hq
    simp [EventClass.queue, notifyPaymentsQ] at hq
  · have hev := decode_processed hre (amount_parses (ha.amount r hr)).1
    rw [← hbody, hd] at hev
    exact ⟨r, hr, hst, o.id, o.occurredAt, reason, Except.ok.inj hev⟩

/-- The notification of a stored event tells the truth. -/
theorem meets_send_notification {event : PaymentEvent} (hd : decodeNotify m.body = .ok event)
    (h : w.pend t = []) (hb : Backed notifyPaymentsQ.routingKey m event.id w.db) :
    Meets lim t (sendNotification event)
      (fun _ w => w.pend t = [] ∧ Backed notifyPaymentsQ.routingKey m event.id w.db) w := by
  have hF : Firm t (fun w => Backed notifyPaymentsQ.routingKey m event.id w.db) := firm_backed
  simp only [sendNotification, Prog.bind_eq]
  cases hpay : Payload.getStrategy (event.attr "status") event with
  | error e => exact ⟨h, hb⟩
  | ok payload =>
    rw [Prog.ofExcept_ok_bind]
    split
    · rename_i url hurl
      refine meets_op _ ⟨h, hb⟩ (hF.during []) (fun w₁ hw₁ hi => ⟨?_, fun ch r w₂ hd => ?_⟩)
      · obtain ⟨r, hr, hst, _, _, _, rfl⟩ := decoded_processed hi.agree hw₁.2 hd
        obtain ⟨hparse, q, hnum⟩ := amount_parses (hi.agree.amount r hr)
        obtain ⟨hp₁, hp₂, hp₃⟩ := payload_of_processed hpay
        refine ⟨r, hr, hst, ?_, hp₁, hp₂, fun hc => ?_⟩
        · exact (PyVal.str.inj hurl).symm
        · obtain ⟨hp₄, hp₅⟩ := hp₃ hc
          exact ⟨⟨_, _, q, hp₄, hparse, hnum, hnum⟩, hp₅⟩
      · cases hd with
        | fault => exact ⟨hw₁.1, hw₁.2⟩
        | send => exact ⟨hw₁.1, hw₁.2⟩
    · exact ⟨h, hb⟩

theorem meets_execute_notification {maxAttempts : Nat} {event : PaymentEvent}
    (hd : decodeNotify m.body = .ok event) (h : w.pend t = [])
    (hb : Backed notifyPaymentsQ.routingKey m event.id w.db) :
    Meets lim t (executeNotification maxAttempts m event) (fun _ _ => True) w := by
  refine meets_handle (fun _ w => w.pend t = [] ∧
      Backed notifyPaymentsQ.routingKey m event.id w.db) ?_ (fun _ _ _ => trivial)
    (fun _ w hw => meets_retryOrBury (.inr rfl) (.inl rfl) hw.1 hw.2)
  refine meets_bind _ (meets_read trivial firm_backed ⟨h, hb⟩) ?_ (fun _ _ hw => hw)
  rintro _ w ⟨h, hb⟩
  exact meets_bind _ (meets_send_notification hd h hb)
    (fun _ w hw => meets_conclude (.inl rfl) hw.1 hw.2) (fun _ _ hw => hw)

theorem meets_handle_notify {maxAttempts : Nat} (hc : Carries w.db notifyPaymentsQ m) :
    Meets lim t (handleNotifyClient maxAttempts m) (fun _ _ => True) w := by
  simp only [handleNotifyClient, Prog.bind_eq, Prog.pure_eq]
  cases hd : decodeNotify m.body with
  | error e => trivial
  | ok event =>
    rw [Prog.ofExcept_ok_bind]
    exact meets_bind _ (meets_claim (decodedNotify_backed hc hd))
      (fun _ w hw => meets_gated hw (fun _ => meets_execute_notification hd))
      (fun _ _ _ => trivial)

theorem meets_get_payment (id : UUID) :
    Meets lim t (getPayment id) (fun _ _ => True) w := by
  have hreads : ∀ id, (PaymentRepository.getById id).Only Op.Plain := fun id => by
    refine Prog.Only.bind ((Prog.only_perform _).mpr trivial) (fun row => ?_)
    cases row with
    | none => trivial
    | some row => exact Prog.only_ofExcept _
  simp only [getPayment, Prog.bind_eq]
  cases PaymentID.new (.uuid id) with
  | error e => trivial
  | ok id =>
    rw [Prog.ofExcept_ok_bind]
    exact meets_bind _ (meets_within (fun _ _ => True) (fun _ _ _ _ _ => trivial)
      (wp_mono (meets_plain (hreads id)) (fun _ _ _ _ _ => trivial))) (fun _ _ _ => trivial)
      (fun _ _ _ => trivial)

omit [Externals] in
/-- The rows that the poll selects are committed ones. -/
theorem mem_named {rows : List OutboxRow} {ids : List UUID} {o : OutboxRow}
    (h : o ∈ World.named rows ids) : o ∈ rows := by
  obtain ⟨id, _, hf⟩ := List.mem_filterMap.mp h
  exact List.mem_of_find?_eq_some hf

omit [Externals] in
/-- The event rebuilt from a committed row is announced by that row. -/
theorem rebuilt_announced {db : Db} (ha : db.Agree) {o : OutboxRow} (ho : o ∈ db.outbox.rows)
    {e : PaymentEvent}
    (h : rebuildEvent o.id o.occurredAt o.queue o.payload.toPy = .ok e) : e.Announced db := by
  obtain ⟨r, _, hc | ⟨_, hp⟩⟩ := ha.origin o ho
  · obtain ⟨e', he, hcls, _, hpub⟩ := created_rebuilt hc
    cases he.symm.trans h
    exact ⟨o, ho, hpub, by rw [hcls, hc.1]⟩
  · obtain ⟨e', he, hcls, _, hpub⟩ := processed_rebuilt hp
    cases he.symm.trans h
    exact ⟨o, ho, hpub, by rw [hcls, hp.1]⟩

theorem meets_handle_bad_events (h : w.pend t = []) :
    Meets lim t handleBadEvents (fun _ _ => True) w := by
  have htrue : Firm t (fun _ => True) := .const True
  have hs : Stable t (fun _ => True) := fun _ _ _ _ => trivial
  refine meets_bind _ (meets_read trivial htrue ⟨h, trivial⟩) ?_ (fun _ _ _ => trivial)
  intro _ w h
  refine wp_mono (meets_within (fun _ _ => True) (fun _ _ _ _ _ => trivial) ?_)
    (fun _ _ _ => trivial)
  refine meets_bind (fun r w => ∀ events, r = .ok events → ∀ e ∈ events, e.Announced w.db) ?_
    (fun events w he => wp_mono (meets_publish hs trivial (he events rfl))
      (fun _ _ _ _ _ => trivial)) (fun _ _ _ _ _ => trivial)
  refine meets_bind (fun r w => ∀ rows, r = .ok rows → ∀ o ∈ rows, ∀ e,
      rebuildEvent o.id o.occurredAt o.queue o.payload.toPy = .ok e → e.Announced w.db)
    (meets_op _ h (htrue.during []) (fun w₁ hw₁ hi => ⟨trivial, fun ch r w₂ hd => ?_⟩)) ?_
    (fun _ _ _ _ he => by cases he)
  · cases hd with
    | fault => exact fun _ he => by cases he
    | pendings hs =>
      intro rows he o ho e hr
      cases he
      have hm := (List.mem_filter.mp (mem_named ho)).1
      rw [World.view_nil hw₁.1] at hm
      exact rebuilt_announced hi.agree hm hr
  · intro rows w hw
    refine (wp_ofExcept _).mpr (fun events he e hm => ?_)
    obtain ⟨o, ho, hr⟩ := mem_mapM_ok he hm
    exact hw rows rfl o ho e hr

end

namespace World

section

variable {lim : Limits} {t : Tid} {w : World}

theorem finish_keeps (h : w.Inv) (r : Except Exc Reply) :
    (w.finish t r).Inv ∧ Guar t w (w.finish t r) :=
  ⟨h.drop.note (fun _ _ he => by cases he) (fun _ _ he => by cases he),
    .noted (fun _ hu => (Rely.drop hu).trans .note) rfl (fun _ _ _ he => by cases he)⟩

theorem crash_keeps (h : w.Inv) : (w.crash t).Inv ∧ Guar t w (w.crash t) :=
  ⟨h.drop.note (fun _ _ he => by cases he) (fun _ _ he => by cases he),
    .noted (fun _ hu => (Rely.drop hu).trans .note) rfl (fun _ _ _ he => by cases he)⟩

theorem deliver_keeps (h : w.Inv) {i : Nat} {q : RabbitQueue} {m : Message}
    (hd : w.ready[i]? = some (q, m)) :
    (w.deliver t i q m).Inv ∧ Guar t w (w.deliver t i q m) := by
  have hc := h.ready _ (List.mem_of_getElem? hd)
  refine ⟨{ h with
    ready := fun d hm => h.ready d (List.mem_of_mem_eraseIdx hm)
    unacked := ?_
    delivered := ?_
    posted := ?_ }, .noted (fun _ _ => .of_db_eq rfl rfl (fun _ h => h) (fun _ h => h)) rfl
      (fun _ _ _ he => by cases he)⟩
  · intro d hm
    rcases List.mem_cons.mp hm with rfl | hm
    · exact hc
    · exact h.unacked d hm
  · intro v q' m' hm
    rcases List.mem_cons.mp hm with he | hm
    · cases he
      exact hc
    · exact h.delivered v q' m' hm
  · intro v url payload hm
    rcases List.mem_cons.mp hm with he | hm
    · cases he
    · exact h.posted v url payload hm

/-- What expires or returns in the broker stays a copy of a committed event. -/
theorem environment_keeps (h : w.Inv) {e : Env} {w' : World}
    (he : w.environment lim e = some w') : w'.Inv ∧ ∀ u, Rely u w w' := by
  have hrely : ∀ ready unacked, ∀ u, Rely u w { w with ready := ready, unacked := unacked } :=
    fun _ _ _ => .of_db_eq rfl rfl (fun _ h => h) (fun _ h => h)
  cases e with
  | expire i =>
    obtain ⟨⟨q, m⟩, hi, hq⟩ := Option.bind_eq_some_iff.mp he
    obtain ⟨args, ha, rfl⟩ := Option.map_eq_some_iff.mp hq
    refine ⟨{ h with ready := fun d hd => ?_ }, hrely _ _⟩
    rcases List.mem_append.mp hd with hd | hd
    · exact h.ready d (List.mem_of_mem_eraseIdx hd)
    · obtain ⟨q', hr, rfl⟩ := List.mem_map.mp hd
      obtain ⟨hret, o, ho, hb, ht⟩ := h.ready _ (List.mem_of_getElem? hi)
      obtain ⟨ht', hret'⟩ := route_expired hret ha hr
      exact ⟨hret', o, ho, hb, ht' ▸ ht⟩
  | requeue t =>
    obtain ⟨d, hf, rfl⟩ := Option.map_eq_some_iff.mp he
    refine ⟨{ h with
      ready := fun d' hd => ?_
      unacked := fun d' hd => h.unacked d' (List.mem_filter.mp hd).1 }, hrely _ _⟩
    rcases List.mem_append.mp hd with hd | hd
    · exact h.ready d' hd
    · cases List.mem_singleton.mp hd
      exact h.unacked d (List.mem_of_find?_eq_some hf)
  | duplicate i =>
    simp only [environment, duplicate] at he
    split at he
    · rename_i v q m hm
      cases he
      refine ⟨{ h with ready := fun d hd => ?_ }, hrely _ _⟩
      rcases List.mem_append.mp hd with hd | hd
      · exact h.ready d hd
      · cases List.mem_singleton.mp hd
        exact h.delivered v q m (List.mem_of_getElem? hm)
    · cases he

end

end World

section

variable [Externals] {lim : Limits} {t : Tid} {w : World}

theorem done_any (r : Except Exc Reply) (w : World) :
    World.contract.Done (service lim) (fun _ _ => True) t r w :=
  fun _ _ hi _ => World.finish_keeps hi r

/-- The program of a thread, whatever it ends in, is within the contract. -/
theorem meets_thread {α : Type} {p : Service α} {f : α → Reply}
    (h : Meets lim t p (fun _ _ => True) w) :
    Meets lim t (p.bind (fun a => pure (f a)))
      (World.contract.Done (service lim) (fun _ _ => True) t) w :=
  meets_bind _ h (fun _ w _ => done_any _ w) (fun _ w _ => done_any _ w)

theorem subscriber_meets {q : RabbitQueue} {m : Message} {p : Service Unit}
    (hp : subscriber lim q m = some p) (h : w.pend t = []) (hc : Carries w.db q m) :
    Meets lim t p (fun _ _ => True) w := by
  unfold subscriber at hp
  split at hp
  · rename_i hq
    cases hp
    exact meets_handle_payment h (hq ▸ hc)
  · split at hp
    · rename_i hq
      cases hp
      exact meets_handle_notify (hq ▸ hc)
    · cases hp

theorem start_meets {req : Req} {p : Service Reply} {w' : World} (hi : w.Inv)
    (h : w.pend t = []) (hs : w.start lim t req = some (p, w')) :
    w'.Inv ∧ World.Guar t w w' ∧
      Meets lim t p (World.contract.Done (service lim) (fun _ _ => True) t) w' := by
  cases req with
  | create command =>
    cases hs
    obtain ⟨h₁, h₂⟩ : (w.note t (.created command)).Inv ∧ World.Guar t w _ :=
      World.keeps_note hi (fun _ _ he => by cases he) (fun _ _ he => by cases he)
        (fun _ _ _ he => by cases he)
    exact ⟨h₁, h₂, meets_thread (wp_mono (meets_create_payment command h) (fun _ _ _ => trivial))⟩
  | get id =>
    cases hs
    exact ⟨hi, .silent (fun u _ => .refl u w) rfl, meets_thread (meets_get_payment id)⟩
  | poll =>
    cases hs
    obtain ⟨h₁, h₂⟩ : (w.note t .polled).Inv ∧ World.Guar t w _ :=
      World.keeps_note hi (fun _ _ he => by cases he) (fun _ _ he => by cases he)
        (fun _ _ _ he => by cases he)
    exact ⟨h₁, h₂, meets_thread (meets_handle_bad_events h)⟩
  | deliver i =>
    obtain ⟨⟨q, m⟩, hd, hm⟩ := Option.bind_eq_some_iff.mp hs
    obtain ⟨p, hp, he⟩ := Option.map_eq_some_iff.mp hm
    cases he
    obtain ⟨h₁, h₂⟩ := World.deliver_keeps hi hd
    exact ⟨h₁, h₂, meets_thread (subscriber_meets hp h (hi.ready _ (List.mem_of_getElem? hd)))⟩

/-- The service keeps its contract, whatever fails and however its steps interleave. -/
theorem contract_valid : World.contract.Valid (service lim) (fun _ _ => True) where
  refl := World.Rely.refl
  trans := fun _ _ _ _ => World.Rely.trans
  compat := fun _ u _ _ hu _ _ hg => hg.others u hu
  fresh := fun _ _ _ hr hp => hr.pend.trans hp
  start := fun _ _ _ _ _ hi hf _ hs => start_meets hi hf hs
  kill := fun _ _ hi _ => World.crash_keeps hi
  env := fun _ _ _ hi _ he => World.environment_keeps hi he

end

theorem World.inv_empty : ({} : World).Inv where
  agree := Db.agree_empty
  sound := Db.sound_empty
  version := fun _ _ hu => by cases hu
  locked := fun _ _ hx => by cases hx
  payment := fun _ _ hx => by cases hx
  event := fun _ _ hx => by cases hx
  ready := fun _ hd => by cases hd
  unacked := fun _ hd => by cases hd
  delivered := fun _ _ _ hm => by cases hm
  posted := fun _ _ _ hm => by cases hm

/-- The runs of the service from empty tables. -/
abbrev Reachable [Externals] (lim : Limits)
    (c : Config World Op Op.Res Exc Reply) : Prop :=
  (service lim).Reach (fun _ _ => True) (Config.initial {}) c

theorem reachable_holds [Externals] {lim : Limits} {c : Config World Op Op.Res Exc Reply}
    (h : Reachable lim c) : World.contract.Holds (service lim) (fun _ _ => True) c :=
  contract_valid.holds_reach (Contract.holds_initial World.inv_empty (fun _ => rfl)) h

end Payments
