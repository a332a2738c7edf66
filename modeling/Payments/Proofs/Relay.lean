import Payments.Proofs.Outbox
import Payments.Proofs.Recovery

namespace Payments

open Lib

/-- The events that an aggregate records: when it is created, and when it is settled. -/
inductive PaymentEvent.Recorded : PaymentEvent → Prop where
  | created {p p' : Payment} {e : PaymentEvent} {eventId : UUID} {occurredAt : DateTime}
      (h : p.postInit eventId occurredAt = .ok p') (he : p'.events = p.events ++ [e]) : Recorded e
  | succeeded {p p' : Payment} {e : PaymentEvent} {st : Stamp}
      (h : p.markAsSucceeded st = .ok p') (he : p'.events = p.events ++ [e]) : Recorded e
  | failed {p p' : Payment} {e : PaymentEvent} {reason : String} {st : Stamp}
      (h : p.markAsFailed reason st = .ok p') (he : p'.events = p.events ++ [e]) : Recorded e

/-- The publish of an event hands the broker this exchange, this key and this body. -/
def EventBus.Hands (e : PaymentEvent) (exchange key : String) (body : Json) : Prop :=
  publishPaymentEvent e = tryCatch (perform (.publish exchange key { body := body }))
    (fun x => throw (unavailable e x))

/-- A recorded event reports a payment, and is stored as a row that reports the same. -/
theorem PaymentEvent.Recorded.stored {e : PaymentEvent} (h : e.Recorded) :
    ∃ o : OutboxRow, e.StoredAs o ∧ o.id = e.id ∧ o.status = .pending ∧
      parseEventToMessage e = .ok o.body ∧ ∃ r : PaymentRow,
        r.Created o ∧ e.cls = .paymentCreatedEvent ∨
          r.Processed o ∧ e.cls = .paymentProcessedEvent := by
  have hsettle : ∀ (reason : Option String) {p p' : Payment} {status : PaymentStatus} {st : Stamp}
      {e : PaymentEvent}, p.settle status (reasonPy reason) st = .ok p' →
      p'.events = p.events ++ [e] →
      e = processedEvent (p.outcomeRow status) st.eventId st.occurredAt reason := by
    intro reason p p' status st e h he
    obtain ⟨_, rfl⟩ := Payment.settle_ok h
    exact (List.singleton_inj.mp (List.append_cancel_left he)).symm
  have hprocessed : ∀ (r : PaymentRow) (id : UUID) (t : DateTime) (reason : Option String),
      ∃ o : OutboxRow, (processedEvent r id t reason).StoredAs o ∧
        o.id = (processedEvent r id t reason).id ∧ o.status = .pending ∧
        parseEventToMessage (processedEvent r id t reason) = .ok o.body ∧ ∃ r : PaymentRow,
          r.Created o ∧ (processedEvent r id t reason).cls = .paymentCreatedEvent ∨
            r.Processed o ∧ (processedEvent r id t reason).cls = .paymentProcessedEvent :=
    fun r id t reason => ⟨_, processed_stored r id t reason, rfl, rfl,
      processed_published r id t reason (processed_stored r id t reason), r,
      .inr ⟨⟨rfl, reason, rfl⟩, rfl⟩⟩
  cases h with
  | @created p p' e eventId occurredAt h he =>
    obtain rfl : e = createdEvent p.id.value eventId occurredAt := by
      unfold Payment.postInit at h
      split at h
      · cases h
        simp at he
      · split at h
        · cases h
        · cases h
          exact (List.singleton_inj.mp (List.append_cancel_left he)).symm
    exact ⟨_, created_stored _ _ _, rfl, rfl, created_published _ _ _ (created_stored _ _ _),
      p.outcomeRow .pending, .inl ⟨⟨rfl, rfl⟩, rfl⟩⟩
  | @succeeded p p' e st h he =>
    obtain rfl := hsettle none h he
    exact hprocessed _ _ _ _
  | @failed p p' e reason st h he =>
    obtain rfl := hsettle (some reason) h he
    exact hprocessed _ _ _ _

/-- The event that is rebuilt from the row of an event has its class and its body. -/
theorem rebuilt_same {e : PaymentEvent} {o : OutboxRow} (h : ∃ r : PaymentRow,
    r.Created o ∧ e.cls = .paymentCreatedEvent ∨ r.Processed o ∧ e.cls = .paymentProcessedEvent) :
    ∃ e', rebuildEvent o.id o.occurredAt o.queue o.payload.toPy = .ok e' ∧ e'.cls = e.cls ∧
      parseEventToMessage e' = .ok o.body := by
  obtain ⟨r, ⟨hc, hcls⟩ | ⟨hp, hcls⟩⟩ := h
  · obtain ⟨e', he, hcls', _, hb⟩ := created_rebuilt hc
    exact ⟨e', he, hcls'.trans hcls.symm, hb⟩
  · obtain ⟨e', he, hcls', _, hb⟩ := processed_rebuilt hp
    exact ⟨e', he, hcls'.trans hcls.symm, hb⟩

/-- An event of a routed class whose body is known is handed to the broker. -/
theorem hands_of_parsed {e : PaymentEvent} {q : RabbitQueue} {body : Json}
    (hq : EventBus.queueRegistry e.cls = some q) (hb : parseEventToMessage e = .ok body) :
    EventBus.Hands e (EventBus.exchangeRegistry e.cls) q.routingKey body := by
  unfold EventBus.Hands EventBus.publishPaymentEvent
  rw [hq, hb]

/-- The wrapper of a failed publish names the class of the event only. -/
theorem unavailable_cls {e e' : PaymentEvent} (h : e'.cls = e.cls) :
    EventBus.unavailable e' = EventBus.unavailable e := by
  funext x
  unfold EventBus.unavailable
  rw [h]

/-- A run of `add` puts the row of an event into the tables that its session sees. -/
theorem add_stores [Externals] {lim : Limits} {e : PaymentEvent} {o : OutboxRow} (h : e.StoredAs o)
    {t : Tid} {w w' : World} {r : Except Exc Unit} (hn : (w.view t).outbox.find? o.id = none)
    (hr : (service lim).Runs (fun _ m => works m = true) t (OutboxRepository.add [e]) w r w') :
    r = .ok () ∧ o ∈ (w'.view t).outbox.rows := by
  have hins := Runs.alone hr (add_alone [e])
  rw [outbox_rows_ok.mpr (.cons h .nil)] at hins
  obtain ⟨hok, hview⟩ := hins
  have hfind : (w'.view t).outbox.find? o.id = some o := by
    rw [hview, Db.find_inserts, Db.keeps_fresh]
    simp [Db.keeps, hn]
  exact ⟨hok, (Table.find_some.mp hfind).1⟩

/-- An event that an aggregate records is stored by `add`, and where its row is committed, the event
that `get_pendings` returns for it is published exactly as the event itself: neither path raises,
and both hand the broker the same exchange, key and body. In a reachable state `get_pendings` never
raises. -/
theorem outbox_path_is_direct [Externals] {lim : Limits} :
    (∀ e : PaymentEvent, e.Recorded → ∃ s o e' q,
      OutboxRepository.add [e] = (perform (.insertOutbox [s])).bind (fun _ => perform .flush) ∧
      s.toRow = .ok o ∧ o.id = e.id ∧ o.status = .pending ∧
      (∀ t w r w', (w.view t).outbox.find? o.id = none →
        (service lim).Runs (fun _ mv => works mv = true) t (OutboxRepository.add [e]) w r w' →
          r = .ok () ∧ o ∈ (w'.view t).outbox.rows) ∧
      rebuildEvent o.id o.occurredAt o.queue o.payload.toPy = .ok e' ∧
      EventBus.queueRegistry e.cls = some q ∧
      EventBus.Hands e paymentsExchange q.routingKey o.body ∧
      EventBus.publishPaymentEvent e' = EventBus.publishPaymentEvent e ∧
      ∀ c, Reachable lim c → o ∈ c.shared.db.outbox.rows → ∀ t, c.shared.pend t = [] →
        c.shared.Free t (.outbox o.id) → ∀ limit offset, c.shared.Reads lim t limit offset o e') ∧
    ∀ c, Reachable lim c → ∀ t, c.shared.pend t = [] → ∀ limit offset r w,
      (service lim).Runs (fun _ mv => works mv = true) t
        (OutboxRepository.getPendings limit offset) c.shared r w → ∃ events, r = .ok events := by
  refine ⟨fun e he => ?_, fun c h t hp limit offset r w hr => ?_⟩
  · obtain ⟨o, hst, hid, hpend, hbody, hrep⟩ := he.stored
    obtain ⟨e', hre, hcls, hbody'⟩ := rebuilt_same hrep
    obtain ⟨q, hq⟩ : ∃ q, EventBus.queueRegistry e.cls = some q := by
      obtain ⟨r, ⟨_, hcls⟩ | ⟨_, hcls⟩⟩ := hrep
      · exact ⟨newPaymentsQ, by rw [hcls]; rfl⟩
      · exact ⟨notifyPaymentsQ, by rw [hcls]; rfl⟩
    obtain ⟨s, hs, hrow⟩ := except_bind_ok.mp hst
    have hands : EventBus.Hands e paymentsExchange q.routingKey o.body := hands_of_parsed hq hbody
    have hands' : EventBus.Hands e' paymentsExchange q.routingKey o.body :=
      hands_of_parsed (hcls ▸ hq) hbody'
    refine ⟨s, o, e', q, ?_, hrow, hid, hpend, fun _ _ _ _ hn hr => add_stores hst hn hr, hre, hq,
      hands, ?_, fun c h ho t hp hf => (reachable_holds h).inv.reads hp ho hpend hf hre⟩
    · simp [OutboxRepository.add, hs, pure, Except.pure, bind, Except.bind]
    · rw [hands, hands', unavailable_cls hcls]
  · obtain ⟨_, events, _, hr, _⟩ :=
      getPendings_page ((reachable_holds h).inv.pendings_known hp) hr
    exact ⟨events, hr⟩

def samplePayment : Payment where
  id := { value := uid 10 }
  amount := { value := .finite false 100 (-2) }
  currency := .rub
  description := { value := "test payment" }
  metadata := { value := .proxy [] }
  key := { value := uid 1 }
  webhookUrl := { value := "https://example.com/hook" }
  createdAt := Timestamp.new sampleTime

theorem sample_recorded : (createdEvent (uid 10) (uid 11) sampleTime).Recorded :=
  @PaymentEvent.Recorded.created samplePayment _ _ (uid 11) sampleTime rfl rfl

/-- The event of the sample payment as it is stored. -/
def sampleStored : OutboxRow where
  id := uid 11
  queue := EventClass.paymentCreatedEvent.queue
  payload := createdPayload (uid 10)
  occurredAt := sampleTime
  status := .pending
  handledAt := none

theorem stored_sample {s : SerializedEvent} {o : OutboxRow}
    (hs : OutboxRepository.add [createdEvent (uid 10) (uid 11) sampleTime] =
      (perform (.insertOutbox [s])).bind (fun _ => perform .flush)) (h : s.toRow = .ok o) :
    o = sampleStored := by
  obtain ⟨s', hs', hrow⟩ := except_bind_ok.mp (created_stored (uid 10) (uid 11) sampleTime)
  have hadd : OutboxRepository.add [createdEvent (uid 10) (uid 11) sampleTime] =
      (perform (.insertOutbox [s'])).bind (fun _ => perform .flush) := by
    simp [OutboxRepository.add, hs', pure, Except.pure, bind, Except.bind]
  injection hs.symm.trans hadd with hop _
  cases hop
  exact Except.ok.inj (h.symm.trans hrow)

set_option maxRecDepth 20000 in
theorem sample_crashed : sampleStored ∈
    ((after {} crashedRun).get crashedRun_some).shared.db.outbox.rows := by
  have hinv : World.Inv _ := (@reachable_holds sample _ _ (reachable_after crashedRun_some)).inv
  obtain ⟨o, ho, hid, hq, hat, hs, hh⟩ :
      ∃ o ∈ ((after {} crashedRun).get crashedRun_some).shared.db.outbox.rows, o.id = uid 11 ∧
        o.queue = EventClass.paymentCreatedEvent.queue ∧ o.occurredAt = sampleTime ∧
        o.status = .pending ∧ o.handledAt = none := by decide +kernel
  have hone : ∀ r ∈ ((after {} crashedRun).get crashedRun_some).shared.db.payments.rows,
      r.id = uid 10 := by decide +kernel
  obtain ⟨r, hr, hc | ⟨_, hp, _⟩⟩ := hinv.agree.origin o ho
  · have hpayload := hc.2
    rw [hone r hr] at hpayload
    obtain ⟨_, _, _, _, _, _⟩ := o
    cases hid
    cases hq
    cases hpayload
    cases hat
    cases hs
    cases hh
    exact ho
  · exact absurd (hq.symm.trans hp) (by decide)

set_option maxRecDepth 20000 in
theorem outbox_path_is_direct_created : ∃ c, @Reachable sample {} c ∧
    ∃ o ∈ c.shared.db.outbox.rows, ∃ (e' : PaymentEvent) (q : String),
      EventBus.Hands (createdEvent (uid 10) (uid 11) sampleTime) paymentsExchange q o.body ∧
      EventBus.publishPaymentEvent e' =
        EventBus.publishPaymentEvent (createdEvent (uid 10) (uid 11) sampleTime) ∧
      ∀ r w', (sampleService {}).Runs (fun _ m => works m = true) 2 OutboxRepository.getPendings
        c.shared r w' → ∃ events, r = .ok events ∧ e' ∈ events := by
  let _ : Externals := sample
  obtain ⟨s, o, e', q, hadd, hrow, _, _, _, _, _, hands, hsame, hread⟩ :=
    (@outbox_path_is_direct sample {}).1 _ sample_recorded
  obtain rfl := stored_sample hadd hrow
  have hr := reachable_after crashedRun_some
  obtain ⟨hp, hf, hfew⟩ :
      (((after {} crashedRun).get crashedRun_some).shared.pend 2).isEmpty = true ∧
        ((after {} crashedRun).get crashedRun_some).shared.Free 2 (.outbox sampleStored.id) ∧
        (((after {} crashedRun).get crashedRun_some).shared.upTo 2 sampleStored).length ≤
          0 + 50 := by
    decide +kernel
  exact ⟨_, hr, _, sample_crashed, e', q.routingKey, hands, hsame,
    (hread _ hr sample_crashed 2 (List.isEmpty_iff.mp hp) hf 50 0).always (Nat.zero_le _) hfew⟩

end Payments
