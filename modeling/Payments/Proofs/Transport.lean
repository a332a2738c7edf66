import Payments.Proofs.Encoding
import Payments.Proofs.Lifecycle
import Payments.Proofs.Scenarios

namespace Payments

open Lib

/-- `Decimal(str(value))` is the value again, whichever it is. -/
theorem Decimal.parse_str_any (d : Decimal) : Decimal.parse d.str = some d := by
  cases d with
  | finite neg coeff exp => exact Decimal.parse_str neg coeff exp
  | infinity neg => cases neg <;> rfl
  | nan => rfl

theorem PaymentCall.Settles.reasonPy {call : PaymentCall} {status : PaymentStatus}
    {reason : PyVal} {st : Stamp} (h : call.Settles status reason st) :
    ∃ text, reason = Payments.reasonPy text := by
  cases call with
  | markAsSucceeded st' => exact ⟨none, h.2.2⟩
  | markAsFailed text st' => exact ⟨some text, h.2.2⟩
  | pullEvents => exact h.elim

/-- The events that a payment emits in its life: those that its pulls return and those that are
still recorded. -/
def Payment.Emits (p : Payment) (e : PaymentEvent) : Prop :=
  ∃ calls, e ∈ (p.calls calls).1 ++ (p.calls calls).2.events

/-- A payment emits its created event and one report. -/
theorem Payment.Emits.cases {p : Payment} {initial : List PaymentEvent} {e : PaymentEvent}
    (h : p.Emits e) (hb : p.Built initial) :
    (∃ id t, e = createdEvent p.id.value id t) ∨ ∃ r id t reason, r.id = p.id.value ∧
      e = processedEvent r id t reason := by
  obtain ⟨calls, he⟩ := h
  have hinitial : ∀ e ∈ p.events, ∃ id t, e = createdEvent p.id.value id t := by
    cases hb with
    | created h =>
      cases h
      intro e he
      cases List.mem_singleton.mp he
      exact ⟨_, _, rfl⟩
    | rebuilt _ => exact fun _ he => by cases he
  by_cases hs : p.status = .pending
  · rcases Payment.calls_pending hs calls with
      ⟨_, _, hevents⟩ | ⟨_, call, _, status, reason, st, _, _, hc, _, hevents⟩
    · exact .inl (hinitial e (hevents ▸ he))
    · rw [hevents] at he
      rcases List.mem_append.mp he with he | he
      · exact .inl (hinitial e he)
      · obtain ⟨text, rfl⟩ := hc.reasonPy
        exact .inr ⟨p.outcomeRow status, st.eventId, st.occurredAt, text, rfl, List.mem_singleton.mp he⟩
  · exact .inl (hinitial e ((Payment.calls_settled hs calls).2 ▸ he))

/-- The event that the subscriber of a queue reads from a body. -/
def decoder (queue : RabbitQueue) : Option (Json → Except Exc PaymentEvent) :=
  if queue = newPaymentsQ then some decodeNew
  else if queue = notifyPaymentsQ then some decodeNotify
  else none

/-- The subscriber of the queue that an event is routed to reads the event from its message. -/
theorem decode_encode {lim : Limits} {p : Payment} {initial : List PaymentEvent}
    {e : PaymentEvent} (hb : p.Built initial) (he : p.Emits e) :
    ∃ queue decode body, EventBus.queueRegistry e.cls = some queue ∧
      route lim (EventBus.exchangeRegistry e.cls) queue.routingKey = [queue] ∧
      decoder queue = some decode ∧ parseEventToMessage e = .ok body ∧ decode body = .ok e := by
  rcases he.cases hb with ⟨id, t, rfl⟩ | ⟨r, id, t, reason, _, rfl⟩
  · have hst := created_stored p.id.value id t
    exact ⟨newPaymentsQ, decodeNew, _, rfl, route_topic, rfl, created_published _ _ _ hst,
      @decode_created (p.outcomeRow .pending) _ ⟨rfl, rfl⟩⟩
  · have hst := processed_stored r id t reason
    exact ⟨notifyPaymentsQ, decodeNotify, _, rfl, route_topic, rfl,
      processed_published _ _ _ _ hst, decode_processed rfl (Decimal.parse_str_any _)⟩

/-- The rebuilt event of a stored one is never the event again: its payment is a text. -/
theorem rebuild_differs {p : Payment} {initial : List PaymentEvent} {e : PaymentEvent}
    (hb : p.Built initial) (he : p.Emits e) :
    ∃ o e', e.StoredAs o ∧ rebuildEvent o.id o.occurredAt o.queue o.payload.toPy = .ok e' ∧
      e.attr "payment_id" = .uuid p.id.value ∧ e'.attr "payment_id" = .str p.id.value.str ∧
      e' ≠ e := by
  obtain ⟨o, e', hst, hr, ha, ha'⟩ : ∃ o e', e.StoredAs o ∧
      rebuildEvent o.id o.occurredAt o.queue o.payload.toPy = .ok e' ∧
      e.attr "payment_id" = .uuid p.id.value ∧ e'.attr "payment_id" = .str p.id.value.str := by
    rcases he.cases hb with ⟨id, t, rfl⟩ | ⟨r, id, t, reason, hid, rfl⟩
    · exact ⟨_, _, created_stored p.id.value id t,
        @rebuild_created (p.outcomeRow .pending) _ ⟨rfl, rfl⟩, rfl, rfl⟩
    · rw [← hid]
      exact ⟨_, _, processed_stored r id t reason, rebuild_processed rfl rfl, rfl, rfl⟩
  refine ⟨o, e', hst, hr, ha, ha', ?_⟩
  rintro rfl
  rw [ha] at ha'
  cases ha'

/-- A payment that has just been constructed, and the event that it has recorded. -/
def emittingPayment : Payment where
  id := { value := ⟨1⟩ }
  amount := { value := .finite false 100 (-2) }
  currency := .rub
  description := { value := "test payment" }
  metadata := { value := .dict [] }
  key := { value := ⟨2⟩ }
  webhookUrl := { value := "https://example.com/hook" }
  createdAt := { value := sampleTime }
  events := [createdEvent ⟨1⟩ ⟨3⟩ sampleTime]

theorem emittingPayment_built : emittingPayment.Built [createdEvent ⟨1⟩ ⟨3⟩ sampleTime] :=
  .created rfl

/-- The event that reports the failure of the payment. -/
def sampleReport : PaymentEvent :=
  emittingPayment.report .failed (.str "declined") ⟨⟨4⟩, sampleTime, sampleTime⟩

def sampleCalls : List PaymentCall :=
  [.pullEvents, .markAsFailed "declined" ⟨⟨4⟩, sampleTime, sampleTime⟩]

theorem emittingPayment_emits : emittingPayment.Emits sampleReport := by
  have hevents : (emittingPayment.calls sampleCalls).1 ++ (emittingPayment.calls sampleCalls).2.events =
      [createdEvent ⟨1⟩ ⟨3⟩ sampleTime, sampleReport] := rfl
  exact ⟨sampleCalls, hevents ▸ List.mem_cons_of_mem _ List.mem_cons_self⟩

theorem decode_encode_failed : ∃ p initial e body, Payment.Built p initial ∧ p.Emits e ∧
    parseEventToMessage e = .ok body ∧ decodeNotify body = .ok e := by
  obtain ⟨queue, decode, body, hq, _, hd, hp, he⟩ :=
    @decode_encode {} _ _ _ emittingPayment_built emittingPayment_emits
  cases hq
  cases hd
  exact ⟨_, _, _, body, emittingPayment_built, emittingPayment_emits, hp, he⟩

theorem rebuild_differs_failed : ∃ p initial e, Payment.Built p initial ∧ p.Emits e ∧
    ∃ o e', e.StoredAs o ∧ rebuildEvent o.id o.occurredAt o.queue o.payload.toPy = .ok e' ∧
      e' ≠ e := by
  obtain ⟨o, e', hst, hr, _, _, hne⟩ := rebuild_differs emittingPayment_built emittingPayment_emits
  exact ⟨_, _, _, emittingPayment_built, emittingPayment_emits, o, e', hst, hr, hne⟩

/-- The amount, the currency, the status and the payment of a stored report come back as texts. -/
theorem report_rebuilt_as_texts : emittingPayment.Built [createdEvent ⟨1⟩ ⟨3⟩ sampleTime] ∧
    emittingPayment.Emits sampleReport ∧ ∃ o e', sampleReport.StoredAs o ∧
      rebuildEvent o.id o.occurredAt o.queue o.payload.toPy = .ok e' ∧ e' ≠ sampleReport ∧
      e'.attr "payment_id" = .str (UUID.mk 1).str ∧ e'.attr "amount" = .str "1.00" ∧
      e'.attr "currency" = .str "RUB" ∧ e'.attr "status" = .str "FAILED" := by
  refine ⟨emittingPayment_built, emittingPayment_emits, _, _,
    processed_stored (emittingPayment.outcomeRow .failed) ⟨4⟩ sampleTime (some "declined"),
    rebuild_processed rfl rfl, fun he => ?_, rfl, rfl, rfl, rfl⟩
  have ha := congrArg (fun e : PaymentEvent => e.attr "payment_id") he
  cases ha

end Payments
