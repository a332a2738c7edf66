import Payments.Service.System

namespace Payments

open Lib

/-- The body of the messages that carry a stored event. -/
def OutboxRow.body (o : OutboxRow) : Json :=
  .obj [("id", .str o.id.str), ("occurred_at", .str o.occurredAt.isoformat),
    ("queue", .str o.queue), ("payload", o.payload)]

def reasonJson : Option String → Json
  | none => .null
  | some reason => .str reason

def createdPayload (id : UUID) : Json := .obj [("payment_id", .str id.str)]

def processedPayload (r : PaymentRow) (reason : Option String) : Json :=
  .obj [("payment_id", .str r.id.str), ("amount", .str r.amount.str),
    ("currency", .str r.currency.value), ("webhook_url", .str r.webhookUrl),
    ("status", .str r.status.value), ("reason", reasonJson reason)]

/-- The stored event reports the creation of a payment. -/
def PaymentRow.Created (r : PaymentRow) (o : OutboxRow) : Prop :=
  o.queue = EventClass.paymentCreatedEvent.queue ∧ o.payload = createdPayload r.id

/-- The stored event reports how a payment was settled. -/
def PaymentRow.Processed (r : PaymentRow) (o : OutboxRow) : Prop :=
  o.queue = EventClass.paymentProcessedEvent.queue ∧
    ∃ reason, o.payload = processedPayload r reason

def reasonPy : Option String → PyVal
  | none => .none
  | some reason => .str reason

/-- The row whose outcome the report of a settled payment has. -/
def Payment.outcomeRow (p : Payment) (status : PaymentStatus) : PaymentRow where
  id := p.id.value
  amount := p.amount.value
  currency := p.currency
  description := p.description.value
  metadata := .null
  status := status
  idempotencyKey := p.key.value
  createdAt := p.createdAt.value
  processedAt := none
  webhookUrl := p.webhookUrl.value

/-- The event that reports how a payment was settled, with the values of its row. -/
def processedEvent (r : PaymentRow) (id : UUID) (occurredAt : DateTime) (reason : Option String) :
    PaymentEvent :=
  PaymentProcessedEvent id (.datetime occurredAt) (.uuid r.id) (.decimal r.amount) r.currency.toPy
    (.str r.webhookUrl) r.status.toPy (reasonPy reason)

def createdEvent (pid id : UUID) (occurredAt : DateTime) : PaymentEvent :=
  PaymentCreatedEvent id (.datetime occurredAt) (.uuid pid)

/-- An event of the aggregate is stored as the row `o`. -/
def PaymentEvent.StoredAs (e : PaymentEvent) (o : OutboxRow) : Prop :=
  (serializeEvent e false).bind SerializedEvent.toRow = .ok o

theorem created_stored (pid id : UUID) (t : DateTime) :
    (createdEvent pid id t).StoredAs
      ⟨id, EventClass.paymentCreatedEvent.queue, createdPayload pid, t, .pending, none⟩ := by
  simp [PaymentEvent.StoredAs, createdEvent, PaymentCreatedEvent, serializeEvent, asdictInner,
    mapValues, serializeValue, METADATA_FIELDS, SerializedEvent.toRow, storeJson,
    PyVal.dumps, PyVal.dumpsItems, PyVal.jsonKey, Json.isStorable, Json.isStorableItems,
    UUID.parse_str, createdPayload, EventClass.queue_eq, Except.bind, Except.map, bind]

theorem processed_stored (r : PaymentRow) (id : UUID) (t : DateTime) (reason : Option String) :
    (processedEvent r id t reason).StoredAs ⟨id, EventClass.paymentProcessedEvent.queue,
      processedPayload r reason, t, .pending, none⟩ := by
  cases reason <;>
  simp [PaymentEvent.StoredAs, processedEvent, PaymentProcessedEvent, serializeEvent, asdictInner,
    mapValues, serializeValue, METADATA_FIELDS, SerializedEvent.toRow, storeJson,
    PyVal.dumps, PyVal.dumpsItems, PyVal.jsonKey, Json.isStorable, Json.isStorableItems,
    UUID.parse_str, processedPayload, EventClass.queue_eq, Currency.toPy, PaymentStatus.toPy,
    reasonPy, reasonJson, Except.bind, Except.map, bind]

theorem created_published (pid id : UUID) (t : DateTime) {o : OutboxRow}
    (h : (createdEvent pid id t).StoredAs o) :
    parseEventToMessage (createdEvent pid id t) = .ok o.body := by
  rw [PaymentEvent.StoredAs, created_stored] at h
  cases h
  simp [createdEvent, PaymentCreatedEvent, parseEventToMessage, serializeEvent, asdictInner,
    mapValues, serializeValue, METADATA_FIELDS, SerializedEvent.toPy, PyVal.dumps,
    PyVal.dumpsItems, PyVal.jsonKey, createdPayload, EventClass.queue_eq, isoformatOf,
    OutboxRow.body, Except.bind, Except.map, bind]

theorem processed_published (r : PaymentRow) (id : UUID) (t : DateTime) (reason : Option String)
    {o : OutboxRow} (h : (processedEvent r id t reason).StoredAs o) :
    parseEventToMessage (processedEvent r id t reason) = .ok o.body := by
  rw [PaymentEvent.StoredAs, processed_stored] at h
  cases h
  cases reason <;>
  simp [processedEvent, PaymentProcessedEvent, parseEventToMessage, serializeEvent, asdictInner,
    mapValues, serializeValue, METADATA_FIELDS, SerializedEvent.toPy, PyVal.dumps,
    PyVal.dumpsItems, PyVal.jsonKey, processedPayload, EventClass.queue_eq, isoformatOf,
    Currency.toPy, PaymentStatus.toPy, reasonPy, reasonJson, OutboxRow.body, Except.bind,
    Except.map, bind]

/-- The event that `rebuild_event` makes of a stored created event keeps the text of the
identifier. -/
theorem rebuild_created {r : PaymentRow} {o : OutboxRow} (h : r.Created o) :
    rebuildEvent o.id o.occurredAt o.queue o.payload.toPy = .ok
      ⟨.paymentCreatedEvent, o.id, .datetime o.occurredAt, [("payment_id", .str r.id.str)]⟩ := by
  obtain ⟨hq, hp⟩ := h
  simp [hq, hp, rebuildEvent, eventRegistry, EventClass.queue, createdPayload, Json.toPy,
    Json.toPyItems, EventClass.params, PyVal.jsonKey, Except.toOption, bindParams]

/-- The event that `rebuild_event` makes of a stored processed event has texts for its values. -/
theorem rebuild_processed {r : PaymentRow} {o : OutboxRow} {reason : Option String}
    (hq : o.queue = EventClass.paymentProcessedEvent.queue)
    (hp : o.payload = processedPayload r reason) :
    rebuildEvent o.id o.occurredAt o.queue o.payload.toPy = .ok
      ⟨.paymentProcessedEvent, o.id, .datetime o.occurredAt,
        [("payment_id", .str r.id.str), ("amount", .str r.amount.str),
          ("currency", .str r.currency.value), ("webhook_url", .str r.webhookUrl),
          ("status", .str r.status.value), ("reason", reasonPy reason)]⟩ := by
  cases reason <;>
  simp [hq, hp, rebuildEvent, eventRegistry, EventClass.queue, processedPayload, Json.toPy,
    Json.toPyItems, EventClass.params, PyVal.jsonKey, Except.toOption, bindParams, reasonJson,
    reasonPy]

/-- The event that the poll rebuilds from a stored row publishes the body of that row. -/
theorem created_rebuilt {r : PaymentRow} {o : OutboxRow} (h : r.Created o) :
    ∃ e, rebuildEvent o.id o.occurredAt o.queue o.payload.toPy = .ok e ∧
      e.cls = .paymentCreatedEvent ∧ e.id = o.id ∧ parseEventToMessage e = .ok o.body := by
  refine ⟨_, rebuild_created h, rfl, rfl, ?_⟩
  obtain ⟨hq, hp⟩ := h
  simp [hq, hp, parseEventToMessage, serializeEvent, asdictInner, mapValues, serializeValue,
    METADATA_FIELDS, SerializedEvent.toPy, PyVal.dumps, PyVal.dumpsItems, PyVal.jsonKey,
    createdPayload, EventClass.queue_eq, isoformatOf, OutboxRow.body, Except.bind, Except.map,
    bind]

theorem processed_rebuilt {r : PaymentRow} {o : OutboxRow} (h : r.Processed o) :
    ∃ e, rebuildEvent o.id o.occurredAt o.queue o.payload.toPy = .ok e ∧
      e.cls = .paymentProcessedEvent ∧ e.id = o.id ∧ parseEventToMessage e = .ok o.body := by
  obtain ⟨hq, reason, hp⟩ := h
  refine ⟨_, rebuild_processed hq hp, rfl, rfl, ?_⟩
  cases reason <;>
  simp [hq, hp, parseEventToMessage, serializeEvent, asdictInner, mapValues, serializeValue,
    METADATA_FIELDS, SerializedEvent.toPy, PyVal.dumps, PyVal.dumpsItems, PyVal.jsonKey,
    processedPayload, EventClass.queue_eq, isoformatOf, OutboxRow.body, reasonJson, reasonPy,
    Except.bind, Except.map, bind]

theorem decode_created {r : PaymentRow} {o : OutboxRow} (h : r.Created o) :
    decodeNew o.body = .ok (createdEvent r.id o.id o.occurredAt) := by
  obtain ⟨hq, hp⟩ := h
  simp [decodeNew, EventData.validate, OutboxRow.body, Json.text, hp, createdPayload,
    NewPaymentData.validate, newPayToDomain, parseUuid, parseDateTime, parsed, UUID.parse_str,
    DateTime.fromisoformat_isoformat, createdEvent, Except.bind, bind]

theorem decode_processed {r : PaymentRow} {o : OutboxRow} {reason : Option String}
    (hp : o.payload = processedPayload r reason) (ha : Decimal.parse r.amount.str = some r.amount) :
    decodeNotify o.body = .ok (processedEvent r o.id o.occurredAt reason) := by
  cases reason <;>
  simp [decodeNotify, EventData.validate, OutboxRow.body, Json.text, hp,
    processedPayload, NotifyData.validate, optionalText, notifyEventToDomain, parseUuid,
    parseDateTime, parsed, UUID.parse_str, DateTime.fromisoformat_isoformat, ha, reasonJson,
    reasonPy, processedEvent, Except.bind, bind]

theorem parsed_eq_ok {α : Type} {e : Exc} {x : Option α} {a : α} :
    parsed e x = .ok a ↔ x = some a := by
  cases x <;> simp [parsed]

theorem validate_id {T : Type} {payload : Json → Option T} {body : Json} {d : EventData T}
    (h : EventData.validate payload body = .ok d) : body.text "id" = some d.id := by
  unfold EventData.validate at h
  split at h
  · rename_i hi _ _ _
    cases h
    exact hi
  · cases h

/-- The event that a handler decodes has the identifier that the body spells. -/
theorem decodeNew_id {body : Json} {e : PaymentEvent} (h : decodeNew body = .ok e) :
    ∃ s, body.text "id" = some s ∧ UUID.parse s = some e.id := by
  obtain ⟨d, hd, he⟩ := except_bind_ok.mp h
  have hs := validate_id hd
  simp only [newPayToDomain, bind] at he
  obtain ⟨id, hi, he⟩ := except_bind_ok.mp he
  obtain ⟨t, _, he⟩ := except_bind_ok.mp he
  obtain ⟨pid, _, he⟩ := except_bind_ok.mp he
  cases he
  exact ⟨d.id, hs, parsed_eq_ok.mp hi⟩

theorem decodeNotify_id {body : Json} {e : PaymentEvent} (h : decodeNotify body = .ok e) :
    ∃ s, body.text "id" = some s ∧ UUID.parse s = some e.id := by
  obtain ⟨d, hd, he⟩ := except_bind_ok.mp h
  have hs := validate_id hd
  simp only [notifyEventToDomain, bind] at he
  obtain ⟨pid, _, he⟩ := except_bind_ok.mp he
  obtain ⟨amount, _, he⟩ := except_bind_ok.mp he
  obtain ⟨currency, _, he⟩ := except_bind_ok.mp he
  obtain ⟨status, _, he⟩ := except_bind_ok.mp he
  obtain ⟨id, hi, he⟩ := except_bind_ok.mp he
  obtain ⟨t, _, he⟩ := except_bind_ok.mp he
  cases he
  exact ⟨d.id, hs, parsed_eq_ok.mp hi⟩

end Payments
