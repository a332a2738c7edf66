import Payments.Domain.ValueObjects

namespace Payments

/-- The registered event classes. -/
inductive EventClass where
  | paymentDomainEvent
  | paymentCreatedEvent
  | paymentProcessedEvent
  deriving DecidableEq

namespace EventClass

def name : EventClass → String
  | paymentDomainEvent => "PaymentDomainEvent"
  | paymentCreatedEvent => "PaymentCreatedEvent"
  | paymentProcessedEvent => "PaymentProcessedEvent"

/-- `__event_group__`. -/
def eventGroup (_ : EventClass) : String := "payments"

/-- `__event_key__`. -/
def eventKey : EventClass → String
  | paymentDomainEvent => "*"
  | paymentCreatedEvent => "new"
  | paymentProcessedEvent => "processed"

/-- The group and the key, under which `EVENT_REGISTRY` has the class. -/
def queue : EventClass → String
  | paymentDomainEvent => "payments.*"
  | paymentCreatedEvent => "payments.new"
  | paymentProcessedEvent => "payments.processed"

theorem queue_eq (c : EventClass) : c.queue = c.eventGroup ++ "." ++ c.eventKey := by
  cases c <;> decide

/-- The fields of a class after those of `DomainEvent`, each with its default if it has one. -/
def params : EventClass → List (String × Option PyVal)
  | paymentDomainEvent => [("payment_id", none)]
  | paymentCreatedEvent => [("payment_id", none)]
  | paymentProcessedEvent => [("payment_id", none), ("amount", none), ("currency", none),
      ("webhook_url", none), ("status", none), ("reason", some .none)]

end EventClass

/-- `EVENT_REGISTRY.get(queue)`. -/
def eventRegistry (queue : String) : Option EventClass :=
  if queue = EventClass.paymentDomainEvent.queue then some .paymentDomainEvent
  else if queue = EventClass.paymentCreatedEvent.queue then some .paymentCreatedEvent
  else if queue = EventClass.paymentProcessedEvent.queue then some .paymentProcessedEvent
  else none

/-- An event object. Its fields hold whatever they were given, since a dataclass does not
check types. The inherited `payload` is the first of them where it is given: it is always empty
in the events of the service, which leave it out. -/
structure PaymentEvent where
  cls : EventClass
  id : UUID
  occurredAt : PyVal
  fields : List (String × PyVal)

def PaymentCreatedEvent (id : UUID) (occurredAt : PyVal) (paymentId : PyVal) : PaymentEvent where
  cls := .paymentCreatedEvent
  id := id
  occurredAt := occurredAt
  fields := [("payment_id", paymentId)]

def PaymentProcessedEvent (id : UUID) (occurredAt paymentId amount currency webhookUrl status
    reason : PyVal) : PaymentEvent where
  cls := .paymentProcessedEvent
  id := id
  occurredAt := occurredAt
  fields := [("payment_id", paymentId), ("amount", amount), ("currency", currency),
    ("webhook_url", webhookUrl), ("status", status), ("reason", reason)]

/-- The attribute of an event, which its constructor has set. -/
def PaymentEvent.attr (e : PaymentEvent) (field : String) : PyVal :=
  (e.fields.lookup field).getD .none

end Payments
