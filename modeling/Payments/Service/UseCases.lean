import Payments.Service.Repositories

namespace Payments

open Lib

namespace EventBus

/-- `QUEUE_REGISTRY`. -/
def queueRegistry : EventClass → Option RabbitQueue
  | .paymentDomainEvent => none
  | .paymentCreatedEvent => some newPaymentsQ
  | .paymentProcessedEvent => some notifyPaymentsQ

/-- `EXCHANGE_REGISTRY`, which has every class. -/
def exchangeRegistry (_ : EventClass) : String := paymentsExchange

/-- What a failed publish is raised as. The breaker never sees a failure of the coroutine
that it returns, so only the client itself can report an open circuit. -/
def unavailable (event : PaymentEvent) : Exc → Exc
  | .other "CircuitBreakerError" => .publisherUnavailable "Event publisher circuit is open" none
  | e => .publisherUnavailable ("Failed to publish " ++ event.cls.name ++ ": ") (some e)

/-- What a failed serialization is raised as; an exception that is neither a `TypeError` nor a
`ValueError` passes. -/
def unserializable (event : PaymentEvent) : Exc → Exc
  | .typeError message =>
    .eventSerialization ("Cannot serialize event " ++ event.cls.name ++ ": ") (.typeError message)
  | .valueError message =>
    .eventSerialization ("Cannot serialize event " ++ event.cls.name ++ ": ") (.valueError message)
  | e => e

def publishPaymentEvent (event : PaymentEvent) : Service Unit :=
  match queueRegistry event.cls with
  | none => throw (.eventRouting ("Event routing not configured for " ++ event.cls.name))
  | some queue =>
    match parseEventToMessage event with
    | .error e => throw (unserializable event e)
    | .ok body =>
      tryCatch (perform (.publish (exchangeRegistry event.cls) queue.routingKey { body := body }))
        (fun e => throw (unavailable event e))

def publishPaymentEvents : List PaymentEvent → Service Unit
  | [] => pure ()
  | event :: events => do
    publishPaymentEvent event
    publishPaymentEvents events

end EventBus

/-- `isinstance(e, (RepositoriesExhaustedError, RepositoriesUnavailableError))`. -/
def Exc.isRepositories : Exc → Bool
  | .repositoriesExhausted _ | .repositoriesUnavailable _ _ => true
  | _ => false

/-- `retry(...)(f)()` with so many attempts and `reraise`: call `f`, and call it again when the
call raises an exception that is listed. -/
def retry {α : Type} : Nat → Service α → Service α
  | attempts + 2, f => tryCatch f (fun e =>
      if e.isRepositories then retry (attempts + 1) f else throw e)
  | _, f => f

section Create

variable [Externals]

/-- The value objects that a command is turned into. -/
structure PaymentParts where
  amount : Amount
  currency : Currency
  key : IdempotencyKey
  description : Description
  metadata : Metadata
  webhookUrl : WebhookUrl

def CreatePaymentCommand.parts (c : CreatePaymentCommand) : Except Exc PaymentParts := do
  let amount ← Amount.new c.amount
  let key ← IdempotencyKey.new c.key
  let description ← Description.new c.description
  let metadata ← Metadata.new c.metadata
  let webhookUrl ← WebhookUrl.new c.webhookUrl
  .ok ⟨amount, c.currency, key, description, metadata, webhookUrl⟩

def CreatePaymentResponse.fromDomain (payment : Payment) : CreatePaymentResponse where
  paymentId := payment.id.value.str
  status := payment.status
  createdAt := payment.createdAt.value

/-- `CreatePaymentUseCase.__call__`. -/
def createPayment (command : CreatePaymentCommand) : Service CreatePaymentResponse := do
  let parts ← Prog.ofExcept command.parts
  let (payment, events) ← Uow.within (do
    let payment ← PaymentService.create parts.amount parts.currency parts.description
      parts.metadata parts.key parts.webhookUrl
    let (events, payment) := payment.pullEvents
    OutboxRepository.add events
    Uow.commit
    pure (payment, events))
  EventBus.publishPaymentEvents events
  pure (CreatePaymentResponse.fromDomain payment)

/-- An instance of `CreatePaymentUseCase`, with its `__call__`. -/
structure CreatePaymentUseCase where
  call : CreatePaymentCommand → Service CreatePaymentResponse

/-- `CreatePaymentUseCase()`. The decorator wraps the class, so what it calls again is the
construction of the instance, which has no effects. -/
def CreatePaymentUseCase.new : Service CreatePaymentUseCase :=
  retry 3 (pure { call := createPayment })

/-- `CreatePaymentUseCase()(command, uow, event_bus)`. -/
def callCreatePayment (command : CreatePaymentCommand) : Service CreatePaymentResponse := do
  let useCase ← CreatePaymentUseCase.new
  useCase.call command

end Create

/-- `_emulate_processing`: the draw decides, but a settled payment raises before the clock
and the identifier of the event are asked. -/
def emulateProcessing (payment : Payment) : Service Payment := do
  let success : Bool ← perform .random
  Prog.ofExcept payment.ensurePending
  let now ← perform .now
  let eventId ← perform .uuid4
  let occurredAt ← perform .now
  Prog.ofExcept (if success then payment.markAsSucceeded ⟨eventId, occurredAt, now⟩
    else payment.markAsFailed "simulated error" ⟨eventId, occurredAt, now⟩)

/-- `ProcessPayment.__call__`. -/
def processPayment (event : PaymentEvent) : Service Unit := do
  let events ← Uow.within (do
    let paymentId ← Prog.ofExcept (PaymentID.new (event.attr "payment_id"))
    let payment ← PaymentRepository.getById paymentId
    let payment ← emulateProcessing payment
    let payment ← PaymentService.updateProcessedPayment payment
    let (events, _) := payment.pullEvents
    OutboxRepository.add events
    Uow.commit
    pure events)
  EventBus.publishPaymentEvents events

namespace Payload

/-- The `value` of a member of an enum. -/
def memberValue : PyVal → Except Exc PyVal
  | .enum _ _ value => .ok value
  | v => .error (.attributeError (v.typeName ++ " object has no attribute 'value'"))

section

variable [Externals]

/-- `ConfirmedPayloadStrategy.build`. -/
def confirmed (event : PaymentEvent) : Except Exc (List (String × PyVal)) := do
  let status ← memberValue (event.attr "status")
  let currency ← memberValue (event.attr "currency")
  .ok [("payment_id", .str (event.attr "payment_id").text), ("status", status),
    ("amount", .str (event.attr "amount").text), ("currency", currency)]

/-- `FailurePayloadStrategy.build`, with its default reason for a missing or empty one. -/
def failure (event : PaymentEvent) : Except Exc (List (String × PyVal)) := do
  let status ← memberValue (event.attr "status")
  let reason := match event.attr "reason" with
    | .none | .str "" => .str "Internal error"
    | reason => reason
  .ok [("payment_id", .str (event.attr "payment_id").text), ("status", status),
    ("reason", reason)]

/-- `PayloadStrategyFactory.get_strategy`. -/
def getStrategy (status : PyVal) : PaymentEvent → Except Exc (List (String × PyVal)) :=
  match status with
  | .enum .plain "CONFIRMED" _ => confirmed
  | _ => failure

end

end Payload

def DEFAULT_TIMEOUT : Nat := 5

/-- `SendNotificationUseCase.__call__`, without a timeout of the caller. -/
def sendNotification [Externals] (event : PaymentEvent) : Service Unit := do
  let payload ← Prog.ofExcept (Payload.getStrategy (event.attr "status") event)
  match event.attr "webhook_url" with
  | .str url => perform (.send url payload DEFAULT_TIMEOUT)
  | v => throw (.attributeError (v.typeName ++ " object has no attribute 'startswith'"))

/-- `FetchPendingTasks.__call__`. -/
def fetchPendingTasks : Service Unit :=
  Uow.within (do
    let events ← OutboxRepository.getPendings
    EventBus.publishPaymentEvents events)

/-- `{key: str(value) for key, value in metadata.items()}`. -/
def metadataTexts [Externals] (m : Metadata) : PyVal :=
  match m.value with
  | .proxy items => .dict (items.map (fun (k, v) => (k, .str v.text)))
  | v => v

def GetPaymentQueryResponse.fromDomain [Externals] (payment : Payment) :
    GetPaymentQueryResponse where
  paymentId := payment.id.value
  amount := payment.amount.value
  currency := payment.currency
  description := payment.description.value
  key := payment.key.value
  metadata := metadataTexts payment.metadata
  status := payment.status
  createdAt := payment.createdAt.value
  processedAt := payment.processedAt.map (fun t => t.value)

/-- `GetPayment.__call__`. -/
def getPayment [Externals] (id : UUID) : Service GetPaymentQueryResponse := do
  let id ← Prog.ofExcept (PaymentID.new (.uuid id))
  let payment ← Uow.within (PaymentRepository.getById id)
  pure (GetPaymentQueryResponse.fromDomain payment)

end Payments
