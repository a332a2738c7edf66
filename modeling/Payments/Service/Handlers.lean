import Payments.Service.UseCases

namespace Payments

open Lib

/-- `EventData[T]`. -/
structure EventData (T : Type) where
  id : String
  occurredAt : String
  queue : String
  payload : T

/-- `model_validate_json`: members of other names are ignored. -/
def EventData.validate {T : Type} (payload : Json → Option T) (body : Json) :
    Except Exc (EventData T) :=
  match body.text "id", body.text "occurred_at", body.text "queue",
    (body.member "payload").bind payload with
  | some id, some occurredAt, some queue, some payload => .ok ⟨id, occurredAt, queue, payload⟩
  | _, _, _, _ => .error (.valueError "validation error for EventData")

/-- The payload of a `NewPaymentEvent`. -/
structure NewPaymentData where
  paymentId : String

def NewPaymentData.validate (payload : Json) : Option NewPaymentData :=
  (payload.text "payment_id").map (fun paymentId => ⟨paymentId⟩)

/-- The payload of a `NotifyEvent`. -/
structure NotifyData where
  paymentId : String
  amount : String
  currency : String
  webhookUrl : String
  status : String
  reason : Option String

/-- A member that may be missing or null. -/
def optionalText (key : String) (payload : Json) : Option (Option String) :=
  match payload.member key with
  | none | some .null => some none
  | some (.str s) => some (some s)
  | some _ => none

def NotifyData.validate (payload : Json) : Option NotifyData := do
  let paymentId ← payload.text "payment_id"
  let amount ← payload.text "amount"
  let currency ← payload.text "currency"
  let webhookUrl ← payload.text "webhook_url"
  let status ← payload.text "status"
  let reason ← optionalText "reason" payload
  some ⟨paymentId, amount, currency, webhookUrl, status, reason⟩

/-- The value that a constructor reads from a text, or its exception. -/
def parsed {α : Type} (e : Exc) : Option α → Except Exc α
  | some a => .ok a
  | none => .error e

def parseUuid (s : String) : Except Exc UUID :=
  parsed (.valueError "badly formed hexadecimal UUID string") (UUID.parse s)

def parseDateTime (s : String) : Except Exc DateTime :=
  parsed (.valueError ("Invalid isoformat string: " ++ s)) (DateTime.fromisoformat s)

/-- `new_pay_to_domain`. -/
def newPayToDomain (event : EventData NewPaymentData) : Except Exc PaymentEvent := do
  let id ← parseUuid event.id
  let occurredAt ← parseDateTime event.occurredAt
  let paymentId ← parseUuid event.payload.paymentId
  .ok (PaymentCreatedEvent id (.datetime occurredAt) (.uuid paymentId))

/-- `notify_event_to_domain`. -/
def notifyEventToDomain (event : EventData NotifyData) : Except Exc PaymentEvent := do
  let paymentId ← parseUuid event.payload.paymentId
  let amount ← parsed .invalidOperation (Decimal.parse event.payload.amount)
  let currency ← parsed (.valueError (event.payload.currency ++ " is not a valid Currency"))
    (Currency.ofValue event.payload.currency)
  let status ← parsed (.valueError (event.payload.status ++ " is not a valid PaymentStatus"))
    (PaymentStatus.ofValue event.payload.status)
  let id ← parseUuid event.id
  let occurredAt ← parseDateTime event.occurredAt
  .ok (PaymentProcessedEvent id (.datetime occurredAt) (.uuid paymentId) (.decimal amount)
    currency.toPy (.str event.payload.webhookUrl) status.toPy
    (match event.payload.reason with | none => .none | some reason => .str reason))

/-- The event that `handle_payment_processing` reads from the body of a message. -/
def decodeNew (body : Json) : Except Exc PaymentEvent :=
  (EventData.validate NewPaymentData.validate body).bind newPayToDomain

/-- The event that `handle_notify_client` reads from the body of a message. -/
def decodeNotify (body : Json) : Except Exc PaymentEvent :=
  (EventData.validate NotifyData.validate body).bind notifyEventToDomain

/-- The claim of an event. The unit of work does not commit it. -/
def claim (eventId : UUID) : Service Bool :=
  Uow.within (OutboxRepository.markInProcess eventId)

/-- Write the end state of an event in a transaction of its own. -/
def conclude (eventId : UUID) (status : TaskStatus) : Service Unit :=
  Uow.within (do
    OutboxRepository.markProcessed eventId status
    Uow.commit)

/-- The gate of both handlers. -/
def Admitted (claimed : Bool) (attempt maxAttempts : Nat) : Prop :=
  claimed = true ∨ 0 < attempt ∧ attempt < maxAttempts

instance (claimed : Bool) (attempt maxAttempts : Nat) :
    Decidable (Admitted claimed attempt maxAttempts) :=
  inferInstanceAs (Decidable (_ ∨ _))

/-- The `except Exception` branch of both handlers: a copy into the retry queue of the
attempt, and on the last attempt the event has failed and goes to the dead letters. -/
def retryOrBury (queue : RabbitQueue) (maxAttempts : Nat) (msg : Message) (eventId : UUID)
    (deadKey : String) (deadHeaders : Option Nat) : Service Unit := do
  perform .connect
  if msg.attempt < maxAttempts then
    match (retryRoutingQueues queue maxAttempts)[msg.attempt]? with
    | some retry => perform (.publish paymentsDlx retry.routingKey
        { body := msg.body, headers := some (msg.attempt + 1) })
    | none => throw (.other "IndexError")
  else
    conclude eventId .failed
    perform (.publish paymentsDlx deadKey { body := msg.body, headers := deadHeaders })

/-- The guarded part of `handle_payment_processing`. -/
def executePayment (maxAttempts : Nat) (msg : Message) (event : PaymentEvent) : Service Unit :=
  tryCatch (do
      perform (.enter event.id)
      processPayment event
      conclude event.id .confirmed)
    (fun e =>
      if e.isBusinessRule then pure ()
      else retryOrBury newPaymentsQ maxAttempts msg event.id dlq.publishKey none)

/-- `handle_payment_processing`. Its event bus connects before the handler starts. -/
def handlePaymentProcessing (maxAttempts : Nat) (msg : Message) : Service Unit := do
  perform .connect
  let event ← Prog.ofExcept (decodeNew msg.body)
  let claimed ← claim event.id
  (if Admitted claimed msg.attempt maxAttempts then executePayment maxAttempts msg event
    else pure ())
  perform .ack

/-- The guarded part of `handle_notify_client`. -/
def executeNotification [Externals] (maxAttempts : Nat) (msg : Message) (event : PaymentEvent) :
    Service Unit :=
  tryCatch (do
      perform (.enter event.id)
      sendNotification event
      conclude event.id .confirmed)
    (fun _ =>
      retryOrBury notifyPaymentsQ maxAttempts msg event.id dlq.routingKey (some msg.attempt))

/-- `handle_notify_client`. -/
def handleNotifyClient [Externals] (maxAttempts : Nat) (msg : Message) : Service Unit := do
  let event ← Prog.ofExcept (decodeNotify msg.body)
  let claimed ← claim event.id
  (if Admitted claimed msg.attempt maxAttempts then executeNotification maxAttempts msg event
    else pure ())
  perform .ack

/-- `handle_bad_events`. -/
def handleBadEvents : Service Unit := do
  perform .connect
  fetchPendingTasks

end Payments
