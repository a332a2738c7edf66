import Payments.Service.World

namespace Payments

open Lib

/-- The programs of the service. -/
abbrev Service := Prog Op Op.Res Exc

/-- Perform one effect. -/
abbrev perform (op : Op) : Service op.Res := Prog.perform op

namespace Uow

/-- `PaymentsUoWSQLAlchemy.rollback`, which swallows errors. -/
def rollback : Service Unit :=
  tryCatch (perform .rollback) (fun _ => pure ())

/-- `PaymentsUoWSQLAlchemy.commit`. -/
def commit : Service Unit :=
  tryCatch (perform .commit) (fun e =>
    match e with
    | .sqlTimeout => do
      perform .rollback
      throw (.repositoriesExhausted
        "Connection pool exhausted; unable to acquire connection within timeout")
    | .operational => do
      perform .rollback
      throw (.repositoriesUnavailable "Database unavailable: " .operational)
    | e => throw e)

/-- What `__aexit__` does before it closes the session. -/
def rollbackOn {α : Type} : Except Exc α → Service Unit
  | .ok _ => pure ()
  | .error _ => rollback

/-- `async with uow`: roll back when the body raised, and close the session in any case. -/
def within {α : Type} (body : Service α) : Service α := do
  let r ← body.outcome
  rollbackOn r
  perform .close
  Prog.ofExcept r

end Uow

namespace PaymentRepository

/-- `_to_domain`. -/
def toDomain (row : PaymentRow) : Except Exc Payment := do
  let metadata ← Metadata.rebuild row.metadata.toPy
  .ok (Payment.rebuild (PaymentID.rebuild row.id) (Amount.rebuild row.amount) row.currency
    (Description.rebuild row.description) metadata (IdempotencyKey.rebuild row.idempotencyKey)
    (WebhookUrl.rebuild row.webhookUrl) row.status (Timestamp.rebuild row.createdAt)
    (row.processedAt.map Timestamp.rebuild) [])

/-- The values of the `INSERT` of a payment. -/
def values (payment : Payment) : PaymentValues where
  id := payment.id.value
  amount := payment.amount.value
  currency := payment.currency
  description := payment.description.value
  metadata := payment.metadata.asDict
  status := payment.status
  idempotencyKey := payment.key.value
  createdAt := payment.createdAt.value
  webhookUrl := payment.webhookUrl.value

def add (payment : Payment) : Service Unit := do
  let existing ← perform (.selectPaymentIdByKey payment.key.value)
  match existing with
  | some _ => throw (.exists_
      ("Payment already exists with idempotency_key " ++ payment.key.value.str))
  | none =>
    perform (.insertPayment (values payment))
    perform .flush

/-- `update`. Reading the value of a missing timestamp is an `AttributeError`. -/
def update (payment : Payment) : Service Unit :=
  match payment.processedAt with
  | none => throw (.attributeError "'NoneType' object has no attribute 'value'")
  | some processedAt => do
    let result ← perform (.updatePayment payment.id.value payment.status processedAt.value)
    perform .flush
    match result with
    | none => throw (.notFound
        ("Cannot update: Payment " ++ payment.id.value.str ++ " not found"))
    | some _ => pure ()

def getById (paymentId : PaymentID) : Service Payment := do
  let row ← perform (.selectPaymentById paymentId.value)
  match row with
  | none => throw (.notFound ("Payment not found: " ++ paymentId.value.str))
  | some row => Prog.ofExcept (toDomain row)

def getByKey (key : IdempotencyKey) : Service (Option Payment) := do
  let row ← perform (.selectPaymentByKey key.value)
  match row with
  | none => pure none
  | some row => do
    let payment ← Prog.ofExcept (toDomain row)
    pure (some payment)

end PaymentRepository

/-- An iterable, by what its first and its second traversal yield. -/
structure Iterable (α : Type) where
  first : List α
  second : List α

/-- A list yields its elements again. -/
def Iterable.ofList {α : Type} (xs : List α) : Iterable α := ⟨xs, xs⟩

/-- A generator is exhausted by its first traversal. -/
def Iterable.generator {α : Type} (xs : List α) : Iterable α := ⟨xs, []⟩

namespace OutboxRepository

def add (events : List PaymentEvent) : Service Unit :=
  if events.isEmpty then pure ()
  else do
    let serialized ← Prog.ofExcept (events.mapM (fun e => serializeEvent e false))
    perform (.insertOutbox serialized)
    perform .flush

/-- `add` on any iterable: `list(events)` is only asked whether it is empty, and the events are
serialized in a second traversal. `noRows` is what an `INSERT` without rows answers. -/
def addFrom (noRows : Except Exc Unit) (events : Iterable PaymentEvent) : Service Unit :=
  let eventsList := events.first
  if eventsList.isEmpty then pure ()
  else do
    let serialized ← Prog.ofExcept (events.second.mapM (fun e => serializeEvent e false))
    if serialized.isEmpty then Prog.ofExcept noRows
    else perform (.insertOutbox serialized)
    perform .flush

def markProcessed (eventId : UUID) (updStatus : TaskStatus) : Service Unit := do
  let result ← perform (.selectOutboxId eventId)
  match result with
  | none => throw (.valueError ("Event " ++ eventId.str ++ " not found in outbox"))
  | some _ =>
    perform (.updateOutbox eventId updStatus none)
    perform .flush

def getPendings (limit : Nat := 50) (offset : Nat := 0) : Service (List PaymentEvent) := do
  let rows ← perform (.selectPendings limit offset)
  Prog.ofExcept (rows.mapM (fun row => rebuildEvent row.id row.occurredAt row.queue row.payload.toPy))

def markInProcess (eventId : UUID) : Service Bool := do
  let now ← perform .now
  let lockedId ← perform (.selectPendingId eventId)
  match lockedId with
  | none => pure false
  | some _ =>
    perform (.updateOutbox eventId .inProcess (some now))
    perform .flush
    pure true

end OutboxRepository

namespace PaymentService

/-- `create`: the payment, with the identifiers and the times that its defaults draw. -/
def create (amount : Amount) (currency : Currency) (description : Description)
    (metadata : Metadata) (key : IdempotencyKey) (webhookUrl : WebhookUrl) : Service Payment := do
  let existing ← PaymentRepository.getByKey key
  match existing with
  | some _ => throw (.exists_ "Payment already exists")
  | none =>
    let id ← perform .uuid4
    let createdAt ← perform .now
    let eventId ← perform .uuid4
    let occurredAt ← perform .now
    let payment ← Prog.ofExcept (Payment.postInit {
      id := { value := id }
      amount := amount
      currency := currency
      description := description
      metadata := metadata
      key := key
      webhookUrl := webhookUrl
      createdAt := Timestamp.new createdAt } eventId occurredAt)
    PaymentRepository.add payment
    pure payment

def updateProcessedPayment (payment : Payment) : Service Payment := do
  PaymentRepository.update payment
  pure payment

end PaymentService

end Payments
