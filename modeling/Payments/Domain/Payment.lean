import Payments.Domain.Events

namespace Payments

/-- What the constructor of an event and the clock hand to an operation of the aggregate:
the identifier and the time of the event, and the time of the operation itself. -/
structure Stamp where
  eventId : UUID
  occurredAt : DateTime
  now : DateTime

/-- The `Payment` aggregate with the events it has recorded. -/
structure Payment where
  id : PaymentID
  amount : Amount
  currency : Currency
  description : Description
  metadata : Metadata
  key : IdempotencyKey
  webhookUrl : WebhookUrl
  status : PaymentStatus := .pending
  createdAt : Timestamp
  processedAt : Option Timestamp := none
  rebuilding : Bool := false
  events : List PaymentEvent := []

namespace Payment

def recordEvent (p : Payment) (e : PaymentEvent) : Payment :=
  { p with events := p.events ++ [e] }

/-- The recorded events, and the aggregate without them. -/
def pullEvents (p : Payment) : List PaymentEvent × Payment :=
  (p.events, { p with events := [] })

/-- `__post_init__`. -/
def postInit (p : Payment) (eventId : UUID) (occurredAt : DateTime) : Except Exc Payment :=
  if p.rebuilding then .ok p
  else if p.status ≠ .pending ∧ p.processedAt.isNone then
    .error (.businessRule "Cannot persist processed payment without processing timestamp")
  else .ok (p.recordEvent (PaymentCreatedEvent eventId (.datetime occurredAt) (.uuid p.id.value)))

def ensurePending (p : Payment) : Except Exc Unit :=
  if p.status ≠ .pending then .error (.businessRule "Already processed") else .ok ()

/-- Both transitions: the new status, the time, and the event that reports them. -/
def settle (p : Payment) (status : PaymentStatus) (reason : PyVal) (st : Stamp) :
    Except Exc Payment := do
  p.ensurePending
  let p := { p with status := status, processedAt := some (Timestamp.new st.now) }
  .ok (p.recordEvent (PaymentProcessedEvent st.eventId (.datetime st.occurredAt)
    (.uuid p.id.value) (.decimal p.amount.value) p.currency.toPy (.str p.webhookUrl.value)
    p.status.toPy reason))

def markAsSucceeded (p : Payment) (st : Stamp) : Except Exc Payment :=
  p.settle .confirmed .none st

def markAsFailed (p : Payment) (reason : String) (st : Stamp) : Except Exc Payment :=
  p.settle .failed (.str reason) st

/-- `Payment.rebuild`. -/
def rebuild (id : PaymentID) (amount : Amount) (currency : Currency) (description : Description)
    (metadata : Metadata) (key : IdempotencyKey) (webhookUrl : WebhookUrl)
    (status : PaymentStatus) (createdAt : Timestamp) (processedAt : Option Timestamp)
    (events : List PaymentEvent) : Payment where
  id := id
  amount := amount
  currency := currency
  description := description
  metadata := metadata
  key := key
  webhookUrl := webhookUrl
  status := status
  createdAt := createdAt
  processedAt := processedAt
  rebuilding := true
  events := events

/-- `Aggregate.__eq__`. Both objects are payments. -/
def eq (p other : Payment) : Bool := other.id.eq p.id

/-- The tuple that `Aggregate.__hash__` hashes. -/
def hashKey (p : Payment) : String × (Bool × UUID) := ("Payment", p.id.astuple)

/-- `set.add` with a hash function of tuples: an object is left out when the set has an equal one
with its hash. -/
def addTo (hash : String × (Bool × UUID) → Int) (elements : List Payment) (p : Payment) :
    List Payment :=
  if elements.any (fun q => hash q.hashKey = hash p.hashKey ∧ q.eq p) then elements
  else elements ++ [p]

theorem settle_ok {p p' : Payment} {status : PaymentStatus} {reason : PyVal} {st : Stamp}
    (h : p.settle status reason st = .ok p') : p.status = .pending ∧
      p' = { p with
        status := status
        processedAt := some (Timestamp.new st.now)
        events := p.events ++ [PaymentProcessedEvent st.eventId (.datetime st.occurredAt)
          (.uuid p.id.value) (.decimal p.amount.value) p.currency.toPy (.str p.webhookUrl.value)
          status.toPy reason] } := by
  unfold settle ensurePending at h
  split at h
  · cases h
  · rename_i hs
    cases h
    exact ⟨by simpa using hs, rfl⟩

/-- A transition fails only on a payment that is settled already. -/
theorem settle_error {p : Payment} {status : PaymentStatus} {reason : PyVal} {st : Stamp}
    {e : Exc} (h : p.settle status reason st = .error e) :
    p.status ≠ .pending ∧ e = .businessRule "Already processed" := by
  unfold settle ensurePending at h
  split at h
  · rename_i hs
    cases h
    exact ⟨hs, rfl⟩
  · cases h

end Payment

end Payments
