import Payments.Domain.Payment

namespace Payments

/-- A method of the object: it may raise, and what it has assigned until then stays. -/
abbrev Method := EStateM Exc Payment

/-- A call of a method, with what the clock and the event that it constructs draw. -/
inductive PaymentCall where
  | markAsSucceeded (st : Stamp)
  | markAsFailed (reason : String) (st : Stamp)
  | pullEvents

namespace Payment.Method

/-- `_ensure_pending`. -/
def ensurePending : Method Unit := do
  if (← get).status ≠ .pending then throw (.businessRule "Already processed")

/-- The statements of both transitions. -/
def settle (status : PaymentStatus) (reason : PyVal) (st : Stamp) : Method Unit := do
  ensurePending
  modify (fun p => { p with status := status })
  modify (fun p => { p with processedAt := some (Timestamp.new st.now) })
  modify (fun p => p.recordEvent (PaymentProcessedEvent st.eventId (.datetime st.occurredAt)
    (.uuid p.id.value) (.decimal p.amount.value) p.currency.toPy (.str p.webhookUrl.value)
    p.status.toPy reason))

/-- `mark_as_succeeded`. The event has the default reason. -/
def markAsSucceeded (st : Stamp) : Method Unit := settle .confirmed .none st

/-- `mark_as_failed`. -/
def markAsFailed (reason : String) (st : Stamp) : Method Unit := settle .failed (.str reason) st

/-- `pull_events`: a copy of the list, which is cleared then. -/
def pullEvents : Method (List PaymentEvent) := do
  let events := (← get).events
  modify (fun p => { p with events := [] })
  pure events

/-- The transitions of the object are those of the aggregate, and raise before they assign. -/
theorem settle_run (status : PaymentStatus) (reason : PyVal) (st : Stamp) (p : Payment) :
    settle status reason st p = match p.settle status reason st with
      | .ok p' => .ok () p'
      | .error e => .error e p := by
  obtain ⟨id, amount, currency, description, metadata, key, webhookUrl, current, _⟩ := p
  cases current <;> rfl

end Payment.Method

/-- The events that a call returns. The transitions return nothing. -/
def PaymentCall.run : PaymentCall → Method (List PaymentEvent)
  | .markAsSucceeded st => do
    Payment.Method.markAsSucceeded st
    pure []
  | .markAsFailed reason st => do
    Payment.Method.markAsFailed reason st
    pure []
  | .pullEvents => Payment.Method.pullEvents

/-- Make the calls one after the other, whatever they raise: the events that the pulls have
returned, and the object. -/
def Payment.calls (p : Payment) : List PaymentCall → List PaymentEvent × Payment
  | [] => ([], p)
  | call :: rest =>
    match call.run p with
    | .ok events p' => (events ++ (p'.calls rest).1, (p'.calls rest).2)
    | .error _ p' => p'.calls rest

end Payments
