import Payments.Service.UseCases

namespace Payments

open Lib

/-- What the publisher uses of `pybreaker.CircuitBreaker`, with times in seconds: whether a call
is admitted or raises `CircuitBreakerError` at once, and the breaker after a call that was
admitted, by whether calling the function has raised. -/
class Pybreaker where
  Breaker : Type
  new : (failMax resetTimeout : Nat) → Breaker
  failMax : Breaker → Nat
  resetTimeout : Breaker → Nat
  failures : Breaker → Nat
  admits : Breaker → Nat → Bool
  called : Breaker → Nat → Bool → Breaker

variable [Pybreaker]

/-- The fields of `AMQPEventPublisher` other than the broker, which all of them share. -/
structure AMQPEventPublisher where
  breaker : Pybreaker.Breaker

namespace AMQPEventPublisher

/-- `AMQPEventPublisher(broker)`. -/
def new : AMQPEventPublisher where
  breaker := Pybreaker.new 5 60

/-- `self.breaker.call(self._broker_publish, ...)`. Calling an async function returns its
coroutine and never raises; the caller awaits it behind the breaker. -/
def call (self : AMQPEventPublisher) (now : Nat) (brokerPublish : Service Unit) :
    Service Unit × AMQPEventPublisher :=
  if Pybreaker.admits self.breaker now then
    (brokerPublish, { breaker := Pybreaker.called self.breaker now false })
  else (throw (.other "CircuitBreakerError"), self)

/-- One round of the loop of `publish_payment_events`. -/
def publishPaymentEvent (self : AMQPEventPublisher) (now : Nat) (event : PaymentEvent) :
    Service AMQPEventPublisher :=
  match EventBus.queueRegistry event.cls with
  | none => throw (.eventRouting ("Event routing not configured for " ++ event.cls.name))
  | some queue =>
    match parseEventToMessage event with
    | .error e => throw (EventBus.unserializable event e)
    | .ok body => do
      let called := self.call now
        (perform (.publish (EventBus.exchangeRegistry event.cls) queue.routingKey { body := body }))
      tryCatch called.1 (fun e => throw (EventBus.unavailable event e))
      pure called.2

/-- `publish_payment_events`, with the time at each of its calls of the breaker. -/
def publishPaymentEvents : AMQPEventPublisher → (Nat → Nat) → List PaymentEvent → Service Unit
  | _, _, [] => pure ()
  | self, clock, event :: events => do
    let self ← self.publishPaymentEvent (clock 0) event
    self.publishPaymentEvents (fun n => clock (n + 1)) events

end AMQPEventPublisher

/-- `get_publisher`, which the HTTP routes depend on. -/
def getPublisher : Service AMQPEventPublisher := pure .new

/-- `get_event_bus`, which the handlers of messages depend on. -/
def getEventBus : Service AMQPEventPublisher := do
  perform .connect
  pure .new

/-- What depends on a publisher: a request or a delivered message. -/
inductive Caller where
  | request
  | delivery

/-- The dependency of a caller, which is resolved for every call anew. -/
def Caller.publisher : Caller → Service AMQPEventPublisher
  | request => getPublisher
  | delivery => getEventBus

/-- The publisher of a caller publishes the events of its use case. -/
def Caller.publishes (caller : Caller) (clock : Nat → Nat) (events : List PaymentEvent) :
    Service Unit := do
  let publisher ← caller.publisher
  publisher.publishPaymentEvents clock events

end Payments
