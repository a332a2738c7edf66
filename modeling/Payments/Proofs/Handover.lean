import Payments.Proofs.Circuit
import Payments.Proofs.Obstacles

namespace Payments

open Lib

section Parse

variable {e : PaymentEvent} {err : Exc}

end Parse

/-- The calls of `broker.publish`, oldest first, each with the exception that it raised. -/
abbrev BrokerCalls := List (Op × Option Exc)

/-- A broker whose calls return, or raise any exception. -/
def broker : Sys BrokerCalls Op Op.Res Exc Unit (Option Exc) Empty Empty where
  exec := fun _ op ch calls =>
    match op with
    | .publish exchange key m => some (match ch with
        | none => .ok ()
        | some e => .error e, calls ++ [(.publish exchange key m, ch)])
    | _ => none
  exit := fun _ _ calls => calls
  start := fun _ e _ => e.elim
  kill := fun _ calls => calls
  env := fun e _ => e.elim

/-- The call that hands an event to the broker, if it is routable and can be made a message. -/
def PaymentEvent.call (e : PaymentEvent) : Option Op :=
  match EventBus.queueRegistry e.cls, parseEventToMessage e with
  | some queue, .ok body =>
    some (.publish (EventBus.exchangeRegistry e.cls) queue.routingKey { body := body })
  | _, _ => none

/-- How an event fails, where the breaker admits a call or does not: what is raised, and which
call of the broker was made for it. -/
inductive PaymentEvent.Fails (e : PaymentEvent) (admitted : Bool) : Exc → BrokerCalls → Prop
  | routing (h : EventBus.queueRegistry e.cls = none) :
      Fails e admitted (.eventRouting ("Event routing not configured for " ++ e.cls.name)) []
  | message {queue : RabbitQueue} {err : Exc} (hq : EventBus.queueRegistry e.cls = some queue)
      (hp : parseEventToMessage e = .error err) :
      Fails e admitted (EventBus.unserializable e err) []
  | circuit {op : Op} (h : e.call = some op) (ha : admitted = false) :
      Fails e admitted (.publisherUnavailable "Event publisher circuit is open" none) []
  | broker {op : Op} {err : Exc} (h : e.call = some op) (ha : admitted = true) :
      Fails e admitted (EventBus.unavailable e err) [(op, some err)]

section Publisher

variable [Pybreaker] {t : Tid} {self : AMQPEventPublisher} {e : PaymentEvent}
  {s s' : BrokerCalls} {now : Nat}

/-- The calls that a run makes are answered by a pattern. -/
def Answered (answers : Nat → Option Exc) (s s' : BrokerCalls) : Prop :=
  ∃ calls, s' = s ++ calls ∧ ∀ k c, calls[k]? = some c → c.2 = answers k

/-- The events that a publisher comes to: those before are routable and are made messages, the
breaker admits them and the broker takes them. -/
inductive Reaches : AMQPEventPublisher → (Nat → Nat) → (Nat → Option Exc) → List PaymentEvent →
    PaymentEvent → Prop
  | here {self : AMQPEventPublisher} {clock : Nat → Nat} {answers : Nat → Option Exc}
      {e : PaymentEvent} {events : List PaymentEvent} : Reaches self clock answers (e :: events) e
  | later {self : AMQPEventPublisher} {clock : Nat → Nat} {answers : Nat → Option Exc}
      {e e' : PaymentEvent} {events : List PaymentEvent} (hcall : e.call.isSome)
      (hadmits : Pybreaker.admits self.breaker (clock 0) = true) (htakes : answers 0 = none)
      (h : Reaches ⟨Pybreaker.called self.breaker (clock 0) false⟩ (fun n => clock (n + 1))
        (fun k => answers (k + 1)) events e') : Reaches self clock answers (e :: events) e'

/-- The exceptions that `publish_payment_events` documents. -/
inductive Documented : Exc → Prop
  | unavailable (message : String) (cause : Option Exc) :
      Documented (.publisherUnavailable message cause)
  | routing (message : String) : Documented (.eventRouting message)
  | serialization (message : String) (cause : Exc) : Documented (.eventSerialization message cause)

section Documented

variable {clock : Nat → Nat} {answers : Nat → Option Exc} {events : List PaymentEvent}
  {r : Except Exc Unit}

omit [Pybreaker] in
/-- The pattern that answers a run answers its first call, and from there on the calls that
follow. -/
theorem Answered.later {op : Op} {ch : Option Exc} {calls : BrokerCalls}
    (h : Answered answers s (s ++ [(op, ch)] ++ calls)) :
    answers 0 = ch ∧ Answered (fun k => answers (k + 1)) (s ++ [(op, ch)])
      (s ++ [(op, ch)] ++ calls) := by
  obtain ⟨all, hs, hall⟩ := h
  rw [List.append_assoc] at hs
  obtain rfl := List.append_cancel_left hs
  exact ⟨(hall 0 (op, ch) rfl).symm, calls, rfl, fun k c hc => hall (k + 1) c hc⟩

end Documented

end Publisher

end Payments
