import Payments.Service.Publisher
import Payments.Proofs.Outages

namespace Payments

open Lib

/-- What is documented of a breaker: it counts the consecutive calls that raise, a call that
returns ends them, and as many as it allows open it until its timeout has elapsed. -/
structure Pybreaker.Documented [Pybreaker] : Prop where
  new (m r : Nat) : failMax (new m r) = m ∧ resetTimeout (new m r) = r ∧ failures (new m r) = 0
  kept (b : Breaker) (now : Nat) (raised : Bool) :
    failMax (called b now raised) = failMax b ∧ resetTimeout (called b now raised) = resetTimeout b
  returned (b : Breaker) (now : Nat) : failures (called b now false) = 0
  raised (b : Breaker) (now : Nat) : failures (called b now true) = failures b + 1
  closed (b : Breaker) (now : Nat) : failures b < failMax b → admits b now = true
  opened (b : Breaker) (since now : Nat) : failMax b ≤ failures b + 1 →
    now < since + resetTimeout b → admits (called b since true) now = false

section

variable [Pybreaker] (hb : Pybreaker.Documented) {p : AMQPEventPublisher}
include hb

/-- The breaker of the publisher has not counted as many failures as open it. -/
def AMQPEventPublisher.Closed (p : AMQPEventPublisher) : Prop :=
  Pybreaker.failures p.breaker < Pybreaker.failMax p.breaker

theorem new_closed : AMQPEventPublisher.new.Closed := by
  obtain ⟨hm, _, hf⟩ := hb.new 5 60
  rw [AMQPEventPublisher.Closed, AMQPEventPublisher.new, hm, hf]
  omega

/-- A call of a closed breaker is admitted, and leaves it closed, since it returns a coroutine. -/
theorem call_closed (h : p.Closed) (now : Nat) (publish : Service Unit) :
    ∃ p', p'.Closed ∧ p.call now publish = (publish, p') := by
  refine ⟨{ breaker := Pybreaker.called p.breaker now false }, ?_, ?_⟩
  · rw [AMQPEventPublisher.Closed, hb.returned, (hb.kept _ _ _).1]
    exact Nat.lt_of_le_of_lt (Nat.zero_le _) h
  · rw [AMQPEventPublisher.call, if_pos (hb.closed _ _ h)]

theorem publish_event_closed (h : p.Closed) (now : Nat) (event : PaymentEvent) :
    ∃ p', p'.Closed ∧ p.publishPaymentEvent now event =
      (EventBus.publishPaymentEvent event).bind (fun _ => .ret p') := by
  unfold AMQPEventPublisher.publishPaymentEvent EventBus.publishPaymentEvent
  cases EventBus.queueRegistry event.cls with
  | none => exact ⟨p, h, rfl⟩
  | some queue =>
    cases parseEventToMessage event with
    | error e => exact ⟨p, h, rfl⟩
    | ok body =>
      obtain ⟨p', hp, hc⟩ := call_closed hb h now (perform
        (.publish (EventBus.exchangeRegistry event.cls) queue.routingKey { body := body }))
      refine ⟨p', hp, ?_⟩
      simp only [hc]
      rfl

/-- A closed breaker never shows: the publisher is the event bus of the use cases. -/
theorem publish_events_closed (events : List PaymentEvent) : ∀ {p : AMQPEventPublisher}
    (clock : Nat → Nat), p.Closed →
      p.publishPaymentEvents clock events = EventBus.publishPaymentEvents events := by
  induction events with
  | nil => exact fun _ _ => rfl
  | cons event events ih =>
    intro p clock h
    obtain ⟨p', hp, he⟩ := publish_event_closed hb h (clock 0) event
    simp only [AMQPEventPublisher.publishPaymentEvents, he, Prog.bind_eq, Prog.bind_assoc]
    exact congrArg (Prog.bind _) (funext (fun _ => ih _ hp))

/-- The publisher that a request depends on is the event bus of `createPayment`. -/
theorem request_publishes (clock : Nat → Nat) (events : List PaymentEvent) :
    Caller.request.publishes clock events = EventBus.publishPaymentEvents events :=
  publish_events_closed hb events clock (new_closed hb)

/-- The publisher that a delivery depends on connects and is then the event bus of
`processPayment`. -/
theorem delivery_publishes (clock : Nat → Nat) (events : List PaymentEvent) :
    Caller.delivery.publishes clock events =
      (perform .connect).bind (fun _ => EventBus.publishPaymentEvents events) := by
  simp only [Caller.publishes, Caller.publisher, getEventBus, Prog.bind_eq, Prog.bind_assoc]
  exact congrArg (Prog.bind _) (funext (fun _ => publish_events_closed hb events clock (new_closed hb)))

end

section

variable [Externals] [Pybreaker] {lim : Limits}

/-- A request or a delivery publishes the events of its use case, at any time and among any other
threads: what it does and what it ends with. -/
structure Attempt (lim : Limits) where
  caller : Caller
  clock : Nat → Nat
  event : PaymentEvent
  events : List PaymentEvent
  thread : Tid
  effects : List (World × Op × Choice)
  outcome : Except Exc Unit
  course : Sys.Course (service lim) thread (caller.publishes clock (event :: events)) effects outcome

namespace Attempt

variable (a : Attempt lim)

/-- The event can be sent, the connection works, and each publish that reaches the broker raises. -/
structure Failing : Prop where
  event : ∃ queue body, EventBus.queueRegistry a.event.cls = some queue ∧
    parseEventToMessage a.event = .ok body
  connect : ∀ w ch, (w, .connect, ch) ∈ a.effects → ch = .ok
  publish : ∀ w x k m ch, (w, .publish x k m, ch) ∈ a.effects → ∃ e, Choice.Raises ch e

/-- A publish reaches the broker. -/
def Reaches : Prop := ∃ w x k m ch, (w, .publish x k m, ch) ∈ a.effects

/-- The attempt is refused at once. -/
def Refused : Prop :=
  a.outcome = .error (.publisherUnavailable "Event publisher circuit is open" none) ∧ ¬ a.Reaches

end Attempt

/-- After five failures in a row, every attempt of the next 60 seconds is refused. -/
def CircuitOpens (history : List (Attempt lim)) : Prop :=
  ∀ i j a b, history[i]? = some a → history[j]? = some b → 4 ≤ i → i < j →
    b.clock 0 < a.clock 0 + 60 → b.Refused

omit [Externals] [Pybreaker] in
theorem publish_event_eq {event : PaymentEvent} {queue : RabbitQueue} {body : Json}
    (hq : EventBus.queueRegistry event.cls = some queue) (hp : parseEventToMessage event = .ok body) :
    EventBus.publishPaymentEvent event = (perform (.publish
      (EventBus.exchangeRegistry event.cls) queue.routingKey { body := body })).handle
        (fun e => .raise (EventBus.unavailable event e)) := by
  simp only [EventBus.publishPaymentEvent, hq, hp]
  rfl

omit [Pybreaker] in
/-- The publish of an event that can be sent reaches the broker; where that raises, nothing else is
published. -/
theorem publish_course {event : PaymentEvent} {events : List PaymentEvent} {queue : RabbitQueue}
    {body : Json} {t : Tid} {ms : List (World × Op × Choice)} {x : Except Exc Unit}
    (hq : EventBus.queueRegistry event.cls = some queue) (hp : parseEventToMessage event = .ok body)
    (h : Sys.Course (service lim) t (EventBus.publishPaymentEvents (event :: events)) ms x)
    (hf : ∀ w x k m ch, (w, .publish x k m, ch) ∈ ms → ∃ e, Choice.Raises ch e) :
    (∃ w x k m ch, (w, .publish x k m, ch) ∈ ms) ∧
      ∃ e, x = .error (EventBus.unavailable event e) := by
  simp only [EventBus.publishPaymentEvents, publish_event_eq hq hp, Prog.bind_eq] at h
  rcases h.of_bind with ⟨u, ms₁, ms₂, rfl, hfirst, _⟩ | ⟨e, hfirst, rfl⟩
  · rcases hfirst.of_handle with ⟨_, hpub, _⟩ | ⟨_, ms₃, ms₄, rfl, _, hr⟩
    · obtain ⟨w, ch, _, rfl, he⟩ := hpub.of_perform
      obtain ⟨e, hraises⟩ := hf _ _ _ _ _ List.mem_cons_self
      cases exec_raises hraises he
    · cases hr
  · rcases hfirst.of_handle with ⟨_, _, he⟩ | ⟨e', ms₁, ms₂, rfl, hpub, hr⟩
    · cases he
    · obtain ⟨w, ch, _, rfl, _⟩ := hpub.of_perform
      cases hr
      exact ⟨⟨w, _, _, _, ch, List.mem_cons_self⟩, e', rfl⟩

theorem failing_reaches (hb : Pybreaker.Documented) (a : Attempt lim) (h : a.Failing) :
    a.Reaches ∧ ∃ e, a.outcome = .error (EventBus.unavailable a.event e) := by
  obtain ⟨queue, body, hq, hp⟩ := h.event
  have hcourse := a.course
  cases hcaller : a.caller with
  | request =>
    rw [hcaller, request_publishes hb] at hcourse
    exact publish_course hq hp hcourse h.publish
  | delivery =>
    rw [hcaller, delivery_publishes hb] at hcourse
    rcases hcourse.of_bind with ⟨u, ms₁, ms₂, hms, _, hpub⟩ | ⟨e, hconnect, hx⟩
    · have hsub : ∀ m ∈ ms₂, m ∈ a.effects := fun m hm => hms ▸ List.mem_append_right _ hm
      obtain ⟨⟨w, x, k, m, ch, hm⟩, he⟩ := publish_course hq hp hpub
        (fun w x k m ch hm => h.publish w x k m ch (hsub _ hm))
      exact ⟨⟨w, x, k, m, ch, hsub _ hm⟩, he⟩
    · obtain ⟨w, ch, _, hms, he⟩ := hconnect.of_perform
      obtain rfl := h.connect w ch (hms ▸ List.mem_cons_self)
      cases he

/-- The circuit never opens: in a history of failing attempts each one reaches the broker, however
many have failed before, and so none is refused. -/
theorem circuit_never_opens (hb : Pybreaker.Documented) {history : List (Attempt lim)}
    (h : ∀ a ∈ history, a.Failing) : (∀ a ∈ history, a.Reaches) ∧
      ∀ i j a b, history[i]? = some a → history[j]? = some b → 4 ≤ i → i < j →
        b.clock 0 < a.clock 0 + 60 → ¬ CircuitOpens history := by
  have hreach : ∀ a ∈ history, a.Reaches := fun a ha => (failing_reaches hb a (h a ha)).1
  refine ⟨hreach, fun i j a b ha hb hi hij ht hopen => ?_⟩
  exact (hopen i j a b ha hb hi hij ht).2 (hreach b (List.mem_of_getElem? hb))

end

/-- A breaker as it is documented: the consecutive calls that raised, and since when it is open. -/
structure CircuitBreaker where
  failMax : Nat
  resetTimeout : Nat
  counter : Nat
  openedAt : Option Nat
  counted : openedAt ≠ none → failMax ≤ counter

namespace CircuitBreaker

/-- A closed breaker admits every call, an open one those after its timeout. -/
def admits (b : CircuitBreaker) (now : Nat) : Bool :=
  match b.openedAt with
  | none => true
  | some since => since + b.resetTimeout ≤ now

def called (b : CircuitBreaker) (now : Nat) : Bool → CircuitBreaker
  | false => { b with counter := 0, openedAt := none, counted := fun h => absurd rfl h }
  | true => { b with
      counter := b.counter + 1
      openedAt := if b.failMax ≤ b.counter + 1 then some now else none
      counted := fun h => by
        by_contra hn
        exact h (if_neg hn) }

end CircuitBreaker

@[reducible]
def sampleBreaker : Pybreaker where
  Breaker := CircuitBreaker
  new := fun m r => ⟨m, r, 0, none, fun h => absurd rfl h⟩
  failMax := CircuitBreaker.failMax
  resetTimeout := CircuitBreaker.resetTimeout
  failures := CircuitBreaker.counter
  admits := CircuitBreaker.admits
  called := CircuitBreaker.called

theorem sampleBreaker_documented : @Pybreaker.Documented sampleBreaker := by
  refine @Pybreaker.Documented.mk sampleBreaker (fun m r => ⟨rfl, rfl, rfl⟩) (fun b now raised => ?_)
    (fun b now => rfl) (fun b now => rfl) (fun b now h => ?_) (fun b since now h ht => ?_)
  · cases raised <;> exact ⟨rfl, rfl⟩
  · have hnone : b.openedAt = none := by
      by_contra hn
      exact absurd h (Nat.not_lt.mpr (b.counted hn))
    show b.admits now = true
    rw [CircuitBreaker.admits, hnone]
  · have hopen : (b.called since true).openedAt = some since := if_pos h
    have hlate : ¬ since + b.resetTimeout ≤ now := Nat.not_le.mpr ht
    show (b.called since true).admits now = false
    rw [CircuitBreaker.admits, hopen]
    exact decide_eq_false hlate

def sampleEvent : PaymentEvent := createdEvent (uid 10) (uid 11) sampleTime

def sampleRow : OutboxRow :=
  ⟨uid 11, EventClass.paymentCreatedEvent.queue, createdPayload (uid 10), sampleTime, .pending, none⟩

theorem sampleEvent_body : parseEventToMessage sampleEvent = .ok sampleRow.body :=
  created_published _ _ _ (created_stored _ _ _)

/-- A request that publishes at a time, while the broker is down. -/
def failingAttempt (now : Nat) : @Attempt sample sampleBreaker {} :=
  @Attempt.mk sample sampleBreaker {} .request (fun _ => now) sampleEvent [] 0
    [({}, .publish (EventBus.exchangeRegistry sampleEvent.cls) newPaymentsQ.routingKey
      { body := sampleRow.body }, .fault .amqp)]
    (.error (EventBus.unavailable sampleEvent .amqp)) (by
      rw [@request_publishes sampleBreaker sampleBreaker_documented]
      simp only [EventBus.publishPaymentEvents, Prog.bind_eq,
        @publish_event_eq sampleEvent newPaymentsQ _ rfl sampleEvent_body]
      exact .call rfl (.raise _))

theorem failingAttempt_failing (now : Nat) :
    @Attempt.Failing sample sampleBreaker {} (failingAttempt now) := by
  refine @Attempt.Failing.mk sample sampleBreaker {} _ ⟨_, _, rfl, sampleEvent_body⟩
    (fun w ch hm => ?_) (fun w x k m ch hm => ?_)
  · cases List.mem_singleton.mp hm
  · cases List.mem_singleton.mp hm
    exact ⟨.amqp, .inl rfl⟩

/-- Six requests of six seconds, while the broker is down. -/
def failingHistory : List (@Attempt sample sampleBreaker {}) :=
  (List.range 6).map failingAttempt

theorem circuit_never_opens_six :
    (∀ a ∈ failingHistory, @Attempt.Failing sample sampleBreaker {} a) ∧
    (∀ a ∈ failingHistory, @Attempt.Reaches sample sampleBreaker {} a) ∧
    ¬ @CircuitOpens sample sampleBreaker {} failingHistory := by
  have hfailing : ∀ a ∈ failingHistory, @Attempt.Failing sample sampleBreaker {} a := by
    intro a ha
    obtain ⟨now, _, rfl⟩ := List.mem_map.mp ha
    exact failingAttempt_failing now
  obtain ⟨hreach, hopen⟩ :=
    @circuit_never_opens sample sampleBreaker {} sampleBreaker_documented failingHistory hfailing
  exact ⟨hfailing, hreach, hopen 4 5 (failingAttempt 4) (failingAttempt 5) rfl rfl (by decide)
    (by decide) (by decide)⟩

/-- The sixth of six publishes that fail within six seconds still reaches the broker. -/
theorem sixth_failure_reaches : ∃ history : List (@Attempt sample sampleBreaker {}),
    (∀ a ∈ history, @Attempt.Failing sample sampleBreaker {} a) ∧ history.length = 6 ∧
    (∀ a ∈ history, @Attempt.clock sample sampleBreaker {} a 0 < 6) ∧ ∃ a, history[5]? = some a ∧
      @Attempt.Reaches sample sampleBreaker {} a ∧
      ¬ @CircuitOpens sample sampleBreaker {} history := by
  have hreach : @Attempt.Reaches sample sampleBreaker {} (failingAttempt 5) :=
    ⟨_, _, _, _, _, List.mem_cons_self⟩
  refine ⟨failingHistory, fun a ha => ?_, rfl, fun a ha => ?_, _, rfl, hreach, fun hopen => ?_⟩
  · obtain ⟨now, _, rfl⟩ := List.mem_map.mp ha
    exact failingAttempt_failing now
  · obtain ⟨now, hnow, rfl⟩ := List.mem_map.mp ha
    exact List.mem_range.mp hnow
  · exact (hopen 4 5 (failingAttempt 4) (failingAttempt 5) rfl rfl (by decide) (by decide)
      (by decide)).2 hreach

end Payments
