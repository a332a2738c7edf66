import Payments.Domain.Methods

namespace Payments

/-- A payment as its two constructions make it, with the events that it has recorded then. -/
inductive Payment.Built : Payment → List PaymentEvent → Prop
  | created {id : PaymentID} {amount : Amount} {currency : Currency} {description : Description}
      {metadata : Metadata} {key : IdempotencyKey} {webhookUrl : WebhookUrl}
      {createdAt : Timestamp} {eventId : UUID} {occurredAt : DateTime} {p : Payment}
      (h : Payment.postInit {
        id := id
        amount := amount
        currency := currency
        description := description
        metadata := metadata
        key := key
        webhookUrl := webhookUrl
        createdAt := createdAt } eventId occurredAt = .ok p) :
      Built p [PaymentCreatedEvent eventId (.datetime occurredAt) (.uuid id.value)]
  | rebuilt {id : PaymentID} {amount : Amount} {currency : Currency} {description : Description}
      {metadata : Metadata} {key : IdempotencyKey} {webhookUrl : WebhookUrl}
      {status : PaymentStatus} {createdAt : Timestamp} {processedAt : Option Timestamp}
      (h : processedAt = none ↔ status = .pending) :
      Built (Payment.rebuild id amount currency description metadata key webhookUrl status
        createdAt processedAt []) []

theorem Payment.Built.recorded {p : Payment} {initial : List PaymentEvent} (h : p.Built initial) :
    p.events = initial ∧ (p.processedAt = none ↔ p.status = .pending) := by
  cases h with
  | created h =>
    cases h
    exact ⟨rfl, by simp [Payment.recordEvent]⟩
  | rebuilt h => exact ⟨rfl, h⟩

/-- The call settles a pending payment with a status and a reason. -/
def PaymentCall.Settles (status : PaymentStatus) (reason : PyVal) (st : Stamp) :
    PaymentCall → Prop
  | .markAsSucceeded st' => st' = st ∧ status = .confirmed ∧ reason = .none
  | .markAsFailed text st' => st' = st ∧ status = .failed ∧ reason = .str text
  | .pullEvents => False

theorem PaymentCall.Settles.ne_pending {call : PaymentCall} {status : PaymentStatus}
    {reason : PyVal} {st : Stamp} (h : call.Settles status reason st) : status ≠ .pending := by
  cases call with
  | pullEvents => exact h.elim
  | _ =>
    obtain ⟨_, rfl, _⟩ := h
    decide

namespace Payment

/-- The event that reports how the payment was settled. -/
def report (p : Payment) (status : PaymentStatus) (reason : PyVal) (st : Stamp) : PaymentEvent :=
  PaymentProcessedEvent st.eventId (.datetime st.occurredAt) (.uuid p.id.value)
    (.decimal p.amount.value) p.currency.toPy (.str p.webhookUrl.value) status.toPy reason

def settled (p : Payment) (status : PaymentStatus) (reason : PyVal) (st : Stamp) : Payment :=
  { p with
    status := status
    processedAt := some (Timestamp.new st.now)
    events := p.events ++ [p.report status reason st] }

theorem settle_cases (p : Payment) (status : PaymentStatus) (reason : PyVal) (st : Stamp) :
    p.status = .pending ∧
        Method.settle status reason st p = .ok () (p.settled status reason st) ∨
      p.status ≠ .pending ∧
        Method.settle status reason st p = .error (.businessRule "Already processed") p := by
  rw [Method.settle_run]
  cases h : p.settle status reason st with
  | ok p' =>
    obtain ⟨hs, rfl⟩ := settle_ok h
    exact .inl ⟨hs, rfl⟩
  | error e =>
    obtain ⟨hs, rfl⟩ := settle_error h
    exact .inr ⟨hs, rfl⟩

/-- What a call does: it settles a pending payment, it raises on a settled one, or it pulls. -/
theorem run_cases (call : PaymentCall) (p : Payment) :
    (∃ status reason st, call.Settles status reason st ∧ p.status = .pending ∧
        call.run p = .ok [] (p.settled status reason st)) ∨
      (∃ status reason st, call.Settles status reason st ∧ p.status ≠ .pending ∧
        call.run p = .error (.businessRule "Already processed") p) ∨
      call = .pullEvents ∧ call.run p = .ok p.events { p with events := [] } := by
  have hsettle : ∀ {status : PaymentStatus} {reason : PyVal} {st : Stamp} {call : PaymentCall},
      call.Settles status reason st →
      call.run = (do Method.settle status reason st; pure []) →
      (∃ status reason st, call.Settles status reason st ∧ p.status = .pending ∧
          call.run p = .ok [] (p.settled status reason st)) ∨
        (∃ status reason st, call.Settles status reason st ∧ p.status ≠ .pending ∧
          call.run p = .error (.businessRule "Already processed") p) := by
    intro status reason st call hc hr
    rcases p.settle_cases status reason st with ⟨hs, he⟩ | ⟨hs, he⟩
    · exact .inl ⟨status, reason, st, hc, hs, by
        simp [hr, bind, EStateM.bind, he, pure, EStateM.pure]⟩
    · exact .inr ⟨status, reason, st, hc, hs, by simp [hr, bind, EStateM.bind, he]⟩
  cases call with
  | markAsSucceeded st =>
    have hc : (PaymentCall.markAsSucceeded st).Settles .confirmed .none st := ⟨rfl, rfl, rfl⟩
    exact (hsettle hc rfl).imp_right .inl
  | markAsFailed reason st =>
    have hc : (PaymentCall.markAsFailed reason st).Settles .failed (.str reason) st :=
      ⟨rfl, rfl, rfl⟩
    exact (hsettle hc rfl).imp_right .inl
  | pullEvents => exact .inr (.inr ⟨rfl, rfl⟩)

/-- The calls of a settled payment change nothing but what is recorded, and lose no event. -/
theorem calls_settled {p : Payment} (hs : p.status ≠ .pending) (calls : List PaymentCall) :
    (p.calls calls).2 = { p with events := (p.calls calls).2.events } ∧
      (p.calls calls).1 ++ (p.calls calls).2.events = p.events := by
  induction calls generalizing p with
  | nil => exact ⟨rfl, rfl⟩
  | cons call rest ih =>
    rcases run_cases call p with ⟨_, _, _, _, hp, _⟩ | ⟨_, _, _, _, _, hr⟩ | ⟨_, hr⟩
    · exact absurd hp hs
    · simpa only [Payment.calls, hr] using ih hs
    · obtain ⟨hsame, hevents⟩ := @ih { p with events := [] } hs
      simp only [Payment.calls, hr]
      refine ⟨hsame, ?_⟩
      rw [List.append_assoc, hevents, List.append_nil]

/-- The calls of a pending payment are pulls only, or the first other one settles it. -/
theorem calls_pending {p : Payment} (hs : p.status = .pending) (calls : List PaymentCall) :
    ((∀ call ∈ calls, call = .pullEvents) ∧
      (p.calls calls).2 = { p with events := (p.calls calls).2.events } ∧
      (p.calls calls).1 ++ (p.calls calls).2.events = p.events) ∨
    ∃ pulls call rest status reason st, calls = pulls ++ call :: rest ∧
      (∀ call ∈ pulls, call = .pullEvents) ∧ call.Settles status reason st ∧
      (p.calls calls).2 = { p with
        status := status
        processedAt := some (Timestamp.new st.now)
        events := (p.calls calls).2.events } ∧
      (p.calls calls).1 ++ (p.calls calls).2.events = p.events ++ [p.report status reason st] := by
  induction calls generalizing p with
  | nil => exact .inl ⟨fun _ h => (by cases h), rfl, rfl⟩
  | cons call rest ih =>
    rcases run_cases call p with ⟨status, reason, st, hc, _, hr⟩ | ⟨_, _, _, _, hn, _⟩ | ⟨rfl, hr⟩
    · have hset : (p.settled status reason st).status ≠ .pending := hc.ne_pending
      obtain ⟨hsame, hevents⟩ := calls_settled hset rest
      refine .inr ⟨[], call, rest, status, reason, st, rfl, fun _ h => (by cases h), hc, ?_⟩
      simp only [Payment.calls, hr]
      exact ⟨hsame, hevents⟩
    · exact absurd hs hn
    · simp only [Payment.calls, hr]
      rcases @ih { p with events := [] } hs with
        ⟨hall, hsame, hevents⟩ | ⟨pulls, call, rest', status, reason, st, rfl, hall, hc, hsame, hevents⟩
      · refine .inl ⟨fun call hm => ?_, hsame, ?_⟩
        · rcases List.mem_cons.mp hm with rfl | hm
          · rfl
          · exact hall call hm
        · rw [List.append_assoc, hevents, List.append_nil]
      · refine .inr ⟨.pullEvents :: pulls, call, rest', status, reason, st, rfl, fun call hm => ?_, hc,
          hsame, ?_⟩
        · rcases List.mem_cons.mp hm with rfl | hm
          · rfl
          · exact hall call hm
        · rw [List.append_assoc, hevents]
          rfl

theorem calls_append (p : Payment) (calls calls' : List PaymentCall) :
    (p.calls (calls ++ calls')).2 = ((p.calls calls).2.calls calls').2 := by
  induction calls generalizing p with
  | nil => rfl
  | cons call rest ih =>
    simp only [List.cons_append, Payment.calls]
    cases call.run p with
    | ok events p' => exact ih p'
    | error e p' => exact ih p'

theorem run_error {call : PaymentCall} {p p' : Payment} {e : Exc} (h : call.run p = .error e p') :
    p' = p := by
  rcases run_cases call p with ⟨_, _, _, _, _, hr⟩ | ⟨_, _, _, _, _, hr⟩ | ⟨_, hr⟩
  · rw [hr] at h
    cases h
  · rw [hr] at h
    cases h
    rfl
  · rw [hr] at h
    cases h

theorem status_final {p : Payment} {calls : List PaymentCall}
    (h : (p.calls calls).2.status ≠ .pending) (calls' : List PaymentCall) :
    (p.calls (calls ++ calls')).2.status = (p.calls calls).2.status := by
  rw [calls_append, (calls_settled h calls').1]

/-- Pulls alone leave the status as it is. -/
theorem calls_pulls {pulls : List PaymentCall} (h : ∀ call ∈ pulls, call = .pullEvents)
    (p : Payment) : (p.calls pulls).2.status = p.status := by
  induction pulls generalizing p with
  | nil => rfl
  | cons call rest ih =>
    cases h call List.mem_cons_self
    exact ih (fun c hc => h c (List.mem_cons_of_mem _ hc)) { p with events := [] }

end Payment

/-- The life of a payment, over any calls of its methods. -/
theorem payment_state_machine {p : Payment} {initial : List PaymentEvent} (h : p.Built initial)
    (calls : List PaymentCall) :
    (∀ calls', (p.calls calls).2.status ≠ .pending →
      (p.calls (calls ++ calls')).2.status = (p.calls calls).2.status) ∧
    ((p.calls calls).2.processedAt = none ↔ (p.calls calls).2.status = .pending) ∧
    (∀ (call : PaymentCall) e p', call.run (p.calls calls).2 = .error e p' →
      p' = (p.calls calls).2) ∧
    (p.calls calls).2 = { p with
      status := (p.calls calls).2.status
      processedAt := (p.calls calls).2.processedAt
      events := (p.calls calls).2.events } ∧
    ((p.calls calls).2.status = p.status ∧
        (p.calls calls).1 ++ (p.calls calls).2.events = initial ∨
      p.status = .pending ∧ (p.calls calls).2.status ≠ .pending ∧
        ∃ pulls call rest reason st, calls = pulls ++ call :: rest ∧
          (p.calls pulls).2.status = .pending ∧
          call.Settles (p.calls calls).2.status reason st ∧
          (p.calls calls).1 ++ (p.calls calls).2.events =
            initial ++ [p.report (p.calls calls).2.status reason st]) := by
  obtain ⟨rfl, hstamp⟩ := h.recorded
  refine ⟨fun calls' hs => Payment.status_final hs calls', ?_⟩
  by_cases hs : p.status = .pending
  · rcases Payment.calls_pending hs calls with
      ⟨_, hsame, hevents⟩ | ⟨pulls, call, rest, status, reason, st, hcalls, hall, hc, hsame, hevents⟩
    · rw [hsame]
      exact ⟨hstamp, fun _ _ _ => Payment.run_error, rfl, .inl ⟨rfl, hevents⟩⟩
    · rw [hsame]
      refine ⟨by simp [hc.ne_pending], fun _ _ _ => Payment.run_error, rfl, .inr ⟨hs, hc.ne_pending,
        pulls, call, rest, reason, st, hcalls, ?_, hc, hevents⟩⟩
      rw [Payment.calls_pulls hall, hs]
  · obtain ⟨hsame, hevents⟩ := Payment.calls_settled hs calls
    rw [hsame]
    exact ⟨hstamp, fun _ _ _ => Payment.run_error, rfl, .inl ⟨rfl, hevents⟩⟩

/-- The life of a payment with a pull, a failure and a success that comes too late. -/
theorem payment_state_machine_failed : ∃ p initial calls, Payment.Built p initial ∧
    ((p.calls calls).2.processedAt = none ↔ (p.calls calls).2.status = .pending) ∧
    (p.calls calls).2.status = .failed := by
  let t : DateTime := ⟨2026, 1, 2, 3, 4, 5, 0, by decide⟩
  have hbuilt := @Payment.Built.created { value := ⟨1⟩ } { value := .finite false 100 (-2) } .rub
    { value := "test payment" } { value := .dict [] } { value := ⟨2⟩ }
    { value := "https://example.com/hook" } { value := t } ⟨3⟩ t _ rfl
  have hrun := payment_state_machine hbuilt
    [.pullEvents, .markAsFailed "declined" ⟨⟨4⟩, t, t⟩, .markAsSucceeded ⟨⟨5⟩, t, t⟩]
  exact ⟨_, _, _, hbuilt, hrun.2.1, rfl⟩

/-- A call that makes a `Payment`: of the class, with values for all its fields, or of
`rebuild`, which takes those of a record. -/
inductive Payment.Construction where
  | new (args : Payment) (eventId : UUID) (occurredAt : DateTime)
  | rebuild (args : Payment)

namespace Payment.Construction

def args : Construction → Payment
  | new args _ _ => args
  | rebuild args => args

def run : Construction → Except Exc Payment
  | new args eventId occurredAt => args.postInit eventId occurredAt
  | rebuild args => .ok (Payment.rebuild args.id args.amount args.currency args.description
      args.metadata args.key args.webhookUrl args.status args.createdAt args.processedAt args.events)

/-- The flag `_rebuilding` that the object is constructed with. -/
def rebuilding : Construction → Bool
  | new args _ _ => args.rebuilding
  | rebuild _ => true

/-- What is constructed has a time whenever it is settled, over any calls of its methods, and
a settled payment without a time is refused. -/
def Timed (c : Construction) : Prop :=
  (∀ p, c.run = .ok p → ∀ calls, (p.calls calls).2.status ≠ .pending →
    (p.calls calls).2.processedAt ≠ none) ∧
  (c.args.status ≠ .pending → c.args.processedAt = none →
    ∃ e, c.run = .error e ∧ e.isBusinessRule = true)

end Payment.Construction

namespace Payment

theorem run_timed {call : PaymentCall} {p : Payment}
    (h : p.status ≠ .pending → p.processedAt ≠ none) :
    (∃ events p', call.run p = .ok events p' ∧ (p'.status ≠ .pending → p'.processedAt ≠ none)) ∨
      ∃ e, call.run p = .error e p := by
  rcases run_cases call p with ⟨_, _, _, _, _, hr⟩ | ⟨_, _, _, _, _, hr⟩ | ⟨_, hr⟩
  · exact .inl ⟨_, _, hr, fun _ => Option.some_ne_none _⟩
  · exact .inr ⟨_, hr⟩
  · exact .inl ⟨_, _, hr, h⟩

theorem calls_timed {p : Payment} (h : p.status ≠ .pending → p.processedAt ≠ none)
    (calls : List PaymentCall) :
    (p.calls calls).2.status ≠ .pending → (p.calls calls).2.processedAt ≠ none := by
  induction calls generalizing p with
  | nil => exact h
  | cons call rest ih =>
    rcases @run_timed call p h with ⟨events, p', hr, hp'⟩ | ⟨e, hr⟩
    · simpa only [Payment.calls, hr] using ih hp'
    · simpa only [Payment.calls, hr] using ih h

namespace Construction

/-- What a construction does: it keeps the status and the time that it is given, or it refuses
a settled payment without a time, when the flag is not set. -/
theorem run_constructs (c : Construction) :
    (∃ p, c.run = .ok p ∧ p.status = c.args.status ∧ p.processedAt = c.args.processedAt ∧
        (c.rebuilding = false → c.args.status ≠ .pending → c.args.processedAt ≠ none)) ∨
      (c.rebuilding = false ∧ c.args.status ≠ .pending ∧ c.args.processedAt = none ∧
        ∃ e, c.run = .error e ∧ e.isBusinessRule = true) := by
  cases c with
  | rebuild args => exact .inl ⟨_, rfl, rfl, rfl, fun hflag => by cases hflag⟩
  | new args eventId occurredAt =>
    simp only [run, postInit]
    split
    · rename_i hflag
      exact .inl ⟨_, rfl, rfl, rfl, fun hn => absurd (hn.symm.trans hflag) (by decide)⟩
    · rename_i hflag
      split
      · rename_i hs
        exact .inr ⟨eq_false_of_ne_true hflag, hs.1, Option.isNone_iff_eq_none.mp hs.2, _, rfl, rfl⟩
      · rename_i hs
        refine .inl ⟨_, rfl, rfl, rfl, fun _ hset hnone => hs ⟨hset, ?_⟩⟩
        exact Option.isNone_iff_eq_none.mpr hnone

/-- The rule that a settled payment has a time holds of what a call constructs unless the call
sets the flag that skips the check and breaks the rule itself. -/
theorem timed_iff (c : Construction) : c.Timed ↔
    (c.rebuilding = true → c.args.status ≠ .pending → c.args.processedAt ≠ none) := by
  rcases c.run_constructs with ⟨p, hp, hstatus, htime, hrule⟩ | ⟨hflag, hs, hnone, e, he, hb⟩
  · constructor
    · rintro ⟨_, hrefused⟩ _ hs hnone
      obtain ⟨e, he, _⟩ := hrefused hs hnone
      cases hp.symm.trans he
    · intro h
      have hkept : c.args.status ≠ .pending → c.args.processedAt ≠ none := by
        cases hflag : c.rebuilding with
        | true => exact h hflag
        | false => exact hrule hflag
      refine ⟨fun p' hp' => ?_, fun hs hnone => absurd hnone (hkept hs)⟩
      cases hp.symm.trans hp'
      exact calls_timed (by rwa [hstatus, htime])
  · constructor
    · intro _ hset
      exact absurd (hset.symm.trans hflag) (by decide)
    · intro _
      refine ⟨fun p hp => ?_, fun _ _ => ⟨e, he, hb⟩⟩
      cases he.symm.trans hp

end Construction

end Payment

/-- A payment that is rebuilt settled and has no time. -/
def untimedPayment : Payment where
  id := { value := ⟨1⟩ }
  amount := { value := .finite false 100 (-2) }
  currency := .rub
  description := { value := "test payment" }
  metadata := { value := .dict [] }
  key := { value := ⟨2⟩ }
  webhookUrl := { value := "https://example.com/hook" }
  status := .confirmed
  createdAt := { value := ⟨2026, 2, 3, 4, 5, 6, 0, by decide⟩ }

theorem untimed_rebuilt : ∃ p, (Payment.Construction.rebuild untimedPayment).run = .ok p ∧
    p.status = .confirmed ∧ p.processedAt = none ∧
    ¬ (Payment.Construction.rebuild untimedPayment).Timed := by
  refine ⟨_, rfl, rfl, rfl, fun h => h.1 _ rfl [] ?_ rfl⟩
  decide

end Payments
