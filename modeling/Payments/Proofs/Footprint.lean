import Payments.Service.System

namespace Payments

open Lib

namespace Op

/-- The effects of the claim of an event. -/
def Claims (e : UUID) : Op → Prop
  | .now | .flush | .rollback | .close => True
  | .selectPendingId id => id = e
  | .updateOutbox id status _ => id = e ∧ status = .inProcess
  | _ => False

/-- The effects of the transaction that writes the end state of an event. -/
def Concludes (e : UUID) (status : TaskStatus) : Op → Prop
  | .flush | .commit | .rollback | .close => True
  | .selectOutboxId id => id = e
  | .updateOutbox id status' handledAt => id = e ∧ status' = status ∧ handledAt = none
  | _ => False

/-- The effect publishes an event. -/
def Emits (op : Op) : Prop := ∃ k body, op = .publish paymentsExchange k { body := body }

/-- The effects of a transaction that settles a payment. -/
def Settles : Op → Prop
  | .selectPaymentById _ | .updatePayment _ _ _ | .insertOutbox _ | .flush | .commit | .rollback
  | .close | .uuid4 | .now | .random => True
  | _ => False

/-- The effects that add a payment under a key to the open transaction. -/
def Adds (key : UUID) : Op → Prop
  | .selectPaymentByKey key' | .selectPaymentIdByKey key' => key' = key
  | .insertPayment values => values.idempotencyKey = key
  | .flush | .uuid4 | .now => True
  | _ => False

/-- The effects of a transaction that creates a payment under a key. -/
def Creates (key : UUID) (op : Op) : Prop :=
  op.Adds key ∨ match op with
    | .insertOutbox _ | .commit | .rollback | .close => True
    | _ => False

/-- The effects of a transaction that reads a payment. -/
def Gets (id : UUID) : Op → Prop
  | .selectPaymentById id' => id' = id
  | .rollback | .close => True
  | _ => False

/-- The effects of the transaction of a poll, other than its publishes. -/
def Fetches : Op → Prop
  | .connect | .rollback | .close => True
  | .selectPendings limit offset => limit = 50 ∧ offset = 0
  | _ => False

/-- The effects of the `except Exception` branch of a handler. -/
def Buries (queue : RabbitQueue) (maxAttempts : Nat) (msg : Message) (e : UUID) (deadKey : String)
    (deadHeaders : Option Nat) (op : Op) : Prop :=
  op = .connect ∨
    (msg.attempt < maxAttempts ∧ ∃ retry ∈ (retryRoutingQueues queue maxAttempts)[msg.attempt]?,
      op = .publish paymentsDlx retry.routingKey
        { body := msg.body, headers := some (msg.attempt + 1) }) ∨
    (¬ msg.attempt < maxAttempts ∧ (op.Concludes e .failed ∨
      op = .publish paymentsDlx deadKey { body := msg.body, headers := deadHeaders }))

/-- The effect posts to a webhook. -/
def Sends (op : Op) : Prop := ∃ url payload timeout, op = .send url payload timeout

/-- The effects of a handler for an event: of its claim, its use case and its two ends. -/
inductive Handles (uses : Op → Prop) (queue : RabbitQueue) (maxAttempts : Nat) (msg : Message)
    (e : UUID) (deadKey : String) (deadHeaders : Option Nat) : Op → Prop
  | claims {op : Op} (h : op.Claims e) :
      Handles uses queue maxAttempts msg e deadKey deadHeaders op
  | enters : Handles uses queue maxAttempts msg e deadKey deadHeaders (.enter e)
  | uses {op : Op} (h : uses op) : Handles uses queue maxAttempts msg e deadKey deadHeaders op
  | concludes {op : Op} (h : op.Concludes e .confirmed) :
      Handles uses queue maxAttempts msg e deadKey deadHeaders op
  | buries {op : Op} (h : op.Buries queue maxAttempts msg e deadKey deadHeaders) :
      Handles uses queue maxAttempts msg e deadKey deadHeaders op
  | acks : Handles uses queue maxAttempts msg e deadKey deadHeaders .ack

end Op

section

variable {P : Op → Prop} {α : Type}

theorem only_op {op : Op} (h : P op) : (perform op).Only P := (Prog.only_perform op).mpr h

theorem only_rollback (h : P .rollback) : Uow.rollback.Only P :=
  Prog.Only.handle (only_op h) (fun _ => trivial)

theorem only_commit (h : P .commit) (hr : P .rollback) : Uow.commit.Only P := by
  refine Prog.Only.handle (only_op h) (fun e => ?_)
  split
  · exact Prog.Only.bind (only_op hr) (fun _ => trivial)
  · exact Prog.Only.bind (only_op hr) (fun _ => trivial)
  · trivial

theorem only_within {body : Service α} (hb : body.Only P) (hr : P .rollback) (hc : P .close) :
    (Uow.within body).Only P := by
  refine Prog.Only.bind (Prog.Only.outcome hb) (fun r => ?_)
  refine Prog.Only.bind ?_ (fun _ => ?_)
  · cases r with
    | ok a => trivial
    | error e => exact only_rollback hr
  · exact Prog.Only.bind (only_op hc) (fun _ => Prog.only_ofExcept r)

end

theorem only_markInProcess (e : UUID) : (OutboxRepository.markInProcess e).Only (Op.Claims e) := by
  refine Prog.Only.bind (only_op trivial) (fun now => ?_)
  refine Prog.Only.bind (only_op rfl) (fun lockedId => ?_)
  cases lockedId with
  | none => trivial
  | some _ =>
    exact Prog.Only.bind (only_op ⟨rfl, rfl⟩) (fun _ =>
      Prog.Only.bind (only_op trivial) (fun _ => trivial))

theorem only_claim (e : UUID) : (claim e).Only (Op.Claims e) :=
  only_within (only_markInProcess e) trivial trivial

theorem only_markProcessed {P : Op → Prop} {e : UUID} {status : TaskStatus}
    (hs : P (.selectOutboxId e)) (hu : P (.updateOutbox e status none)) (hf : P .flush) :
    (OutboxRepository.markProcessed e status).Only P := by
  refine Prog.Only.bind (only_op hs) (fun result => ?_)
  cases result with
  | none => trivial
  | some _ => exact Prog.Only.bind (only_op hu) (fun _ => only_op hf)

theorem only_conclude (e : UUID) (status : TaskStatus) :
    (conclude e status).Only (Op.Concludes e status) :=
  only_within (Prog.Only.bind (only_markProcessed rfl ⟨rfl, rfl, rfl⟩ trivial)
    (fun _ => only_commit trivial trivial)) trivial trivial

theorem only_publish (events : List PaymentEvent) :
    (EventBus.publishPaymentEvents events).Only Op.Emits := by
  induction events with
  | nil => trivial
  | cons e events ih =>
    refine Prog.Only.bind ?_ (fun _ => ih)
    unfold EventBus.publishPaymentEvent
    split
    · trivial
    · split
      · trivial
      · exact Prog.Only.handle (only_op ⟨_, _, rfl⟩) (fun _ => trivial)

section

variable {P : Op → Prop}

theorem only_add_events (ho : ∀ events, P (.insertOutbox events)) (hf : P .flush)
    (events : List PaymentEvent) : (OutboxRepository.add events).Only P := by
  unfold OutboxRepository.add
  split
  · trivial
  · exact Prog.Only.bind (Prog.only_ofExcept _) (fun _ =>
      Prog.Only.bind (only_op (ho _)) (fun _ => only_op hf))

theorem only_getById (id : PaymentID) (h : P (.selectPaymentById id.value)) :
    (PaymentRepository.getById id).Only P := by
  refine Prog.Only.bind (only_op h) (fun row => ?_)
  cases row with
  | none => trivial
  | some row => exact Prog.only_ofExcept _

end

theorem only_emulateProcessing (hr : P .random) (hn : P .now) (hu : P .uuid4)
    (payment : Payment) : (emulateProcessing payment).Only P := by
  refine Prog.Only.bind (only_op hr) (fun success => ?_)
  refine Prog.Only.bind (Prog.only_ofExcept _) (fun _ => ?_)
  refine Prog.Only.bind (only_op hn) (fun now => ?_)
  refine Prog.Only.bind (only_op hu) (fun eventId => ?_)
  exact Prog.Only.bind (only_op hn) (fun occurredAt => Prog.only_ofExcept _)

theorem only_update (hu : ∀ id status processedAt, P (.updatePayment id status processedAt))
    (hf : P .flush) (payment : Payment) : (PaymentRepository.update payment).Only P := by
  unfold PaymentRepository.update
  split
  · trivial
  · refine Prog.Only.bind (only_op (hu _ _ _)) (fun result => ?_)
    refine Prog.Only.bind (only_op hf) (fun _ => ?_)
    cases result <;> trivial

/-- What `processPayment` does in its unit of work. -/
def settlement (event : PaymentEvent) : Service (List PaymentEvent) := do
  let paymentId ← Prog.ofExcept (PaymentID.new (event.attr "payment_id"))
  let payment ← PaymentRepository.getById paymentId
  let payment ← emulateProcessing payment
  let payment ← PaymentService.updateProcessedPayment payment
  let (events, _) := payment.pullEvents
  OutboxRepository.add events
  Uow.commit
  pure events

theorem process_payment_eq (event : PaymentEvent) : processPayment event =
    (Uow.within (settlement event)).bind EventBus.publishPaymentEvents := rfl

theorem only_settlement (event : PaymentEvent) : (settlement event).Only Op.Settles := by
  refine Prog.Only.bind (Prog.only_ofExcept _) (fun id => ?_)
  refine Prog.Only.bind (only_getById id trivial) (fun payment => ?_)
  refine Prog.Only.bind (only_emulateProcessing trivial trivial trivial payment) (fun payment => ?_)
  refine Prog.Only.bind (Prog.Only.bind (only_update (fun _ _ _ => trivial) trivial payment)
    (fun _ => trivial)) (fun payment => ?_)
  exact Prog.Only.bind (only_add_events (fun _ => trivial) trivial _) (fun _ =>
    Prog.Only.bind (only_commit trivial trivial) (fun _ => trivial))

theorem only_process_payment (event : PaymentEvent) :
    (processPayment event).Only (fun op => op.Settles ∨ op.Emits) :=
  Prog.Only.bind ((only_within (only_settlement event) trivial trivial).mono
    (fun _ h => .inl h)) (fun events => (only_publish events).mono (fun _ h => .inr h))

theorem post_init_key {p payment : Payment} {eventId : UUID} {occurredAt : DateTime}
    (h : p.postInit eventId occurredAt = .ok payment) : payment.key = p.key := by
  unfold Payment.postInit at h
  split at h
  · cases h
    rfl
  · split at h <;> cases h
    rfl

theorem only_add_payment (payment : Payment) :
    (PaymentRepository.add payment).Only (Op.Adds payment.key.value) := by
  refine Prog.Only.bind (only_op rfl) (fun existing => ?_)
  cases existing with
  | some _ => trivial
  | none => exact Prog.Only.bind (only_op rfl) (fun _ => only_op trivial)

theorem only_service_create (amount : Amount) (currency : Currency) (description : Description)
    (metadata : Metadata) (key : IdempotencyKey) (webhookUrl : WebhookUrl) :
    (PaymentService.create amount currency description metadata key webhookUrl).Only
      (Op.Adds key.value) := by
  refine Prog.Only.bind (Prog.Only.bind (only_op rfl) (fun row => ?_)) (fun existing => ?_)
  · cases row with
    | none => trivial
    | some row => exact Prog.Only.bind (Prog.only_ofExcept _) (fun _ => trivial)
  · cases existing with
    | some _ => trivial
    | none =>
      refine Prog.Only.bind (only_op trivial) (fun id => ?_)
      refine Prog.Only.bind (only_op trivial) (fun createdAt => ?_)
      refine Prog.Only.bind (only_op trivial) (fun eventId => ?_)
      refine Prog.Only.bind (only_op trivial) (fun occurredAt => ?_)
      simp only [Prog.bind_eq, Prog.pure_eq]
      cases hp : Payment.postInit _ eventId occurredAt with
      | error _ => trivial
      | ok payment =>
        have hk : payment.key = key := post_init_key hp
        rw [Prog.ofExcept_ok_bind]
        exact Prog.Only.bind (hk ▸ only_add_payment payment) (fun _ => trivial)

section

variable [Externals]

/-- The parts of a command, where it is accepted. -/
theorem parts_ok {command : CreatePaymentCommand} {parts : PaymentParts}
    (h : command.parts = .ok parts) : Amount.new command.amount = .ok parts.amount ∧
      IdempotencyKey.new command.key = .ok parts.key ∧
      Metadata.new command.metadata = .ok parts.metadata ∧
      Description.new command.description = .ok parts.description ∧
      parts.currency = command.currency := by
  obtain ⟨amount, ha, h⟩ := except_bind_ok.mp h
  obtain ⟨key, hk, h⟩ := except_bind_ok.mp h
  obtain ⟨description, hd, h⟩ := except_bind_ok.mp h
  obtain ⟨metadata, hm, h⟩ := except_bind_ok.mp h
  obtain ⟨webhookUrl, _, h⟩ := except_bind_ok.mp h
  cases h
  exact ⟨ha, hk, hm, hd, rfl⟩

omit [Externals] in
theorem idempotency_key_value {key : UUID} {k : IdempotencyKey}
    (h : IdempotencyKey.new key = .ok k) : k.value = key := by
  unfold IdempotencyKey.new at h
  split at h <;> cases h
  rfl

theorem only_create_payment (command : CreatePaymentCommand) :
    (createPayment command).Only (fun op => op.Creates command.key ∨ op.Emits) := by
  simp only [createPayment, Prog.bind_eq, Prog.pure_eq]
  cases hp : command.parts with
  | error e => trivial
  | ok parts =>
    rw [Prog.ofExcept_ok_bind, ← idempotency_key_value (parts_ok hp).2.1]
    refine Prog.Only.bind (Prog.Only.mono (only_within ?_ (.inr trivial) (.inr trivial))
      (fun _ h => .inl h)) (fun x => Prog.Only.bind ((only_publish _).mono (fun _ h => .inr h))
        (fun _ => trivial))
    exact Prog.Only.bind ((only_service_create _ _ _ _ _ _).mono (fun _ h => .inl h)) (fun p =>
      Prog.Only.bind (only_add_events (fun _ => .inr trivial) (.inl trivial) _) (fun _ =>
        Prog.Only.bind (only_commit (.inr trivial) (.inr trivial)) (fun _ => trivial)))

omit [Externals] in
theorem payment_id_value {u : UUID} {id : PaymentID} (h : PaymentID.new (.uuid u) = .ok id) :
    id.value = u := by
  unfold PaymentID.new at h
  simp only at h
  split at h <;> cases h
  rfl

theorem only_get_payment (id : UUID) : (getPayment id).Only (Op.Gets id) := by
  simp only [getPayment, Prog.bind_eq, Prog.pure_eq]
  cases hp : PaymentID.new (.uuid id) with
  | error e => trivial
  | ok p =>
    rw [Prog.ofExcept_ok_bind]
    exact Prog.Only.bind (only_within (only_getById p (payment_id_value hp)) trivial trivial)
      (fun _ => trivial)

omit [Externals] in
theorem only_handle_bad_events :
    handleBadEvents.Only (fun op => op.Fetches ∨ op.Emits) := by
  refine Prog.Only.bind (only_op (.inl trivial)) (fun _ => ?_)
  refine only_within ?_ (.inl trivial) (.inl trivial)
  refine Prog.Only.bind ?_ (fun events => (only_publish events).mono (fun _ h => .inr h))
  exact Prog.Only.bind (only_op (.inl ⟨rfl, rfl⟩)) (fun _ => Prog.only_ofExcept _)

omit [Externals] in
theorem only_retryOrBury (queue : RabbitQueue) (maxAttempts : Nat) (msg : Message) (e : UUID)
    (deadKey : String) (deadHeaders : Option Nat) :
    (retryOrBury queue maxAttempts msg e deadKey deadHeaders).Only
      (Op.Buries queue maxAttempts msg e deadKey deadHeaders) := by
  refine Prog.Only.bind (only_op (.inl rfl)) (fun _ => ?_)
  split
  · rename_i hlt
    split
    · rename_i retry hr
      exact only_op (.inr (.inl ⟨hlt, retry, hr, rfl⟩))
    · trivial
  · rename_i hlt
    exact Prog.Only.bind ((only_conclude e .failed).mono (fun _ h => .inr (.inr ⟨hlt, .inl h⟩)))
      (fun _ => only_op (.inr (.inr ⟨hlt, .inr rfl⟩)))

omit [Externals] in
/-- What the guarded part of a handler performs. -/
theorem only_guarded {P : Op → Prop} {e : UUID} {run : Service Unit} {f : Exc → Service Unit}
    (he : P (.enter e)) (hrun : run.Only P) (hc : ∀ op, op.Concludes e .confirmed → P op)
    (hf : ∀ x, (f x).Only P) :
    (((perform (.enter e)).bind (fun _ => run.bind (fun _ => conclude e .confirmed))).handle
      f).Only P :=
  Prog.Only.handle (Prog.Only.bind (only_op he) (fun _ => Prog.Only.bind hrun (fun _ =>
    (only_conclude e .confirmed).mono hc))) hf

omit [Externals] in
theorem only_handlePaymentProcessing {P : Op → Prop} {maxAttempts : Nat} {msg : Message}
    (hconnect : P .connect) (h : ∀ event, decodeNew msg.body = .ok event → ∀ op,
      op.Handles (fun op => op.Settles ∨ op.Emits) newPaymentsQ maxAttempts msg event.id
        dlq.publishKey none → P op) :
    (handlePaymentProcessing maxAttempts msg).Only P := by
  simp only [handlePaymentProcessing, Prog.bind_eq, Prog.pure_eq]
  refine Prog.Only.bind (only_op hconnect) (fun _ => ?_)
  cases hd : decodeNew msg.body with
  | error e => trivial
  | ok event =>
    rw [Prog.ofExcept_ok_bind]
    have hP := h event hd
    refine Prog.Only.bind ((only_claim event.id).mono (fun _ h => hP _ (.claims h)))
      (fun claimed => ?_)
    refine Prog.Only.bind ?_ (fun _ => only_op (hP _ .acks))
    split
    · refine only_guarded (hP _ .enters) ((only_process_payment event).mono
        (fun _ h => hP _ (.uses h))) (fun _ h => hP _ (.concludes h)) (fun x => ?_)
      split
      · trivial
      · exact (only_retryOrBury _ _ _ _ _ _).mono (fun _ h => hP _ (.buries h))
    · trivial

theorem only_sendNotification (event : PaymentEvent) : (sendNotification event).Only Op.Sends := by
  refine Prog.Only.bind (Prog.only_ofExcept _) (fun payload => ?_)
  split
  · exact only_op ⟨_, _, _, rfl⟩
  · trivial

theorem only_handleNotifyClient {P : Op → Prop} {maxAttempts : Nat} {msg : Message}
    (h : ∀ event, decodeNotify msg.body = .ok event → ∀ op, op.Handles Op.Sends notifyPaymentsQ
      maxAttempts msg event.id dlq.routingKey (some msg.attempt) → P op) :
    (handleNotifyClient maxAttempts msg).Only P := by
  simp only [handleNotifyClient, Prog.bind_eq, Prog.pure_eq]
  cases hd : decodeNotify msg.body with
  | error e => trivial
  | ok event =>
    rw [Prog.ofExcept_ok_bind]
    have hP := h event hd
    refine Prog.Only.bind ((only_claim event.id).mono (fun _ h => hP _ (.claims h)))
      (fun claimed => ?_)
    refine Prog.Only.bind ?_ (fun _ => only_op (hP _ .acks))
    split
    · exact only_guarded (hP _ .enters) ((only_sendNotification event).mono
        (fun _ h => hP _ (.uses h))) (fun _ h => hP _ (.concludes h))
        (fun x => (only_retryOrBury _ _ _ _ _ _).mono (fun _ h => hP _ (.buries h)))
    · trivial

end

end Payments
